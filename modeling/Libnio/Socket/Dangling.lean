import Libnio.Event.Clear
import Libnio.Socket.Closing
import Libnio.Socket.Timed

/-!
# Socket — what is left of a socket that is closing

What `close_await` leaves of a socket's file and timers until `client_socket::close`
is run on it: nothing, as long as no call in between hands the file to the event
again.
-/

namespace Libnio.Socket

open Event (Dir)

/-! ## Calls that register -/

/-- The answer leaves something of the data for `write_await`. -/
def WriteAnswer.short (len : Nat) : WriteAnswer → Bool
  | .wrote n => n < len
  | .wouldBlock => true
  | .hardError => false

theorem Outgoing.awaits_iff {buf : List UInt8} {data : Data} {answer : WriteAnswer} :
    (write buf data answer).awaits = true ↔ buf = [] ∧ answer.short data.len = true := by
  by_cases hb : buf = []
  · cases answer with
    | wrote n =>
        rw [write_wrote hb]
        simp [hb, WriteAnswer.short]
    | wouldBlock =>
        rw [write_wouldBlock hb]
        simp [hb, WriteAnswer.short]
    | hardError =>
        have hne : (-1 : Int) ≠ data.len := by omega
        simp [write, hb, WriteAnswer.short, WriteAnswer.ret, hne]
  · rw [write_buffered hb]
    simp [hb]

namespace World

variable {γ ρ υ κ : Type}

/-- `read_await` and `write_await` hand the file of the socket to the event, and
the event takes it. -/
def Asks (sys : Sys γ ρ κ) (w : World γ ρ υ κ) (dir : Dir) (c : γ) : Prop :=
  ¬ (w.ev.oneshot = true ∧ (w.clients c).flags dir = true) ∧
    ∃ fe ∈ (w.clients c).fe, w.ev.accepts sys.host fe = true

/-- The call registers the file of the socket. -/
def Registers (sys : Sys γ ρ κ) (w : World γ ρ υ κ) (c : γ) : Call γ ρ υ → Prop
  | .readAwait c' _ => c' = c ∧ w.Asks sys .read c
  | .writeAwait c' _ => c' = c ∧ w.Asks sys .write c
  | .write c' data _ answer =>
      c' = c ∧ (w.clients c).buf = [] ∧ answer.short data.len = true ∧ w.Asks sys .write c
  | _ => False

/-- The call gives the socket a new file, which the event takes. -/
def Attaches (sys : Sys γ ρ κ) (w : World γ ρ υ κ) (c : γ) : Call γ ρ υ → Prop
  | .connectAwait c' _ connected =>
      c' = c ∧ connected = true ∧
        w.ev.accepts sys.host (.client c, w.allocated (.client c)) = true
  | _ => False

/-- A socket that is closing is registered again, with its file or a new one. -/
def Reopens (sys : Sys γ ρ κ) (c : γ) (w : World γ ρ υ κ) : Label γ ρ υ → Prop
  | .call call => (w.clients c).closing = true ∧ (w.Registers sys c call ∨ w.Attaches sys c call)
  | _ => False

/-- The socket that `before_wait` is about to run `client_socket::close` on. -/
def closeNext (w : World γ ρ υ κ) : Option γ :=
  match w.phase with
  | .clientsFree i => w.clientsFree[i]?
  | _ => none

section Decide

variable (sys : Sys γ ρ κ) [DecidableEq γ]

instance (w : World γ ρ υ κ) (dir : Dir) (c : γ) : Decidable (Asks sys w dir c) :=
  inferInstanceAs (Decidable (¬ (_ ∧ _) ∧ ∃ _ ∈ _, _))

instance (w : World γ ρ υ κ) (c : γ) : DecidablePred (Registers sys w c)
  | .readAwait _ _ => inferInstanceAs (Decidable (_ ∧ _))
  | .writeAwait _ _ => inferInstanceAs (Decidable (_ ∧ _))
  | .write _ _ _ _ => inferInstanceAs (Decidable (_ ∧ _ ∧ _ ∧ _))
  | .connectAwait _ _ _ | .readDisable _ | .writeDisable _ | .readwriteDisable _
  | .closeAwait _ | .procConnectAwait _ | .procReadAwait _ | .procWriteAwait _
  | .procWrite _ _ _ | .procReadDisable _ | .procWriteDisable _ | .procCloseAwait _
  | .addTimer _ _ | .delTimer _ | .resetTimer _ _ => .isFalse id

instance (w : World γ ρ υ κ) (c : γ) : DecidablePred (Attaches sys w c)
  | .connectAwait _ _ _ => inferInstanceAs (Decidable (_ ∧ _ ∧ _))
  | .readAwait _ _ | .writeAwait _ _ | .write _ _ _ _ | .readDisable _ | .writeDisable _
  | .readwriteDisable _ | .closeAwait _ | .procConnectAwait _ | .procReadAwait _
  | .procWriteAwait _ | .procWrite _ _ _ | .procReadDisable _ | .procWriteDisable _
  | .procCloseAwait _ | .addTimer _ _ | .delTimer _ | .resetTimer _ _ => .isFalse id

instance (c : γ) (w : World γ ρ υ κ) : DecidablePred (Reopens sys c w)
  | .call _ => inferInstanceAs (Decidable (_ ∧ (_ ∨ _)))
  | .ret | .wait | .next _ => .isFalse id

end Decide

variable [DecidableEq γ] [DecidableEq ρ]

/-- Neither the event nor `timers_` refers to the socket. -/
structure Clean (w : World γ ρ υ κ) (c : γ) : Prop where
  unlinked : ∀ fe ∈ (w.clients c).fe, w.ev.ring.linked fe = false
  mask : ∀ fe ∈ (w.clients c).fe, ∀ dir, (w.ev.files fe).mask dir = false
  timers : ∀ e ∈ w.timers.timers, ∀ dir, e.2 ≠ .client c dir

variable [DecidableEq υ]

/-- What a run keeps up to the close of a socket: once it is closing its file is
clear. -/
structure ClearOnceClosing (sys : Sys γ ρ κ) (w : World γ ρ υ κ) (c : γ) : Prop where
  owned : w.Owned
  typesOk : w.ev.TypesOk sys.host
  ringed : w.ev.Ringed
  clear : (w.clients c).closing = true → ∀ fe ∈ (w.clients c).fe, w.ev.Clear fe

variable {sys : Sys γ ρ κ} {w w' : World γ ρ υ κ} {c : γ}

theorem update_fe (sys : Sys γ ρ κ) (w : World γ ρ υ κ) {d : Update γ ρ υ} (hk : d.kind ≠ .connect)
    (c : γ) :
    ((w.update sys d).clients c).fe = (w.clients c).fe := by
  have hset : ∀ (v : World γ ρ υ κ) (c' : γ) {f : ClientSocket γ ρ → ClientSocket γ ρ},
      (∀ cli, (f cli).fe = cli.fe) → ((v.setClient c' f).clients c).fe = (v.clients c).fe := by
    intro v c' f hf
    show (Function.update v.clients c' (f (v.clients c')) c).fe = _
    rcases eq_or_ne c c' with rfl | hne
    · rw [Function.update_self, hf]
    · rw [Function.update_of_ne hne]
  cases d with
  | setFlag c' dir b => exact hset w c' (f := (·.setFlag dir b)) fun _ => rfl
  | armTimer c' dir ms =>
      show ((if _ then w else w.armTimer c' dir ms).clients c).fe = _
      split
      · rfl
      · exact hset (w.setTimers _) c' (f := (·.setWaiting dir true)) fun _ => rfl
  | disarmTimer c' dir =>
      show ((if _ then _ else w).clients c).fe = _
      split
      · exact hset (w.setTimers _) c' (f := (·.setWaiting dir false)) fun _ => rfl
      · rfl
  | startConnecting c' ms => exact absurd rfl hk
  | stopConnecting c' =>
      show ((if _ then _ else w).clients c).fe = _
      split
      · exact (hset _ c' (f := (·.setConnecting .write false)) fun _ => rfl).trans
          (hset w c' (f := (·.setWaiting .write false)) fun _ => rfl)
      · rfl
  | timerFired c' dir => exact hset w c' (f := (·.setWaiting dir false)) fun _ => rfl
  | connectTimeout c' => exact hset w c' (f := (·.setConnecting .write false)) fun _ => rfl
  | setFe c' fe => exact absurd rfl hk
  | setBuf c' buf taken => exact hset w c' (f := (·.setBuf buf)) fun _ => rfl
  | delayClose c' =>
      show ((if _ then _ else w).clients c).fe = _
      split
      · exact hset w c' (f := fun cli => { cli with closing := true }) fun _ => rfl
      · rfl
  | procDelayClose p =>
      show ((if _ then _ else w).clients c).fe = _
      split <;> rfl
  | _ => rfl

/-- The file of a socket changes with a connect only, and the event with what is
asked of it. -/
theorem Updates.fe_eq {o : Owner γ ρ} {ks : List Kind} (hd : Updates sys (Within o ks) w w')
    (hk : .connect ∉ ks) (c : γ) : (w'.clients c).fe = (w.clients c).fe :=
  hd.keeps (P := fun v => (v.clients c).fe = (w.clients c).fe)
    (fun v _ hq hv => (update_fe sys v (fun h => hk (h ▸ hq.2)) c).trans hv) rfl

theorem Updates.ev_eq {o : Owner γ ρ} {ks : List Kind} (hd : Updates sys (Within o ks) w w')
    (hadd : .add ∉ ks) (hdel : .del ∉ ks) : w'.ev = w.ev := by
  refine hd.keeps (P := fun v => v.ev = w.ev) ?_ rfl
  intro v d hq hv
  rw [update_ev, hv]
  cases d with
  | add dir fe proc => exact absurd hq.2 hadd
  | del dir fe => exact absurd hq.2 hdel
  | delReadwrite fe => exact absurd hq.2 hdel
  | _ => rfl

theorem update_closing (w : World γ ρ υ κ) {d : Update γ ρ υ} (hk : d.kind ≠ .queue) (c : γ) :
    ((w.update sys d).clients c).closing = (w.clients c).closing := by
  by_cases hc : d.kind = .close
  · cases d <;> simp only [Update.kind, reduceCtorEq] at hc
    · split at hc <;> cases hc
    · rfl
  · exact (SameClosing.update w hk hc).closing c

namespace ClearOnceClosing

/-- **One update** that neither registers nor closes the socket. -/
theorem update (hclears : sys.host.Clears) (h : ClearOnceClosing sys w c) {d : Update γ ρ υ}
    {o : Owner γ ρ} (hd : d.For o)
    (hk : o = .client c → d.kind ≠ .add ∧ d.kind ≠ .connect ∧ d.kind ≠ .queue) :
    ClearOnceClosing sys (w.update sys d) c := by
  have hsame : ((w.update sys d).clients c).closing = (w.clients c).closing ∧
      ((w.update sys d).clients c).fe = (w.clients c).fe := by
    by_cases ho : o = .client c
    · obtain ⟨-, hconnect, hqueue⟩ := hk ho
      exact ⟨update_closing w hqueue c, update_fe sys w hconnect c⟩
    · rw [update_clients sys w hd ho]
      exact ⟨rfl, rfl⟩
  have hev := update_ev sys w d
  cases hcall : d.evCall with
  | none =>
      rw [hcall] at hev
      change (w.update sys d).ev = w.ev at hev
      refine ⟨h.owned.update hd, by rw [hev]; exact h.typesOk, by rw [hev]; exact h.ringed, ?_⟩
      rw [hev, hsame.1, hsame.2]
      exact h.clear
  | some call =>
      rw [hcall] at hev
      change (w.update sys d).ev = w.ev.apply sys.host call at hev
      refine ⟨h.owned.update hd, ?_, ?_, ?_⟩
      · rw [hev]
        exact Event.NioEvent.typesOk_apply h.typesOk call
      · rw [hev]
        exact h.ringed.apply h.typesOk call
      · rw [hev, hsame.1, hsame.2]
        intro hclosing fe hfe
        refine (h.clear hclosing fe hfe).apply hclears h.typesOk h.ringed call ?_
        -- an add is of another object's file
        rintro dir proc rfl
        have howner : fe.1 = o := hd.file hcall
        rw [h.owned.client c fe hfe] at howner
        refine absurd ?_ (hk howner.symm).1
        cases d <;> simp only [Update.evCall, Option.some.injEq, reduceCtorEq] at hcall
        rfl

theorem updates (hclears : sys.host.Clears) (h : ClearOnceClosing sys w c) {o : Owner γ ρ}
    {ks : List Kind} (hd : Updates sys (Within o ks) w w')
    (hk : o = .client c → .add ∉ ks ∧ .connect ∉ ks ∧ .queue ∉ ks) : ClearOnceClosing sys w' c := by
  refine hd.keeps (P := fun v => ClearOnceClosing sys v c) ?_ h
  intro v d hq hv
  refine hv.update hclears hq.1 ?_
  intro ho
  obtain ⟨hadd, hconnect, hqueue⟩ := hk ho
  exact ⟨fun h => hadd (h ▸ hq.2), fun h => hconnect (h ▸ hq.2), fun h => hqueue (h ▸ hq.2)⟩

omit [DecidableEq υ] in
/-- The event, the files and the flag of the socket have not changed. -/
theorem of_same (h : ClearOnceClosing sys w c) {v : World γ ρ υ κ} (hown : v.Owned)
    (hev : v.ev = w.ev) (hc : v.clients c = w.clients c) : ClearOnceClosing sys v c := by
  refine ⟨hown, by rw [hev]; exact h.typesOk, by rw [hev]; exact h.ringed, ?_⟩
  rw [hev, hc]
  exact h.clear

/-! ## Calls on the socket -/

/-- What is done with a socket that is not closing, and leaves it so. -/
theorem open_updates (h : ClearOnceClosing sys w c) (hopen : (w.clients c).closing = false)
    {o : Owner γ ρ} {ks : List Kind} (hd : Updates sys (Within o ks) w w') (hk : .queue ∉ ks) :
    ClearOnceClosing sys w' c := by
  have hkeep : w'.ev.TypesOk sys.host ∧ w'.ev.Ringed ∧ (w'.clients c).closing = false := by
    refine hd.keeps (P := fun v => v.ev.TypesOk sys.host ∧ v.ev.Ringed ∧
      (v.clients c).closing = false) ?_ ⟨h.typesOk, h.ringed, hopen⟩
    intro v d hq hv
    obtain ⟨htypes, hring, hv⟩ := hv
    rw [update_ev, update_closing v (fun he => hk (he ▸ hq.2))]
    cases d.evCall with
    | none => exact ⟨htypes, hring, hv⟩
    | some call =>
        exact ⟨Event.NioEvent.typesOk_apply htypes call, hring.apply htypes call, hv⟩
  refine ⟨hd.owned h.owned, hkeep.1, hkeep.2.1, ?_⟩
  intro hclosing
  rw [hkeep.2.2] at hclosing
  cases hclosing

/-- A connect of a socket that is not closing, or one that gives it no file: its own is
as clear as it was. -/
theorem connectAwait (hclears : sys.host.Clears) (h : ClearOnceClosing sys w c) {ms : Int}
    {connected : Bool} (hno : ¬ ((w.clients c).closing = true ∧
      w.Attaches sys c (.connectAwait c ms connected : Call γ ρ υ))) :
    ClearOnceClosing sys (w.connectAwait sys c ms connected).2 c := by
  cases hclosing : (w.clients c).closing with
  | false => exact h.open_updates hclosing (connectAwait_updates c ms connected) (by decide)
  | true =>
      cases connected with
      | false => exact h
      | true =>
          -- the event does not take the new file, and the socket does not have it
          have hacc : w.ev.accepts sys.host (.client c, w.allocated (.client c)) = false :=
            Bool.eq_false_iff.mpr fun hacc => hno ⟨hclosing, rfl, rfl, hacc⟩
          have hrefused : ((w.allocate (.client c)).2.addEvent sys .write
              (w.allocate (.client c)).1 .connectCallback).1 = false :=
            (Event.NioEvent.add_refused h.typesOk hacc .write _).1
          have heq : (w.connectAwait sys c ms true).2 = ((w.allocate (.client c)).2.addEvent sys
              .write (w.allocate (.client c)).1 .connectCallback).2 := by
            simp [World.connectAwait, hrefused]
          rw [heq]
          refine ⟨⟨h.owned.client, h.owned.proc⟩, Event.NioEvent.typesOk_add h.typesOk _ _ _,
            h.ringed.add h.typesOk _ _ _, ?_⟩
          intro _ fe hfe
          refine (h.clear hclosing fe hfe).apply hclears h.typesOk h.ringed (.add _ _ _) ?_
          rintro dir proc ⟨⟩
          exact hacc

/-- `read_await` and `write_await` of a socket that is not closing, or that is
not asked for. -/
theorem await (hclears : sys.host.Clears) (h : ClearOnceClosing sys w c) {dir : Dir}
    {proc : Callback} {ms : Int} {r : Bool × World γ ρ υ κ}
    (hs : w.await sys dir proc c ms = some r)
    (hno : ¬ ((w.clients c).closing = true ∧ w.Asks sys dir c)) : ClearOnceClosing sys r.2 c := by
  unfold World.await at hs
  split at hs
  · cases hs
  rename_i fe hfe
  dsimp only at hs
  -- what is registered, without the timer
  have hreg : ClearOnceClosing sys (if !w.ev.oneshot || !(w.clients c).flags dir then
      w.addEvent sys dir fe proc else (true, w)).2 c := by
    split
    · rename_i hadd
      refine ⟨⟨h.owned.client, h.owned.proc⟩, Event.NioEvent.typesOk_add h.typesOk dir fe proc,
        h.ringed.add h.typesOk dir fe proc, ?_⟩
      intro hclosing fe' hfe'
      obtain rfl := Option.some.inj (hfe.symm.trans hfe')
      refine (h.clear hclosing fe hfe).add h.typesOk ?_ dir proc
      by_contra hacc
      rw [Bool.not_eq_false] at hacc
      refine hno ⟨hclosing, ?_, fe, hfe, hacc⟩
      rintro ⟨hone, hflag⟩
      simp [hone, hflag] at hadd
    · exact h
  generalize (if !w.ev.oneshot || !(w.clients c).flags dir then w.addEvent sys dir fe proc
    else (true, w)) = v at hs hreg
  split at hs
  · cases hs
    exact hreg
  · split at hs
    · cases hs
      exact hreg
    · split at hs
      · rename_i hwait
        cases hs
        have harm := hreg.update hclears (d := .armTimer c dir ms) (o := .client c) rfl
          fun _ => by simp [Update.kind]
        have hw : ((v.2.clients c).timer dir).waiting = false := by simpa using hwait
        simpa only [World.update, hw, Bool.false_eq_true, if_false] using harm
      · cases hs
        exact hreg

omit [DecidableEq υ] in
/-- **`close_await`** takes the file out of the event. -/
theorem closeAwait (hclears : sys.host.Clears) (hneg : ∀ d < 0, sys.host.espipe d = false)
    (h : ClearOnceClosing sys w c) : ClearOnceClosing sys (w.closeAwait sys c) c := by
  unfold World.closeAwait
  split
  · rename_i hnot
    have hclosing : (w.clients c).closing = false := by simpa using hnot
    dsimp only
    -- the flag and the list come after the event
    have hqueue : ∀ v : World γ ρ υ κ, (v.clients c) = w.clients c → v.Owned →
        v.ev.TypesOk sys.host → v.ev.Ringed → (∀ fe ∈ (w.clients c).fe, v.ev.Clear fe) →
        ClearOnceClosing sys
          ((v.delayClose c).setClient c fun cli => { cli with closing := true }) c := by
      intro v hv hown htypes hring hclear
      have hev :
          ((v.delayClose c).setClient c fun cli => { cli with closing := true }).ev = v.ev := by
        unfold World.delayClose
        split <;> rfl
      have hfe :
          (((v.delayClose c).setClient c fun cli => { cli with closing := true }).clients c).fe
          = (w.clients c).fe := by
        unfold World.delayClose
        rw [hv, hclosing]
        simp [World.setClient, hv]
      refine ⟨(hown.delayClose c).setClient c fun _ => rfl, by rw [hev]; exact htypes,
        by rw [hev]; exact hring, ?_⟩
      intro _ fe hmem
      rw [hev]
      rw [hfe] at hmem
      exact hclear fe hmem
    split
    · rename_i fe hfe
      split
      · refine hqueue _ rfl ⟨h.owned.client, h.owned.proc⟩
          (Event.NioEvent.typesOk_delReadwrite h.typesOk fe) (h.ringed.delReadwrite fe) ?_
        intro fe' hfe'
        obtain rfl := Option.some.inj (hfe.symm.trans hfe')
        exact Event.NioEvent.clear_delReadwrite hclears h.ringed fe
      · rename_i hfd
        refine hqueue _ rfl h.owned h.typesOk h.ringed ?_
        intro fe' hfe'
        obtain rfl := Option.some.inj (hfe.symm.trans hfe')
        -- a file without a descriptor was never taken
        exact h.ringed.clear h.typesOk (hneg _ (not_le.mp hfd))
    · rename_i hfe
      refine hqueue _ rfl h.owned h.typesOk h.ringed ?_
      intro fe' hfe'
      rw [hfe] at hfe'
      cases hfe'
  · exact h

theorem write (hclears : sys.host.Clears) (h : ClearOnceClosing sys w c) {data : Data} {ms : Int}
    {answer : WriteAnswer} {r : Int × (Int × Nat) × World γ ρ υ κ}
    (hs : w.write sys c data ms answer = some r)
    (hno : ¬ ((w.clients c).closing = true ∧
        w.Registers sys c (.write c data ms answer : Call γ ρ υ))) :
    ClearOnceClosing sys r.2.2 c := by
  unfold World.write at hs
  split at hs
  · cases hs
  dsimp only at hs
  have hbuf : ClearOnceClosing sys ((w.setClient c (·.setBuf (Outgoing.write (w.clients c).buf data
      answer).buf)).sent (.client c) (Outgoing.write (w.clients c).buf data answer).taken) c :=
    h.update hclears (d := .setBuf c _ _) (o := .client c) rfl fun _ => by simp [Update.kind]
  have hcli : ((w.setClient c (·.setBuf (Outgoing.write (w.clients c).buf data answer).buf)).sent
      (.client c) (Outgoing.write (w.clients c).buf data answer).taken).clients c
        = (w.clients c).setBuf (Outgoing.write (w.clients c).buf data answer).buf := by
    show Function.update w.clients c _ c = _
    rw [Function.update_self]
  split at hs
  · rename_i hawaits
    obtain ⟨s, hawait, rfl⟩ := Option.map_eq_some_iff.mp hs
    refine hbuf.await hclears hawait ?_
    rintro ⟨hclosing, hask⟩
    obtain ⟨hempty, hshort⟩ := Outgoing.awaits_iff.mp hawaits
    rw [hcli] at hclosing
    refine hno ⟨hclosing, rfl, hempty, hshort, ?_⟩
    unfold World.Asks at hask
    rw [hcli] at hask
    exact hask
  · cases hs
    exact hbuf

/-- **A call**, of any object. -/
theorem perform (hclears : sys.host.Clears) (hneg : ∀ d < 0, sys.host.espipe d = false)
    (h : ClearOnceClosing sys w c) {call : Call γ ρ υ} (hno : ¬ ((w.clients c).closing = true ∧
      (w.Registers sys c call ∨ w.Attaches sys c call)))
    {r : Int × (Int × Nat) × World γ ρ υ κ} (hr : w.perform sys call = some r) :
    ClearOnceClosing sys r.2.2 c := by
  cases ho : call.owner with
  | none =>
      exact perform_user h.owned ho hr (P := fun v => ClearOnceClosing sys v c)
        (fun _ _ _ _ hv => hv.of_same (hv.owned.setTimers _) rfl rfl) h
  | some o =>
      have hin := perform_within h.owned ho hr
      by_cases hoc : o = .client c
      · subst hoc
        have hquiet : .add ∉ call.kinds → .connect ∉ call.kinds → .queue ∉ call.kinds →
            ClearOnceClosing sys r.2.2 c := fun hadd hconnect hqueue =>
          h.updates hclears hin fun _ => ⟨hadd, hconnect, hqueue⟩
        cases call with
        | connectAwait c' ms b =>
            cases ho
            cases hr
            exact h.connectAwait hclears fun hc => hno ⟨hc.1, .inr hc.2⟩
        | readAwait c' ms =>
            cases ho
            obtain ⟨s, hs, rfl⟩ := Option.map_eq_some_iff.mp hr
            exact h.await hclears hs fun hc => hno ⟨hc.1, .inl ⟨rfl, hc.2⟩⟩
        | writeAwait c' ms =>
            cases ho
            obtain ⟨s, hs, rfl⟩ := Option.map_eq_some_iff.mp hr
            exact h.await hclears hs fun hc => hno ⟨hc.1, .inl ⟨rfl, hc.2⟩⟩
        | write c' data ms answer =>
            cases ho
            exact h.write hclears hr fun hc => hno ⟨hc.1, .inl hc.2⟩
        | closeAwait c' =>
            cases ho
            cases hr
            exact h.closeAwait hclears hneg
        | readDisable c' =>
            exact hquiet (by simp [Call.kinds]) (by simp [Call.kinds]) (by simp [Call.kinds])
        | writeDisable c' =>
            exact hquiet (by simp [Call.kinds]) (by simp [Call.kinds]) (by simp [Call.kinds])
        | readwriteDisable c' =>
            exact hquiet (by simp [Call.kinds]) (by simp [Call.kinds]) (by simp [Call.kinds])
        | _ => cases ho
      · exact h.updates hclears hin fun he => absurd he hoc

/-- **A step of `wait`** registers nothing. -/
theorem move (hclears : sys.host.Clears) (h : ClearOnceClosing sys w c) {answer : Answer}
    (hm : Move sys answer w w') : ClearOnceClosing sys w' c := by
  have hsame : ∀ {v v' : World γ ρ υ κ}, ClearOnceClosing sys v c → v'.clients = v.clients →
      v'.procs = v.procs → v'.ev = v.ev → ClearOnceClosing sys v' c := by
    intro v v' hv hc hp hev
    refine hv.of_same ⟨?_, ?_⟩ hev (congrFun hc c)
    · rw [hc]
      exact hv.owned.client
    · rw [hp]
      exact hv.owned.proc
  have hloop : LoopKept (υ := υ) sys fun v => ClearOnceClosing sys v c := by
    refine ⟨?_, fun _ _ hv => hsame hv rfl rfl rfl, fun _ _ hv => hsame hv rfl rfl rfl, ?_,
      fun _ _ hv => hsame hv rfl rfl rfl, fun _ hv => hsame hv rfl rfl rfl,
      fun _ hv => hsame hv rfl rfl rfl, fun _ hv => hsame hv rfl rfl rfl⟩
    · intro v o d hfor hkind hv
      exact hv.update hclears hfor fun _ => ⟨ne_of_mem_of_not_mem hkind (by decide),
        ne_of_mem_of_not_mem hkind (by decide), ne_of_mem_of_not_mem hkind (by decide)⟩
    · intro v ready hv
      refine ⟨⟨hv.owned.client, hv.owned.proc⟩, hv.typesOk, ⟨hv.ringed.nodup, hv.ringed.sock⟩, ?_⟩
      intro hclosing fe hfe
      exact ⟨(hv.clear hclosing fe hfe).unlinked, (hv.clear hclosing fe hfe).idle⟩
  exact hloop.move h.owned hm h

/-- **One step.** -/
theorem step (hclears : sys.host.Clears) (hneg : ∀ d < 0, sys.host.espipe d = false)
    (h : ClearOnceClosing sys w c) {l : Label γ ρ υ} (hno : ¬ w.Reopens sys c l)
    (hs : w.step sys l = some w') : ClearOnceClosing sys w' c := by
  cases stepped hs with
  | call hm hp =>
      have hcall := h.perform hclears hneg hno hp
      exact hcall.of_same ⟨hcall.owned.client, hcall.owned.proc⟩ rfl rfl
  | ret hr => exact h.of_same ⟨h.owned.client, h.owned.proc⟩ rfl rfl
  | wait hr hp =>
      refine ⟨⟨h.owned.client, h.owned.proc⟩, Event.NioEvent.typesOk_prepare h.typesOk,
        Event.NioEvent.ringed_prepare _, ?_⟩
      intro hclosing fe hfe
      exact (h.clear hclosing fe hfe).prepare
  | next hr hm => exact h.move hclears hm

end ClearOnceClosing

/-- The socket whose close comes next is closed. -/
theorem step_closeNext {answer : Answer} (hc : w.closeNext = some c)
    (hs : w.step sys (.next answer) = some w') :
    ∃ i, w.phase = .clientsFree i ∧ w.clientsFree[i]? = some c ∧
      w' = (w.setPhase (.clientsFree (i + 1))).close c := by
  unfold closeNext at hc
  split at hc
  · rename_i i hp
    refine ⟨i, hp, hc, ?_⟩
    cases hr : w.running with
    | some r =>
        rw [step, hr] at hs
        cases hs
    | none =>
        simp only [step, hr, next, hp, hc] at hs
        cases hs
        rfl
  · cases hc

omit [DecidableEq ρ] in
theorem disarmTimer_waiting (w : World γ ρ υ κ) (c : γ) (dir d : Dir) :
    (((w.disarmTimer c dir).clients c).timer d).waiting
      = if d = dir then false else ((w.clients c).timer d).waiting := by
  unfold World.disarmTimer
  split
  · exact FlagsRight.waiting_set (w.setTimers _) c dir false d
  · rename_i hw
    split
    · rename_i hd
      rw [hd]
      simpa using hw
    · rfl

omit [DecidableEq γ] [DecidableEq ρ] [DecidableEq υ] in
theorem timers_callHandler (w : World γ ρ υ κ) (c : γ) (h : Handler) (fd : Int) (timeout : Bool) :
    (w.callHandler c h fd timeout).timers = w.timers := by
  unfold callHandler
  split <;> rfl

omit [DecidableEq ρ] in
/-- **A close** leaves no entry of the socket in `timers_`. -/
theorem FlagsRight.close (ht : w.FlagsRight c) (hb : w.batch = []) (dir : Dir) :
    TimerName.client c dir ∉ (w.close c).timers.names := by
  have hbatch : (w.disarmTimer c .read).batch = [] := by
    unfold World.batch
    rw [show (w.disarmTimer c .read).phase = w.phase from
      (by unfold World.disarmTimer; split <;> rfl)]
    exact hb
  have hdir := ((ht.disarmTimer hb .read).disarmTimer hbatch .write) dir
  -- both flags are down
  have hwait : ((((w.disarmTimer c .read).disarmTimer c .write).clients c).timer dir).waiting
      = false := by
    rw [disarmTimer_waiting, disarmTimer_waiting]
    cases dir <;> rfl
  rw [hwait] at hdir
  show _ ∉ (World.callHandler c .onClose _ false _).timers.names
  rw [timers_callHandler]
  intro hn
  obtain ⟨e, he, hname⟩ := List.mem_map.mp hn
  exact hdir.no_entry he hname

/-- At the close of a socket that is settled nothing is left of it. -/
theorem ClearOnceClosing.close (h : ClearOnceClosing sys w c)
    (hclosing : (w.clients c).closing = true) (ht : w.FlagsRight c) (hb : w.batch = []) :
    (w.close c).Clean c := by
  have hupdates : Updates sys (Within (.client c) [.disarm, .close, .enterClose]) w (w.close c) :=
    close_updates c
  have hev : (w.close c).ev = w.ev := hupdates.ev_eq (by decide) (by decide)
  have hfe : ((w.close c).clients c).fe = (w.clients c).fe := hupdates.fe_eq (by decide) c
  refine ⟨?_, ?_, ?_⟩
  · intro fe hmem
    rw [hfe] at hmem
    rw [hev]
    exact (h.clear hclosing fe hmem).unlinked
  · intro fe hmem dir
    rw [hfe] at hmem
    rw [hev]
    exact ((h.clear hclosing fe hmem).idle dir).1
  · intro e he dir hname
    exact ht.close hb dir (List.mem_map.mpr ⟨e, he, hname⟩)

end World

end Libnio.Socket
