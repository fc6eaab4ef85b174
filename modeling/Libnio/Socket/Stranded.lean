import Libnio.Event.Rearm
import Libnio.Socket.Reported

/-!
# Socket — buffered bytes and the registration

Whether the loop enters `epoll_wait` with the registration of a socket armed for
writing while there are bytes in `buf_`, in programs that read and write and
close nothing.
-/

namespace Libnio.Socket

open Event (Dir)

/-! ## Programs that close nothing -/

/-- The step closes nothing, and of this socket only `read_await`, `write_await`
and `write` are called. -/
def Label.Serves {γ ρ υ : Type} (c : γ) : Label γ ρ υ → Prop
  | .call (.readAwait _ _) | .call (.writeAwait _ _) | .call (.write _ _ _ _) => True
  | .call e => e.closes = none ∧ e.owner ≠ some (.client c)
  | .ret | .wait | .next _ => True

instance {γ ρ υ : Type} [DecidableEq γ] [DecidableEq ρ] (c : γ) :
    DecidablePred (Label.Serves (ρ := ρ) (υ := υ) c)
  | .call (.readAwait _ _) | .call (.writeAwait _ _) | .call (.write _ _ _ _) => .isTrue trivial
  | .ret | .wait | .next _ => .isTrue trivial
  | .call (.connectAwait _ _ _) | .call (.readDisable _) | .call (.writeDisable _)
  | .call (.readwriteDisable _) | .call (.closeAwait _) | .call (.procConnectAwait _)
  | .call (.procReadAwait _) | .call (.procWriteAwait _) | .call (.procWrite _ _ _)
  | .call (.procReadDisable _) | .call (.procWriteDisable _) | .call (.procCloseAwait _)
  | .call (.addTimer _ _) | .call (.delTimer _) | .call (.resetTimer _ _) =>
      inferInstanceAs (Decidable (_ = none ∧ _ ≠ some (Owner.client c)))

theorem Label.Serves.closes {γ ρ υ : Type} {c : γ} {e : Call γ ρ υ}
    (h : Label.Serves c (.call e)) : e.closes = none := by
  cases e <;> first | rfl | exact h.1

namespace World

variable {γ ρ υ κ : Type}

/-- `wait` has prepared the event and is yet to enter `epoll_wait`. -/
def beforePoll (w : World γ ρ υ κ) : Bool :=
  match w.phase with
  | .procsFree _ | .clientsFree _ | .poll => true
  | _ => false

/-- Nothing is to be closed, so that nothing runs between `nio_event_prepare` and
`epoll_wait`. -/
structure NothingClosing (w : World γ ρ υ κ) : Prop where
  clients : w.clientsFree = []
  procs : w.procsFree = []
  ahead : w.beforePoll = true → w.running = none ∧ w.ev.ring = .init

theorem still_start (setup : Setup γ ρ) (oneshot direct : Bool) (setsize : Int)
    (fd : File γ ρ → Int) (backend : κ) (sec nsec : Int) :
    (World.start setup oneshot direct setsize fd backend sec nsec : World γ ρ υ κ).NothingClosing :=
  ⟨rfl, rfl, fun h => by cases h⟩

/-- In another part of the loop. -/
theorem NothingClosing.of_lists {w w' : World γ ρ υ κ} (h : w.NothingClosing)
    (hc : w'.clientsFree = w.clientsFree) (hp : w'.procsFree = w.procsFree)
    (hphase : w'.beforePoll = false) : w'.NothingClosing := by
  refine ⟨hc.trans h.clients, hp.trans h.procs, ?_⟩
  rw [hphase]
  intro hf
  cases hf

variable [DecidableEq γ] [DecidableEq ρ] [DecidableEq υ] {sys : Sys γ ρ κ} {w w' : World γ ρ υ κ}
  {c : γ}

theorem NothingClosing.of_updates (h : w.NothingClosing) {o : Owner γ ρ} {ks : List Kind}
    (hd : Updates sys (Within o ks) w w') (hq : .queue ∉ ks) (hc : .close ∉ ks)
    (hphase : w.beforePoll = false) : w'.NothingClosing := by
  have hcalm := hd.sameClosing hq hc
  refine h.of_lists hcalm.clientsFree hcalm.procsFree ?_
  unfold beforePoll at hphase ⊢
  rw [hcalm.phase]
  exact hphase

/-- **One step** that closes nothing. -/
theorem NothingClosing.step (h : w.NothingClosing) (hown : w.Owned) {l : Label γ ρ υ}
    (hl : l.Serves c) (hs : w.step sys l = some w') : w'.NothingClosing := by
  have hown' : ∀ phase, (w.setPhase phase).Owned := fun _ => ⟨hown.client, hown.proc⟩
  have hphase : ∀ {phase : Phase γ ρ υ}, (w.setPhase phase).beforePoll = false →
      (w.setPhase phase).NothingClosing := fun hp => h.of_lists rfl rfl hp
  have hcallback : ∀ {batch : List (Event.EpollEvent (File γ ρ))}
      {later : Option (File γ ρ × Callback)} {fe : File γ ρ} {proc : Callback} {answer : Answer},
      (w.setPhase (.dispatch batch later)).callback sys fe proc answer = some w' →
        w'.NothingClosing := by
    intro batch later fe proc answer hc
    refine (hphase rfl).of_updates (callback_updates (hown' _) hc) ?_ ?_ rfl
    · cases proc <;> decide
    · cases proc <;> decide
  cases stepped hs with
  | call hm hp =>
      rename_i call r
      obtain ⟨hcalm, hrun⟩ := perform_sameClosing hown hl.closes hp
      -- in front of `epoll_wait` no handler runs that could call
      have hnot : w.beforePoll = false := by
        by_contra hb
        rw [Bool.not_eq_false] at hb
        have hnone := (h.ahead hb).1
        unfold mayCall at hm
        unfold beforePoll at hb
        rw [hnone] at hm
        cases hph : w.phase <;> simp [hph] at hm hb
      refine h.of_lists hcalm.clientsFree hcalm.procsFree ?_
      show (r.2.2).beforePoll = false
      unfold beforePoll at hnot ⊢
      rw [hcalm.phase]
      exact hnot
  | ret hr =>
      refine ⟨h.clients, h.procs, ?_⟩
      intro hb
      exact ⟨rfl, (h.ahead hb).2⟩
  | wait hr hp => exact ⟨h.clients, h.procs, fun _ => ⟨hr, rfl⟩⟩
  | next hr hm =>
      cases hm with
      | procClose hp hi =>
          rw [h.procs] at hi
          cases hi
      | procsDone hp hi =>
          refine ⟨h.clients, rfl, fun _ => ⟨hr, (h.ahead ?_).2⟩⟩
          rw [beforePoll, hp]
      | close hp hi =>
          rw [h.clients] at hi
          cases hi
      | clientsDone hp hi =>
          refine ⟨rfl, h.procs, fun _ => ⟨hr, (h.ahead ?_).2⟩⟩
          rw [beforePoll, hp]
      | fetch hp => exact h.of_lists rfl rfl rfl
      | skip hp hl => exact hphase rfl
      | read hp hl hptr hhit hproc hc => exact hcallback hc
      | write hp hc => exact hcallback hc
      | trigger hp =>
          unfold triggerTimers
          split
          · exact h.of_lists rfl rfl rfl
          · exact hphase rfl
      | clearFlag hp => exact h.of_lists rfl rfl rfl
      | fire hp =>
          rename_i t batch
          cases t with
          | client c' dir =>
              have hd : Updates sys _ (w.setPhase (.timers batch (some (c', dir))))
                (w.fire (.client c' dir) batch) := onTimer_updates c' dir
              exact (hphase rfl).of_updates hd (by decide) (by decide) rfl
          | user u => exact h.of_lists rfl rfl rfl
      | done hp => exact hphase rfl

/-! ## A socket that is never connected -/

/-- No callback of the socket is `connect_callback`. -/
structure Unconnected (w : World γ ρ υ κ) (c : γ) : Prop where
  proc : ∀ n dir, (w.ev.files (.client c, n)).proc dir ≠ some .connectCallback
  later : ∀ x ∈ w.later, x.1.1 = .client c → x.2 ≠ .connectCallback

omit [DecidableEq γ] [DecidableEq ρ] [DecidableEq υ] in
theorem unconnected_start (setup : Setup γ ρ) (oneshot direct : Bool) (setsize : Int)
    (fd : File γ ρ → Int) (backend : κ) (sec nsec : Int) (c : γ) :
    (World.start setup oneshot direct setsize fd backend sec nsec :
      World γ ρ υ κ).Unconnected c :=
  ⟨fun _ _ h => (by cases h), fun _ h => (by cases h)⟩

omit [DecidableEq γ] [DecidableEq ρ] [DecidableEq υ] in
/-- What is called next is not `connect_callback`. -/
theorem Unconnected.called (h : w.Unconnected c) (n : Nat) :
    w.called ≠ some ((.client c, n), .connectCallback) := by
  intro hcalled
  unfold World.called at hcalled
  split at hcalled
  · rename_i batch later hr hp
    refine h.later later ?_ ?_ ?_
    · rw [World.later, hp]
      rfl
    · rw [Option.some.inj hcalled]
    · rw [Option.some.inj hcalled]
  · obtain ⟨fe, -, hfe⟩ := Option.bind_eq_some_iff.mp hcalled
    obtain ⟨-, hmap⟩ := Option.ite_none_right_eq_some.mp hfe
    obtain ⟨proc, hproc, hpair⟩ := Option.map_eq_some_iff.mp hmap
    cases hpair
    exact h.proc n .read hproc
  · cases hcalled

omit [DecidableEq γ] [DecidableEq ρ] [DecidableEq υ] in
/-- The calls of such a program hand the event other callbacks. -/
theorem serves_asks (hown : w.Owned) {e : Call γ ρ υ} (hl : Label.Serves c (.call e)) {n : Nat}
    {dir : Dir} {p : Callback} (ha : .add dir (.client c, n) p ∈ w.asks e) :
    p ≠ .connectCallback := by
  have howner : e.owner = some (.client c) := (asks_puts hown ha).1
  have hmap : ∀ {c' : γ} {d : Dir} {q : Callback},
      .add dir (.client c, n) p ∈ (w.clients c').fe.map (fun fe => Event.Call.add d fe q) →
      p = q := by
    intro c' d q h
    obtain ⟨fe, -, heq⟩ := Option.map_eq_some_iff.mp h
    cases heq
    rfl
  cases e with
  | readAwait c' ms =>
      rw [hmap ha]
      decide
  | writeAwait c' ms =>
      rw [hmap ha]
      decide
  | write c' data ms answer =>
      rw [hmap ha]
      decide
  | _ => exact absurd howner hl.2

/-- **One step.** -/
theorem Unconnected.step (h : w.Unconnected c) (hown : w.Owned) {l : Label γ ρ υ}
    (hl : l.Serves c) (hs : w.step sys l = some w') : w'.Unconnected c := by
  refine ⟨?_, ?_⟩
  · intro n dir hproc
    rcases step_files hown hs with hfewer | ⟨e, a, rfl, ha, hev⟩
    · exact h.proc n dir (hfewer.had hproc)
    · rw [hev] at hproc
      rcases Event.NioEvent.apply_proc sys.host w.ev a (.client c, n) dir with
        hsame | hnone | ⟨p, rfl, hset⟩
      · exact h.proc n dir (hsame ▸ hproc)
      · rw [hnone] at hproc
        cases hproc
      · cases hset.symm.trans hproc
        exact serves_asks hown hl ha rfl
  · intro x hx hc
    cases passes hown hs with
    | same hl he => exact h.later x (hl ▸ hx) hc
    | taken he hl =>
        obtain ⟨-, -, hproc⟩ := hl x hx
        rintro hx
        obtain ⟨⟨o, n⟩, p⟩ := x
        cases hc
        cases hx
        exact h.proc n .write hproc
    | called hl he =>
        rw [hl] at hx
        cases hx
    | over_ hl he =>
        rw [hl] at hx
        cases hx
    | fetched hl hw =>
        subst hw
        cases hx

/-! ## What goes on beside the socket -/

/-- The step calls the socket, or asks the kernel or the backend for something. -/
def AsksFor (w : World γ ρ υ κ) (c : γ) : Label γ ρ υ → Prop
  | .call e => e.owner = some (.client c)
  | .wait => True
  | .next _ => w.phase = .poll
  | .ret => False

/-- The socket has the file `fe`, and the event meets `J`. -/
def HasFile (c : γ) (fe : Option (File γ ρ)) (J : Event.NioEvent (File γ ρ) κ Callback → Prop)
    (w : World γ ρ υ κ) : Prop :=
  (w.clients c).fe = fe ∧ J w.ev

/-- A call of the event for the file of another object leaves `J`. -/
def OthersKeep (sys : Sys γ ρ κ) (c : γ) (J : Event.NioEvent (File γ ρ) κ Callback → Prop) :
    Prop :=
  ∀ ev (a : Event.Call (File γ ρ) Callback), a.file.1 ≠ .client c → J ev → J (ev.apply sys.host a)

namespace HasFile

variable {fe : Option (File γ ρ)} {J : Event.NioEvent (File γ ρ) κ Callback → Prop}

/-- What is done to another object. -/
theorem update (happly : OthersKeep sys c J) (h : w.HasFile c fe J) {d : Update γ ρ υ}
    {o : Owner γ ρ} (hd : d.For o) (ho : o ≠ .client c) : (w.update sys d).HasFile c fe J := by
  refine ⟨?_, ?_⟩
  · rw [update_clients sys w hd ho]
    exact h.1
  · rw [update_ev]
    cases ha : d.evCall with
    | none => exact h.2
    | some a =>
        refine happly w.ev a ?_ h.2
        rw [hd.file ha]
        exact ho

/-- What is done to the socket without a call of the event. -/
theorem updates (happly : OthersKeep sys c J) (h : w.HasFile c fe J) {o : Owner γ ρ}
    {ks : List Kind} (hd : Updates sys (Within o ks) w w') (hadd : .add ∉ ks)
    (hconnect : .connect ∉ ks) (hdel : o = .client c → .del ∉ ks) : w'.HasFile c fe J := by
  by_cases ho : o = .client c
  · refine ⟨(hd.fe_eq hconnect c).trans h.1, ?_⟩
    rw [hd.ev_eq hadd (hdel ho)]
    exact h.2
  · exact hd.keeps (fun v d hq hv => hv.update happly hq.1 ho) h

/-- A callback of an event, which is not that of a connect of the socket. -/
theorem callback (happly : OthersKeep sys c J) (hown : w.Owned) (hun : w.Unconnected c)
    {phase : Phase γ ρ υ} {f : File γ ρ} {proc : Callback} {answer : Answer}
    (h : (w.setPhase phase).HasFile c fe J) (hcalled : w.called = some (f, proc))
    (hc : (w.setPhase phase).callback sys f proc answer = some w') : w'.HasFile c fe J := by
  have hown' : (w.setPhase phase).Owned := ⟨hown.client, hown.proc⟩
  refine h.updates happly (callback_updates hown' hc) ?_ ?_ ?_
  · cases proc <;> decide
  · cases proc <;> decide
  · intro ho
    obtain ⟨o, n⟩ := f
    cases ho
    cases proc with
    | connectCallback => exact absurd hcalled (hun.called n)
    | connectProc => cases hc
    | _ => decide

/-- **A step of `wait`** that does not ask the kernel. -/
theorem move (happly : OthersKeep sys c J) (hown : w.Owned) (hun : w.Unconnected c)
    (hr : w.running = none) {answer : Answer} (hpoll : w.phase ≠ .poll)
    (hm : Move sys answer w w') (h : w.HasFile c fe J) : w'.HasFile c fe J := by
  have hphase : ∀ phase, (w.setPhase phase).HasFile c fe J := fun _ => h
  cases hm with
  | procClose hp hi =>
      rename_i i p
      have hd : Updates sys _ (w.setPhase (.procsFree (i + 1)))
        ((w.setPhase (.procsFree (i + 1))).procClose p) := procClose_updates p
      exact (hphase _).updates happly hd (by decide) (by decide) (fun _ => by decide)
  | procsDone hp hi => exact h
  | close hp hi =>
      rename_i i c'
      have hd : Updates sys _ (w.setPhase (.clientsFree (i + 1)))
        ((w.setPhase (.clientsFree (i + 1))).close c') := close_updates c'
      exact (hphase _).updates happly hd (by decide) (by decide) (fun _ => by decide)
  | clientsDone hp hi => exact h
  | fetch hp => exact absurd hp hpoll
  | skip hp hl => exact h
  | read hp hl hptr hhit hproc hc =>
      exact (hphase _).callback happly hown hun (called_read hr hp hptr hhit hproc) hc
  | write hp hc => exact (hphase _).callback happly hown hun (called_later hr hp) hc
  | trigger hp =>
      unfold triggerTimers
      split
      · exact h
      · exact h
  | clearFlag hp =>
      rename_i batch c' dir
      have hd : Updates sys (Within (.client c') [.flag]) (w.setPhase (.timers batch none))
          ((w.setPhase (.timers batch none)).update sys (.setFlag c' dir false)) :=
        .one _ ⟨rfl, by simp [Update.kind]⟩
      exact (hphase _).updates happly hd (by decide) (by decide) (fun _ => by decide)
  | fire hp =>
      rename_i t batch
      cases t with
      | client c' dir =>
          have hd : Updates sys _ (w.setPhase (.timers batch (some (c', dir))))
            (w.fire (.client c' dir) batch) := onTimer_updates c' dir
          exact (hphase _).updates happly hd (by decide) (by decide) (fun _ => by decide)
      | user u => exact h
  | done hp => exact h

end HasFile

/-- **Any other step** leaves the file of the socket, and does to the event what
calls of other objects do. -/
theorem step_other {fe : Option (File γ ρ)} {J : Event.NioEvent (File γ ρ) κ Callback → Prop}
    (happly : OthersKeep sys c J) (hown : w.Owned) (hun : w.Unconnected c) {l : Label γ ρ υ}
    (hl : ¬ w.AsksFor c l) (hs : w.step sys l = some w') (h : w.HasFile c fe J) :
    w'.HasFile c fe J := by
  cases stepped hs with
  | call hm hp =>
      refine perform_keeps hown hp ?_ (fun _ _ _ _ hv => hv) h
      intro v o d ho hq hv
      refine hv.update happly hq.1 ?_
      rintro rfl
      exact hl ho
  | ret hr => exact h
  | wait hr hp => exact absurd trivial hl
  | next hr hm => exact h.move happly hown hun hr hl hm

end World

/-! ## A run over epoll -/

/-- What is noted of a socket along a run: whether a call has registered it for
writing, and whether an event has disarmed it since a call registered it last. -/
structure Watch where
  asked : Bool
  spent : Bool
deriving DecidableEq

/-- The side that a call registers. -/
def Call.side {γ ρ υ : Type} : Call γ ρ υ → Dir
  | .readAwait _ _ => .read
  | _ => .write

namespace World

variable {γ ρ υ : Type} [DecidableEq γ] [DecidableEq ρ]

/-- What a step makes of the note. -/
def watch (espipe : Int → Bool) (c : γ)
    (w : World γ ρ υ (Event.EventEpoll (Event.EpollSet (File γ ρ)))) (l : Label γ ρ υ)
    (n : Watch) : Watch :=
  match l with
  | .call e =>
      if w.Registers (.epoll espipe) c e then ⟨n.asked || decide (e.side = .write), false⟩ else n
  | .next answer =>
      match w.phase, (w.clients c).fe with
      | .poll, some fe => ⟨n.asked, n.spent || w.ev.disarms fe answer.ready⟩
      | _, _ => n
  | .ret | .wait => n

/-- The registration of the socket is armed for `EPOLLOUT`, and `w_proc` is
`write_callback`. -/
def AwaitsWritable (w : World γ ρ υ (Event.EventEpoll (Event.EpollSet (File γ ρ)))) (c : γ) :
    Prop :=
  ∃ fe ∈ (w.clients c).fe, w.ev.armedOut fe = true ∧
    (w.ev.files fe).proc .write = some .writeCallback

instance (w : World γ ρ υ (Event.EventEpoll (Event.EpollSet (File γ ρ)))) (c : γ) :
    Decidable (AwaitsWritable w c) :=
  inferInstanceAs (Decidable (∃ _ ∈ _, _ ∧ _))

variable [DecidableEq υ] {espipe : Int → Bool} {fd : File γ ρ → Int} {c : γ} {n : Watch}
  {w w' : World γ ρ υ (Event.EventEpoll (Event.EpollSet (File γ ρ)))}

/-- What is known of the event and the file of the socket. -/
def OnlyAdded (fd : File γ ρ → Int) (espipe : Int → Bool) (c : γ) (n : Watch)
    (w : World γ ρ υ (Event.EventEpoll (Event.EpollSet (File γ ρ)))) : Prop :=
  ∀ fe ∈ (w.clients c).fe, w.ev.OnlyAdded fd espipe .writeCallback fe n.asked n.spent

/-- `read_await` and `write_await` of the socket. -/
theorem OnlyAdded.await (hinj : Function.Injective fd) (h : w.OnlyAdded fd espipe c n) {dir : Dir}
    {proc : Callback} {ms : Int}
    {r : Bool × World γ ρ υ (Event.EventEpoll (Event.EpollSet (File γ ρ)))}
    (hs : w.await (.epoll espipe) dir proc c ms = some r)
    (hp : dir = .write → proc = .writeCallback) {m : Watch}
    (hm : m = if w.Asks (.epoll espipe) dir c then ⟨n.asked || decide (dir = .write), false⟩
      else n) :
    ∀ fe ∈ (w.clients c).fe, r.2.ev.OnlyAdded fd espipe .writeCallback fe m.asked m.spent := by
  intro fe hfe
  obtain ⟨fe', hfe', hev⟩ := await_event hs
  obtain rfl := Option.some.inj (hfe.symm.trans hfe')
  rw [hev]
  split
  · rename_i hskip
    rw [if_neg (fun ha => ha.1 hskip)] at hm
    rw [hm]
    exact h fe hfe
  · rename_i hadd
    cases ha : w.ev.accepts (Event.EventEpoll.host Event.epollCtl espipe) fe with
    | true =>
        rw [if_pos ⟨hadd, fe, hfe, ha⟩] at hm
        rw [hm]
        exact (h fe hfe).add hinj ha hp
    | false =>
        rw [if_neg] at hm
        · rw [hm]
          exact (h fe hfe).refused hinj ha dir proc
        · rintro ⟨-, f, hf, hacc⟩
          obtain rfl := Option.some.inj (hfe.symm.trans hf)
          exact Bool.false_ne_true (ha.symm.trans hacc)

/-- **A call of the socket.** -/
theorem OnlyAdded.perform (hinj : Function.Injective fd) (h : w.OnlyAdded fd espipe c n)
    (hown : w.Owned) {e : Call γ ρ υ} (hl : Label.Serves c (.call e))
    (ho : e.owner = some (.client c))
    {r : Int × (Int × Nat) × World γ ρ υ (Event.EventEpoll (Event.EpollSet (File γ ρ)))}
    (hr : w.perform (.epoll espipe) e = some r) :
    (r.2.2.clients c).fe = (w.clients c).fe ∧
      r.2.2.OnlyAdded fd espipe c (w.watch espipe c (.call e) n) := by
  cases e with
  | readAwait c' ms =>
      cases ho
      obtain ⟨s, hs, rfl⟩ := Option.map_eq_some_iff.mp hr
      have hfe : (s.2.clients c).fe = (w.clients c).fe :=
        (await_updates hown hs).fe_eq (by decide) c
      refine ⟨hfe, ?_⟩
      intro fe hmem
      rw [hfe] at hmem
      refine h.await hinj hs (fun hd => (by cases hd)) ?_ fe hmem
      simp [watch, Registers, Call.side]
  | writeAwait c' ms =>
      cases ho
      obtain ⟨s, hs, rfl⟩ := Option.map_eq_some_iff.mp hr
      have hfe : (s.2.clients c).fe = (w.clients c).fe :=
        (await_updates hown hs).fe_eq (by decide) c
      refine ⟨hfe, ?_⟩
      intro fe hmem
      rw [hfe] at hmem
      refine h.await hinj hs (fun _ => rfl) ?_ fe hmem
      simp [watch, Registers, Call.side]
  | write c' data ms answer =>
      cases ho
      have hfe : (r.2.2.clients c).fe = (w.clients c).fe :=
        (write_updates hown hr).fe_eq (by decide) c
      refine ⟨hfe, ?_⟩
      intro fe hmem
      rw [hfe] at hmem
      change w.write (.epoll espipe) c data ms answer = some r at hr
      unfold World.write at hr
      split at hr
      · cases hr
      dsimp only at hr
      -- the event does not see the buffer
      generalize hv : (w.setClient c (·.setBuf (Outgoing.write (w.clients c).buf data
        answer).buf)).sent (.client c) (Outgoing.write (w.clients c).buf data answer).taken = v
        at hr
      have hev : v.ev = w.ev := by rw [← hv]; rfl
      have hcli : v.clients c = (w.clients c).setBuf (Outgoing.write (w.clients c).buf data
          answer).buf := by
        rw [← hv]
        exact Function.update_self ..
      have hasks : v.Asks (.epoll espipe) .write c ↔ w.Asks (.epoll espipe) .write c := by
        unfold Asks
        rw [hev, hcli]
        rfl
      have honly : v.OnlyAdded fd espipe c n := by
        intro f hf
        rw [hcli] at hf
        rw [hev]
        exact h f hf
      split at hr
      · rename_i hawaits
        obtain ⟨s, hs, rfl⟩ := Option.map_eq_some_iff.mp hr
        obtain ⟨hempty, hshort⟩ := Outgoing.awaits_iff.mp hawaits
        refine honly.await hinj hs (fun _ => rfl) ?_ fe (by rw [hcli]; exact hmem)
        simp [watch, Registers, Call.side, hempty, hshort, hasks]
      · rename_i hno
        cases hr
        have hreg : ¬ w.Registers (.epoll espipe) c (.write c data ms answer : Call γ ρ υ) :=
          fun hreg => hno (Outgoing.awaits_iff.mpr ⟨hreg.2.1, hreg.2.2.1⟩)
        rw [watch, if_neg hreg]
        exact honly fe (by rw [hcli]; exact hmem)
  | _ => exact absurd ho hl.2

omit [DecidableEq γ] [DecidableEq ρ] [DecidableEq υ] in
/-- What registers the socket is a call of it, and finds its file. -/
theorem registers_owner {e : Call γ ρ υ} (h : w.Registers (.epoll espipe) c e) :
    e.owner = some (.client c) ∧ ∃ fe, (w.clients c).fe = some fe := by
  cases e with
  | readAwait c' ms =>
      obtain ⟨rfl, -, fe, hfe, -⟩ := h
      exact ⟨rfl, fe, hfe⟩
  | writeAwait c' ms =>
      obtain ⟨rfl, -, fe, hfe, -⟩ := h
      exact ⟨rfl, fe, hfe⟩
  | write c' data ms answer =>
      obtain ⟨rfl, -, -, -, fe, hfe, -⟩ := h
      exact ⟨rfl, fe, hfe⟩
  | _ => exact h.elim

omit [DecidableEq ρ] [DecidableEq υ] in
theorem watch_other {l : Label γ ρ υ} (h : ¬ w.AsksFor c l) : w.watch espipe c l n = n := by
  cases l with
  | call e => exact if_neg fun hreg => h (registers_owner hreg).1
  | ret => rfl
  | wait => rfl
  | next answer =>
      unfold watch
      dsimp only
      split
      · rename_i hp hfe
        exact absurd hp h
      · rfl

omit [DecidableEq ρ] [DecidableEq υ] in
theorem watch_fileless (h : (w.clients c).fe = none) (l : Label γ ρ υ) :
    w.watch espipe c l n = n := by
  cases l with
  | call e =>
      refine if_neg ?_
      intro hreg
      obtain ⟨fe, hfe⟩ := (registers_owner hreg).2
      rw [h] at hfe
      cases hfe
  | ret => rfl
  | wait => rfl
  | next answer =>
      unfold watch
      dsimp only
      split
      · rename_i hfe
        rw [h] at hfe
        cases hfe
      · rfl

/-- What every run keeps that closes nothing and leaves the socket to `read_await`,
`write_await` and `write`. -/
structure WatchInv (fd : File γ ρ → Int) (espipe : Int → Bool) (c : γ)
    (w : World γ ρ υ (Event.EventEpoll (Event.EpollSet (File γ ρ)))) (n : Watch) : Prop where
  owned : w.Owned
  still : w.NothingClosing
  unconnected : w.Unconnected c
  onlyAdded : w.OnlyAdded fd espipe c n
  fileless : (w.clients c).fe = none → n.asked = false

omit [DecidableEq υ] in
theorem watchInv_start (setup : Setup γ ρ) (oneshot direct : Bool) (setsize : Int)
    (fd : File γ ρ → Int) (espipe : Int → Bool) (sec nsec : Int) (c : γ) :
    WatchInv (υ := υ) fd espipe c
      (World.start setup oneshot direct setsize fd ⟨fun _ => none, 0⟩ sec nsec) ⟨false, false⟩ where
  owned := owned_start ..
  still := still_start ..
  unconnected := unconnected_start ..
  onlyAdded fe _ := Event.NioEvent.onlyAdded_create oneshot direct setsize fd espipe _ fe
  fileless _ := rfl

/-- **One step**, for the file and the event. -/
theorem WatchInv.event (hinj : Function.Injective fd) (h : w.WatchInv fd espipe c n)
    {l : Label γ ρ υ} (hl : l.Serves c) (hs : w.step (.epoll espipe) l = some w') :
    (w'.clients c).fe = (w.clients c).fe ∧ w'.OnlyAdded fd espipe c (w.watch espipe c l n) := by
  by_cases hask : w.AsksFor c l
  · cases l with
    | ret => exact hask.elim
    | call e =>
        cases stepped hs with
        | call hm hp =>
            obtain ⟨hfe, honly⟩ := h.onlyAdded.perform hinj h.owned hl hask hp
            exact ⟨hfe, honly⟩
    | wait =>
        cases stepped hs with
        | wait hr hp => exact ⟨rfl, fun fe hfe => (h.onlyAdded fe hfe).prepare hinj⟩
    | next answer =>
        change w.phase = .poll at hask
        obtain ⟨hr, hring⟩ := h.still.ahead (by rw [beforePoll, hask])
        simp only [World.step, hr, World.next, hask, Option.some.injEq] at hs
        subst hs
        refine ⟨rfl, ?_⟩
        intro fe hfe
        have hfe' : (w.clients c).fe = some fe := hfe
        have hwatch : w.watch espipe c (.next answer) n
            = ⟨n.asked, n.spent || w.ev.disarms fe answer.ready⟩ := by
          simp only [watch, hask, hfe']
        rw [hwatch]
        exact (h.onlyAdded fe hfe').epollWait (by rw [hring]; rfl) answer.ready
  · rw [watch_other hask]
    have hother : OthersKeep (.epoll espipe) c fun ev => ∀ fe ∈ (w.clients c).fe,
        ev.OnlyAdded fd espipe .writeCallback fe n.asked n.spent := by
      intro ev a ha hev fe hmem
      refine (hev fe hmem).other hinj ?_
      rintro rfl
      exact ha (h.owned.client c _ hmem)
    obtain ⟨hfe, honly⟩ := step_other hother h.owned h.unconnected hask hs ⟨rfl, h.onlyAdded⟩
    refine ⟨hfe, ?_⟩
    intro fe hmem
    rw [hfe] at hmem
    exact honly fe hmem

/-- **One step.** -/
theorem WatchInv.step (hinj : Function.Injective fd) (h : w.WatchInv fd espipe c n)
    {l : Label γ ρ υ} (hl : l.Serves c) (hs : w.step (.epoll espipe) l = some w') :
    w'.WatchInv fd espipe c (w.watch espipe c l n) := by
  obtain ⟨hfe, honly⟩ := h.event hinj hl hs
  refine ⟨(kept_owned _).step h.owned hs h.owned, h.still.step h.owned hl hs,
    h.unconnected.step h.owned hl hs, honly, ?_⟩
  intro hnone
  rw [hfe] at hnone
  rw [watch_fileless hnone]
  exact h.fileless hnone

omit [DecidableEq υ] in
/-- **What is armed for writing** when the loop enters `epoll_wait`. -/
theorem WatchInv.awaitsWritable_iff (h : w.WatchInv fd espipe c n) (hp : w.phase = .poll) :
    w.AwaitsWritable c ↔ n.asked = true ∧ n.spent = false := by
  obtain ⟨-, hring⟩ := h.still.ahead (by rw [beforePoll, hp])
  have hiff : ∀ fe ∈ (w.clients c).fe,
      (w.ev.armedOut fe = true ↔ n.asked = true ∧ n.spent = false) := by
    intro fe hfe
    have hev := h.onlyAdded fe hfe
    exact hev.stands.armedOut_iff hev.mirrors (by rw [hring]; rfl)
  constructor
  · rintro ⟨fe, hfe, harmed, -⟩
    exact (hiff fe hfe).mp harmed
  · intro hn
    cases hfe : (w.clients c).fe with
    | none =>
        rw [h.fileless hfe] at hn
        cases hn.1
    | some fe =>
        refine ⟨fe, hfe, (hiff fe hfe).mpr hn, ?_⟩
        rw [(h.onlyAdded fe hfe).proc_eq, hn.1]
        rfl

end World

section Run

variable {γ ρ υ : Type} [DecidableEq γ] [DecidableEq ρ] [DecidableEq υ]

/-- **Buffered bytes are waited for**, exactly in the rounds in front of which a
call has registered the socket for writing and no event has disarmed it since a
call registered it last: in every mode, whatever the other objects do and the
kernel answers. -/
theorem buffered_awaits_iff (setup : Setup γ ρ) (oneshot direct : Bool) (setsize : Int)
    (fd : File γ ρ → Int) (hfd : Function.Injective fd) (espipe : Int → Bool) (sec nsec : Int)
    (ls : List (Label γ ρ υ)) (c : γ) (hserves : ∀ l ∈ ls, l.Serves c)
    {w : World γ ρ υ (Event.EventEpoll (Event.EpollSet (File γ ρ)))}
    (hrun : Trace.run (World.step (Sys.epoll espipe))
      (World.start setup oneshot direct setsize fd ⟨fun _ => none, 0⟩ sec nsec) ls = some w)
    (hpoll : w.phase = .poll) :
    let n := Trace.noted (World.step (Sys.epoll espipe)) (World.watch espipe c)
      (World.start setup oneshot direct setsize fd ⟨fun _ => none, 0⟩ sec nsec) ⟨false, false⟩ ls
    ((w.clients c).buf ≠ [] → w.AwaitsWritable c) ↔
      ((w.clients c).buf ≠ [] → n.asked = true ∧ n.spent = false) := by
  intro n
  have hwatched : w.WatchInv fd espipe c n :=
    Trace.noted_induct (P := fun _ l => Label.Serves c l) (J := World.WatchInv fd espipe c)
      (fun _ _ _ _ hl hv hs => hv.step hfd hl hs)
      (Trace.meets_of_mem hserves)
      (World.watchInv_start setup oneshot direct setsize fd espipe sec nsec c) hrun
  exact imp_congr_right fun _ => hwatched.awaitsWritable_iff hpoll

/-- A `write` that is taken in part and flushed in part, in one-shot mode: nothing
but the add for writing has been registered, without `EPOLLONESHOT`. -/
theorem buffered_awaits_written :
    let start := World.fresh ⟨fun _ => true, fun _ => true, fun _ _ => false⟩ true File.turn
    let writable := Answer.writable 0 (.wrote 1)
    let ls : List (Label Unit Empty Unit) :=
      [.call (.write () (.counting 3) 0 (.wrote 1)), .wait, .next writable, .next writable,
        .next writable, .next writable, .next writable, .next writable, .wait, .next writable,
        .next writable]
    ∃ w, Trace.run (World.step .table) start ls = some w ∧ (w.clients ()).buf = [2] ∧
      w.AwaitsWritable () := by
  intro start writable ls
  have hfd : Function.Injective (File.turn : File Unit Empty → Int) := by
    rintro ⟨o, n⟩ ⟨o', n'⟩ h
    cases o with
    | client c =>
        cases o' with
        | client c' => exact Prod.ext rfl (Int.ofNat_inj.mp h)
        | proc p => exact p.elim
    | proc p => exact p.elim
  have hany : (Trace.run (World.step .table) start ls).any (fun w =>
      decide ((w.clients ()).buf = [2]) && match w.phase with | .poll => true | _ => false) := by
    decide +kernel
  obtain ⟨w, hrun, hw⟩ := Trace.run_any hany
  obtain ⟨hbuf, hphase⟩ := Bool.and_eq_true_iff.mp hw
  have hpoll : w.phase = .poll := by
    split at hphase
    · assumption
    · cases hphase
  refine ⟨w, hrun, of_decide_eq_true hbuf, ?_⟩
  refine (buffered_awaits_iff _ true false 1024 _ hfd _ 0 0 ls () (by decide) hrun
    hpoll).mpr (fun _ => by decide +kernel) ?_
  rw [of_decide_eq_true hbuf]
  simp

/-- A `read_await` puts `EPOLLONESHOT` into the registration, and the event that
comes for the buffered bytes disarms it: the rest of them waits for nothing. -/
theorem buffered_stranded :
    let start := World.fresh ⟨fun _ => true, fun _ => true, fun _ _ => false⟩ true File.turn
    let writable := Answer.writable 0 (.wrote 1)
    let ls : List (Label Unit Empty Unit) :=
      [.call (.write () (.counting 3) 0 (.wrote 1)), .wait, .next .idle, .next .idle, .next .idle,
        .next .idle, .call (.readAwait () 0), .wait, .next writable, .next writable,
        .next writable, .next writable, .next writable, .next writable, .wait, .next .idle,
        .next .idle]
    (∀ l ∈ ls, l.Serves ()) ∧ ∃ w, Trace.run (World.step .table) start ls = some w ∧
      w.phase = .poll ∧ (w.clients ()).buf = [2] ∧ ¬ w.AwaitsWritable () := by
  intro start writable ls
  have hany : (Trace.run (World.step .table) start ls).any (fun w =>
      decide ((w.clients ()).buf = [2] ∧ ¬ w.AwaitsWritable ()) &&
        match w.phase with | .poll => true | _ => false) := by
    decide +kernel
  obtain ⟨w, hrun, hw⟩ := Trace.run_any hany
  obtain ⟨hbuf, hphase⟩ := Bool.and_eq_true_iff.mp hw
  have hpoll : w.phase = .poll := by
    split at hphase
    · assumption
    · cases hphase
  exact ⟨by decide, w, hrun, hpoll, of_decide_eq_true hbuf⟩

end Run

end Libnio.Socket
