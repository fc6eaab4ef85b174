import Libnio.Socket.Notify

/-!
# Socket — the callbacks of a file

What each call asks of the event for its object, and that nothing else puts a
callback on a file: the loop only takes them away. Every file has then the
callbacks of its own kind of object, each on its side.
-/

namespace Libnio.Socket

open Event (Dir)

/-- The callbacks that an object puts on a side of its files. -/
def Owner.Puts {γ ρ : Type} : Owner γ ρ → Dir → Callback → Prop
  | .client _, .read, callback => callback = .readCallback
  | .client _, .write, callback => callback = .connectCallback ∨ callback = .writeCallback
  | .proc _, .read, callback => callback = .readProc
  | .proc _, .write, callback => callback = .connectProc ∨ callback = .writeProc

namespace World

variable {γ ρ υ κ : Type}

/-- What a call asks of the event, if it comes to that. -/
def asks (w : World γ ρ υ κ) : Call γ ρ υ → Option (Event.Call (File γ ρ) Callback)
  | .connectAwait c _ _ => some (.add .write (.client c, w.allocated (.client c)) .connectCallback)
  | .readAwait c _ => (w.clients c).fe.map fun fe => .add .read fe .readCallback
  | .writeAwait c _ => (w.clients c).fe.map fun fe => .add .write fe .writeCallback
  | .write c _ _ _ => (w.clients c).fe.map fun fe => .add .write fe .writeCallback
  | .readDisable c => (w.clients c).fe.map fun fe => .del .read fe
  | .writeDisable c => (w.clients c).fe.map fun fe => .del .write fe
  | .readwriteDisable c => (w.clients c).fe.map fun fe => .delReadwrite fe
  | .closeAwait c => (w.clients c).fe.map fun fe => .delReadwrite fe
  | .procConnectAwait p => (w.procs p).fe.map fun fe => .add .write fe .connectProc
  | .procReadAwait p => (w.procs p).fe.map fun fe => .add .read fe .readProc
  | .procWriteAwait p => (w.procs p).fe.map fun fe => .add .write fe .writeProc
  | .procWrite p _ _ => (w.procs p).fe.map fun fe => .add .write fe .writeProc
  | .procReadDisable p => (w.procs p).fe.map fun fe => .del .read fe
  | .procWriteDisable p => (w.procs p).fe.map fun fe => .del .write fe
  | .procCloseAwait p => (w.procs p).fe.map fun fe => .delReadwrite fe
  | .addTimer _ _ => none
  | .delTimer _ => none
  | .resetTimer _ _ => none

/-- Every file has the callbacks of its object. -/
def CallbacksFit (w : World γ ρ υ κ) : Prop :=
  ∀ fe dir proc, (w.ev.files fe).proc dir = some proc → fe.1.Puts dir proc

/-- No file has got a callback. -/
def NoNewCallback (w w' : World γ ρ υ κ) : Prop :=
  ∀ fe dir, (w'.ev.files fe).proc dir = (w.ev.files fe).proc dir ∨ (w'.ev.files fe).proc dir = none

namespace NoNewCallback

variable {w w' w'' : World γ ρ υ κ}

theorem of_ev (h : w'.ev = w.ev) : NoNewCallback w w' := by
  intro fe dir
  rw [h]
  exact .inl rfl

theorem trans (h : NoNewCallback w w') (h' : NoNewCallback w' w'') : NoNewCallback w w'' := by
  intro fe dir
  rcases h' fe dir with heq | hnone
  · rw [heq]
    exact h fe dir
  · exact .inr hnone

/-- What a file has it has had. -/
theorem had (h : NoNewCallback w w') {fe : File γ ρ} {dir : Dir} {proc : Callback}
    (hp : (w'.ev.files fe).proc dir = some proc) : (w.ev.files fe).proc dir = some proc := by
  rcases h fe dir with heq | hnone
  · rw [← heq]
    exact hp
  · rw [hnone] at hp
    cases hp

end NoNewCallback

variable [DecidableEq γ] [DecidableEq ρ] [DecidableEq υ] {sys : Sys γ ρ κ} {w w' : World γ ρ υ κ}

/-! ## What a call asks -/

/-- A timer that is armed asks nothing. -/
theorem await_event {dir : Dir} {proc : Callback} {c : γ} {ms : Int} {r : Bool × World γ ρ υ κ}
    (h : w.await sys dir proc c ms = some r) : ∃ fe ∈ (w.clients c).fe,
      r.2.ev = if w.ev.oneshot = true ∧ (w.clients c).flags dir = true then w.ev
        else w.ev.apply sys.host (.add dir fe proc) := by
  unfold await at h
  split at h
  · cases h
  · rename_i fe hfe
    refine ⟨fe, hfe, ?_⟩
    have hadd : ∀ v, (if !w.ev.oneshot || !(w.clients c).flags dir then w.addEvent sys dir fe proc
        else (true, w)) = v →
        v.2.ev = if w.ev.oneshot = true ∧ (w.clients c).flags dir = true then w.ev
          else w.ev.apply sys.host (.add dir fe proc) := by
      rintro v rfl
      by_cases hskip : w.ev.oneshot = true ∧ (w.clients c).flags dir = true
      · simp [hskip]
      · rw [if_neg hskip, if_pos]
        · rfl
        · cases hone : w.ev.oneshot <;> cases hflag : (w.clients c).flags dir <;> simp_all
    generalize hv : (if !w.ev.oneshot || !(w.clients c).flags dir then w.addEvent sys dir fe proc
      else (true, w)) = v at h
    dsimp only at h
    split at h
    · cases h
      exact hadd v hv
    · split at h
      · cases h
        exact hadd v hv
      · split at h
        · cases h
          exact hadd v hv
        · cases h
          exact hadd v hv

theorem await_ev {dir : Dir} {proc : Callback} {c : γ} {ms : Int} {r : Bool × World γ ρ υ κ}
    (h : w.await sys dir proc c ms = some r) :
    r.2.ev = w.ev ∨ ∃ fe ∈ (w.clients c).fe,
      r.2.ev = w.ev.apply sys.host (.add dir fe proc) := by
  obtain ⟨fe, hfe, hev⟩ := await_event h
  split at hev
  · exact .inl hev
  · exact .inr ⟨fe, hfe, hev⟩

omit [DecidableEq υ] in
theorem closeAwait_ev (sys : Sys γ ρ κ) (w : World γ ρ υ κ) (c : γ) :
    (w.closeAwait sys c).ev = w.ev ∨ ∃ fe ∈ (w.clients c).fe,
      (w.closeAwait sys c).ev = w.ev.apply sys.host (.delReadwrite fe) := by
  have hqueue : ∀ v : World γ ρ υ κ, ((v.delayClose c).setClient c fun cli =>
      { cli with closing := true }).ev = v.ev := by
    intro v
    show (v.delayClose c).ev = v.ev
    unfold delayClose
    split <;> rfl
  unfold closeAwait
  split
  · dsimp only
    rw [hqueue]
    split
    · rename_i fe hfe
      split
      · exact .inr ⟨fe, hfe, rfl⟩
      · exact .inl rfl
    · exact .inl rfl
  · exact .inl rfl

omit [DecidableEq υ] in
theorem procAwait_ev (sys : Sys γ ρ κ) (w : World γ ρ υ κ) (dir : Dir) (proc : Callback) (p : ρ) :
    (w.procAwait sys dir proc p).2.ev = w.ev ∨ ∃ fe ∈ (w.procs p).fe,
      (w.procAwait sys dir proc p).2.ev = w.ev.apply sys.host (.add dir fe proc) := by
  unfold procAwait
  split
  · exact .inl rfl
  · rename_i fe hfe
    exact .inr ⟨fe, hfe, rfl⟩

omit [DecidableEq υ] in
theorem procConnectAwait_ev (sys : Sys γ ρ κ) (w : World γ ρ υ κ) (p : ρ) :
    (w.procConnectAwait sys p).2.ev = w.ev ∨ ∃ fe ∈ (w.procs p).fe,
      (w.procConnectAwait sys p).2.ev = w.ev.apply sys.host (.add .write fe .connectProc) := by
  unfold procConnectAwait
  split
  · exact .inl rfl
  · rename_i fe hfe
    exact .inr ⟨fe, hfe, rfl⟩

omit [DecidableEq υ] in
theorem procDisable_ev (sys : Sys γ ρ κ) (w : World γ ρ υ κ) (dir : Dir) (p : ρ) :
    (w.procDisable sys dir p).ev = w.ev ∨ ∃ fe ∈ (w.procs p).fe,
      (w.procDisable sys dir p).ev = w.ev.apply sys.host (.del dir fe) := by
  unfold procDisable
  split
  · exact .inl rfl
  · rename_i fe hfe
    exact .inr ⟨fe, hfe, rfl⟩

omit [DecidableEq υ] in
theorem procCloseAwait_ev (sys : Sys γ ρ κ) (w : World γ ρ υ κ) (p : ρ) :
    (w.procCloseAwait sys p).ev = w.ev ∨ ∃ fe ∈ (w.procs p).fe,
      (w.procCloseAwait sys p).ev = w.ev.apply sys.host (.delReadwrite fe) := by
  unfold procCloseAwait
  split
  · exact .inl rfl
  · rename_i fe hfe
    split
    · refine .inr ⟨fe, hfe, ?_⟩
      show ((w.delReadwrite sys fe).procDelayClose p).ev = _
      unfold procDelayClose
      split <;> rfl
    · exact .inl rfl

theorem connectAwait_ev (sys : Sys γ ρ κ) (w : World γ ρ υ κ) (c : γ) (ms : Int)
    (connected : Bool) :
    (w.connectAwait sys c ms connected).2.ev = w.ev ∨
      (w.connectAwait sys c ms connected).2.ev = w.ev.apply sys.host
        (.add .write (.client c, w.allocated (.client c)) .connectCallback) := by
  unfold connectAwait
  split
  · exact .inl rfl
  · right
    dsimp only
    split
    · rfl
    · split <;> rfl

omit [DecidableEq υ] in
theorem disable_ev {dir : Dir} {c : γ} {v : World γ ρ υ κ} (h : w.disable sys dir c = some v) :
    ∃ fe ∈ (w.clients c).fe, v.ev = w.ev.apply sys.host (.del dir fe) := by
  obtain ⟨fe, hfe, rfl⟩ := Option.map_eq_some_iff.mp h
  exact ⟨fe, hfe, rfl⟩

omit [DecidableEq υ] in
theorem readwriteDisable_ev {c : γ} {v : World γ ρ υ κ} (h : w.readwriteDisable sys c = some v) :
    ∃ fe ∈ (w.clients c).fe, v.ev = w.ev.apply sys.host (.delReadwrite fe) := by
  obtain ⟨fe, hfe, rfl⟩ := Option.map_eq_some_iff.mp h
  exact ⟨fe, hfe, rfl⟩

theorem write_ev {c : γ} {data : Data} {ms : Int} {answer : WriteAnswer}
    {r : Int × (Int × Nat) × World γ ρ υ κ} (h : w.write sys c data ms answer = some r) :
    r.2.2.ev = w.ev ∨ ∃ fe ∈ (w.clients c).fe,
      r.2.2.ev = w.ev.apply sys.host (.add .write fe .writeCallback) := by
  unfold write at h
  split at h
  · cases h
  · dsimp only at h
    split at h
    · obtain ⟨s, hs, rfl⟩ := Option.map_eq_some_iff.mp h
      have hawait := await_ev hs
      have hfe :
          (((w.setClient c (·.setBuf (Outgoing.write (w.clients c).buf data answer).buf)).sent
          (.client c) (Outgoing.write (w.clients c).buf data answer).taken).clients c).fe
            = (w.clients c).fe := by
        show (Function.update w.clients c _ c).fe = _
        rw [Function.update_self]
        rfl
      rw [hfe] at hawait
      exact hawait
    · cases h
      exact .inl rfl

omit [DecidableEq υ] in
theorem procWrite_ev {p : ρ} {data : Data} {answer : WriteAnswer}
    {r : Int × (Int × Nat) × World γ ρ υ κ} (h : w.procWrite sys p data answer = some r) :
    r.2.2.ev = w.ev ∨ ∃ fe ∈ (w.procs p).fe,
      r.2.2.ev = w.ev.apply sys.host (.add .write fe .writeProc) := by
  unfold procWrite at h
  split at h
  · cases h
  · dsimp only at h
    split at h
    · cases h
      have hawait := procAwait_ev sys ((w.setProc p fun proc =>
        { proc with buf := (Outgoing.write (w.procs p).buf data answer).buf }).sent (.proc p)
          (Outgoing.write (w.procs p).buf data answer).taken) .write .writeProc p
      have hfe : (((w.setProc p fun proc =>
          { proc with buf := (Outgoing.write (w.procs p).buf data answer).buf }).sent (.proc p)
            (Outgoing.write (w.procs p).buf data answer).taken).procs p).fe =
                (w.procs p).fe := by
        show (Function.update w.procs p _ p).fe = _
        rw [Function.update_self]
      rw [hfe] at hawait
      exact hawait
    · cases h
      exact .inl rfl

/-- **A call asks its own question** of the event, or none. -/
theorem perform_ev {c : Call γ ρ υ} {r : Int × (Int × Nat) × World γ ρ υ κ}
    (h : w.perform sys c = some r) :
    r.2.2.ev = w.ev ∨ ∃ e ∈ w.asks c, r.2.2.ev = w.ev.apply sys.host e := by
  -- a file that the object has
  have hfile : ∀ {v : World γ ρ υ κ} {o : Option (File γ ρ)}
      {f : File γ ρ → Event.Call (File γ ρ) Callback},
      (v.ev = w.ev ∨ ∃ fe ∈ o, v.ev = w.ev.apply sys.host (f fe)) →
      v.ev = w.ev ∨ ∃ e ∈ o.map f, v.ev = w.ev.apply sys.host e := by
    intro v o f hv
    rcases hv with heq | ⟨fe, hfe, heq⟩
    · exact .inl heq
    · exact .inr ⟨f fe, Option.mem_map_of_mem f hfe, heq⟩
  cases c with
  | connectAwait c ms connected =>
      cases h
      exact (connectAwait_ev sys w c ms connected).imp_right fun hev => ⟨_, rfl, hev⟩
  | readAwait c ms =>
      obtain ⟨s, hs, rfl⟩ := Option.map_eq_some_iff.mp h
      exact hfile (await_ev hs)
  | writeAwait c ms =>
      obtain ⟨s, hs, rfl⟩ := Option.map_eq_some_iff.mp h
      exact hfile (await_ev hs)
  | write c data ms answer => exact hfile (write_ev h)
  | readDisable c =>
      obtain ⟨s, hs, rfl⟩ := Option.map_eq_some_iff.mp h
      exact hfile (.inr (disable_ev hs))
  | writeDisable c =>
      obtain ⟨s, hs, rfl⟩ := Option.map_eq_some_iff.mp h
      exact hfile (.inr (disable_ev hs))
  | readwriteDisable c =>
      obtain ⟨s, hs, rfl⟩ := Option.map_eq_some_iff.mp h
      exact hfile (.inr (readwriteDisable_ev hs))
  | closeAwait c =>
      cases h
      exact hfile (closeAwait_ev sys w c)
  | procConnectAwait p =>
      cases h
      exact hfile (procConnectAwait_ev sys w p)
  | procReadAwait p =>
      cases h
      exact hfile (procAwait_ev sys w .read .readProc p)
  | procWriteAwait p =>
      cases h
      exact hfile (procAwait_ev sys w .write .writeProc p)
  | procWrite p data answer => exact hfile (procWrite_ev h)
  | procReadDisable p =>
      cases h
      exact hfile (procDisable_ev sys w .read p)
  | procWriteDisable p =>
      cases h
      exact hfile (procDisable_ev sys w .write p)
  | procCloseAwait p =>
      cases h
      exact hfile (procCloseAwait_ev sys w p)
  | addTimer u ms =>
      cases h
      exact .inl rfl
  | delTimer u =>
      cases h
      exact .inl rfl
  | resetTimer u ms =>
      cases h
      exact .inl rfl

omit [DecidableEq γ] [DecidableEq ρ] [DecidableEq υ] in
/-- The callback that a call adds is one of its object. -/
theorem asks_puts (hown : w.Owned) {c : Call γ ρ υ} {dir : Dir} {fe : File γ ρ} {proc : Callback}
    (h : .add dir fe proc ∈ w.asks c) : c.owner = some fe.1 ∧ fe.1.Puts dir proc := by
  have hclient : ∀ {c : γ} (d : Dir) (p : Callback), (Owner.client c : Owner γ ρ).Puts d p →
      .add dir fe proc ∈ (w.clients c).fe.map (fun fe => Event.Call.add d fe p) →
      some (Owner.client c) = some fe.1 ∧ fe.1.Puts dir proc := by
    intro c d p hp h
    obtain ⟨fe', hfe, heq⟩ := Option.map_eq_some_iff.mp h
    cases heq
    rw [hown.client c fe hfe]
    exact ⟨rfl, hp⟩
  have hproc : ∀ {q : ρ} (d : Dir) (p : Callback), (Owner.proc q : Owner γ ρ).Puts d p →
      .add dir fe proc ∈ (w.procs q).fe.map (fun fe => Event.Call.add d fe p) →
      some (Owner.proc q) = some fe.1 ∧ fe.1.Puts dir proc := by
    intro q d p hp h
    obtain ⟨fe', hfe, heq⟩ := Option.map_eq_some_iff.mp h
    cases heq
    rw [hown.proc q fe hfe]
    exact ⟨rfl, hp⟩
  -- a call that adds nothing
  have hnone : ∀ {o : Option (File γ ρ)} {f : File γ ρ → Event.Call (File γ ρ) Callback},
      (∀ e, f e ≠ .add dir fe proc) → .add dir fe proc ∉ o.map f := by
    intro o f hf h
    obtain ⟨fe', -, heq⟩ := Option.map_eq_some_iff.mp h
    exact hf fe' heq
  cases c with
  | connectAwait c ms connected =>
      cases h
      exact ⟨rfl, Or.inl rfl⟩
  | readAwait c ms => exact hclient .read .readCallback rfl h
  | writeAwait c ms => exact hclient .write .writeCallback (Or.inr rfl) h
  | write c data ms answer => exact hclient .write .writeCallback (Or.inr rfl) h
  | readDisable c => exact absurd h (hnone (fun e he => by cases he))
  | writeDisable c => exact absurd h (hnone (fun e he => by cases he))
  | readwriteDisable c => exact absurd h (hnone (fun e he => by cases he))
  | closeAwait c => exact absurd h (hnone (fun e he => by cases he))
  | procConnectAwait p => exact hproc .write .connectProc (Or.inl rfl) h
  | procReadAwait p => exact hproc .read .readProc rfl h
  | procWriteAwait p => exact hproc .write .writeProc (Or.inr rfl) h
  | procWrite p data answer => exact hproc .write .writeProc (Or.inr rfl) h
  | procReadDisable p => exact absurd h (hnone (fun e he => by cases he))
  | procWriteDisable p => exact absurd h (hnone (fun e he => by cases he))
  | procCloseAwait p => exact absurd h (hnone (fun e he => by cases he))
  | addTimer u ms => cases h
  | delTimer u => cases h
  | resetTimer u ms => cases h

/-! ## The loop takes callbacks away only -/

theorem NoNewCallback.update (sys : Sys γ ρ κ) (w : World γ ρ υ κ) {d : Update γ ρ υ}
    (hd : d.kind ≠ .add) : NoNewCallback w (w.update sys d) := by
  intro fe dir
  rw [update_ev]
  cases hc : d.evCall with
  | none => exact .inl rfl
  | some e =>
      rcases Event.NioEvent.apply_proc sys.host w.ev e fe dir with heq | hnone | ⟨proc, rfl, -⟩
      · exact .inl heq
      · exact .inr hnone
      · -- an update that adds is of the kind of one
        cases d <;> cases hc
        exact absurd rfl hd

theorem Updates.noNewCallback {o : Owner γ ρ} {ks : List Kind} (hd : Updates sys (Within o ks) w w')
    (hk : .add ∉ ks) : NoNewCallback w w' :=
  hd.keeps (P := NoNewCallback w)
    (fun _ _ hq hv => hv.trans (.update sys _ fun h => hk (h ▸ hq.2))) (.of_ev rfl)

theorem NoNewCallback.move (hown : w.Owned) {answer : Answer} (hm : Move sys answer w w') :
    NoNewCallback w w' := by
  have hloop : LoopKept sys (NoNewCallback w) := by
    refine ⟨?_, fun _ _ h => h, fun _ _ h => h, fun _ _ h => h, fun _ _ h => h, fun _ h => h,
      fun _ h => h, fun _ h => h⟩
    intro v o d _ hkind hv
    exact hv.trans (.update sys v (ne_of_mem_of_not_mem hkind (by decide)))
  exact hloop.move hown hm (.of_ev rfl)

/-- **A step** takes callbacks away, or is a call that asks for one. -/
theorem step_files (hown : w.Owned) {l : Label γ ρ υ} (hs : w.step sys l = some w') :
    NoNewCallback w w' ∨ ∃ c e, l = .call c ∧ e ∈ w.asks c ∧ w'.ev = w.ev.apply sys.host e := by
  cases stepped hs with
  | call hm hp =>
      rename_i c r
      rcases perform_ev hp with heq | ⟨e, he, heq⟩
      · exact .inl (.of_ev heq)
      · exact .inr ⟨c, e, rfl, he, heq⟩
  | ret hr => exact .inl (.of_ev rfl)
  | wait hr hp =>
      left
      intro fe dir
      left
      show ((w.ev.prepare sys.host).files fe).proc dir = _
      rw [(Event.NioEvent.prepare_keeps sys.host w.ev).proc]
  | next hr hm => exact .inl (.move hown hm)

/-- **Every step** leaves each file with the callbacks of its object. -/
theorem CallbacksFit.step (h : w.CallbacksFit) (hown : w.Owned) {l : Label γ ρ υ}
    (hs : w.step sys l = some w') : w'.CallbacksFit := by
  intro fe dir proc hp
  rcases step_files hown hs with hfewer | ⟨c, e, -, he, heq⟩
  · exact h fe dir proc (hfewer.had hp)
  · rw [heq] at hp
    rcases Event.NioEvent.apply_proc sys.host w.ev e fe dir with hsame | hnone | ⟨p, rfl, hset⟩
    · exact h fe dir proc (hsame ▸ hp)
    · rw [hnone] at hp
      cases hp
    · rw [hset] at hp
      cases hp
      exact (asks_puts hown he).2

omit [DecidableEq γ] [DecidableEq ρ] [DecidableEq υ] in
theorem callbacksFit_start (setup : Setup γ ρ) (oneshot direct : Bool) (setsize : Int)
    (fd : File γ ρ → Int) (backend : κ) (sec nsec : Int) :
    (World.start setup oneshot direct setsize fd backend sec nsec :
      World γ ρ υ κ).CallbacksFit := by
  intro fe dir proc h
  cases h

end World

end Libnio.Socket
