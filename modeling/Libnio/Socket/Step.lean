import Libnio.Socket.Updates
import Libnio.Event.Clear

/-!
# Socket — the steps of the loop

What `wait` can do next, one case for each place it stands at, with what it
reads there.
-/

namespace Libnio.Socket

open Event (Dir)

namespace World

variable {γ ρ υ κ : Type} [DecidableEq γ] [DecidableEq ρ] [DecidableEq υ]

/-- The `w_proc` that is kept for an event was read from its file. -/
def Captured (w : World γ ρ υ κ) (ee : Event.EpollEvent (File γ ρ))
    (later : Option (File γ ρ × Callback)) : Prop :=
  ∀ x ∈ later, ee.ptr = some x.1 ∧ ee.hits .write = true ∧ (w.ev.files x.1).proc .write = some x.2

/-- A step of `wait`. -/
inductive Move (sys : Sys γ ρ κ) (answer : Answer) (w : World γ ρ υ κ) : World γ ρ υ κ → Prop
  | procClose {i : Nat} {p : ρ} (hp : w.phase = .procsFree i) (hi : w.procsFree[i]? = some p) :
      Move sys answer w ((w.setPhase (.procsFree (i + 1))).procClose p)
  | procsDone {i : Nat} (hp : w.phase = .procsFree i) (hi : w.procsFree[i]? = none) :
      Move sys answer w (({ w with procsFree := [] } : World γ ρ υ κ).setPhase (.clientsFree 0))
  | close {i : Nat} {c : γ} (hp : w.phase = .clientsFree i) (hi : w.clientsFree[i]? = some c) :
      Move sys answer w ((w.setPhase (.clientsFree (i + 1))).close c)
  | clientsDone {i : Nat} (hp : w.phase = .clientsFree i) (hi : w.clientsFree[i]? = none) :
      Move sys answer w (({ w with clientsFree := [] } : World γ ρ υ κ).setPhase .poll)
  | fetch (hp : w.phase = .poll) : Move sys answer w (w.fetch sys answer)
  /-- no callback for reading -/
  | skip {ee : Event.EpollEvent (File γ ρ)} {batch : List (Event.EpollEvent (File γ ρ))}
      {later : Option (File γ ρ × Callback)} (hp : w.phase = .dispatch (ee :: batch) none)
      (hl : w.Captured ee later) : Move sys answer w (w.setPhase (.dispatch batch later))
  | read {ee : Event.EpollEvent (File γ ρ)} {batch : List (Event.EpollEvent (File γ ρ))}
      {later : Option (File γ ρ × Callback)} {fe : File γ ρ} {proc : Callback}
      {w' : World γ ρ υ κ} (hp : w.phase = .dispatch (ee :: batch) none)
      (hl : w.Captured ee later) (hptr : ee.ptr = some fe) (hhit : ee.hits .read = true)
      (hproc : (w.ev.files fe).proc .read = some proc)
      (h : (w.setPhase (.dispatch batch later)).callback sys fe proc answer = some w') :
      Move sys answer w w'
  | write {batch : List (Event.EpollEvent (File γ ρ))} {fe : File γ ρ} {proc : Callback}
      {w' : World γ ρ υ κ} (hp : w.phase = .dispatch batch (some (fe, proc)))
      (h : (w.setPhase (.dispatch batch none)).callback sys fe proc answer = some w') :
      Move sys answer w w'
  | trigger (hp : w.phase = .dispatch [] none) : Move sys answer w w.triggerTimers
  | clearFlag {batch : List (TimerName γ υ)} {c : γ} {dir : Dir}
      (hp : w.phase = .timers batch (some (c, dir))) :
      Move sys answer w ((w.setPhase (.timers batch none)).setClient c (·.setFlag dir false))
  | fire {t : TimerName γ υ} {batch : List (TimerName γ υ)}
      (hp : w.phase = .timers (t :: batch) none) : Move sys answer w (w.fire t batch)
  | done (hp : w.phase = .timers [] none) : Move sys answer w (w.setPhase .idle)

variable {sys : Sys γ ρ κ} {answer : Answer} {w w' : World γ ρ υ κ}

/-- **What `wait` does next.** -/
theorem next_move (h : w.next sys answer = some w') : Move sys answer w w' := by
  unfold next at h
  split at h
  · cases h
  · rename_i i hp
    split at h
    · rename_i p hi
      cases h
      exact .procClose hp hi
    · rename_i hi
      cases h
      exact .procsDone hp hi
  · rename_i i hp
    split at h
    · rename_i c hi
      cases h
      exact .close hp hi
    · rename_i hi
      cases h
      exact .clientsDone hp hi
  · rename_i hp
    cases h
    exact .fetch hp
  · rename_i batch fe proc hp
    exact .write hp h
  · rename_i ee batch hp
    -- one event: its file, its procs and what it reports
    unfold entry at h
    split at h
    · cases h
      exact .skip hp fun x hx => by cases hx
    · rename_i fe hptr
      have hl : w.Captured ee
          (if ee.hits .write then ((w.ev.files fe).proc .write).map (fe, ·) else none) := by
        intro x hx
        split at hx
        · rename_i hhit
          obtain ⟨proc, hproc, rfl⟩ := Option.map_eq_some_iff.mp hx
          exact ⟨hptr, hhit, hproc⟩
        · cases hx
      dsimp only at h
      split at h
      · rename_i proc hproc
        split at h
        · rename_i hhit
          exact .read hp hl hptr hhit hproc h
        · cases h
          exact .skip hp hl
      · cases h
        exact .skip hp hl
  · rename_i hp
    cases h
    exact .trigger hp
  · rename_i batch c dir hp
    cases h
    exact .clearFlag hp
  · rename_i t batch hp
    cases h
    exact .fire hp
  · rename_i hp
    cases h
    exact .done hp

/-- A step of a program. -/
inductive Stepped (sys : Sys γ ρ κ) (w : World γ ρ υ κ) : Label γ ρ υ → World γ ρ υ κ → Prop
  | call {c : Call γ ρ υ} {r : Int × (Int × Nat) × World γ ρ υ κ} (hm : w.mayCall = true)
      (h : w.perform sys c = some r) :
      Stepped sys w (.call c) (r.2.2.logged (.call c w.running r.1 r.2.1))
  | ret {r : Running γ ρ υ} (hr : w.running = some r) :
      Stepped sys w .ret { w with running := none }
  | wait (hr : w.running = none) (hp : w.phase = .idle) :
      Stepped sys w .wait
        (((w.logged .wait).setEv (w.ev.prepare sys.host)).setPhase (.procsFree 0))
  | next {answer : Answer} {w' : World γ ρ υ κ} (hr : w.running = none) (h : Move sys answer w w') :
      Stepped sys w (.next answer) w'

theorem stepped {l : Label γ ρ υ} (h : w.step sys l = some w') : Stepped sys w l w' := by
  cases l with
  | call c =>
      change (if w.mayCall then w.call sys c else none) = some w' at h
      obtain ⟨hm, h⟩ := Option.ite_none_right_eq_some.mp h
      obtain ⟨r, hr, rfl⟩ := Option.map_eq_some_iff.mp h
      exact .call hm hr
  | ret =>
      obtain ⟨r, hr, rfl⟩ := Option.map_eq_some_iff.mp h
      exact .ret hr
  | wait =>
      simp only [step] at h
      split at h
      · rename_i hr hp
        cases h
        exact .wait hr hp
      · cases h
  | next answer =>
      simp only [step] at h
      split at h
      · rename_i hr
        exact .next hr (next_move h)
      · cases h

end World

/-! ## The event of a run -/

/-- The call of the event that an update makes. -/
def Update.evCall {γ ρ υ : Type} : Update γ ρ υ → Option (Event.Call (File γ ρ) Callback)
  | .add dir fe proc => some (.add dir fe proc)
  | .del dir fe => some (.del dir fe)
  | .delReadwrite fe => some (.delReadwrite fe)
  | _ => none

/-- What an update writes to the log. -/
def Update.acts {γ ρ υ : Type} : Update γ ρ υ → List (Act γ ρ υ)
  | .setBuf c _ taken => [.taken (.client c) taken]
  | .setProcBuf p _ taken => [.taken (.proc p) taken]
  | .enter r => [.enter r]
  | .close o => [.close o]
  | _ => []

/-- The file that an update is about belongs to its object. -/
theorem Update.For.file {γ ρ υ : Type} {d : Update γ ρ υ} {o : Owner γ ρ} (hd : d.For o)
    {c : Event.Call (File γ ρ) Callback} (hc : d.evCall = some c) : c.file.1 = o := by
  cases d <;> simp only [Update.evCall, Option.some.injEq, reduceCtorEq] at hc
  all_goals
    subst hc
    exact hd

namespace World

variable {γ ρ υ κ : Type} [DecidableEq γ] [DecidableEq ρ] [DecidableEq υ] {sys : Sys γ ρ κ}
  {w w' : World γ ρ υ κ}

theorem update_ev (sys : Sys γ ρ κ) (w : World γ ρ υ κ) (d : Update γ ρ υ) :
    (w.update sys d).ev = (d.evCall.map (w.ev.apply sys.host)).getD w.ev := by
  cases d with
  | armTimer c dir ms =>
      show (if _ then w else w.armTimer c dir ms).ev = w.ev
      split <;> rfl
  | disarmTimer c dir =>
      show (if _ then _ else w).ev = w.ev
      split <;> rfl
  | stopConnecting c =>
      show (if _ then _ else w).ev = w.ev
      split <;> rfl
  | delayClose c =>
      show (if _ then _ else w).ev = w.ev
      split <;> rfl
  | procDelayClose p =>
      show (if _ then _ else w).ev = w.ev
      split <;> rfl
  | _ => rfl

theorem update_phase (sys : Sys γ ρ κ) (w : World γ ρ υ κ) (d : Update γ ρ υ) :
    (w.update sys d).phase = w.phase := by
  cases d with
  | armTimer c dir ms =>
      show (if _ then w else w.armTimer c dir ms).phase = w.phase
      split <;> rfl
  | disarmTimer c dir =>
      show (if _ then _ else w).phase = w.phase
      split <;> rfl
  | stopConnecting c =>
      show (if _ then _ else w).phase = w.phase
      split <;> rfl
  | delayClose c =>
      show (if _ then _ else w).phase = w.phase
      split <;> rfl
  | procDelayClose p =>
      show (if _ then _ else w).phase = w.phase
      split <;> rfl
  | _ => rfl

/-- An update of another object does not touch a socket. -/
theorem update_clients (sys : Sys γ ρ κ) (w : World γ ρ υ κ) {d : Update γ ρ υ} {o : Owner γ ρ}
    (hd : d.For o) {c : γ} (ho : o ≠ .client c) : (w.update sys d).clients c = w.clients c := by
  have hset : ∀ (v : World γ ρ υ κ) {c' : γ} (f : ClientSocket γ ρ → ClientSocket γ ρ),
      .client c' = o → (v.setClient c' f).clients c = v.clients c := by
    intro v c' f hc
    have hne : c ≠ c' := fun h => ho (by rw [← hc, h])
    exact Function.update_of_ne hne _ _
  cases d with
  | setFlag c' dir b => exact hset w _ hd
  | armTimer c' dir ms =>
      show (if _ then w else w.armTimer c' dir ms).clients c = w.clients c
      split
      · rfl
      · exact hset (w.setTimers _) _ hd
  | disarmTimer c' dir =>
      show (if _ then _ else w).clients c = w.clients c
      split
      · exact hset (w.setTimers _) _ hd
      · rfl
  | startConnecting c' ms => exact (hset _ _ hd).trans (hset (w.setTimers _) _ hd)
  | stopConnecting c' =>
      show (if _ then _ else w).clients c = w.clients c
      split
      · exact (hset _ (·.setConnecting .write false) hd).trans (hset w _ hd)
      · rfl
  | timerFired c' dir => exact hset w _ hd
  | connectTimeout c' => exact hset w _ hd
  | setFe c' fe => exact hset w (fun cli => { cli with fe := some fe }) hd.1
  | setBuf c' buf taken => exact hset w _ hd
  | delayClose c' =>
      show (if _ then _ else w).clients c = w.clients c
      split
      · exact hset w (fun cli => { cli with closing := true }) hd
      · rfl
  | procDelayClose p =>
      show (if _ then _ else w).clients c = w.clients c
      split <;> rfl
  | _ => rfl

/-! ## What the loop keeps -/

/-- The kinds of what the loop does to an object. -/
def loopKinds : List Kind := [.del, .flag, .disarm, .fired, .buf, .enter, .enterClose, .close]

/-- `P` is kept by whatever a step of `wait` is made of. -/
structure LoopKept (sys : Sys γ ρ κ) (P : World γ ρ υ κ → Prop) : Prop where
  update : ∀ v o d, d.For o → d.kind ∈ loopKinds → P v → P (v.update sys d)
  onTimer : ∀ v u, P v → P (v.enter (.onTimer u))
  setPhase : ∀ v phase, P v → P (v.setPhase phase)
  epollWait : ∀ v ready, P v →
    P (v.setEv { v.ev with backend := (sys.epollWait ready v.ev.backend).2 })
  setStamp : ∀ v stamp, P v → P (v.setTimers { v.timers with stamp })
  collect : ∀ v, P v → P (v.setTimers v.timers.collect)
  procsClear : ∀ v, P v → P { v with procsFree := [] }
  clientsClear : ∀ v, P v → P { v with clientsFree := [] }

/-- **A step of `wait`**, from one part of it to another. -/
theorem LoopKept.move {P : World γ ρ υ κ → Prop} (hk : LoopKept sys P) (hown : w.Owned)
    {answer : Answer} (hm : Move sys answer w w') (h : P w) : P w' := by
  have hown' : ∀ phase, (w.setPhase phase).Owned := fun _ => ⟨hown.client, hown.proc⟩
  have hphase : ∀ phase, P (w.setPhase phase) := fun phase => hk.setPhase w phase h
  have hupdates : ∀ {phase : Phase γ ρ υ} {o : Owner γ ρ} {ks : List Kind},
      Updates sys (Within o ks) (w.setPhase phase) w' → ks ⊆ loopKinds → P w' := by
    intro phase o ks hd hks
    exact hd.keeps (fun v d hq hv => hk.update v o d hq.1 (hks hq.2) hv) (hphase phase)
  have hcallback : ∀ {phase : Phase γ ρ υ} {fe : File γ ρ} {proc : Callback},
      (w.setPhase phase).callback sys fe proc answer = some w' → P w' := by
    intro phase fe proc hc
    refine hupdates (callback_updates (hown' phase) hc) ?_
    cases proc <;> decide
  cases hm with
  | procClose hp hi => exact hupdates (procClose_updates _) (by decide)
  | procsDone hp hi => exact hk.setPhase _ _ (hk.procsClear w h)
  | close hp hi => exact hupdates (close_updates _) (by decide)
  | clientsDone hp hi => exact hk.setPhase _ _ (hk.clientsClear w h)
  | fetch hp => exact hk.setPhase _ _ (hk.setStamp _ _ (hk.epollWait w _ h))
  | skip hp hl => exact hphase _
  | read hp hl hptr hhit hproc hc => exact hcallback hc
  | write hp hc => exact hcallback hc
  | trigger hp =>
      unfold triggerTimers
      split
      · exact hk.setPhase _ _ (hk.collect w h)
      · exact hphase _
  | clearFlag hp =>
      rename_i batch c dir
      exact hk.update _ (.client c) (.setFlag c dir false) rfl (by simp [Update.kind, loopKinds])
        (hphase _)
  | fire hp =>
      rename_i t batch
      cases t with
      | client c dir => exact hupdates (onTimer_updates c dir) (by decide)
      | user u => exact hk.onTimer _ u (hphase _)
  | done hp => exact hphase _

/-! ## What every step keeps -/

/-- `P` is kept by whatever a step is made of. -/
structure Kept (sys : Sys γ ρ κ) (P : World γ ρ υ κ → Prop) : Prop where
  update : ∀ v o d, d.For o → P v → P (v.update sys d)
  userTimer : ∀ v (c : Timer.Call (TimerName γ υ)), P v → P (v.setTimers (v.timers.apply c))
  onTimer : ∀ v u, P v → P (v.enter (.onTimer u))
  logged : ∀ v a, P v → P (v.logged a)
  setPhase : ∀ v phase, P v → P (v.setPhase phase)
  returned : ∀ v, P v → P { v with running := none }
  prepare : ∀ v, P v → P (v.setEv (v.ev.prepare sys.host))
  epollWait : ∀ v ready, P v →
    P (v.setEv { v.ev with backend := (sys.epollWait ready v.ev.backend).2 })
  setStamp : ∀ v stamp, P v → P (v.setTimers { v.timers with stamp })
  collect : ∀ v, P v → P (v.setTimers v.timers.collect)
  procsClear : ∀ v, P v → P { v with procsFree := [] }
  clientsClear : ∀ v, P v → P { v with clientsFree := [] }

namespace Kept

variable {P : World γ ρ υ κ → Prop}

theorem updates (hk : Kept sys P) {o : Owner γ ρ} {ks : List Kind}
    (hd : Updates sys (Within o ks) w w') (hp : P w) : P w' :=
  hd.keeps (fun v d hq hv => hk.update v o d hq.1 hv) hp

theorem perform (hk : Kept sys P) (hown : w.Owned) {c : Call γ ρ υ}
    {r : Int × (Int × Nat) × World γ ρ υ κ} (h : w.perform sys c = some r) (hp : P w) :
    P r.2.2 := by
  exact perform_keeps hown h (fun v o d _ hd => hk.update v o d hd.1)
    (fun v tc _ _ => hk.userTimer v tc) hp

theorem loop (hk : Kept sys P) : LoopKept sys P :=
  ⟨fun v o d hd _ => hk.update v o d hd, hk.onTimer, hk.setPhase, hk.epollWait, hk.setStamp,
    hk.collect, hk.procsClear, hk.clientsClear⟩

/-- **One step.** -/
theorem step (hk : Kept sys P) (hown : w.Owned) {l : Label γ ρ υ} (hs : w.step sys l = some w')
    (hp : P w) : P w' := by
  cases stepped hs with
  | call hm h => exact hk.logged _ _ (hk.perform hown h hp)
  | ret hr => exact hk.returned w hp
  | wait hr hph => exact hk.setPhase _ _ (hk.prepare _ (hk.logged w _ hp))
  | next hr hm => exact hk.loop.move hown hm hp

end Kept

omit [DecidableEq γ] [DecidableEq ρ] [DecidableEq υ] in
theorem owned_start (setup : Setup γ ρ) (oneshot direct : Bool) (setsize : Int)
    (fd : File γ ρ → Int) (backend : κ) (sec nsec : Int) :
    (World.start setup oneshot direct setsize fd backend sec nsec : World γ ρ υ κ).Owned := by
  refine ⟨?_, ?_⟩
  · intro c fe hfe
    simp only [World.start] at hfe
    split at hfe
    · cases hfe
      rfl
    · cases hfe
  · intro p fe hfe
    simp only [World.start] at hfe
    split at hfe
    · cases hfe
      rfl
    · cases hfe

theorem kept_owned (sys : Sys γ ρ κ) : Kept sys (Owned (υ := υ)) where
  update _ _ _ hd h := h.update hd
  userTimer _ _ h := h.setTimers _
  onTimer _ _ h := ⟨h.client, h.proc⟩
  logged _ _ h := ⟨h.client, h.proc⟩
  setPhase _ _ h := ⟨h.client, h.proc⟩
  returned _ h := ⟨h.client, h.proc⟩
  prepare _ h := ⟨h.client, h.proc⟩
  epollWait _ _ h := ⟨h.client, h.proc⟩
  setStamp _ _ h := h.setTimers _
  collect _ h := h.setTimers _
  procsClear _ h := ⟨h.client, h.proc⟩
  clientsClear _ h := ⟨h.client, h.proc⟩

/-- What the functions of the event and the kernel keep of it. -/
theorem kept_ev {P : Event.NioEvent (File γ ρ) κ Callback → Prop}
    (happly : ∀ ev c, P ev → P (ev.apply sys.host c))
    (hprepare : ∀ ev, P ev → P (ev.prepare sys.host))
    (hfetch : ∀ ev ready, P ev → P { ev with backend := (sys.epollWait ready ev.backend).2 }) :
    Kept (υ := υ) sys fun w => P w.ev where
  update v _ d _ h := by
    rw [update_ev]
    cases d.evCall with
    | none => exact h
    | some c => exact happly v.ev c h
  userTimer _ _ h := h
  onTimer _ _ h := h
  logged _ _ h := h
  setPhase _ _ h := h
  returned _ h := h
  prepare v h := hprepare v.ev h
  epollWait v ready h := hfetch v.ev ready h
  setStamp _ _ h := h
  collect _ h := h
  procsClear _ h := h
  clientsClear _ h := h

theorem kept_typesOk (sys : Sys γ ρ κ) :
    Kept (υ := υ) sys fun w => w.ev.TypesOk sys.host :=
  kept_ev (P := fun ev => ev.TypesOk sys.host) (fun _ c h => Event.NioEvent.typesOk_apply h c)
    (fun _ h => Event.NioEvent.typesOk_prepare h) fun _ _ h => h

/-! ## The log of a run -/

/-- **What an update writes to the log.** -/
theorem update_acts (sys : Sys γ ρ κ) (w : World γ ρ υ κ) (d : Update γ ρ υ) :
    (w.update sys d).log = w.log ++ d.acts := by
  cases d with
  | armTimer c dir ms =>
      show (if _ then w else w.armTimer c dir ms).log = w.log ++ []
      split <;> exact (List.append_nil _).symm
  | disarmTimer c dir =>
      show (if _ then _ else w).log = w.log ++ []
      split <;> exact (List.append_nil _).symm
  | stopConnecting c =>
      show (if _ then _ else w).log = w.log ++ []
      split <;> exact (List.append_nil _).symm
  | delayClose c =>
      show (if _ then _ else w).log = w.log ++ []
      split <;> exact (List.append_nil _).symm
  | procDelayClose p =>
      show (if _ then _ else w).log = w.log ++ []
      split <;> exact (List.append_nil _).symm
  | setBuf c buf taken => rfl
  | setProcBuf p buf taken => rfl
  | enter r => rfl
  | close o => rfl
  | _ => exact (List.append_nil _).symm

theorem update_log (w : World γ ρ υ κ) (d : Update γ ρ υ) : w.log <+: (w.update sys d).log :=
  ⟨d.acts, (update_acts sys w d).symm⟩

/-- Deeds of which none writes an entry that `f` takes add none. -/
theorem Updates.filterMap_log {α : Type} {f : Act γ ρ υ → Option α} {Q : Update γ ρ υ → Prop}
    (hd : Updates sys Q w w') (hq : ∀ d, Q d → d.acts.filterMap f = []) :
    w'.log.filterMap f = w.log.filterMap f := by
  induction hd with
  | nothing => rfl
  | then_ d _ hdq ih => rw [update_acts, List.filterMap_append, hq d hdq, List.append_nil, ih]

/-- What has happened has happened. -/
theorem kept_log (sys : Sys γ ρ κ) (log : List (Act γ ρ υ)) :
    Kept sys fun w => log <+: w.log where
  update v _ d _ h := h.trans (update_log v d)
  userTimer _ _ h := h
  onTimer _ _ h := h.trans (List.prefix_append _ _)
  logged _ _ h := h.trans (List.prefix_append _ _)
  setPhase _ _ h := h
  returned _ h := h
  prepare _ h := h
  epollWait _ _ h := h
  setStamp _ _ h := h
  collect _ h := h
  procsClear _ h := h
  clientsClear _ h := h

/-- **Every run** keeps it, with the files where they are. -/
theorem Kept.run {P : World γ ρ υ κ → Prop} (hk : Kept sys P) {ls : List (Label γ ρ υ)}
    (hr : Trace.run (World.step sys) w ls = some w') (hown : w.Owned) (hp : P w) :
    w'.Owned ∧ P w' :=
  Trace.run_induct (P := fun _ _ => True) (I := fun v => v.Owned ∧ P v)
    (fun _ _ _ _ hv hs => ⟨(kept_owned sys).step hv.1 hs hv.1, hk.step hv.1 hs hv.2⟩)
    (Trace.meets_true _ ls) ⟨hown, hp⟩ hr

end World

end Libnio.Socket
