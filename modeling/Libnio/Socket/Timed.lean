import Libnio.Socket.Step
import Libnio.Timer.Armed

/-!
# Socket — the two timers of a socket

The flag `waiting` of a timer is right over whole runs: the timer has one entry
in `timers_` or one place in the vector of `trigger_timers` when it waits, and
none when it does not. A `connect_await` adds the write timer without a look at
its flag, and keeps this if the timer does not wait.
-/

namespace Libnio.Socket

open Event (Dir)

namespace World

variable {γ ρ υ κ : Type}

/-- What `trigger_timers` has still to go through. -/
def batch (w : World γ ρ υ κ) : List (TimerName γ υ) :=
  match w.phase with
  | .timers batch _ => batch
  | _ => []

variable [DecidableEq γ] [DecidableEq ρ] [DecidableEq υ]

/-- The flags of both timers are right. -/
def FlagsRight (w : World γ ρ υ κ) (c : γ) : Prop :=
  ∀ dir, Timer.Armed w.timers w.batch (.client c dir) ((w.clients c).timer dir).waiting

namespace FlagsRight

variable {sys : Sys γ ρ κ} {w w' : World γ ρ υ κ} {c : γ}

omit [DecidableEq ρ] in
theorem of_same (h : w.FlagsRight c) {v : World γ ρ υ κ}
    (hc : ∀ dir, ((v.clients c).timer dir).waiting = ((w.clients c).timer dir).waiting)
    (ht : v.timers = w.timers) (hb : v.batch = w.batch) : v.FlagsRight c := by
  intro dir
  rw [hc, ht, hb]
  exact h dir

omit [DecidableEq ρ] in
/-- One of the timers is changed, with its flag. -/
theorem set (h : w.FlagsRight c) {dir : Dir} {b : Bool} (call : Timer.Call (TimerName γ υ))
    {v : World γ ρ υ κ} (hcall : call.timer = .client c dir)
    (hdir : Timer.Armed (w.timers.apply call) w.batch (.client c dir) b)
    (hc : ∀ d, ((v.clients c).timer d).waiting
      = if d = dir then b else ((w.clients c).timer d).waiting)
    (ht : v.timers = w.timers.apply call) (hb : v.batch = w.batch) : v.FlagsRight c := by
  intro d
  rw [hc, ht, hb]
  split
  · rename_i hd
    rw [hd]
    exact hdir
  · rename_i hd
    refine (h d).apply ?_
    rw [hcall]
    intro he
    cases he
    exact hd rfl

omit [DecidableEq ρ] [DecidableEq υ] in
theorem waiting_set (w : World γ ρ υ κ) (c : γ) (dir : Dir) (b : Bool) (d : Dir) :
    (((w.setClient c (·.setWaiting dir b)).clients c).timer d).waiting
      = if d = dir then b else ((w.clients c).timer d).waiting := by
  show ((Function.update w.clients c _ c).timer d).waiting = _
  rw [Function.update_self]
  show (Function.update (w.clients c).timer dir _ d).waiting = _
  rw [Function.update_apply]
  split <;> rfl

omit [DecidableEq ρ] in
theorem armTimer (h : w.FlagsRight c) {dir : Dir} (hw : ((w.clients c).timer dir).waiting = false)
    (ms : Int) : (w.armTimer c dir ms).FlagsRight c := by
  refine h.set (.addTimer (.client c dir) ms) rfl ?_
    (fun d => waiting_set (w.setTimers _) c dir true d) rfl rfl
  have hdir := h dir
  rw [hw] at hdir
  exact hdir.addTimer ms

omit [DecidableEq ρ] in
theorem disarmTimer (h : w.FlagsRight c) (hb : w.batch = []) (dir : Dir) :
    (w.disarmTimer c dir).FlagsRight c := by
  unfold World.disarmTimer
  split
  · refine h.set (.delTimer (.client c dir)) rfl ?_
      (fun d => waiting_set (w.setTimers _) c dir false d) rfl rfl
    exact (h dir).delTimer (by rw [hb]; exact List.not_mem_nil)
  · exact h

omit [DecidableEq ρ] in
theorem setClient (h : w.FlagsRight c) {f : ClientSocket γ ρ → ClientSocket γ ρ}
    (hf : ∀ cli dir, ((f cli).timer dir).waiting = (cli.timer dir).waiting) (c' : γ) :
    (w.setClient c' f).FlagsRight c := by
  refine h.of_same ?_ rfl rfl
  intro dir
  show ((Function.update w.clients c' (f (w.clients c')) c).timer dir).waiting = _
  rcases eq_or_ne c c' with rfl | hne
  · rw [Function.update_self, hf]
  · rw [Function.update_of_ne hne]

omit [DecidableEq γ] [DecidableEq ρ] [DecidableEq υ] in
theorem waiting_setConnecting (cli : ClientSocket γ ρ) (d : Dir) (b : Bool) (dir : Dir) :
    ((cli.setConnecting d b).timer dir).waiting = (cli.timer dir).waiting := by
  show (Function.update cli.timer d _ dir).waiting = _
  rw [Function.update_apply]
  split
  · rename_i hd
    rw [hd]
  · rfl

/-- An update of the socket. -/
theorem update (h : w.FlagsRight c) {d : Update γ ρ υ} (hfor : d.For (.client c))
    (hconnect : d.kind ≠ .connect) (hfired : d.kind ≠ .fired)
    (hdisarm : d.kind = .disarm → w.batch = []) : (w.update sys d).FlagsRight c := by
  cases d with
  | add dir fe proc => exact h
  | del dir fe => exact h
  | delReadwrite fe => exact h
  | setFlag c' dir b => exact h.setClient (f := (·.setFlag dir b)) (fun _ _ => rfl) c'
  | armTimer c' dir ms =>
      cases hfor
      show (if _ then w else w.armTimer c dir ms).FlagsRight c
      split
      · exact h
      · rename_i hw
        exact h.armTimer (by simpa using hw) ms
  | disarmTimer c' dir =>
      cases hfor
      exact h.disarmTimer (hdisarm rfl) dir
  | startConnecting c' ms => exact absurd rfl hconnect
  | stopConnecting c' =>
      cases hfor
      show (if _ then _ else w).FlagsRight c
      split
      · refine h.set (.delTimer (.client c .write)) rfl
          ((h .write).delTimer (by rw [hdisarm rfl]; exact List.not_mem_nil)) ?_ rfl rfl
        intro d
        show ((((w.setClient c _).setClient c _).clients c).timer d).waiting = _
        rw [← waiting_set w c .write false d]
        show ((Function.update (w.setClient c _).clients c _ c).timer d).waiting = _
        rw [Function.update_self, waiting_setConnecting]
      · exact h
  | timerFired c' dir => exact absurd rfl hfired
  | connectTimeout c' =>
      exact h.setClient (f := (·.setConnecting .write false))
        (fun cli dir => waiting_setConnecting cli .write false dir) c'
  | allocate o => exact h
  | setFe c' fe => exact absurd rfl hconnect
  | setBuf c' buf taken => exact h.setClient (f := (·.setBuf buf)) (fun _ _ => rfl) c'
  | setProcBuf p buf taken => exact h
  | delayClose c' =>
      show (if _ then _ else w).FlagsRight c
      split
      · exact h.setClient (f := fun cli => { cli with closing := true }) (fun _ _ => rfl) c'
      · exact h
  | procDelayClose p =>
      show (if _ then _ else w).FlagsRight c
      split <;> exact h
  | timer tc => exact absurd hfor id
  | enter r => exact h
  | close o => exact h

/-- An update of another object. -/
theorem update_other (h : w.FlagsRight c) {d : Update γ ρ υ} {o : Owner γ ρ} (hfor : d.For o)
    (ho : o ≠ .client c) : (w.update sys d).FlagsRight c := by
  have hkeep : ∀ {v : World γ ρ υ κ}, (v.clients c) = w.clients c → v.batch = w.batch →
      v.timers = w.timers → v.FlagsRight c := by
    intro v hc hb ht
    exact h.of_same (fun dir => by rw [hc]) ht hb
  -- a timer of another socket
  have hcall : ∀ {v : World γ ρ υ κ} (call : Timer.Call (TimerName γ υ)) {c' : γ} {dir : Dir},
      call.timer = .client c' dir → Owner.client c' = o → (v.clients c) = w.clients c →
      v.batch = w.batch → v.timers = w.timers.apply call → v.FlagsRight c := by
    intro v call c' dir htm hc' hc hb ht d
    rw [hc, hb, ht]
    refine (h d).apply ?_
    rw [htm]
    rintro ⟨⟩
    exact ho hc'.symm
  have hclients := update_clients sys w hfor ho
  have hbatch : (w.update sys d).batch = w.batch := by
    unfold World.batch
    rw [update_phase sys]
  cases d with
  | armTimer c' dir ms =>
      change ((if _ then w else w.armTimer c' dir ms) : World γ ρ υ κ).clients c = _ at hclients
      show (if _ then w else w.armTimer c' dir ms).FlagsRight c
      split
      · exact h
      · rename_i hw
        rw [if_neg hw] at hclients
        exact hcall (.addTimer (.client c' dir) ms) rfl hfor hclients rfl rfl
  | disarmTimer c' dir =>
      change ((if _ then _ else w) : World γ ρ υ κ).clients c = _ at hclients
      show (if _ then _ else w).FlagsRight c
      split
      · rename_i hw
        rw [if_pos hw] at hclients
        exact hcall (.delTimer (.client c' dir)) rfl hfor hclients rfl rfl
      · exact h
  | startConnecting c' ms =>
      exact hcall (.addTimer (.client c' .write) ms) rfl hfor hclients rfl rfl
  | stopConnecting c' =>
      change ((if _ then _ else w) : World γ ρ υ κ).clients c = _ at hclients
      show (if _ then _ else w).FlagsRight c
      split
      · rename_i hw
        rw [if_pos hw] at hclients
        exact hcall (.delTimer (.client c' .write)) rfl hfor hclients rfl rfl
      · exact h
  | timer tc => exact absurd hfor id
  | delayClose c' =>
      refine hkeep hclients hbatch ?_
      show (if _ then _ else w).timers = w.timers
      split <;> rfl
  | procDelayClose p =>
      refine hkeep hclients hbatch ?_
      show (if _ then _ else w).timers = w.timers
      split <;> rfl
  | _ => exact hkeep hclients hbatch rfl

end FlagsRight

/-- **The functions of an object** keep the flags right; they disarm outside of
`trigger_timers` only. -/
theorem Updates.flagsRight {sys : Sys γ ρ κ} {w w' : World γ ρ υ κ} {c : γ} {o : Owner γ ρ}
    {ks : List Kind} (hd : Updates sys (Within o ks) w w')
    (hk : o = .client c → .connect ∉ ks ∧ .fired ∉ ks ∧ (.disarm ∈ ks → w.batch = []))
    (h : w.FlagsRight c) : w'.FlagsRight c := by
  refine (hd.keeps (P := fun v => v.phase = w.phase ∧ v.FlagsRight c) ?_ ⟨rfl, h⟩).2
  intro v d hq hv
  refine ⟨(update_phase sys v d).trans hv.1, ?_⟩
  by_cases ho : o = .client c
  · subst ho
    obtain ⟨hconnect, hfired, hdisarm⟩ := hk rfl
    refine hv.2.update hq.1 (fun h => hconnect (h ▸ hq.2)) (fun h => hfired (h ▸ hq.2)) ?_
    intro h
    unfold World.batch
    rw [hv.1]
    exact hdisarm (h ▸ hq.2)
  · exact hv.2.update_other hq.1 ho

namespace FlagsRight

variable {sys : Sys γ ρ κ} {w w' : World γ ρ υ κ} {c : γ}

omit [DecidableEq ρ] in
/-- A timer of the program. -/
theorem userTimer (h : w.FlagsRight c) {call : Timer.Call (TimerName γ υ)} {u : υ}
    (hc : call.timer = .user u) : (w.setTimers (w.timers.apply call)).FlagsRight c := by
  intro dir
  refine (h dir).apply ?_
  rw [hc]
  rintro ⟨⟩

/-- **A connect** whose write timer does not wait. -/
theorem connectAwait (h : w.FlagsRight c) (hw : ((w.clients c).timer .write).waiting = false)
    (ms : Int) (connected : Bool) : (w.connectAwait sys c ms connected).2.FlagsRight c := by
  unfold World.connectAwait
  split
  · exact h
  · dsimp only
    split
    · exact h.of_same (fun _ => rfl) rfl rfl
    · -- the new file is set, and no timer touched yet
      generalize hv : (((w.allocate (.client c)).2.addEvent sys .write (w.allocate (.client c)).1
        .connectCallback).2.setClient c fun cli =>
          { cli with fe := some (w.allocate (.client c)).1 } : World γ ρ υ κ) = v
      have hset : v.FlagsRight c := by
        rw [← hv]
        refine FlagsRight.setClient
          (f := fun cli => { cli with fe := some (w.allocate (.client c)).1 })
          ?_ (fun _ _ => rfl) c
        exact h.of_same (fun _ => rfl) rfl rfl
      have hvw : ((v.clients c).timer .write).waiting = false := by
        rw [← hw, ← hv]
        show ((Function.update w.clients c _ c).timer .write).waiting = _
        rw [Function.update_self]
        rfl
      split
      · exact hset
      · have hdir := hset .write
        rw [hvw] at hdir
        refine hset.set (.addTimer (.client c .write) ms) rfl (hdir.addTimer ms) ?_ rfl rfl
        intro d
        have hconnecting : ∀ d,
            ((((v.setTimers (v.timers.addTimer (.client c .write) ms)).setClient c
            (·.setConnecting .write true)).clients c).timer d).waiting
              = ((v.clients c).timer d).waiting := by
          intro d
          show ((Function.update v.clients c _ c).timer d).waiting = _
          rw [Function.update_self, waiting_setConnecting]
          rfl
        dsimp only
        rw [waiting_set, hconnecting]

theorem perform (h : w.FlagsRight c) (hown : w.Owned) {call : Call γ ρ υ}
    (hconnect : ∀ ms connected, call = .connectAwait c ms connected →
      ((w.clients c).timer .write).waiting = false)
    {r : Int × (Int × Nat) × World γ ρ υ κ} (hr : w.perform sys call = some r) :
    r.2.2.FlagsRight c := by
  cases ho : call.owner with
  | none =>
      exact perform_user hown ho hr (P := fun v => v.FlagsRight c)
        (fun _ _ _ hu hv => hv.userTimer hu) h
  | some o =>
      have hin := perform_within hown ho hr
      by_cases hc : o = .client c
      · subst hc
        cases call with
        | connectAwait c' ms connected =>
            cases ho
            cases hr
            exact h.connectAwait (hconnect ms connected rfl) ms connected
        | _ => exact hin.flagsRight (fun _ => by simp [Call.kinds]) h
      · exact hin.flagsRight (fun he => absurd he hc) h

/-- The vector comes to a timer. -/
theorem fire (sys : Sys γ ρ κ) (h : w.FlagsRight c) {t : TimerName γ υ}
    {batch : List (TimerName γ υ)} {flag : Option (γ × Dir)}
    (hp : w.phase = .timers (t :: batch) flag) : (w.fire t batch).FlagsRight c := by
  have hbatch : w.batch = t :: batch := by
    unfold World.batch
    rw [hp]
  -- it leaves the vector, and no longer waits
  have hleft : ∀ {v : World γ ρ υ κ} {dir : Dir}, v.timers = w.timers → v.batch = batch →
      ((v.clients c).timer dir).waiting = ((w.clients c).timer dir).waiting →
      t ≠ .client c dir → Timer.Armed v.timers v.batch (.client c dir)
        ((v.clients c).timer dir).waiting := by
    intro v dir ht hb hw hne
    have hdir := h dir
    rw [hbatch] at hdir
    rw [ht, hb, hw]
    exact hdir.skip hne
  cases t with
  | user u =>
      intro dir
      exact hleft rfl rfl rfl (by rintro ⟨⟩)
  | client c' dir' =>
      have hd : Updates sys _ _ (w.fire (.client c' dir') batch) := fired_updates c' dir'
      refine hd.flagsRight (fun _ => by simp) ?_
      intro dir
      rcases eq_or_ne c c' with rfl | hne
      · by_cases hd : dir = dir'
        · subst hd
          rw [waiting_set, if_pos rfl]
          have hdir := h dir
          rw [hbatch] at hdir
          exact hdir.fire
        · refine hleft rfl rfl ?_ ?_
          · rw [waiting_set, if_neg hd]
            rfl
          · rintro ⟨⟩
            exact hd rfl
      · refine hleft rfl rfl ?_ ?_
        · show ((Function.update w.clients c' _ c).timer dir).waiting = _
          rw [Function.update_of_ne hne]
        · rintro ⟨⟩
          exact hne rfl

/-- **A step of `wait`.** -/
theorem move (h : w.FlagsRight c) (hown : w.Owned) {answer : Answer} (hm : Move sys answer w w') :
    w'.FlagsRight c := by
  have hown' : ∀ phase, (w.setPhase phase).Owned := fun _ => ⟨hown.client, hown.proc⟩
  -- outside of `trigger_timers` the vector is empty
  have hlate : ∀ {phase : Phase γ ρ υ}, w.batch = [] → (w.setPhase phase).batch = [] →
      (w.setPhase phase).FlagsRight c :=
        fun hb hb' => h.of_same (fun _ => rfl) rfl (hb'.trans hb.symm)
  have hupdates : ∀ {phase : Phase γ ρ υ} {o : Owner γ ρ} {ks : List Kind}, w.batch = [] →
      (w.setPhase phase).batch = [] → Updates sys (Within o ks) (w.setPhase phase) w' →
      .connect ∉ ks → .fired ∉ ks → w'.FlagsRight c := fun hb hb' hd hconnect hfired =>
    hd.flagsRight (fun _ => ⟨hconnect, hfired, fun _ => hb'⟩) (hlate hb hb')
  cases hm with
  | procClose hp hi =>
      exact hupdates (by simp [World.batch, hp]) rfl (procClose_updates _) (by decide) (by decide)
  | procsDone hp hi => exact h.of_same (fun _ => rfl) rfl (by simp [World.batch, hp, setPhase])
  | close hp hi =>
      exact hupdates (by simp [World.batch, hp]) rfl (close_updates _) (by decide) (by decide)
  | clientsDone hp hi => exact h.of_same (fun _ => rfl) rfl (by simp [World.batch, hp, setPhase])
  | fetch hp =>
      have hb : w.batch = [] := by simp [World.batch, hp]
      intro dir
      have hdir := h dir
      rw [hb] at hdir
      exact hdir.setStamp _
  | skip hp hl => exact hlate (by simp [World.batch, hp]) rfl
  | read hp hl hptr hhit hproc hc =>
      refine hupdates (by simp [World.batch, hp]) rfl (callback_updates (hown' _) hc) ?_ ?_
      · rename_i proc
        cases proc <;> decide
      · rename_i proc
        cases proc <;> decide
  | write hp hc =>
      refine hupdates (by simp [World.batch, hp]) rfl (callback_updates (hown' _) hc) ?_ ?_
      · rename_i proc
        cases proc <;> decide
      · rename_i proc
        cases proc <;> decide
  | trigger hp =>
      have hb : w.batch = [] := by simp [World.batch, hp]
      unfold triggerTimers
      split
      · intro dir
        have hdir := h dir
        rw [hb] at hdir
        exact hdir.collect
      · exact hlate hb rfl
  | clearFlag hp =>
      rename_i batch c' dir'
      have hin : (w.setPhase (.timers batch none)).FlagsRight c :=
        h.of_same (fun _ => rfl) rfl (by simp [World.batch, hp, setPhase])
      exact hin.setClient (f := (·.setFlag dir' false)) (fun _ _ => rfl) c'
  | fire hp => exact h.fire sys hp
  | done hp => exact h.of_same (fun _ => rfl) rfl (by simp [World.batch, hp, setPhase])

/-- **One step.** -/
theorem step (h : w.FlagsRight c) (hown : w.Owned) {l : Label γ ρ υ}
    (hconnect : ∀ ms connected, l = .call (.connectAwait c ms connected) →
      ((w.clients c).timer .write).waiting = false)
    (hs : w.step sys l = some w') : w'.FlagsRight c := by
  cases stepped hs with
  | call hm hp =>
      have hcall := h.perform hown (fun ms connected he => hconnect ms connected (by rw [he])) hp
      exact hcall.of_same (fun _ => rfl) rfl rfl
  | ret hr => exact h.of_same (fun _ => rfl) rfl rfl
  | wait hr hp => exact h.of_same (fun _ => rfl) rfl (by simp [World.batch, hp, setPhase])
  | next hr hm => exact h.move hown hm

end FlagsRight

omit [DecidableEq ρ] in
theorem flagsRight_start (setup : Setup γ ρ) (oneshot direct : Bool) (setsize : Int)
    (fd : File γ ρ → Int) (backend : κ) (sec nsec : Int) (c : γ) :
    (World.start setup oneshot direct setsize fd backend sec nsec :
      World γ ρ υ κ).FlagsRight c := by
  intro dir
  refine ⟨?_, rfl⟩
  intro e he
  cases he

end World

end Libnio.Socket
