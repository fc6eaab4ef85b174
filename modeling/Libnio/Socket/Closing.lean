import Libnio.Socket.Step

/-!
# Socket — every close happens once

The two lists of objects to be closed over whole runs: what `close_await` puts
into them, what the loops of `before_wait` take out of them while their
handlers go on to fill them, and what is left when they are cleared. Rounds are
counted by the calls of `wait`.
-/

namespace Libnio.Socket

open Event (Dir)

variable {γ ρ υ κ : Type}

/-! ## What a log says -/

/-- The object that a call closes. -/
def Call.closes : Call γ ρ υ → Option (Owner γ ρ)
  | .closeAwait c => some (.client c)
  | .procCloseAwait p => some (.proc p)
  | .connectAwait _ _ _ => none
  | .readAwait _ _ => none
  | .writeAwait _ _ => none
  | .write _ _ _ _ => none
  | .readDisable _ => none
  | .writeDisable _ => none
  | .readwriteDisable _ => none
  | .procConnectAwait _ => none
  | .procReadAwait _ => none
  | .procWriteAwait _ => none
  | .procWrite _ _ _ => none
  | .procReadDisable _ => none
  | .procWriteDisable _ => none
  | .addTimer _ _ => none
  | .delTimer _ => none
  | .resetTimer _ _ => none

/-- What has happened to one object: how many rounds there were, in which of
them and by which handler `close_await` was called first, and the rounds in
which it was closed. -/
structure Closings (γ ρ υ : Type) where
  rounds : Nat
  opened : Option (Nat × Option (Running γ ρ υ))
  closed : List Nat

section Log

variable [DecidableEq γ] [DecidableEq ρ]

def Closings.step (o : Owner γ ρ) (h : Closings γ ρ υ) : Act γ ρ υ → Closings γ ρ υ
  | .call c by_ _ _ =>
      if c.closes = some o ∧ h.opened.isNone then { h with opened := some (h.rounds, by_) } else h
  | .taken _ _ => h
  | .enter _ => h
  | .close o' => if o' = o then { h with closed := h.closed ++ [h.rounds] } else h
  | .wait => { h with rounds := h.rounds + 1 }

def closings (o : Owner γ ρ) (log : List (Act γ ρ υ)) : Closings γ ρ υ :=
  log.foldl (Closings.step o) ⟨0, none, []⟩

@[simp] theorem closings_append (o : Owner γ ρ) (log : List (Act γ ρ υ)) (a : Act γ ρ υ) :
    closings o (log ++ [a]) = (closings o log).step o a := by
  simp [closings]

end Log

/-- It is the close handler of a proc. -/
def Running.isProcClose : Running γ ρ υ → Bool
  | .client _ _ _ _ => false
  | .proc _ h _ => h = .onClose
  | .onTimer _ => false

/-- The round that an object is to be closed in: the round itself for a call by a
close handler whose own list comes first or is the same, else the next one. -/
def due (o : Owner γ ρ) (x : Nat × Option (Running γ ρ υ)) : Nat :=
  match o with
  | .client _ => if x.2.any Running.isClose then x.1 else x.1 + 1
  | .proc _ => if x.2.any Running.isProcClose then x.1 else x.1 + 1

/-! ## Where the lists stand -/

namespace World

/-- The sockets that the second loop has yet to come to. -/
def pendingClients (w : World γ ρ υ κ) : List γ :=
  match w.phase with
  | .clientsFree i => w.clientsFree.drop i
  | _ => w.clientsFree

/-- The procs that the first loop has yet to come to. -/
def pendingProcs (w : World γ ρ υ κ) : List ρ :=
  match w.phase with
  | .procsFree i => w.procsFree.drop i
  | _ => w.procsFree

/-- `before_wait` is running. -/
def beforeWait (w : World γ ρ υ κ) : Bool :=
  match w.phase with
  | .procsFree _ => true
  | .clientsFree _ => true
  | _ => false

/-- The first loop of `before_wait` is running. -/
def inProcsFree (w : World γ ρ υ κ) : Bool :=
  match w.phase with
  | .procsFree _ => true
  | _ => false

/-- Close handlers run in their own loop and nowhere else. -/
def Placed (w : World γ ρ υ κ) : Prop :=
  ∀ r ∈ w.running, r.isClose = w.beforeWait ∧ r.isProcClose = w.inProcsFree

/-- The place in a list is not behind its end. -/
def InList (w : World γ ρ υ κ) : Prop :=
  match w.phase with
  | .procsFree i => i ≤ w.procsFree.length
  | .clientsFree i => i ≤ w.clientsFree.length
  | _ => True

/-- The lists grow behind where the loops are. -/
theorem InList.grows {w v : World γ ρ υ κ} (h : w.InList) (hp : v.phase = w.phase)
    (hclients : w.clientsFree.length ≤ v.clientsFree.length)
    (hprocs : w.procsFree.length ≤ v.procsFree.length) : v.InList := by
  unfold InList at h ⊢
  rw [hp]
  cases hph : w.phase with
  | clientsFree i =>
      rw [hph] at h
      exact Nat.le_trans h hclients
  | procsFree i =>
      rw [hph] at h
      exact Nat.le_trans h hprocs
  | idle => trivial
  | poll => trivial
  | dispatch batch wProc => trivial
  | timers batch flag => trivial

/-- What is put into the list comes last in the rest of it. -/
theorem pendingClients_push {w v : World γ ρ υ κ} {c : γ} (hin : w.InList)
    (hp : v.phase = w.phase) (hf : v.clientsFree = w.clientsFree ++ [c]) :
    v.pendingClients = w.pendingClients ++ [c] := by
  unfold pendingClients InList at *
  rw [hp, hf]
  cases hph : w.phase with
  | clientsFree i =>
      rw [hph] at hin
      exact List.drop_append_of_le_length hin
  | procsFree i => rfl
  | idle => rfl
  | poll => rfl
  | dispatch batch wProc => rfl
  | timers batch flag => rfl

theorem pendingProcs_push {w v : World γ ρ υ κ} {p : ρ} (hin : w.InList)
    (hp : v.phase = w.phase) (hf : v.procsFree = w.procsFree ++ [p]) :
    v.pendingProcs = w.pendingProcs ++ [p] := by
  unfold pendingProcs InList at *
  rw [hp, hf]
  cases hph : w.phase with
  | procsFree i =>
      rw [hph] at hin
      exact List.drop_append_of_le_length hin
  | clientsFree i => rfl
  | idle => rfl
  | poll => rfl
  | dispatch batch wProc => rfl
  | timers batch flag => rfl

end World

/-- What is known of an object with this flag and so many places in the rest of
its list: what is in there is closed in this round while its loop may still come
to it (`now`), else in the next. -/
def Tracked (o : Owner γ ρ) (closing : Bool) (pending : Nat) (now : Bool) (h : Closings γ ρ υ) :
    Prop :=
  match h.opened with
  | none => closing = false ∧ pending = 0 ∧ h.closed = []
  | some x => closing = true ∧
      (pending = 1 ∧ h.closed = [] ∧ due o x = (if now then h.rounds else h.rounds + 1) ∨
        pending = 0 ∧ h.closed = [due o x])

/-- Every object is where its log says. -/
structure Orderly [DecidableEq γ] [DecidableEq ρ] (w : World γ ρ υ κ) : Prop where
  owned : w.Owned
  placed : w.Placed
  inList : w.InList
  client : ∀ c, Tracked (.client c) (w.clients c).closing (w.pendingClients.count c) w.beforeWait
    (closings (.client c) w.log)
  proc : ∀ p, (w.procs p).fe.isSome = true → Tracked (.proc p) (w.procs p).closing
    (w.pendingProcs.count p) w.inProcsFree (closings (.proc p) w.log)

namespace Tracked

variable {o : Owner γ ρ} {closing now now' : Bool} {pending : Nat} {h : Closings γ ρ υ}

/-- An object that is taken up for the first time, by a handler of this round or
not. -/
theorem open_ (ht : Tracked o closing pending now h) (hc : closing = false)
    {by_ : Option (Running γ ρ υ)}
    (hdue : due o (h.rounds, by_) = if now then h.rounds else h.rounds + 1) :
    h.opened = none ∧
      Tracked o true (pending + 1) now { h with opened := some (h.rounds, by_) } := by
  unfold Tracked at ht
  cases hopen : h.opened with
  | none =>
      rw [hopen] at ht
      obtain ⟨-, hp, hcl⟩ := ht
      exact ⟨rfl, rfl, .inl ⟨by omega, hcl, hdue⟩⟩
  | some x =>
      rw [hopen] at ht
      rw [hc] at ht
      cases ht.1

/-- An object that is closing already was taken up before. -/
theorem opened (ht : Tracked o closing pending now h) (hc : closing = true) :
    h.opened.isNone = false := by
  unfold Tracked at ht
  cases hopen : h.opened with
  | none =>
      rw [hopen, hc] at ht
      cases ht.1
  | some x => rfl

/-- What is in the list is closing. -/
theorem isClosing (ht : Tracked o closing pending now h) (hp : 0 < pending) : closing = true := by
  unfold Tracked at ht
  cases hopen : h.opened with
  | none =>
      rw [hopen] at ht
      omega
  | some x =>
      rw [hopen] at ht
      exact ht.1

/-- The loop comes to the object. -/
theorem close (ht : Tracked o closing (pending + 1) true h) :
    Tracked o closing pending true { h with closed := h.closed ++ [h.rounds] } := by
  unfold Tracked at ht ⊢
  cases hopen : h.opened with
  | none =>
      rw [hopen] at ht
      obtain ⟨-, hp, -⟩ := ht
      omega
  | some x =>
      rw [hopen] at ht
      obtain ⟨hc, ⟨hp, hcl, hdue⟩ | ⟨hp, -⟩⟩ := ht
      · refine ⟨hc, .inr ⟨by omega, ?_⟩⟩
        rw [hcl, hdue]
        rfl
      · omega

/-- A new round: what was due in the next one is due in this. -/
theorem round (ht : Tracked o closing pending false h) :
    Tracked o closing pending true { h with rounds := h.rounds + 1 } := by
  unfold Tracked at ht ⊢
  cases hopen : h.opened with
  | none =>
      rw [hopen] at ht
      exact ht
  | some x =>
      rw [hopen] at ht
      exact ht

/-- With nothing left in the list its loop is over. -/
theorem past (ht : Tracked o closing 0 now h) : Tracked o closing 0 now' h := by
  unfold Tracked at ht ⊢
  cases hopen : h.opened with
  | none =>
      rw [hopen] at ht
      exact ht
  | some x =>
      rw [hopen] at ht
      obtain ⟨hc, ⟨hp, -⟩ | hcl⟩ := ht
      · cases hp
      · exact ⟨hc, .inr hcl⟩

end Tracked

/-! ## What leaves it all alone -/

variable [DecidableEq γ] [DecidableEq ρ]

/-- Nothing about closing has changed. -/
structure SameClosing (w w' : World γ ρ υ κ) : Prop where
  closing : ∀ c, (w'.clients c).closing = (w.clients c).closing
  procClosing : ∀ p, (w'.procs p).closing = (w.procs p).closing
  procFe : ∀ p, (w'.procs p).fe = (w.procs p).fe
  clientsFree : w'.clientsFree = w.clientsFree
  procsFree : w'.procsFree = w.procsFree
  phase : w'.phase = w.phase
  log : ∀ o, closings o w'.log = closings o w.log

namespace SameClosing

variable {w w' w'' : World γ ρ υ κ}

theorem refl (w : World γ ρ υ κ) : SameClosing w w :=
  ⟨fun _ => rfl, fun _ => rfl, fun _ => rfl, rfl, rfl, rfl, fun _ => rfl⟩

theorem trans (h : SameClosing w w') (h' : SameClosing w' w'') : SameClosing w w'' :=
  ⟨fun c => (h'.closing c).trans (h.closing c), fun p => (h'.procClosing p).trans (h.procClosing p),
    fun p => (h'.procFe p).trans (h.procFe p), h'.clientsFree.trans h.clientsFree,
    h'.procsFree.trans h.procsFree, h'.phase.trans h.phase, fun o => (h'.log o).trans (h.log o)⟩

theorem setEv (w : World γ ρ υ κ) (ev : Event.NioEvent (File γ ρ) κ Callback) :
    SameClosing w (w.setEv ev) :=
  ⟨fun _ => rfl, fun _ => rfl, fun _ => rfl, rfl, rfl, rfl, fun _ => rfl⟩

theorem setTimers (w : World γ ρ υ κ) (timers : Timer.Timers (TimerName γ υ)) :
    SameClosing w (w.setTimers timers) :=
  ⟨fun _ => rfl, fun _ => rfl, fun _ => rfl, rfl, rfl, rfl, fun _ => rfl⟩

theorem setClient (w : World γ ρ υ κ) (c : γ) {f : ClientSocket γ ρ → ClientSocket γ ρ}
    (hf : (f (w.clients c)).closing = (w.clients c).closing) : SameClosing w (w.setClient c f) := by
  refine ⟨?_, fun _ => rfl, fun _ => rfl, rfl, rfl, rfl, fun _ => rfl⟩
  intro c'
  show (Function.update w.clients c (f (w.clients c)) c').closing = _
  rcases eq_or_ne c' c with rfl | hc
  · rw [Function.update_self, hf]
  · rw [Function.update_of_ne hc]

theorem setProcBuf (w : World γ ρ υ κ) (p : ρ) (buf : List UInt8) :
    SameClosing w (w.setProc p fun proc => { proc with buf }) := by
  have hp : ∀ p', ((w.setProc p fun proc => { proc with buf }).procs p').closing
        = (w.procs p').closing ∧
      ((w.setProc p fun proc => { proc with buf }).procs p').fe = (w.procs p').fe := by
    intro p'
    rcases eq_or_ne p' p with rfl | hne
    · simp [World.setProc]
    · simp [World.setProc, hne]
  exact ⟨fun _ => rfl, fun p' => (hp p').1, fun p' => (hp p').2, rfl, rfl, rfl, fun _ => rfl⟩

theorem logged (w : World γ ρ υ κ) {a : Act γ ρ υ} (ha : ∀ o h, Closings.step o h a = h) :
    SameClosing w (w.logged a) := by
  refine ⟨fun _ => rfl, fun _ => rfl, fun _ => rfl, rfl, rfl, rfl, ?_⟩
  intro o
  show closings o (w.log ++ [a]) = _
  rw [closings_append, ha]

theorem enter (w : World γ ρ υ κ) (r : Running γ ρ υ) : SameClosing w (w.enter r) := by
  refine ⟨fun _ => rfl, fun _ => rfl, fun _ => rfl, rfl, rfl, rfl, ?_⟩
  intro o
  show closings o (w.log ++ [.enter r]) = _
  rw [closings_append]
  rfl

variable [DecidableEq υ] {sys : Sys γ ρ κ}

theorem disarmTimer (w : World γ ρ υ κ) (c : γ) (dir : Dir) :
    SameClosing w (w.disarmTimer c dir) := by
  unfold World.disarmTimer
  split
  · exact (setTimers w _).trans (setClient _ c (f := (·.setWaiting dir false)) rfl)
  · exact refl w

/-- Only the kinds that are about closing touch it. -/
theorem update (w : World γ ρ υ κ) {d : Update γ ρ υ} (hq : d.kind ≠ .queue)
    (hc : d.kind ≠ .close) :
    SameClosing w (w.update sys d) := by
  cases d with
  | add dir fe proc => exact setEv w _
  | del dir fe => exact setEv w _
  | delReadwrite fe => exact setEv w _
  | setFlag c dir b => exact setClient w c (f := (·.setFlag dir b)) rfl
  | armTimer c dir ms =>
      show SameClosing w (if _ then w else w.armTimer c dir ms)
      split
      · exact refl w
      · exact (setTimers w _).trans (setClient _ c (f := (·.setWaiting dir true)) rfl)
  | disarmTimer c dir => exact disarmTimer w c dir
  | startConnecting c ms =>
      exact ((setTimers w _).trans (setClient _ c (f := (·.setConnecting .write true)) rfl)).trans
        (setClient _ c (f := (·.setWaiting .write true)) rfl)
  | stopConnecting c =>
      show SameClosing w (if _ then _ else w)
      split
      · exact ((setClient w c (f := (·.setWaiting .write false)) rfl).trans
          (setClient _ c (f := (·.setConnecting .write false)) rfl)).trans (setTimers _ _)
      · exact refl w
  | timerFired c dir => exact setClient w c (f := (·.setWaiting dir false)) rfl
  | connectTimeout c => exact setClient w c (f := (·.setConnecting .write false)) rfl
  | allocate o => exact ⟨fun _ => rfl, fun _ => rfl, fun _ => rfl, rfl, rfl, rfl, fun _ => rfl⟩
  | setFe c fe => exact setClient w c (f := fun cli => { cli with fe := some fe }) rfl
  | setBuf c buf taken =>
      exact (setClient w c (f := (·.setBuf buf)) rfl).trans (logged _ fun _ _ => rfl)
  | setProcBuf p buf taken => exact (setProcBuf w p buf).trans (logged _ fun _ _ => rfl)
  | delayClose c => exact absurd rfl hq
  | procDelayClose p => exact absurd rfl hq
  | timer c => exact setTimers w _
  | enter r => exact enter w r
  | close o => exact absurd rfl hc

end SameClosing

namespace World.Updates

variable [DecidableEq υ] {sys : Sys γ ρ κ} {w w' : World γ ρ υ κ}

theorem sameClosing {o : Owner γ ρ} {ks : List Kind} (h : Updates sys (Within o ks) w w')
    (hq : Kind.queue ∉ ks) (hc : Kind.close ∉ ks) : SameClosing w w' := by
  refine h.keeps (P := fun v => SameClosing w v) ?_ (SameClosing.refl w)
  intro v d hd hv
  refine hv.trans (SameClosing.update v ?_ ?_)
  · intro hk
    exact hq (hk ▸ hd.2)
  · intro hk
    exact hc (hk ▸ hd.2)

/-- A handler that is entered on the way is of these kinds. -/
theorem running {o : Owner γ ρ} {ks : List Kind} (h : Updates sys (Within o ks) w w') :
    w'.running = w.running ∨
      ∃ r : Running γ ρ υ, w'.running = some r ∧ (Update.enter r).kind ∈ ks := by
  refine h.keeps (P := fun v => v.running = w.running ∨
    ∃ r : Running γ ρ υ, v.running = some r ∧ (Update.enter r).kind ∈ ks) ?_ (.inl rfl)
  intro v d hd hv
  have hsame : ∀ v' : World γ ρ υ κ, v'.running = v.running →
      (v'.running = w.running ∨
        ∃ r : Running γ ρ υ, v'.running = some r ∧ (Update.enter r).kind ∈ ks) := by
    intro v' he
    rw [he]
    exact hv
  cases d with
  | enter r => exact .inr ⟨r, rfl, hd.2⟩
  | armTimer c dir ms =>
      refine hsame _ ?_
      simp only [World.update]
      split <;> rfl
  | disarmTimer c dir =>
      refine hsame _ ?_
      simp only [World.update, World.disarmTimer]
      split <;> rfl
  | stopConnecting c =>
      refine hsame _ ?_
      simp only [World.update]
      split <;> rfl
  | delayClose c =>
      refine hsame _ ?_
      simp only [World.update, World.delayClose]
      split <;> rfl
  | procDelayClose p =>
      refine hsame _ ?_
      simp only [World.update, World.procDelayClose]
      split <;> rfl
  | add dir fe proc => exact hsame _ rfl
  | del dir fe => exact hsame _ rfl
  | delReadwrite fe => exact hsame _ rfl
  | setFlag c dir b => exact hsame _ rfl
  | startConnecting c ms => exact hsame _ rfl
  | timerFired c dir => exact hsame _ rfl
  | connectTimeout c => exact hsame _ rfl
  | allocate o => exact hsame _ rfl
  | setFe c fe => exact hsame _ rfl
  | setBuf c buf taken => exact hsame _ rfl
  | setProcBuf p buf taken => exact hsame _ rfl
  | timer c => exact hsame _ rfl
  | close o => exact hsame _ rfl

/-- A callback enters no close handler. -/
theorem running_open {o : Owner γ ρ} {ks : List Kind} (h : Updates sys (Within o ks) w w')
    (hk : Kind.enterClose ∉ ks) :
    w'.running = w.running ∨ ∃ r, w'.running = some r ∧ r.isClose = false := by
  rcases h.running with hr | ⟨r, hr, hin⟩
  · exact .inl hr
  · refine .inr ⟨r, hr, ?_⟩
    by_contra hne
    rw [Bool.not_eq_false] at hne
    refine hk ?_
    simpa [Update.kind, hne] using hin

end World.Updates

/-- A call that does not close leaves it all alone. -/
theorem perform_sameClosing [DecidableEq υ] {sys : Sys γ ρ κ} {w : World γ ρ υ κ} (hown : w.Owned)
    {c : Call γ ρ υ} (hc : c.closes = none) {r : Int × (Int × Nat) × World γ ρ υ κ}
    (h : w.perform sys c = some r) : SameClosing w r.2.2 ∧ r.2.2.running = w.running := by
  cases ho : c.owner with
  | none =>
      exact World.perform_user hown ho h (P := fun v => SameClosing w v ∧ v.running = w.running)
        (fun v _ _ _ hv => ⟨hv.1.trans (SameClosing.setTimers v _), hv.2⟩) ⟨SameClosing.refl w, rfl⟩
  | some o =>
      have hin := World.perform_within hown ho h
      have hkinds : Kind.queue ∉ c.kinds ∧ Kind.close ∉ c.kinds ∧ Kind.enter ∉ c.kinds ∧
          Kind.enterClose ∉ c.kinds := by
        cases c <;> simp [Call.closes] at hc <;> simp [Call.kinds]
      obtain ⟨hq, hcl, he, hec⟩ := hkinds
      refine ⟨hin.sameClosing hq hcl, ?_⟩
      rcases hin.running with hr | ⟨r, -, hr⟩
      · exact hr
      · simp only [Update.kind] at hr
        split at hr
        · exact absurd hr hec
        · exact absurd hr he

theorem World.update_procFe [DecidableEq υ] {sys : Sys γ ρ κ} (w : World γ ρ υ κ)
    (d : Update γ ρ υ) (p : ρ) : ((w.update sys d).procs p).fe = (w.procs p).fe := by
  cases d with
  | armTimer c dir ms =>
      simp only [World.update]
      split <;> rfl
  | disarmTimer c dir =>
      simp only [World.update, World.disarmTimer]
      split <;> rfl
  | stopConnecting c =>
      simp only [World.update]
      split <;> rfl
  | delayClose c =>
      simp only [World.update, World.delayClose]
      split <;> rfl
  | setProcBuf p' buf taken =>
      rcases eq_or_ne p p' with rfl | hne
      · simp [World.update, World.setProc, World.sent, World.logged]
      · simp [World.update, World.setProc, World.sent, World.logged, hne]
  | procDelayClose p' =>
      simp only [World.update, World.procDelayClose]
      split
      · rcases eq_or_ne p p' with rfl | hne
        · simp [World.setProc]
        · simp [World.setProc, hne]
      · rfl
  | _ => rfl

/-- A proc is bound for good. -/
theorem World.kept_procFe [DecidableEq υ] (sys : Sys γ ρ κ) (bound : ρ → Bool) :
    World.Kept (υ := υ) sys fun w => ∀ p, (w.procs p).fe.isSome = bound p where
  update v _ d _ h p := by rw [World.update_procFe, h]
  userTimer _ _ h := h
  onTimer _ _ h := h
  logged _ _ h := h
  setPhase _ _ h := h
  returned _ h := h
  prepare _ h := h
  epollWait _ _ h := h
  setStamp _ _ h := h
  collect _ h := h
  procsClear _ h := h
  clientsClear _ h := h

omit [DecidableEq ρ] in
theorem World.disarmTimer_running [DecidableEq υ] (w : World γ ρ υ κ) (c : γ) (dir : Dir) :
    (w.disarmTimer c dir).running = w.running := by
  unfold World.disarmTimer
  split <;> rfl

/-! ## One step -/

namespace Orderly

variable [DecidableEq υ] {sys : Sys γ ρ κ} {w w' : World γ ρ υ κ}

omit [DecidableEq υ] in
theorem of_sameClosing (h : Orderly w) (hc : SameClosing w w') (hown : w'.Owned)
    (hplaced : w'.Placed) : Orderly w' := by
  obtain ⟨hcl, hpcl, hfe, hcf, hpf, hph, hlog⟩ := hc
  refine ⟨hown, hplaced, h.inList.grows hph (by rw [hcf]) (by rw [hpf]), ?_, ?_⟩
  · intro c
    have ht := h.client c
    unfold World.pendingClients World.beforeWait at ht ⊢
    rw [hcf, hph, hcl, hlog]
    exact ht
  · intro p hp
    rw [hfe] at hp
    have ht := h.proc p hp
    unfold World.pendingProcs World.inProcsFree at ht ⊢
    rw [hpf, hph, hpcl, hlog]
    exact ht

omit [DecidableEq υ] in
/-- From one place outside of `before_wait` to another. -/
theorem setPhase (h : Orderly w) (hb : w.beforeWait = false) {phase : Phase γ ρ υ}
    (hb' : (w.setPhase phase).beforeWait = false) : Orderly (w.setPhase phase) := by
  have hrest : ∀ v : World γ ρ υ κ, v.beforeWait = false →
      v.pendingClients = v.clientsFree ∧ v.pendingProcs = v.procsFree ∧ v.inProcsFree = false := by
    intro v hv
    unfold World.beforeWait at hv
    unfold World.pendingClients World.pendingProcs World.inProcsFree
    cases hph : v.phase with
    | idle => exact ⟨rfl, rfl, rfl⟩
    | procsFree i => simp [hph] at hv
    | clientsFree i => simp [hph] at hv
    | poll => exact ⟨rfl, rfl, rfl⟩
    | dispatch batch wProc => exact ⟨rfl, rfl, rfl⟩
    | timers batch flag => exact ⟨rfl, rfl, rfl⟩
  obtain ⟨hc, hp, hi⟩ := hrest w hb
  obtain ⟨hc', hp', hi'⟩ := hrest _ hb'
  refine ⟨⟨h.owned.client, h.owned.proc⟩, ?_, ?_, ?_, ?_⟩
  · intro r hr
    have hpl := h.placed r hr
    rw [hb, hi] at hpl
    rw [hb', hi']
    exact hpl
  · unfold World.InList
    unfold World.beforeWait at hb'
    cases phase <;> trivial
  · intro c
    have ht := h.client c
    rw [hc, hb] at ht
    rw [hc', hb']
    exact ht
  · intro p hfe
    have ht := h.proc p hfe
    rw [hp, hi] at ht
    rw [hp', hi']
    exact ht

omit [DecidableEq υ] in
/-- The round that a call made now is due in. -/
theorem due_now (h : Orderly w) (hm : w.mayCall = true) (n : Nat) :
    (∀ c, due (.client c) (n, w.running) = if w.beforeWait then n else n + 1) ∧
      ∀ p, due (.proc p) (n, w.running) = if w.inProcsFree then n else n + 1 := by
  cases hr : w.running with
  | some r =>
      obtain ⟨hc, hp⟩ := h.placed r hr
      simp [due, hc, hp]
  | none =>
      -- outside of `wait`
      unfold World.mayCall at hm
      cases hph : w.phase <;> simp [hr, hph] at hm
      simp [due, World.beforeWait, World.inProcsFree, hph]

theorem perform (h : Orderly w) {c : Call γ ρ υ} (hc : c.closes = none)
    {r : Int × (Int × Nat) × World γ ρ υ κ} (hr : w.perform sys c = some r) :
    Orderly (r.2.2.logged (.call c w.running r.1 r.2.1)) := by
  obtain ⟨hcalm, hrun⟩ := perform_sameClosing h.owned hc hr
  have hlog : SameClosing r.2.2 (r.2.2.logged (.call c w.running r.1 r.2.1)) := by
    refine SameClosing.logged _ ?_
    intro o hcl
    simp [Closings.step, hc]
  refine h.of_sameClosing (hcalm.trans hlog) ?_ ?_
  · have hown := (World.kept_owned sys).perform h.owned hr h.owned
    exact ⟨hown.client, hown.proc⟩
  · intro x hx
    have hpl := h.placed x (hrun ▸ hx)
    unfold World.beforeWait World.inProcsFree at hpl ⊢
    rw [(hcalm.trans hlog).phase]
    exact hpl

omit [DecidableEq υ] in
/-- The first `close_await` of a socket puts it into the list. -/
theorem closeAwait_eq (sys : Sys γ ρ κ) {c : γ} (hcl : (w.clients c).closing = false) :
    ∃ ev, w.closeAwait sys c = { w.setClient c (fun cli => { cli with closing := true }) with
      ev, clientsFree := w.clientsFree ++ [c] } := by
  unfold World.closeAwait
  simp only [hcl, Bool.not_false, if_true]
  split
  · rename_i fe _
    split
    · exact ⟨w.ev.delReadwrite sys.host fe, by
        simp [World.delayClose, World.setClient, World.delReadwrite, World.setEv, hcl]⟩
    · exact ⟨w.ev, by simp [World.delayClose, World.setClient, hcl]⟩
  · exact ⟨w.ev, by simp [World.delayClose, World.setClient, hcl]⟩

omit [DecidableEq υ] in
/-- A `close_await` that is not the first does nothing. -/
theorem closeAwait_closing (h : Orderly w) {c : γ} (hcl : (w.clients c).closing = true)
    (ret : Int) (copied : Int × Nat) :
    Orderly ((w.closeAwait sys c).logged (.call (.closeAwait c) w.running ret copied)) := by
  have heq : w.closeAwait sys c = w := by simp [World.closeAwait, hcl]
  rw [heq]
  refine h.of_sameClosing ⟨fun _ => rfl, fun _ => rfl, fun _ => rfl, rfl, rfl, rfl, ?_⟩
    ⟨h.owned.client, h.owned.proc⟩ h.placed
  intro o
  show closings o (w.log ++ [_]) = _
  rw [closings_append]
  simp only [Closings.step, Call.closes, Option.some.injEq]
  by_cases ho : Owner.client c = o
  · subst ho
    simp [(h.client c).opened hcl]
  · simp [ho]

omit [DecidableEq υ] in
/-- `close_await` of a socket. -/
theorem closeAwait (h : Orderly w) (hm : w.mayCall = true) (c : γ) (ret : Int)
    (copied : Int × Nat) :
    Orderly ((w.closeAwait sys c).logged (.call (.closeAwait c) w.running ret copied)) := by
  cases hcl : (w.clients c).closing with
  | true => exact h.closeAwait_closing hcl ret copied
  | false =>
      obtain ⟨ev, heq⟩ := closeAwait_eq sys hcl
      have hown := (h.owned.setClient c (f := fun cli => { cli with closing := true }) fun _ => rfl)
      rw [heq]
      refine ⟨⟨hown.client, hown.proc⟩, h.placed,
        h.inList.grows rfl (by simp [World.logged]) (Nat.le_refl _), ?_, ?_⟩
      · intro c'
        rw [World.pendingClients_push (c := c) h.inList]
        case hp => rfl
        case hf => rfl
        show Tracked _ (Function.update w.clients c _ c').closing _ w.beforeWait
          (closings _ (w.log ++ [_]))
        rw [closings_append]
        rcases eq_or_ne c' c with rfl | hne
        · obtain ⟨hopen, ht⟩ := (h.client c').open_ hcl ((h.due_now hm _).1 c')
          simpa [Closings.step, Call.closes, hopen] using ht
        · simpa [Closings.step, Call.closes, hne, hne.symm] using h.client c'
      · intro p hp
        have ht := h.proc p hp
        show Tracked _ (w.procs p).closing (w.pendingProcs.count p) w.inProcsFree
          (closings _ (w.log ++ [_]))
        rw [closings_append]
        simpa [Closings.step, Call.closes] using ht

omit [DecidableEq υ] in
/-- A proc that is not bound, or closing already, ignores `close_await`. -/
theorem procCloseAwait_ignored (h : Orderly w) {p : ρ}
    (hno : (w.procs p).fe = none ∨ (w.procs p).closing = true) (ret : Int) (copied : Int × Nat) :
    Orderly ((w.procCloseAwait sys p).logged (.call (.procCloseAwait p) w.running ret copied)) := by
  have heq : w.procCloseAwait sys p = w := by
    unfold World.procCloseAwait
    rcases hno with hfe | hcl
    · rw [hfe]
    · cases (w.procs p).fe <;> simp [hcl]
  rw [heq]
  refine ⟨⟨h.owned.client, h.owned.proc⟩, h.placed, h.inList, ?_, ?_⟩
  · intro c
    show Tracked _ (w.clients c).closing (w.pendingClients.count c) w.beforeWait
      (closings _ (w.log ++ [_]))
    rw [closings_append]
    simpa [Closings.step, Call.closes] using h.client c
  · intro p' hp
    have ht := h.proc p' hp
    show Tracked _ (w.procs p').closing (w.pendingProcs.count p') w.inProcsFree
      (closings _ (w.log ++ [_]))
    rw [closings_append]
    by_cases hpp : p = p'
    · subst hpp
      have hcl : (w.procs p).closing = true := by
        refine hno.resolve_left ?_
        intro hnone
        rw [show ((w.logged _).procs p).fe = (w.procs p).fe from rfl, hnone] at hp
        cases hp
      simpa [Closings.step, Call.closes, ht.opened hcl] using ht
    · simpa [Closings.step, Call.closes, hpp] using ht

omit [DecidableEq υ] in
/-- `close_await` of a proc. -/
theorem procCloseAwait (h : Orderly w) (hm : w.mayCall = true) (p : ρ) (ret : Int)
    (copied : Int × Nat) :
    Orderly ((w.procCloseAwait sys p).logged (.call (.procCloseAwait p) w.running ret copied)) := by
  by_cases hno : (w.procs p).fe = none ∨ (w.procs p).closing = true
  · exact h.procCloseAwait_ignored hno ret copied
  · obtain ⟨hfe, hcl⟩ := not_or.mp hno
    rw [Bool.not_eq_true] at hcl
    obtain ⟨fe, hfe⟩ := Option.ne_none_iff_exists'.mp hfe
    have heq : w.procCloseAwait sys p =
        { w.setProc p (fun proc => { proc with closing := true }) with
          ev := w.ev.delReadwrite sys.host fe, procsFree := w.procsFree ++ [p] } := by
      simp [World.procCloseAwait, World.procDelayClose, World.setProc, World.delReadwrite,
        World.setEv, hcl, hfe]
    have hown := h.owned.setProc p (f := fun proc => { proc with closing := true }) fun _ => rfl
    rw [heq]
    refine ⟨⟨hown.client, hown.proc⟩, h.placed,
      h.inList.grows rfl (Nat.le_refl _) (by simp [World.logged]), ?_, ?_⟩
    · intro c
      have ht := h.client c
      show Tracked _ (w.clients c).closing (w.pendingClients.count c) w.beforeWait
        (closings _ (w.log ++ [_]))
      rw [closings_append]
      simpa [Closings.step, Call.closes] using ht
    · intro p' hp
      rw [World.pendingProcs_push (p := p) h.inList]
      case hp => rfl
      case hf => rfl
      show Tracked _ (Function.update w.procs p _ p').closing _ w.inProcsFree
        (closings _ (w.log ++ [_]))
      rw [closings_append]
      rcases eq_or_ne p' p with rfl | hne
      · have ht := h.proc p' (by rw [hfe]; rfl)
        obtain ⟨hopen, ht⟩ := ht.open_ hcl ((h.due_now hm _).2 p')
        simpa [Closings.step, Call.closes, hopen] using ht
      · have ht := h.proc p' (by simpa [World.logged, World.setProc, hne] using hp)
        simpa [Closings.step, Call.closes, hne, hne.symm] using ht

omit [DecidableEq υ] in
/-- The first loop of `before_wait` comes to a proc. -/
theorem procClose (h : Orderly w) {i : Nat} {p : ρ} (hp : w.phase = .procsFree i)
    (hi : w.procsFree[i]? = some p) : Orderly ((w.setPhase (.procsFree (i + 1))).procClose p) := by
  obtain ⟨hlt, hget⟩ := List.getElem?_eq_some_iff.mp hi
  have hpend : w.pendingProcs = p :: w.procsFree.drop (i + 1) := by
    unfold World.pendingProcs
    rw [hp, ← hget]
    exact List.drop_eq_getElem_cons hlt
  have hbefore : w.beforeWait = true ∧ w.inProcsFree = true := by
    simp [World.beforeWait, World.inProcsFree, hp]
  refine ⟨⟨h.owned.client, h.owned.proc⟩, ?_, hlt, ?_, ?_⟩
  · intro r hr
    obtain rfl := Option.some.inj hr
    exact ⟨rfl, rfl⟩
  · intro c
    have ht := h.client c
    rw [hbefore.1, World.pendingClients, hp] at ht
    show Tracked _ (w.clients c).closing (w.clientsFree.count c) true
      (closings _ (w.log ++ [_] ++ [_]))
    rw [closings_append, closings_append]
    simpa [Closings.step] using ht
  · intro p' hfe
    have ht := h.proc p' hfe
    rw [hbefore.2, hpend, List.count_cons] at ht
    show Tracked _ (w.procs p').closing ((w.procsFree.drop (i + 1)).count p') true
      (closings _ (w.log ++ [_] ++ [_]))
    rw [closings_append, closings_append]
    by_cases hpp : p = p'
    · subst hpp
      simp only [beq_self_eq_true, if_true] at ht
      simpa [Closings.step] using ht.close
    · simpa [Closings.step, hpp] using ht

omit [DecidableEq υ] in
/-- It has come to the end of its list, which is cleared. -/
theorem procsDone (h : Orderly w) (hr : w.running = none) {i : Nat} (hp : w.phase = .procsFree i)
    (hi : w.procsFree[i]? = none) :
    Orderly (({ w with procsFree := [] } : World γ ρ υ κ).setPhase (.clientsFree 0)) := by
  have hpend : w.pendingProcs = [] := by
    unfold World.pendingProcs
    rw [hp]
    exact List.drop_eq_nil_of_le (List.getElem?_eq_none_iff.mp hi)
  refine ⟨⟨h.owned.client, h.owned.proc⟩, ?_, Nat.zero_le _, ?_, ?_⟩
  · intro r hrun
    change r ∈ w.running at hrun
    rw [hr] at hrun
    cases hrun
  · intro c
    have ht := h.client c
    rw [World.beforeWait, World.pendingClients, hp] at ht
    exact ht
  · intro p hfe
    have ht := h.proc p hfe
    rw [hpend] at ht
    exact ht.past

omit [DecidableEq υ] in
/-- The log of the socket that the second loop closes; `v` is the state in which its
timers are disarmed. -/
theorem close_logged (h : Orderly w) {i : Nat} {c : γ}
    (hp : w.phase = .clientsFree i) (hi : w.clientsFree[i]? = some c) {v : World γ ρ υ κ}
    (hv : SameClosing (w.setPhase (.clientsFree (i + 1))) v) (hvr : v.running = none)
    (hvo : v.Owned) : Orderly (v.logged (.close (.client c))) := by
  obtain ⟨hlt, hget⟩ := List.getElem?_eq_some_iff.mp hi
  have hpend : w.pendingClients = c :: w.clientsFree.drop (i + 1) := by
    unfold World.pendingClients
    rw [hp, ← hget]
    exact List.drop_eq_getElem_cons hlt
  have hbefore : w.beforeWait = true ∧ w.inProcsFree = false := by
    simp [World.beforeWait, World.inProcsFree, hp]
  have hphase : v.phase = .clientsFree (i + 1) := hv.phase
  have hcf : v.clientsFree = w.clientsFree := hv.clientsFree
  have hpf : v.procsFree = w.procsFree := hv.procsFree
  have hcl : ∀ c, (v.clients c).closing = (w.clients c).closing := hv.closing
  have hpcl : ∀ p, (v.procs p).closing = (w.procs p).closing := hv.procClosing
  have hfe : ∀ p, (v.procs p).fe = (w.procs p).fe := hv.procFe
  have hlog : ∀ o, closings o v.log = closings o w.log := hv.log
  refine ⟨⟨hvo.client, hvo.proc⟩, ?_, ?_, ?_, ?_⟩
  · intro r hrun
    change r ∈ v.running at hrun
    rw [hvr] at hrun
    cases hrun
  · show World.InList v
    unfold World.InList
    rw [hphase]
    show i + 1 ≤ v.clientsFree.length
    rw [hcf]
    exact hlt
  · intro c'
    have ht := h.client c'
    rw [hbefore.1, hpend, List.count_cons] at ht
    show Tracked _ (v.clients c').closing (v.pendingClients.count c') v.beforeWait
      (closings _ (v.log ++ [_]))
    rw [closings_append, hlog, hcl, World.pendingClients, World.beforeWait, hphase, hcf]
    by_cases hcc : c = c'
    · subst hcc
      simp only [beq_self_eq_true, if_true] at ht
      simpa [Closings.step] using ht.close
    · simpa [Closings.step, hcc] using ht
  · intro p hp'
    change (v.procs p).fe.isSome = true at hp'
    rw [hfe] at hp'
    have ht := h.proc p hp'
    rw [hbefore.2, World.pendingProcs, hp] at ht
    show Tracked _ (v.procs p).closing (v.pendingProcs.count p) v.inProcsFree
      (closings _ (v.log ++ [_]))
    rw [closings_append, hlog, hpcl, World.pendingProcs, World.inProcsFree, hphase, hpf]
    simpa [Closings.step] using ht

/-- The second loop comes to a socket. -/
theorem close (h : Orderly w) (hr : w.running = none) {i : Nat} {c : γ}
    (hp : w.phase = .clientsFree i) (hi : w.clientsFree[i]? = some c) :
    Orderly ((w.setPhase (.clientsFree (i + 1))).close c) := by
  -- the timers are of no concern here
  obtain ⟨v, hv, hvr, hvo, hclose⟩ : ∃ v, SameClosing (w.setPhase (.clientsFree (i + 1))) v ∧
      v.running = none ∧ v.Owned ∧ (w.setPhase (.clientsFree (i + 1))).close c
        = (v.logged (.close (.client c))).callHandler c .onClose
            (if v.clientFd c ≥ 0 then v.clientFd c else -1) false := by
    refine ⟨_,
      (SameClosing.disarmTimer _ c .read).trans (SameClosing.disarmTimer _ c .write), ?_, ?_, rfl⟩
    · rw [World.disarmTimer_running, World.disarmTimer_running]
      exact hr
    · have hown : (w.setPhase (.clientsFree (i + 1))).Owned := ⟨h.owned.client, h.owned.proc⟩
      exact (hown.disarmTimer c .read).disarmTimer c .write
  have hphase : v.phase = .clientsFree (i + 1) := hv.phase
  have hin := h.close_logged hp hi hv hvr hvo
  rw [hclose]
  unfold World.callHandler
  split
  · refine hin.of_sameClosing (SameClosing.enter _ _) ⟨hvo.client, hvo.proc⟩ ?_
    intro r hrun
    obtain rfl := Option.some.inj hrun
    have hplace : v.beforeWait = true ∧ v.inProcsFree = false := by
      simp [World.beforeWait, World.inProcsFree, hphase]
    exact ⟨hplace.1.symm, hplace.2.symm⟩
  · exact hin

omit [DecidableEq υ] in
/-- The end of the second loop. -/
theorem clientsDone (h : Orderly w) (hr : w.running = none) {i : Nat}
    (hp : w.phase = .clientsFree i) (hi : w.clientsFree[i]? = none) :
    Orderly (({ w with clientsFree := [] } : World γ ρ υ κ).setPhase .poll) := by
  have hpend : w.pendingClients = [] := by
    unfold World.pendingClients
    rw [hp]
    exact List.drop_eq_nil_of_le (List.getElem?_eq_none_iff.mp hi)
  refine ⟨⟨h.owned.client, h.owned.proc⟩, ?_, trivial, ?_, ?_⟩
  · intro r hrun
    change r ∈ w.running at hrun
    rw [hr] at hrun
    cases hrun
  · intro c
    have ht := h.client c
    rw [hpend] at ht
    exact ht.past
  · intro p hfe
    have ht := h.proc p hfe
    rw [World.inProcsFree, World.pendingProcs, hp] at ht
    exact ht

omit [DecidableEq υ] in
/-- A round begins. -/
theorem wait (h : Orderly w) (hr : w.running = none) (hp : w.phase = .idle) :
    Orderly (((w.logged .wait).setEv (w.ev.prepare sys.host)).setPhase (.procsFree 0)) := by
  refine ⟨⟨h.owned.client, h.owned.proc⟩, ?_, Nat.zero_le _, ?_, ?_⟩
  · intro r hrun
    change r ∈ w.running at hrun
    rw [hr] at hrun
    cases hrun
  · intro c
    have ht := h.client c
    rw [World.pendingClients, World.beforeWait, hp] at ht
    show Tracked _ (w.clients c).closing (w.clientsFree.count c) true (closings _ (w.log ++ [_]))
    rw [closings_append]
    exact ht.round
  · intro p hfe
    have ht := h.proc p hfe
    rw [World.pendingProcs, World.inProcsFree, hp] at ht
    show Tracked _ (w.procs p).closing (w.procsFree.count p) true (closings _ (w.log ++ [_]))
    rw [closings_append]
    exact ht.round

/-- Outside of `before_wait` a callback touches nothing of this. -/
theorem updates (h : Orderly w) (hb : w.beforeWait = false) {o : Owner γ ρ} {ks : List Kind}
    (hd : World.Updates sys (Within o ks) w w') (hq : Kind.queue ∉ ks) (hc : Kind.close ∉ ks)
    (he : Kind.enterClose ∉ ks) : Orderly w' := by
  have hcalm := hd.sameClosing hq hc
  refine h.of_sameClosing hcalm (hd.owned h.owned) ?_
  have hb' : w'.beforeWait = false := by
    unfold World.beforeWait at hb ⊢
    rw [hcalm.phase]
    exact hb
  have hi : w.inProcsFree = false ∧ w'.inProcsFree = false := by
    unfold World.beforeWait at hb hb'
    unfold World.inProcsFree
    constructor
    · cases hph : w.phase <;> simp [hph] at hb ⊢
    · cases hph : w'.phase <;> simp [hph] at hb' ⊢
  intro r hr
  rw [hb', hi.2]
  rcases hd.running_open he with hsame | ⟨x, hx, hopen⟩
  · have hpl := h.placed r (hsame ▸ hr)
    rw [hb, hi.1] at hpl
    exact hpl
  · rw [hx] at hr
    obtain rfl := Option.some.inj hr
    refine ⟨hopen, ?_⟩
    -- a close handler of a proc would be a close handler
    cases x with
    | client c hd fd timeout => rfl
    | proc p hd ok => exact hopen
    | onTimer u => rfl

theorem callback (h : Orderly w) (hb : w.beforeWait = false) {fe : File γ ρ} {proc : Callback}
    {answer : Answer} (hc : w.callback sys fe proc answer = some w') : Orderly w' := by
  have hd := World.callback_updates h.owned hc
  cases proc <;> exact h.updates hb hd (by decide) (by decide) (by decide)

/-- **A step of `wait`.** -/
theorem move (h : Orderly w) (hr : w.running = none) {answer : Answer}
    (hm : World.Move sys answer w w') : Orderly w' := by
  have hlate : ∀ {phase : Phase γ ρ υ}, w.beforeWait = false →
      (w.setPhase phase).beforeWait = false → Orderly (w.setPhase phase) := fun hb hb' =>
    h.setPhase hb hb'
  cases hm with
  | procClose hp hi => exact h.procClose hp hi
  | procsDone hp hi => exact h.procsDone hr hp hi
  | close hp hi => exact h.close hr hp hi
  | clientsDone hp hi => exact h.clientsDone hr hp hi
  | fetch hp =>
      have hb : w.beforeWait = false := by simp [World.beforeWait, hp]
      have hev := h.of_sameClosing ((SameClosing.setEv w { w.ev with
        backend := (sys.epollWait answer.ready w.ev.backend).2 }).trans
            (SameClosing.setTimers _ { w.timers with
        stamp := Timer.setStamp answer.sec answer.nsec })) ⟨h.owned.client, h.owned.proc⟩ h.placed
      exact hev.setPhase hb rfl
  | skip hp hl => exact hlate (by simp [World.beforeWait, hp]) rfl
  | read hp hl hptr hhit hproc hc =>
      exact (hlate (by simp [World.beforeWait, hp]) rfl).callback rfl hc
  | write hp hc => exact (hlate (by simp [World.beforeWait, hp]) rfl).callback rfl hc
  | trigger hp =>
      have hb : w.beforeWait = false := by simp [World.beforeWait, hp]
      unfold World.triggerTimers
      split
      · have ht :=
          h.of_sameClosing
            (SameClosing.setTimers w w.timers.collect) ⟨h.owned.client, h.owned.proc⟩ h.placed
        exact ht.setPhase hb rfl
      · exact hlate hb rfl
  | clearFlag hp =>
      rename_i batch c dir
      have hin := @hlate (.timers batch none) (by simp [World.beforeWait, hp]) rfl
      exact hin.of_sameClosing (SameClosing.setClient _ c (f := (·.setFlag dir false)) rfl)
        (hin.owned.setClient c (f := (·.setFlag dir false)) fun _ => rfl) hin.placed
  | fire hp =>
      rename_i t batch
      cases t with
      | client c dir =>
          have hin := @hlate (.timers batch (some (c, dir))) (by simp [World.beforeWait, hp]) rfl
          exact hin.updates rfl (World.onTimer_updates c dir : World.Updates sys _ _ _) (by decide)
              (by decide) (by decide)
      | user u =>
          have hin := @hlate (.timers batch none) (by simp [World.beforeWait, hp]) rfl
          refine hin.of_sameClosing (SameClosing.enter _ _) ⟨h.owned.client, h.owned.proc⟩ ?_
          intro r hrun
          obtain rfl := Option.some.inj hrun
          exact ⟨rfl, rfl⟩
  | done hp => exact hlate (by simp [World.beforeWait, hp]) rfl

/-- **Every step.** -/
theorem step (h : Orderly w) {l : Label γ ρ υ} (hs : w.step sys l = some w') : Orderly w' := by
  cases World.stepped hs with
  | call hm hp =>
      rename_i c r
      cases c with
      | closeAwait c =>
          cases hp
          exact h.closeAwait hm c _ _
      | procCloseAwait p =>
          cases hp
          exact h.procCloseAwait hm p _ _
      | _ => exact h.perform rfl hp
  | ret hr =>
      refine ⟨⟨h.owned.client, h.owned.proc⟩, ?_, h.inList, h.client, h.proc⟩
      intro r hrun
      cases hrun
  | wait hr hp => exact h.wait hr hp
  | next hr hm => exact h.move hr hm

end Orderly

/-! ## Every run -/

section Run

variable [DecidableEq υ]

omit [DecidableEq υ] in
theorem orderly_start (setup : Setup γ ρ) (oneshot direct : Bool) (setsize : Int)
    (fd : File γ ρ → Int) (backend : κ) (sec nsec : Int) :
    Orderly (World.start setup oneshot direct setsize fd backend sec nsec : World γ ρ υ κ) := by
  refine ⟨World.owned_start .., ?_, trivial, ?_, ?_⟩
  · intro r hr
    cases hr
  · intro c
    exact ⟨rfl, rfl, rfl⟩
  · intro p _
    exact ⟨rfl, rfl, rfl⟩

/-- A proc is bound to the event. -/
def Setup.bound (setup : Setup γ ρ) : Owner γ ρ → Bool
  | .client _ => true
  | .proc p => setup.procFile p

/-- **Every close happens exactly once**, in the round it is due in: whatever is
taken up by `close_await` was not closed before that round and has been closed
once when its `before_wait` is through. -/
theorem closes_once (sys : Sys γ ρ κ) (setup : Setup γ ρ) (oneshot direct : Bool) (setsize : Int)
    (fd : File γ ρ → Int) (backend : κ) (sec nsec : Int) (ls : List (Label γ ρ υ))
    (w : World γ ρ υ κ) (o : Owner γ ρ) :
    Trace.run (World.step sys) (World.start setup oneshot direct setsize fd backend sec nsec) ls
      = some w → setup.bound o = true →
    let h := closings o w.log
    (h.closed = [] ∨ ∃ x, h.opened = some x ∧ h.closed = [due o x]) ∧
      ∀ x, h.opened = some x →
        due o x < h.rounds ∨ due o x = h.rounds ∧ w.beforeWait = false → h.closed = [due o x] := by
  intro hrun hbound h
  have hw : Orderly w ∧ ∀ p, (w.procs p).fe.isSome = setup.procFile p := by
    refine Trace.run_induct (P := fun _ _ => True)
      (I := fun v => Orderly v ∧ ∀ p, (v.procs p).fe.isSome = setup.procFile p) ?_
      (Trace.meets_true _ ls) ⟨orderly_start .., ?_⟩ hrun
    · intro v l v' _ hv hs
      exact ⟨hv.1.step hs, (World.kept_procFe sys setup.procFile).step hv.1.owned hs hv.2⟩
    · intro p
      simp only [World.start]
      split
      · rename_i hp
        simp [hp]
      · rename_i hp
        simpa using hp
  -- the same for either list
  have hresult : ∀ {closing now : Bool} {pending : Nat}, Tracked o closing pending now h →
      (w.beforeWait = false → now = false) →
      (h.closed = [] ∨ ∃ x, h.opened = some x ∧ h.closed = [due o x]) ∧
        ∀ x, h.opened = some x →
          due o x < h.rounds ∨ due o x = h.rounds ∧ w.beforeWait = false →
            h.closed = [due o x] := by
    intro closing now pending ht hnow
    unfold Tracked at ht
    cases hopen : h.opened with
    | none =>
        rw [hopen] at ht
        refine ⟨.inl ht.2.2, ?_⟩
        intro x hx
        cases hx
    | some x =>
        rw [hopen] at ht
        obtain ⟨-, ⟨-, hcl, hdue⟩ | ⟨-, hcl⟩⟩ := ht
        · refine ⟨.inl hcl, ?_⟩
          intro y hy hover
          obtain rfl := Option.some.inj hy
          -- it would be due in this round at the earliest
          rcases hover with hlt | ⟨heq, hb⟩
          · split at hdue <;> omega
          · rw [hnow hb, if_neg (by decide)] at hdue
            omega
        · refine ⟨.inr ⟨x, rfl, hcl⟩, ?_⟩
          intro y hy _
          obtain rfl := Option.some.inj hy
          exact hcl
  cases o with
  | client c => exact hresult (hw.1.client c) id
  | proc p =>
      refine hresult (hw.1.proc p ((hw.2 p).trans hbound)) ?_
      intro hb
      unfold World.beforeWait at hb
      unfold World.inProcsFree
      cases hph : w.phase <;> simp [hph] at hb ⊢

/-- The close handler of a proc closes a socket, whose own closes another proc:
that one is left to the second round. -/
theorem closes_once_chain :
    let ls : List (Label Nat Nat Nat) :=
      [.call (.procCloseAwait 0), .wait, .next .idle, .call (.closeAwait 0), .ret, .next .idle,
        .next .idle, .call (.procCloseAwait 1), .call (.procCloseAwait 1), .ret, .next .idle,
        .next .idle, .next .idle, .wait, .next .idle, .ret, .next .idle, .next .idle]
    ∃ w, Trace.run (World.step .table) (.fresh (.handled true true) false File.turn) ls = some w ∧
      (closings (.proc 1) w.log).closed = [2] := by
  intro ls
  have hany : (Trace.run (World.step .table) (.fresh (.handled true true) false File.turn) ls).any
      (fun w => !w.beforeWait && (closings (.proc 1) w.log).rounds = 2 &&
        (closings (.proc 1) w.log).opened = some (1, some (.client 0 .onClose 0 false))) := by
    decide +kernel
  obtain ⟨w, hrun, hw⟩ := Trace.run_any hany
  simp only [Bool.and_eq_true, Bool.not_eq_true', decide_eq_true_eq] at hw
  obtain ⟨⟨hb, hrounds⟩, hopen⟩ := hw
  have h := (closes_once .table (.handled true true) false false 1024 _ _ 0 0 ls w (.proc 1) hrun
    rfl).2 _ hopen (.inr ⟨hrounds.symm, hb⟩)
  exact ⟨w, hrun, h⟩

/-- A proc that is not bound to the event ignores `close_await`: a round later it
has not been closed. -/
theorem unbound_not_closed :
    let ls : List (Label Nat Nat Nat) :=
      [.call (.procCloseAwait 0), .wait, .next .idle, .next .idle, .next .idle]
    ∃ w, Trace.run (World.step .table) (.fresh (.handled true false) false File.turn) ls = some w ∧
      w.beforeWait = false ∧ (closings (.proc 0) w.log).opened = some (0, none) ∧
      (closings (.proc 0) w.log).rounds = 1 ∧ (closings (.proc 0) w.log).closed = [] := by
  intro ls
  have hany : (Trace.run (World.step .table) (.fresh (.handled true false) false File.turn) ls).any
      (fun w => !w.beforeWait && (closings (.proc 0) w.log).opened = some (0, none) &&
        (closings (.proc 0) w.log).rounds = 1 && (closings (.proc 0) w.log).closed = []) := by
    decide +kernel
  obtain ⟨w, hrun, hw⟩ := Trace.run_any hany
  simp only [Bool.and_eq_true, Bool.not_eq_true', decide_eq_true_eq] at hw
  obtain ⟨⟨⟨hb, hopen⟩, hrounds⟩, hclosed⟩ := hw
  exact ⟨w, hrun, hb, hopen, hrounds, hclosed⟩

end Run

end Libnio.Socket
