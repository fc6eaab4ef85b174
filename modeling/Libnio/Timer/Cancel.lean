import Libnio.Timer.Loop
import Libnio.Trace.Always

/-!
# Timer — cancelled timers

What the requests of a run allow each timer: one call of `on_timer` for each
add, none after a delete, one and not before its expiry after a reset. A run
keeps to it as long as each delete and each reset finds its timer outside of
the vector of `trigger_timers` and with no entry but the one it knows of.
-/

namespace Libnio.Timer

variable {τ : Type} [DecidableEq τ]

/-! ## What is asked for -/

/-- The calls of `on_timer` that `tm` may still get. -/
def owedStep (tm : τ) (n : Nat) : Act τ → Nat
  | .call (.addTimer t _) _ _ => if t = tm then n + 1 else n
  | .call (.delTimer t) _ _ => if t = tm then 0 else n
  | .call (.resetTimer t _) _ _ => if t = tm then 1 else n
  | .onTimer t _ _ => if t = tm then n - 1 else n

def owed (tm : τ) (log : List (Act τ)) : Nat := log.foldl (owedStep tm) 0

/-- The expiry of a reset, while no other request for `tm` has come after it. -/
def resetToStep (tm : τ) (due : Option Int) : Act τ → Option Int
  | .call (.addTimer t _) _ _ => if t = tm then none else due
  | .call (.delTimer t) _ _ => if t = tm then none else due
  | .call (.resetTimer t ms) ev _ => if t = tm then some (ev.due ms) else due
  | .onTimer _ _ _ => due

def resetTo (tm : τ) (log : List (Act τ)) : Option Int := log.foldl (resetToStep tm) none

@[simp] theorem owed_append (tm : τ) (log : List (Act τ)) (a : Act τ) :
    owed tm (log ++ [a]) = owedStep tm (owed tm log) a := by
  simp [owed]

@[simp] theorem resetTo_append (tm : τ) (log : List (Act τ)) (a : Act τ) :
    resetTo tm (log ++ [a]) = resetToStep tm (resetTo tm log) a := by
  simp [resetTo]

/-- An `on_timer` that was asked for, and not before the expiry of a reset. -/
def Allowed (pre : List (Act τ)) : Act τ → Prop
  | .call _ _ _ => True
  | .onTimer tm ev _ => 0 < owed tm pre ∧ ∀ due ∈ resetTo tm pre, due ≤ ev.stamp

instance (pre : List (Act τ)) : DecidablePred (Allowed pre) := fun a =>
  match a with
  | .call _ _ _ => isTrue trivial
  | .onTimer _ _ _ => inferInstanceAs (Decidable (_ ∧ _))

/-- No timer fires that was cancelled, none too often and none too early. -/
def Honoured (log : List (Act τ)) : Prop := Trace.Always Allowed log

/-! ## When a cancel reaches its timer -/

/-- A delete finds `tm` outside of the vector, with no other entry than that
under the key it stands for. -/
def Clear (tm : τ) (ev : Timers τ) (batch : List τ) : Prop :=
  tm ∉ batch ∧ ev.names.count tm ≤ 1 ∧ ∀ e ∈ ev.timers, e.2 = tm → e.1 = ev.expire tm

instance (tm : τ) (ev : Timers τ) (batch : List τ) : Decidable (Clear tm ev batch) :=
  inferInstanceAs (Decidable (_ ∧ _ ∧ _))

def ClearAt : Act τ → Prop
  | .call (.delTimer tm) ev batch => Clear tm ev batch
  | .call (.resetTimer tm _) ev batch => Clear tm ev batch
  | .call (.addTimer _ _) _ _ => True
  | .onTimer _ _ _ => True

instance : DecidablePred (ClearAt (τ := τ)) := fun a =>
  match a with
  | .call (.delTimer tm) ev batch => inferInstanceAs (Decidable (Clear tm ev batch))
  | .call (.resetTimer tm _) ev batch => inferInstanceAs (Decidable (Clear tm ev batch))
  | .call (.addTimer _ _) _ _ => isTrue trivial
  | .onTimer _ _ _ => isTrue trivial

theorem Clear.count_delTimer {tm : τ} {ev : Timers τ} {batch : List τ} (h : Clear tm ev batch) :
    (ev.delTimer tm).names.count tm = 0 := by
  obtain ⟨-, hone, hkey⟩ := h
  exact ev.count_delTimer_self hone (fun key hk => hkey (key, tm) hk rfl)

/-! ## The invariant -/

/-- The entries of a timer and its places in the vector are what it is owed,
and none of them is before the expiry of a reset. -/
structure Kept (s : Loop τ) : Prop where
  owed_eq : ∀ tm, s.ev.names.count tm + s.batch.count tm = owed tm s.log
  later : ∀ tm due, resetTo tm s.log = some due → ∀ e ∈ s.ev.timers, e.2 = tm → due ≤ e.1
  ready : ∀ tm due, resetTo tm s.log = some due → tm ∈ s.batch → due ≤ s.ev.stamp
  honoured : Honoured s.log

namespace Kept

variable {s : Loop τ}

theorem start (sec nsec : Int) (counter : UInt32) (expire : τ → Int) :
    Kept (Loop.start sec nsec counter expire) where
  owed_eq := fun _ => rfl
  later := fun _ _ h => by cases h
  ready := fun _ _ h => by cases h
  honoured := Trace.Always.nil

/-- An entry for the timer itself is the new one or was deleted. -/
theorem notMem_of_count {ev : Timers τ} {tm : τ} (h : ev.names.count tm = 0) {e : Int × τ}
    (he : e ∈ ev.timers) : e.2 ≠ tm := by
  rintro rfl
  exact List.count_eq_zero.mp h (List.mem_map_of_mem he)

theorem addTimer (h : Kept s) (tm : τ) (ms : Int) : Kept (s.call (.addTimer tm ms)) where
  owed_eq := by
    intro t
    have ho := h.owed_eq t
    show (s.ev.addTimer tm ms).names.count t + _ = _
    rw [Loop.call, owed_append, Timers.count_addTimer]
    simp only [owedStep]
    split <;> omega
  later := by
    intro t due hd e he ht
    simp only [Loop.call, resetTo_append, resetToStep] at hd
    split at hd
    · cases hd
    · rename_i hne
      rcases Timers.mem_addTimer.mp he with rfl | he
      · exact absurd ht hne
      · exact h.later t due hd e he ht
  ready := by
    intro t due hd ht
    simp only [Loop.call, resetTo_append, resetToStep] at hd
    split at hd
    · cases hd
    · exact h.ready t due hd ht
  honoured := h.honoured.snoc trivial

theorem delTimer (h : Kept s) {tm : τ} (hc : Clear tm s.ev s.batch) :
    Kept (s.call (.delTimer tm)) where
  owed_eq := by
    intro t
    have ho := h.owed_eq t
    show (s.ev.delTimer tm).names.count t + s.batch.count t = _
    rw [Loop.call, owed_append]
    simp only [owedStep]
    split
    · rename_i heq
      subst heq
      rw [hc.count_delTimer, List.count_eq_zero.mpr hc.1]
    · rename_i hne
      rw [s.ev.count_delTimer_of_ne hne]
      exact ho
  later := by
    intro t due hd e he ht
    simp only [Loop.call, resetTo_append, resetToStep] at hd
    split at hd
    · cases hd
    · exact h.later t due hd e (Timers.mem_delTimer he) ht
  ready := by
    intro t due hd ht
    simp only [Loop.call, resetTo_append, resetToStep] at hd
    split at hd
    · cases hd
    · exact h.ready t due hd ht
  honoured := h.honoured.snoc trivial

theorem resetTimer (h : Kept s) {tm : τ} {ms : Int} (hc : Clear tm s.ev s.batch) :
    Kept (s.call (.resetTimer tm ms)) where
  owed_eq := by
    intro t
    have ho := h.owed_eq t
    show ((s.ev.delTimer tm).addTimer tm ms).names.count t + s.batch.count t = _
    rw [Loop.call, owed_append, Timers.count_addTimer]
    simp only [owedStep]
    split
    · rename_i heq
      subst heq
      rw [hc.count_delTimer, List.count_eq_zero.mpr hc.1]
    · rename_i hne
      rw [s.ev.count_delTimer_of_ne hne]
      exact ho
  later := by
    intro t due hd e he ht
    simp only [Loop.call, resetTo_append, resetToStep] at hd
    split at hd
    · rename_i heq
      subst heq
      cases hd
      rcases Timers.mem_addTimer.mp he with rfl | he
      · exact le_rfl
      · exact absurd ht (notMem_of_count hc.count_delTimer he)
    · rename_i hne
      rcases Timers.mem_addTimer.mp he with rfl | he
      · exact absurd ht hne
      · exact h.later t due hd e (Timers.mem_delTimer he) ht
  ready := by
    intro t due hd ht
    simp only [Loop.call, resetTo_append, resetToStep] at hd
    split at hd
    · rename_i heq
      subst heq
      exact absurd ht hc.1
    · exact h.ready t due hd ht
  honoured := h.honoured.snoc trivial

theorem call (h : Kept s) (c : Call τ) (hc : ClearAt (.call c s.ev s.batch)) :
    Kept (s.call c) := by
  cases c with
  | addTimer tm ms => exact h.addTimer tm ms
  | delTimer tm => exact h.delTimer hc
  | resetTimer tm ms => exact h.resetTimer hc

theorem setStamp (h : Kept s) (hb : s.batch = []) (sec nsec : Int) :
    Kept (s.setStamp sec nsec) where
  owed_eq := h.owed_eq
  later := h.later
  ready := by
    intro t due _ ht
    rw [show (s.setStamp sec nsec).batch = s.batch from rfl, hb] at ht
    cases ht
  honoured := h.honoured

theorem collect (h : Kept s) (hb : s.batch = []) : Kept s.collect where
  owed_eq := by
    intro t
    have ho := h.owed_eq t
    have hsplit := congrArg (fun l => (l.map Prod.snd).count t) s.ev.expired_append_collect
    simp only [List.map_append, List.count_append] at hsplit
    show s.ev.collect.names.count t + (s.ev.expired.map Prod.snd).count t = owed t s.log
    rw [← ho, hb]
    simp only [Timers.names, List.count_nil]
    omega
  later := by
    intro t due hd e he ht
    refine h.later t due hd e ?_ ht
    rw [← s.ev.expired_append_collect]
    exact List.mem_append_right _ he
  ready := by
    intro t due hd ht
    obtain ⟨e, he, rfl⟩ := List.mem_map.mp ht
    have hkey : e.1 ≤ s.ev.stamp := Timers.le_of_mem_expired he
    have hmem : e ∈ s.ev.timers := by
      rw [← s.ev.expired_append_collect]
      exact List.mem_append_left _ he
    exact (h.later e.2 due hd e hmem rfl).trans hkey
  honoured := h.honoured

theorem enter (h : Kept s) {tm : τ} {batch : List τ} (hb : s.batch = tm :: batch) :
    Kept (s.enter tm batch) where
  owed_eq := by
    intro t
    have ho := h.owed_eq t
    rw [hb, List.count_cons] at ho
    show s.ev.names.count t + batch.count t = _
    rw [Loop.enter, owed_append]
    simp only [owedStep]
    by_cases ht : tm = t
    · simp only [ht, beq_self_eq_true, if_true] at ho ⊢
      omega
    · simp only [beq_iff_eq, ht, if_false] at ho ⊢
      omega
  later := by
    intro t due hd
    simp only [Loop.enter, resetTo_append, resetToStep] at hd
    exact h.later t due hd
  ready := by
    intro t due hd ht
    simp only [Loop.enter, resetTo_append, resetToStep] at hd
    exact h.ready t due hd (by rw [hb]; exact List.mem_cons_of_mem _ ht)
  honoured := by
    refine h.honoured.snoc ⟨?_, ?_⟩
    · have ho := h.owed_eq tm
      rw [hb, List.count_cons_self] at ho
      omega
    · intro due hd
      exact h.ready tm due hd (by rw [hb]; exact List.mem_cons_self ..)

end Kept

/-! ## Every run -/

variable {behave : Behaviour τ}

theorem Kept.run {s : Loop τ} (h : Kept s) (hb : s.batch = []) (steps : List (Step τ))
    (hclear : ∀ a ∈ (s.run behave steps).log, ClearAt a) : Kept (s.run behave steps) := by
  -- as long as every entry written so far is clear
  have hcall : ∀ (s : Loop τ) (c : Call τ), ((∀ a ∈ s.log, ClearAt a) → Kept s) →
      (∀ a ∈ (s.call c).log, ClearAt a) → Kept (s.call c) := by
    intro s c hs ha
    have hpre : ∀ a ∈ s.log, ClearAt a := fun a hm => ha a (List.mem_append_left _ hm)
    exact (hs hpre).call c (ha _ (List.mem_append_right _ (List.mem_singleton_self _)))
  refine (Loop.run_induct (P := fun s => (∀ a ∈ s.log, ClearAt a) → Kept s) ?_ ?_ ?_ ?_ ?_
    hb (fun _ => h) steps).1 hclear
  · intro s c _ hs
    exact hcall s c hs
  · intro _ c _ s hs
    exact hcall s c hs
  · intro s sec nsec hb hs ha
    exact (hs ha).setStamp hb sec nsec
  · intro s hb hs ha
    exact (hs ha).collect hb
  · intro s tm batch hb hs ha
    exact (hs (fun a hm => ha a (List.mem_append_left _ hm))).enter hb

/-- **A cancelled timer never fires**, in every run whose deletes and resets
find their timer clear. -/
theorem cancelled_never_fires (behave : Behaviour τ) (sec nsec : Int) (counter : UInt32)
    (expire : τ → Int) (steps : List (Step τ))
    (hclear : ∀ a ∈ ((Loop.start sec nsec counter expire).run behave steps).log, ClearAt a) :
    Honoured ((Loop.start sec nsec counter expire).run behave steps).log :=
  ((Kept.start sec nsec counter expire).run rfl steps hclear).honoured

/-- A timer is reset by the callback of another one and a third is deleted;
both requests are kept. -/
theorem cancelled_never_fires_reset :
    let behave : Behaviour Nat := fun log => if log.length = 5 then [.resetTimer 1 20] else []
    let s := (Loop.start 0 0 0 (fun _ => 0)).run behave
      [.call (.addTimer 0 5), .call (.addTimer 1 30), .call (.addTimer 2 40),
        .call (.delTimer 2), .setStamp 0 10000000, .triggerTimers]
    (∀ a ∈ s.log, ClearAt a) ∧ Honoured s.log := by
  have hclear : ∀ a ∈ ((Loop.start (τ := Nat) 0 0 0 (fun _ => 0)).run
      (fun log => if log.length = 5 then [.resetTimer 1 20] else [])
      [.call (.addTimer 0 5), .call (.addTimer 1 30), .call (.addTimer 2 40),
        .call (.delTimer 2), .setStamp 0 10000000, .triggerTimers]).log, ClearAt a := by
    decide +kernel
  exact ⟨hclear, cancelled_never_fires _ _ _ _ _ _ hclear⟩

/-- The callback of the first of two expired timers deletes the second, which
is in the vector and is called all the same. -/
theorem deleted_in_batch_fires :
    let behave : Behaviour Nat := fun log => if log.length = 3 then [.delTimer 1] else []
    ¬ Honoured ((Loop.start 0 0 0 (fun _ => 0)).run behave
      [.call (.addTimer 0 5), .call (.addTimer 1 5), .setStamp 0 10000000,
        .triggerTimers]).log := by
  dsimp only
  intro h
  -- the fifth entry is the call of timer 1, after its delete
  refine absurd (Trace.Always.get h 4 ?_) ?_
  · decide +kernel
  · decide +kernel

end Libnio.Timer
