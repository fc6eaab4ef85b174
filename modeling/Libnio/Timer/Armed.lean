import Libnio.Timer.Loop

/-!
# Timer — timers with a flag of their own

A timer whose owner keeps a flag for it: the flag says that the timer has one
entry, under the key it stands for, or one place in the vector of
`trigger_timers`. A `del_timer` under this flag takes out the one entry.
-/

namespace Libnio.Timer

variable {τ : Type} [DecidableEq τ]

namespace Timers

/-- `del_timer` takes out the entry of the timer, and no other one. -/
def Removes (ev : Timers τ) (tm : τ) : Prop :=
  ev.timers.Perm ((ev.expire tm, tm) :: (ev.delTimer tm).timers)

/-- It does for each of these timers in turn. -/
def RemovesEach (ev : Timers τ) : List τ → Prop
  | [] => True
  | tm :: tms => ev.Removes tm ∧ (ev.delTimer tm).RemovesEach tms

theorem removes_iff {ev : Timers τ} {tm : τ} : ev.Removes tm ↔ (ev.expire tm, tm) ∈ ev.timers := by
  constructor
  · intro h
    exact h.mem_iff.mpr List.mem_cons_self
  · intro h
    exact List.perm_cons_erase h

end Timers

/-- The flag is right about the timer. -/
structure Armed (ev : Timers τ) (batch : List τ) (tm : τ) (waiting : Bool) : Prop where
  key : ∀ e ∈ ev.timers, e.2 = tm → e.1 = ev.expire tm
  once : ev.names.count tm + batch.count tm = waiting.toNat

namespace Armed

variable {ev : Timers τ} {batch : List τ} {tm : τ} {waiting : Bool}

theorem no_entry (h : Armed ev batch tm false) {e : Int × τ} (he : e ∈ ev.timers) : e.2 ≠ tm := by
  rintro rfl
  have hpos : 0 < ev.names.count e.2 := List.count_pos_iff.mpr (List.mem_map_of_mem he)
  have honce := h.once
  rw [Bool.toNat_false] at honce
  omega

/-- A timer that is not in the vector waits exactly if it has an entry. -/
theorem mem_names_iff (h : Armed ev batch tm waiting) (hb : tm ∉ batch) :
    tm ∈ ev.names ↔ waiting = true := by
  have honce := h.once
  rw [List.count_eq_zero.mpr hb] at honce
  rw [← List.count_pos_iff]
  cases waiting with
  | true =>
      rw [Bool.toNat_true] at honce
      simp only [iff_true]
      omega
  | false =>
      rw [Bool.toNat_false] at honce
      simp only [Bool.false_eq_true, iff_false]
      omega

/-- A `del_timer` finds what waits. -/
theorem removes_iff (h : Armed ev batch tm waiting) (hb : tm ∉ batch) :
    ev.Removes tm ↔ waiting = true := by
  rw [Timers.removes_iff, ← h.mem_names_iff hb]
  constructor
  · intro he
    exact List.mem_map_of_mem he
  · intro hn
    obtain ⟨e, he, rfl⟩ := List.mem_map.mp hn
    rw [← h.key e he rfl]
    exact he

theorem addTimer (h : Armed ev batch tm false) (ms : Int) :
    Armed (ev.addTimer tm ms) batch tm true := by
  refine ⟨?_, ?_⟩
  · intro e he htm
    have hexpire : (ev.addTimer tm ms).expire tm = ev.due ms := Function.update_self ..
    rcases Timers.mem_addTimer.mp he with rfl | he
    · exact hexpire.symm
    · exact absurd htm (h.no_entry he)
  · have honce := h.once
    rw [Timers.count_addTimer, if_pos rfl]
    simp only [Bool.toNat_false, Bool.toNat_true] at honce ⊢
    omega

theorem delTimer (h : Armed ev batch tm waiting) (hb : tm ∉ batch) :
    Armed (ev.delTimer tm) batch tm false := by
  have hcount : batch.count tm = 0 := List.count_eq_zero.mpr hb
  refine ⟨?_, ?_⟩
  · intro e he htm
    exact h.key e (Timers.mem_delTimer he) htm
  · have honce := h.once
    have hle : waiting.toNat ≤ 1 := Bool.toNat_le waiting
    rw [ev.count_delTimer_self (by omega) fun key hk => h.key _ hk rfl, hcount]
    rfl

/-- A call for another timer. -/
theorem apply (h : Armed ev batch tm waiting) {c : Call τ} (hc : c.timer ≠ tm) :
    Armed (ev.apply c) batch tm waiting := by
  have hadd : ∀ {ev : Timers τ} {t : τ} (ms : Int), t ≠ tm → Armed ev batch tm waiting →
      Armed (ev.addTimer t ms) batch tm waiting := by
    intro ev t ms ht h
    refine ⟨?_, ?_⟩
    · intro e he htm
      have hexpire : (ev.addTimer t ms).expire tm = ev.expire tm :=
        Function.update_of_ne (Ne.symm ht) _ _
      rw [hexpire]
      rcases Timers.mem_addTimer.mp he with rfl | he
      · exact absurd htm ht
      · exact h.key e he htm
    · rw [Timers.count_addTimer, if_neg ht]
      exact h.once
  have hdel : ∀ {t : τ}, t ≠ tm → Armed (ev.delTimer t) batch tm waiting := by
    intro t ht
    refine ⟨?_, ?_⟩
    · intro e he htm
      exact h.key e (Timers.mem_delTimer he) htm
    · rw [ev.count_delTimer_of_ne ht]
      exact h.once
  cases c with
  | addTimer t ms => exact hadd ms hc h
  | delTimer t => exact hdel hc
  | resetTimer t ms => exact hadd ms hc (hdel hc)

theorem setStamp (h : Armed ev batch tm waiting) (stamp : Int) :
    Armed { ev with stamp } batch tm waiting :=
  ⟨h.key, h.once⟩

/-- The first loop of `trigger_timers` moves entries into the vector. -/
theorem collect (h : Armed ev [] tm waiting) :
    Armed ev.collect (ev.expired.map Prod.snd) tm waiting := by
  refine ⟨?_, ?_⟩
  · intro e he htm
    refine h.key e ?_ htm
    rw [← ev.expired_append_collect]
    exact List.mem_append_right _ he
  · have honce := h.once
    have hsplit : ev.names = ev.expired.map Prod.snd ++ ev.collect.names := by
      unfold Timers.names
      rw [← List.map_append, ev.expired_append_collect]
    rw [hsplit, List.count_append, List.count_nil] at honce
    omega

/-- The vector has come to the timer. -/
theorem fire (h : Armed ev (tm :: batch) tm waiting) : Armed ev batch tm false := by
  refine ⟨h.key, ?_⟩
  have honce := h.once
  have hle : waiting.toNat ≤ 1 := Bool.toNat_le waiting
  rw [List.count_cons_self] at honce
  rw [Bool.toNat_false]
  omega

/-- The vector goes on with another one. -/
theorem skip {t : τ} (h : Armed ev (t :: batch) tm waiting) (ht : t ≠ tm) :
    Armed ev batch tm waiting := by
  refine ⟨h.key, ?_⟩
  rw [← h.once, List.count_cons_of_ne ht]

end Armed

end Libnio.Timer
