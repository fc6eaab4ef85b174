import Libnio.Timer.Loop
import Libnio.Trace.Always

/-!
# Timer — the order in which timers fire

An entry is later than the deadline of its timer by less than a millisecond,
the offset that `counter_` gives it. So the order of the entries is that of the
deadlines, as far as these differ, and a `trigger_timers` calls those that are
due in this order.
-/

namespace Libnio.Timer

variable {τ : Type} [DecidableEq τ]

/-! ## Armed timers -/

/-- What one act makes of the deadline of `tm`. -/
def deadlineStep (tm : τ) (deadline : Option Int) : Act τ → Option Int
  | .call (.addTimer t ms) ev _ => if t = tm then some (ev.stamp + ms * ms2ns) else deadline
  | .call (.delTimer t) _ _ => if t = tm then none else deadline
  | .call (.resetTimer t ms) ev _ => if t = tm then some (ev.stamp + ms * ms2ns) else deadline
  | .onTimer t _ _ => if t = tm then none else deadline

/-- The deadline for which `tm` is armed: its arming stamp and the milliseconds
that were asked for. -/
def deadline (tm : τ) (log : List (Act τ)) : Option Int := log.foldl (deadlineStep tm) none

@[simp] theorem deadline_append (tm : τ) (log : List (Act τ)) (a : Act τ) :
    deadline tm (log ++ [a]) = deadlineStep tm (deadline tm log) a := by
  simp [deadline]

/-- Timers are added that are not armed, at whole milliseconds, and in the
range of the keys; none is reset. -/
def Proper (pre : List (Act τ)) : Act τ → Prop
  | .call (.addTimer tm ms) ev _ =>
      deadline tm pre = none ∧ 0 ≤ ms ∧ ms2ns ∣ ev.stamp ∧ ev.stamp + (ms + 1) * ms2ns < 2 ^ 63
  | .call (.delTimer _) _ _ => True
  | .call (.resetTimer _ _) _ _ => False
  | .onTimer _ _ _ => True

instance (pre : List (Act τ)) : DecidablePred (Proper pre) := fun a =>
  match a with
  | .call (.addTimer _ _) _ _ => inferInstanceAs (Decidable (_ ∧ _ ∧ _ ∧ _))
  | .call (.delTimer _) _ _ => isTrue trivial
  | .call (.resetTimer _ _) _ _ => isFalse id
  | .onTimer _ _ _ => isTrue trivial

/-- A timer that fires is armed, its deadline is not after the stamp, and none
that is armed has an earlier one. -/
def InOrder (pre : List (Act τ)) : Act τ → Prop
  | .call _ _ _ => True
  | .onTimer tm ev _ => ∃ d, deadline tm pre = some d ∧ d ≤ ev.stamp ∧
      ∀ other d', deadline other pre = some d' → d ≤ d'

/-! ## The key of an entry -/

omit [DecidableEq τ] in
/-- The key is at most a millisecond away from the deadline, whatever `counter_`
is. -/
theorem Timers.due_bounds (ev : Timers τ) {ms : Int} (hms : 0 ≤ ms) (hlow : -2 ^ 63 ≤ ev.stamp)
    (hhigh : ev.stamp + (ms + 1) * ms2ns < 2 ^ 63) :
    ev.stamp + ms * ms2ns ≤ ev.due ms ∧ ev.due ms < ev.stamp + ms * ms2ns + ms2ns := by
  have hoff := Int.emod_nonneg (ev.counter.toNat : Int) (show ms2ns ≠ 0 by decide)
  have hoff' := Int.emod_lt_of_pos (ev.counter.toNat : Int) (show 0 < ms2ns by decide)
  unfold due
  dsimp only [ms2ns] at hoff hoff' hhigh ⊢
  rw [longLong_of_lt (by omega) (by omega)]
  omega

/-- Deadlines whose entries are in order are so themselves. -/
theorem deadline_le {d d' key key' : Int} (hd : ms2ns ∣ d) (hd' : ms2ns ∣ d') (h : d ≤ key)
    (hk : key ≤ key') (h' : key' < d' + ms2ns) : d ≤ d' := by
  dsimp only [ms2ns] at hd hd' h'
  omega

/-! ## The invariant -/

/-- A key stands for a deadline. -/
def Stands (tm : τ) (log : List (Act τ)) (key : Int) : Prop :=
  ∃ d, deadline tm log = some d ∧ ms2ns ∣ d ∧ d ≤ key ∧ key < d + ms2ns

/-- Every timer that is armed has its one entry or its one place in the vector,
where the earliest are in front. -/
structure Ordered (s : Loop τ) : Prop where
  stamp_ge : -2 ^ 63 ≤ s.ev.stamp
  sorted : Sorted s.ev.timers
  nodup : (s.batch ++ s.ev.names).Nodup
  key : ∀ e ∈ s.ev.timers, e.1 = s.ev.expire e.2
  stands : ∀ e ∈ s.ev.timers, Stands e.2 s.log e.1
  armed : ∀ tm d, deadline tm s.log = some d → tm ∈ s.batch ∨ tm ∈ s.ev.names
  collected : ∀ tm ∈ s.batch, ∃ d, deadline tm s.log = some d ∧ d ≤ s.ev.stamp
  before : s.batch.Pairwise (fun t u => ∀ d d', deadline t s.log = some d →
    deadline u s.log = some d' → d ≤ d')
  later : ∀ t ∈ s.batch, ∀ u ∈ s.ev.names, ∀ d d', deadline t s.log = some d →
    deadline u s.log = some d' → d ≤ d'
  inOrder : Trace.Always InOrder s.log

namespace Ordered

variable {s : Loop τ}

theorem start (sec nsec : Int) (counter : UInt32) (expire : τ → Int) :
    Ordered (Loop.start sec nsec counter expire) where
  stamp_ge := longLong_ge _
  sorted := List.Pairwise.nil
  nodup := List.nodup_nil
  key := fun _ h => by cases h
  stands := fun _ h => by cases h
  armed := fun _ _ h => by cases h
  collected := fun _ h => by cases h
  before := List.Pairwise.nil
  later := fun _ h => by cases h
  inOrder := Trace.Always.nil

/-- A timer that is not armed is nowhere. -/
theorem notMem (h : Ordered s) {tm : τ} (hd : deadline tm s.log = none) :
    tm ∉ s.batch ++ s.ev.names := by
  intro hm
  rcases List.mem_append.mp hm with hm | hm
  · obtain ⟨d, hs, -⟩ := h.collected tm hm
    rw [hd] at hs
    cases hs
  · obtain ⟨e, he, rfl⟩ := List.mem_map.mp hm
    obtain ⟨d, hs, -⟩ := h.stands e he
    rw [hd] at hs
    cases hs

theorem addTimer (h : Ordered s) {tm : τ} {ms : Int}
    (hp : Proper s.log (.call (.addTimer tm ms) s.ev s.batch)) :
    Ordered (s.call (.addTimer tm ms)) := by
  obtain ⟨hnone, hms, hwhole, hhigh⟩ := hp
  have hnot := h.notMem hnone
  obtain ⟨hnb, hnn⟩ := not_or.mp (List.mem_append.not.mp hnot)
  have hdue := s.ev.due_bounds hms h.stamp_ge hhigh
  -- the others keep their deadlines
  have hself : deadline tm (s.call (.addTimer tm ms)).log = some (s.ev.stamp + ms * ms2ns) := by
    simp [Loop.call, deadlineStep]
  have hother : ∀ t, t ≠ tm → deadline t (s.call (.addTimer tm ms)).log = deadline t s.log := by
    intro t ht
    simp [Loop.call, deadlineStep, ht.symm]
  have hbatch : ∀ t ∈ s.batch, t ≠ tm := fun t ht he => hnb (he ▸ ht)
  have hnames : ∀ e ∈ s.ev.timers, e.2 ≠ tm := fun e he ht => hnn (ht ▸ List.mem_map_of_mem he)
  have hmem : ∀ t, t ∈ (s.ev.addTimer tm ms).names ↔ t = tm ∨ t ∈ s.ev.names := by
    intro t
    rw [(s.ev.names_addTimer tm ms).mem_iff, List.mem_cons]
  refine ⟨h.stamp_ge, h.sorted.insert _, ?_, ?_, ?_, ?_, ?_, ?_, ?_, h.inOrder.snoc trivial⟩
  · have hperm : (s.batch ++ (s.ev.addTimer tm ms).names).Perm (tm :: (s.batch ++ s.ev.names)) :=
      ((s.ev.names_addTimer tm ms).append_left _).trans List.perm_middle
    exact hperm.nodup_iff.mpr (List.nodup_cons.mpr ⟨hnot, h.nodup⟩)
  · intro e he
    show e.1 = Function.update s.ev.expire tm (s.ev.due ms) e.2
    rcases Timers.mem_addTimer.mp he with rfl | he
    · simp
    · rw [Function.update_of_ne (hnames e he)]
      exact h.key e he
  · intro e he
    unfold Stands
    rcases Timers.mem_addTimer.mp he with rfl | he
    · exact ⟨_, hself, (Int.dvd_add_right hwhole).mpr (Int.dvd_mul_left ..), hdue⟩
    · rw [hother _ (hnames e he)]
      exact h.stands e he
  · intro t d hd
    by_cases ht : t = tm
    · exact .inr ((hmem t).mpr (.inl ht))
    · rw [hother t ht] at hd
      exact (h.armed t d hd).imp_right (fun hn => (hmem t).mpr (.inr hn))
  · intro t ht
    rw [hother t (hbatch t ht)]
    exact h.collected t ht
  · refine h.before.imp_of_mem ?_
    intro t u ht hu htu
    rw [hother t (hbatch t ht), hother u (hbatch u hu)]
    exact htu
  · intro t ht u hu d d' hd hd'
    rw [hother t (hbatch t ht)] at hd
    rcases (hmem u).mp hu with rfl | hu
    · -- what is added now has its deadline after the stamp
      obtain ⟨dt, hdt, hle⟩ := h.collected t ht
      rw [hself] at hd'
      rw [hdt] at hd
      cases hd
      cases hd'
      dsimp only [ms2ns]
      omega
    · obtain ⟨e, he, rfl⟩ := List.mem_map.mp hu
      rw [hother _ (hnames e he)] at hd'
      exact h.later t ht _ hu d d' hd hd'

/-- A delete, outside of `trigger_timers`. -/
theorem delTimer (h : Ordered s) (hb : s.batch = []) (tm : τ) :
    Ordered (s.call (.delTimer tm)) := by
  have hone : s.ev.names.count tm ≤ 1 := by
    refine List.nodup_iff_count_le_one.mp ?_ tm
    exact (List.nodup_append.mp h.nodup).2.1
  have hgone : (s.ev.delTimer tm).names.count tm = 0 :=
    s.ev.count_delTimer_self hone (fun key hk => h.key (key, tm) hk)
  have hne : ∀ t ∈ (s.ev.delTimer tm).names, t ≠ tm := by
    rintro t ht rfl
    exact List.count_eq_zero.mp hgone ht
  have hother : ∀ t, t ≠ tm → deadline t (s.call (.delTimer tm)).log = deadline t s.log := by
    intro t ht
    simp [Loop.call, deadlineStep, ht.symm]
  have hbatch : (s.call (.delTimer tm)).batch = [] := hb
  refine ⟨h.stamp_ge, h.sorted.sublist List.erase_sublist, ?_, ?_, ?_, ?_, ?_, ?_, ?_,
    h.inOrder.snoc trivial⟩
  · exact h.nodup.sublist ((s.ev.names_delTimer_sublist tm).append_left _)
  · exact fun e he => h.key e (Timers.mem_delTimer he)
  · intro e he
    unfold Stands
    rw [hother _ (hne _ (List.mem_map_of_mem he))]
    exact h.stands e (Timers.mem_delTimer he)
  · intro t d hd
    have ht : tm ≠ t := by
      rintro rfl
      simp [Loop.call, deadlineStep] at hd
    rw [hother t ht.symm] at hd
    rcases h.armed t d hd with hm | hm
    · exact .inl hm
    · refine .inr (List.count_pos_iff.mp ?_)
      show 0 < (s.ev.delTimer tm).names.count t
      rw [s.ev.count_delTimer_of_ne ht]
      exact List.count_pos_iff.mpr hm
  · rw [hbatch]
    exact fun t ht => by cases ht
  · rw [hbatch]
    exact List.Pairwise.nil
  · rw [hbatch]
    exact fun t ht => by cases ht

theorem setStamp (h : Ordered s) (hb : s.batch = []) (sec nsec : Int) :
    Ordered (s.setStamp sec nsec) :=
  { h with
    stamp_ge := longLong_ge _
    collected := by
      intro t ht
      rw [show (s.setStamp sec nsec).batch = s.batch from rfl, hb] at ht
      cases ht }

theorem collect (h : Ordered s) (hb : s.batch = []) : Ordered s.collect := by
  have hsplit := s.ev.expired_append_collect
  have hexp : ∀ e ∈ s.ev.expired, e ∈ s.ev.timers := by
    intro e he
    rw [← hsplit]
    exact List.mem_append_left _ he
  have hrest : ∀ e ∈ s.ev.collect.timers, e ∈ s.ev.timers := by
    intro e he
    rw [← hsplit]
    exact List.mem_append_right _ he
  have hnames : s.collect.batch ++ s.ev.collect.names = s.ev.names := by
    show s.ev.expired.map Prod.snd ++ s.ev.collect.timers.map Prod.snd = _
    rw [← List.map_append, hsplit]
    rfl
  -- entries in order have their deadlines in order
  have hle : ∀ e ∈ s.ev.timers, ∀ f ∈ s.ev.timers, e.1 ≤ f.1 → ∀ d d',
      deadline e.2 s.log = some d → deadline f.2 s.log = some d' → d ≤ d' := by
    intro e he f hf hef d d' hd hd'
    obtain ⟨de, hde, hwe, hlow, -⟩ := h.stands e he
    obtain ⟨df, hdf, hwf, -, hhigh⟩ := h.stands f hf
    rw [hde] at hd
    rw [hdf] at hd'
    cases hd
    cases hd'
    exact deadline_le hwe hwf hlow hef hhigh
  have hsorted : Sorted (s.ev.expired ++ s.ev.collect.timers) := hsplit ▸ h.sorted
  obtain ⟨hs, -, hcross⟩ := List.pairwise_append.mp hsorted
  refine ⟨h.stamp_ge, h.sorted.sublist (List.dropWhile_sublist _), ?_, ?_, ?_, ?_, ?_, ?_, ?_,
    h.inOrder⟩
  · show (s.collect.batch ++ s.ev.collect.names).Nodup
    rw [hnames]
    exact (List.nodup_append.mp h.nodup).2.1
  · exact fun e he => h.key e (hrest e he)
  · exact fun e he => h.stands e (hrest e he)
  · intro t d hd
    have hm := h.armed t d hd
    rw [hb] at hm
    refine List.mem_append.mp ?_
    show t ∈ s.collect.batch ++ s.ev.collect.names
    rw [hnames]
    simpa using hm
  · intro t ht
    obtain ⟨e, he, rfl⟩ := List.mem_map.mp ht
    obtain ⟨d, hd, -, hlow, -⟩ := h.stands e (hexp e he)
    have hle : e.1 ≤ s.ev.stamp := Timers.le_of_mem_expired he
    exact ⟨d, hd, hlow.trans hle⟩
  · refine List.pairwise_map.mpr (hs.imp_of_mem ?_)
    intro e f he hf hef
    exact hle e (hexp e he) f (hexp f hf) hef
  · intro t ht u hu
    obtain ⟨e, he, rfl⟩ := List.mem_map.mp ht
    obtain ⟨f, hf, rfl⟩ := List.mem_map.mp hu
    exact hle e (hexp e he) f (hrest f hf) (hcross e he f hf)

theorem enter (h : Ordered s) {tm : τ} {batch : List τ} (hb : s.batch = tm :: batch) :
    Ordered (s.enter tm batch) := by
  have hnodup := h.nodup
  rw [hb, List.cons_append] at hnodup
  obtain ⟨hnot, hnodup⟩ := List.nodup_cons.mp hnodup
  have hin : ∀ t ∈ batch, t ∈ s.batch := by
    intro t ht
    rw [hb]
    exact List.mem_cons_of_mem _ ht
  have hhead : tm ∈ s.batch := by
    rw [hb]
    exact List.mem_cons_self ..
  have hne : ∀ t ∈ batch ++ s.ev.names, t ≠ tm := fun t ht he => hnot (he ▸ ht)
  have hneb : ∀ t ∈ batch, t ≠ tm := fun t ht => hne t (List.mem_append_left _ ht)
  have hnen : ∀ t ∈ s.ev.names, t ≠ tm := fun t ht => hne t (List.mem_append_right _ ht)
  have hother : ∀ t, t ≠ tm → deadline t (s.enter tm batch).log = deadline t s.log := by
    intro t ht
    simp [Loop.enter, deadlineStep, ht.symm]
  have hbefore := h.before
  rw [hb] at hbefore
  obtain ⟨hfirst, hbefore⟩ := List.pairwise_cons.mp hbefore
  refine ⟨h.stamp_ge, h.sorted, hnodup, h.key, ?_, ?_, ?_, ?_, ?_, h.inOrder.snoc ?_⟩
  · intro e he
    unfold Stands
    rw [hother _ (hnen _ (List.mem_map_of_mem he))]
    exact h.stands e he
  · intro t d hd
    have ht : t ≠ tm := by
      rintro rfl
      simp [Loop.enter, deadlineStep] at hd
    rw [hother t ht] at hd
    rcases h.armed t d hd with hm | hm
    · rw [hb] at hm
      exact .inl ((List.mem_cons.mp hm).resolve_left ht)
    · exact .inr hm
  · intro t ht
    rw [hother t (hneb t ht)]
    exact h.collected t (hin t ht)
  · refine hbefore.imp_of_mem ?_
    intro t u ht hu htu
    rw [hother t (hneb t ht), hother u (hneb u hu)]
    exact htu
  · intro t ht u hu
    rw [hother t (hneb t ht), hother u (hnen u hu)]
    exact h.later t (hin t ht) u hu
  · -- the head of the vector is the earliest of all that are armed
    obtain ⟨d, hd, hle⟩ := h.collected tm hhead
    refine ⟨d, hd, hle, ?_⟩
    intro other d' hd'
    rcases h.armed other d' hd' with hm | hm
    · rw [hb] at hm
      rcases List.mem_cons.mp hm with rfl | hm
      · rw [hd] at hd'
        cases hd'
        exact le_rfl
      · exact hfirst other hm d d' hd hd'
    · exact h.later tm hhead other hm d d' hd hd'

end Ordered

/-! ## Every run -/

/-- The timers that have fired, in order. -/
def fired (log : List (Act τ)) : List τ :=
  log.filterMap fun
    | .onTimer tm _ _ => some tm
    | .call _ _ _ => none

omit [DecidableEq τ] in
@[simp] theorem fired_append (log more : List (Act τ)) :
    fired (log ++ more) = fired log ++ fired more := List.filterMap_append

section Run

variable {behave : Behaviour τ}

/-- The loop over the vector calls each timer in it once, in order. -/
theorem Loop.fired_fire (batch : List τ) (s : Loop τ) :
    fired (s.fire behave batch).log = fired s.log ++ batch := by
  have hcalls : ∀ (cs : List (Call τ)) (s : Loop τ),
      fired (cs.foldl Loop.call s).log = fired s.log := by
    intro cs
    induction cs with
    | nil => exact fun _ => rfl
    | cons c cs ih =>
        intro s
        rw [List.foldl_cons, ih]
        simp [Loop.call, fired]
  induction batch generalizing s with
  | nil => simp [Loop.fire]
  | cons tm batch ih =>
      rw [Loop.fire, ih, Loop.onTimer, hcalls]
      simp [Loop.enter, fired]

theorem Ordered.run {s : Loop τ} (h : Ordered s) (hb : s.batch = [])
    (hadds : ∀ log, ∀ c ∈ behave log, ∃ tm ms, c = .addTimer tm ms) (steps : List (Step τ))
    (hproper : Trace.Always Proper (s.run behave steps).log) : Ordered (s.run behave steps) := by
  have hadd : ∀ (s : Loop τ) (tm : τ) (ms : Int), (Trace.Always Proper s.log → Ordered s) →
      Trace.Always Proper (s.call (.addTimer tm ms)).log → Ordered (s.call (.addTimer tm ms)) := by
    intro s tm ms hs ha
    obtain ⟨hpre, hlast⟩ := Trace.Always.append_iff.mp ha
    exact (hs hpre).addTimer hlast
  refine (Loop.run_induct (P := fun s => Trace.Always Proper s.log → Ordered s) ?_ ?_ ?_ ?_ ?_
    hb (fun _ => h) steps).1 hproper
  · intro s c hb hs ha
    obtain ⟨hpre, hlast⟩ := Trace.Always.append_iff.mp ha
    cases c with
    | addTimer tm ms => exact hadd s tm ms hs ha
    | delTimer tm => exact (hs hpre).delTimer hb tm
    | resetTimer tm ms => exact hlast.elim
  · intro log c hc s hs ha
    -- a callback only adds
    obtain ⟨tm, ms, rfl⟩ := hadds log c hc
    exact hadd s tm ms hs ha
  · intro s sec nsec hb hs ha
    exact (hs ha).setStamp hb sec nsec
  · intro s hb hs ha
    exact (hs ha).collect hb
  · intro s tm batch hb hs ha
    exact (hs (Trace.Always.append_iff.mp ha).1).enter hb

/-- **Timers fire in the order of their deadlines.** Each `trigger_timers` calls
exactly the timers that are due when it starts, each once, and no timer fires
before its deadline or after one that is later. -/
theorem timers_fire_in_order (behave : Behaviour τ)
    (hadds : ∀ log, ∀ c ∈ behave log, ∃ tm ms, c = .addTimer tm ms)
    (sec nsec : Int) (counter : UInt32) (expire : τ → Int) (steps : List (Step τ)) :
    let s := (Loop.start sec nsec counter expire).run behave steps
    let due := s.ev.timers.filter (fun e => e.1 ≤ s.ev.stamp)
    Trace.Always Proper s.log →
      Trace.Always InOrder s.log ∧
      fired (s.triggerTimers behave).log = fired s.log ++ due.map Prod.snd ∧
      Sorted due ∧ (due.map Prod.snd).Nodup := by
  intro s due hproper
  have h : Ordered s := (Ordered.start sec nsec counter expire).run rfl hadds steps hproper
  have hdue : s.ev.expired = due := h.sorted.takeWhile_eq s.ev.stamp
  refine ⟨h.inOrder, ?_, h.sorted.sublist List.filter_sublist, ?_⟩
  · rw [Loop.triggerTimers, Loop.fired_fire, ← hdue]
    rfl
  · have hnames : s.ev.names.Nodup := (List.nodup_append.mp h.nodup).2.1
    exact hnames.sublist (List.filter_sublist.map Prod.snd)

/-- Two timers at the wrap-around of `counter_`; the second fires first and arms
itself again. -/
theorem timers_fire_in_order_wrap :
    let behave : Behaviour Nat := fun log => if log.length = 4 then [.addTimer 1 7] else []
    let s := (Loop.start 1 0 4294967295 (fun _ => 0)).run behave
      [.call (.addTimer 0 5), .call (.addTimer 1 5), .call (.delTimer 2),
        .setStamp 1 6000000, .triggerTimers, .setStamp 1 20000000]
    Trace.Always Proper s.log ∧ Trace.Always InOrder s.log ∧
      fired (s.triggerTimers behave).log = [1, 0] ++ [1] := by
  have hproper : Trace.Always Proper ((Loop.start (τ := Nat) 1 0 4294967295 (fun _ => 0)).run
      (fun log => if log.length = 4 then [.addTimer 1 7] else [])
      [.call (.addTimer 0 5), .call (.addTimer 1 5), .call (.delTimer 2),
        .setStamp 1 6000000, .triggerTimers, .setStamp 1 20000000]).log := by
    decide +kernel
  have hadds : ∀ (log : List (Act Nat)), ∀ c ∈ (if log.length = 4 then [Call.addTimer 1 7] else []),
      ∃ tm ms, c = .addTimer tm ms := by
    intro log c hc
    split at hc
    · exact ⟨1, 7, List.mem_singleton.mp hc⟩
    · cases hc
  have h := timers_fire_in_order _ hadds 1 0 4294967295 (fun _ => 0)
    [.call (.addTimer 0 5), .call (.addTimer 1 5), .call (.delTimer 2),
      .setStamp 1 6000000, .triggerTimers, .setStamp 1 20000000] hproper
  refine ⟨hproper, h.1, h.2.1.trans ?_⟩
  decide +kernel

end Run

end Libnio.Timer
