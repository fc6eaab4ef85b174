import Libnio.Timer.Order
import Libnio.Timer.Rounds

/-!
# Timer — how late a timer can be

A timer fires in the first round whose clock is past its key. How far past
depends on the timeout of that round, which goes by the earliest timer only if
this is a millisecond away or more: a timer that a round has missed by the
offset of `counter_` waits for a whole further timeout.
-/

namespace Libnio.Timer

variable {τ : Type} [DecidableEq τ]

/-! ## What is asked of the program and of the clock -/

/-- The key of a timer that is added now fits. -/
def InRange (ev : Timers τ) (ms : Int) : Prop := 0 ≤ ms ∧ ev.stamp + (ms + 1) * ms2ns < 2 ^ 63

instance (ev : Timers τ) (ms : Int) : Decidable (InRange ev ms) :=
  inferInstanceAs (Decidable (_ ∧ _))

/-- Timers are added that are not armed; those that a running `trigger_timers`
has still to call are neither deleted nor reset. -/
def Orderly (pre : List (Act τ)) : Act τ → Prop
  | .call (.addTimer tm ms) ev _ => deadline tm pre = none ∧ InRange ev ms
  | .call (.delTimer tm) _ batch => tm ∉ batch
  | .call (.resetTimer tm ms) ev batch => tm ∉ batch ∧ InRange ev ms
  | .onTimer _ _ _ => True

instance (pre : List (Act τ)) : DecidablePred (Orderly pre) := fun a =>
  match a with
  | .call (.addTimer _ _) _ _ => inferInstanceAs (Decidable (_ ∧ _))
  | .call (.delTimer _) _ _ => inferInstanceAs (Decidable (_ ∉ _))
  | .call (.resetTimer _ _) _ _ => inferInstanceAs (Decidable (_ ∧ _))
  | .onTimer _ _ _ => isTrue trivial

/-- A time after the epoch that a `long long` of nanoseconds holds. -/
def Readable (clock : Int × Int) : Prop :=
  0 ≤ clock.1 ∧ 0 ≤ clock.2 ∧ clock.1 * sec2ns + clock.2 < 2 ^ 63

instance (clock : Int × Int) : Decidable (Readable clock) :=
  inferInstanceAs (Decidable (_ ∧ _ ∧ _))

/-- The stamp is a whole number of milliseconds. -/
theorem Readable.stamp {clock : Int × Int} (h : Readable clock) :
    0 ≤ Timer.setStamp clock.1 clock.2 ∧ ms2ns ∣ Timer.setStamp clock.1 clock.2 := by
  obtain ⟨hsec, hnsec, hhigh⟩ := h
  have hmod := Int.emod_add_mul_ediv clock.2 1000000
  have hlow := Int.emod_nonneg clock.2 (show (1000000 : Int) ≠ 0 by decide)
  have hstamp : Timer.setStamp clock.1 clock.2 =
      clock.1 * 1000000000 + 1000000 * (clock.2 / 1000000) := by
    unfold Timer.setStamp
    dsimp only [sec2ns, ms2ns] at hhigh ⊢
    rw [Int.tmod_eq_emod_of_nonneg hnsec, longLong_of_lt (by omega) (by omega)]
    omega
  rw [hstamp]
  dsimp only [ms2ns]
  omega

def Call.arms : Call τ → Bool
  | .addTimer _ _ => true
  | .delTimer _ => false
  | .resetTimer _ _ => true

namespace Loop

/-- By how many milliseconds the timeout can go beyond a timer: not at all, if
every timer is a millisecond away or more and `before_wait` arms none. -/
def overrun (limit : Int) (s : Loop τ) (ms : Int) (before : List (Call τ)) : Int :=
  if 0 ≤ ms ∧ (∀ c ∈ before, c.arms = false) ∧ ∀ e ∈ s.ev.timers, s.ev.stamp + ms2ns ≤ e.1
  then 0 else s.timeout limit ms

/-- From one reading of the clock to the next it takes the timeout and at most
`slack` milliseconds, for all that the program does and for the kernel's delay. -/
def Prompt (limit : Int) (slack : Nat) (s : Loop τ) : Turn τ → Prop
  | .call _ => True
  | .wait ms _ kernel _ =>
      let clock := kernel (s.timeout limit ms)
      Readable clock ∧
        Timer.setStamp clock.1 clock.2 ≤ s.ev.stamp + (s.timeout limit ms + slack) * ms2ns

instance (limit : Int) (slack : Nat) (s : Loop τ) : DecidablePred (s.Prompt limit slack) := fun t =>
  match t with
  | .call _ => isTrue trivial
  | .wait _ _ _ _ => inferInstanceAs (Decidable (_ ∧ _))

/-- No timeout goes more than `beyond` milliseconds beyond a timer. -/
def Within (limit : Int) (beyond : Nat) (s : Loop τ) : Turn τ → Prop
  | .call _ => True
  | .wait ms before _ _ => s.overrun limit ms before ≤ beyond

/-- At every turn. -/
def Along (behave : Behaviour τ) (limit : Int) (P : Loop τ → Turn τ → Prop) :
    Loop τ → List (Turn τ) → Prop
  | _, [] => True
  | s, t :: ts => P s t ∧ (s.turn behave limit t).Along behave limit P ts

instance Along.decidable (behave : Behaviour τ) (limit : Int) (P : Loop τ → Turn τ → Prop)
    [∀ s, DecidablePred (P s)] : (s : Loop τ) → (ts : List (Turn τ)) →
      Decidable (s.Along behave limit P ts)
  | _, [] => isTrue trivial
  | s, t :: ts =>
      have := Along.decidable behave limit P (s.turn behave limit t) ts
      inferInstanceAs (Decidable (_ ∧ _))

omit [DecidableEq τ] in
theorem overrun_le (limit : Int) (s : Loop τ) (ms : Int) (before : List (Call τ)) :
    s.overrun limit ms before ≤ 1000 := by
  have ht := wait2Timeout_bounds limit (s.ev.waitTimeout ms)
  unfold overrun timeout
  split <;> omega

/-- No timeout goes more than a second beyond a timer. -/
theorem within_second (behave : Behaviour τ) (limit : Int) (s : Loop τ) (ts : List (Turn τ)) :
    s.Along behave limit (Within limit 1000) ts := by
  induction ts generalizing s with
  | nil => trivial
  | cons t ts ih =>
      refine ⟨?_, ih _⟩
      cases t with
      | call c => trivial
      | wait ms before kernel during => exact s.overrun_le limit ms before

end Loop

/-- A timer that fires is armed, its deadline is not after the stamp, and the
stamp not more than `late` milliseconds after it. -/
def OnTime (late : Int) (pre : List (Act τ)) : Act τ → Prop
  | .call _ _ _ => True
  | .onTimer tm ev _ => ∃ d ∈ deadline tm pre, d ≤ ev.stamp ∧ ev.stamp ≤ d + late * ms2ns

instance (late : Int) (pre : List (Act τ)) : DecidablePred (OnTime late pre) := fun a =>
  match a with
  | .call _ _ _ => isTrue trivial
  | .onTimer tm ev _ =>
      inferInstanceAs
        (Decidable (∃ d ∈ deadline tm pre, d ≤ ev.stamp ∧ ev.stamp ≤ d + late * ms2ns))

/-! ## Entries and deadlines -/

/-- The entries and the vector stand for the deadlines `due`. The timers of the
vector are at most `late` milliseconds over, those that have an entry at most
`behind`. -/
structure Scheduled (late behind : Int) (due : τ → Option Int) (ev : Timers τ)
    (batch : List τ) : Prop where
  stamp_nonneg : 0 ≤ ev.stamp
  whole : ms2ns ∣ ev.stamp
  sorted : Sorted ev.timers
  nodup : (batch ++ ev.names).Nodup
  key : ∀ e ∈ ev.timers, e.1 = ev.expire e.2
  stands : ∀ e ∈ ev.timers, ∃ d, due e.2 = some d ∧ ms2ns ∣ d ∧ d ≤ e.1 ∧ e.1 < d + ms2ns
  key_lt : ∀ e ∈ ev.timers, e.1 < 2 ^ 63
  armed : ∀ tm d, due tm = some d → tm ∈ batch ++ ev.names
  collected : ∀ tm ∈ batch, ∃ d, due tm = some d ∧ d ≤ ev.stamp ∧ ev.stamp ≤ d + late * ms2ns
  overdue : ∀ e ∈ ev.timers, ev.stamp ≤ e.1 + behind * ms2ns

namespace Scheduled

variable {late behind : Int} {due : τ → Option Int} {ev : Timers τ} {batch : List τ}

omit [DecidableEq τ] in
theorem notMem (h : Scheduled late behind due ev batch) {tm : τ} (hd : due tm = none) :
    tm ∉ batch ++ ev.names := by
  intro hm
  rcases List.mem_append.mp hm with hm | hm
  · obtain ⟨d, hs, -⟩ := h.collected tm hm
    rw [hd] at hs
    cases hs
  · obtain ⟨e, he, rfl⟩ := List.mem_map.mp hm
    obtain ⟨d, hs, -⟩ := h.stands e he
    rw [hd] at hs
    cases hs

theorem addTimer (h : Scheduled late behind due ev batch) (hb : 0 ≤ behind) {tm : τ} {ms : Int}
    (hnone : due tm = none) (hr : InRange ev ms) :
    Scheduled late behind (Function.update due tm (some (ev.stamp + ms * ms2ns)))
      (ev.addTimer tm ms) batch := by
  obtain ⟨hms, hhigh⟩ := hr
  have hnot := h.notMem hnone
  have hstamp := h.stamp_nonneg
  obtain ⟨hlow, htop⟩ := ev.due_bounds hms (by omega) hhigh
  have hbatch : ∀ t ∈ batch, t ≠ tm := fun t ht he => hnot (he ▸ List.mem_append_left _ ht)
  have hnames : ∀ e ∈ ev.timers, e.2 ≠ tm := fun e he ht =>
    hnot (List.mem_append_right _ (ht ▸ List.mem_map_of_mem he))
  refine ⟨hstamp, h.whole, h.sorted.insert _, ?_, ?_, ?_, ?_, ?_, ?_, ?_⟩
  · have hperm : (batch ++ (ev.addTimer tm ms).names).Perm (tm :: (batch ++ ev.names)) :=
      ((ev.names_addTimer tm ms).append_left _).trans List.perm_middle
    exact hperm.nodup_iff.mpr (List.nodup_cons.mpr ⟨hnot, h.nodup⟩)
  · intro e he
    show e.1 = Function.update ev.expire tm (ev.due ms) e.2
    rcases Timers.mem_addTimer.mp he with rfl | he
    · simp
    · rw [Function.update_of_ne (hnames e he)]
      exact h.key e he
  · intro e he
    rcases Timers.mem_addTimer.mp he with rfl | he
    · exact ⟨_, Function.update_self .., (Int.dvd_add_right h.whole).mpr (Int.dvd_mul_left ..),
        hlow, htop⟩
    · rw [Function.update_of_ne (hnames e he)]
      exact h.stands e he
  · intro e he
    rcases Timers.mem_addTimer.mp he with rfl | he
    · dsimp only [ms2ns] at htop hhigh ⊢
      omega
    · exact h.key_lt e he
  · intro t d hd
    have hmem : t ∈ batch ++ (ev.addTimer tm ms).names ↔ t = tm ∨ t ∈ batch ++ ev.names := by
      rw [(((ev.names_addTimer tm ms).append_left batch).trans List.perm_middle).mem_iff,
        List.mem_cons]
    by_cases ht : t = tm
    · exact hmem.mpr (.inl ht)
    · rw [Function.update_of_ne ht] at hd
      exact hmem.mpr (.inr (h.armed t d hd))
  · intro t ht
    rw [Function.update_of_ne (hbatch t ht)]
    exact h.collected t ht
  · intro e he
    rcases Timers.mem_addTimer.mp he with rfl | he
    · -- its key is not before the stamp
      show ev.stamp ≤ _
      dsimp only [ms2ns] at hlow ⊢
      omega
    · exact h.overdue e he

theorem delTimer (h : Scheduled late behind due ev batch) {tm : τ} (hb : tm ∉ batch) :
    Scheduled late behind (Function.update due tm none) (ev.delTimer tm) batch := by
  have hone : ev.names.count tm ≤ 1 :=
    List.nodup_iff_count_le_one.mp (List.nodup_append.mp h.nodup).2.1 tm
  have hgone : (ev.delTimer tm).names.count tm = 0 :=
    ev.count_delTimer_self hone (fun key hk => h.key (key, tm) hk)
  have hbatch : ∀ t ∈ batch, t ≠ tm := fun t ht he => hb (he ▸ ht)
  have hnames : ∀ e ∈ (ev.delTimer tm).timers, e.2 ≠ tm := by
    rintro e he rfl
    exact List.count_eq_zero.mp hgone (List.mem_map_of_mem he)
  refine ⟨h.stamp_nonneg, h.whole, h.sorted.sublist List.erase_sublist, ?_, ?_, ?_, ?_, ?_, ?_, ?_⟩
  · exact h.nodup.sublist ((ev.names_delTimer_sublist tm).append_left _)
  · exact fun e he => h.key e (Timers.mem_delTimer he)
  · intro e he
    rw [Function.update_of_ne (hnames e he)]
    exact h.stands e (Timers.mem_delTimer he)
  · exact fun e he => h.key_lt e (Timers.mem_delTimer he)
  · intro t d hd
    by_cases ht : t = tm
    · subst ht
      rw [Function.update_self] at hd
      cases hd
    · rw [Function.update_of_ne ht] at hd
      refine List.mem_append.mpr ((List.mem_append.mp (h.armed t d hd)).imp_right fun hm => ?_)
      rw [← List.count_pos_iff, ev.count_delTimer_of_ne (Ne.symm ht)]
      exact List.count_pos_iff.mpr hm
  · intro t ht
    rw [Function.update_of_ne (hbatch t ht)]
    exact h.collected t ht
  · exact fun e he => h.overdue e (Timers.mem_delTimer he)

theorem resetTimer (h : Scheduled late behind due ev batch) (hb : 0 ≤ behind) {tm : τ} {ms : Int}
    (hn : tm ∉ batch) (hr : InRange ev ms) :
    Scheduled late behind (Function.update due tm (some (ev.stamp + ms * ms2ns)))
      (ev.resetTimer tm ms) batch := by
  have hadd : Scheduled late behind _ ((ev.delTimer tm).addTimer tm ms) batch :=
    (h.delTimer hn).addTimer hb (Function.update_self ..) hr
  rw [Function.update_idem] at hadd
  exact hadd

omit [DecidableEq τ] in
/-- The clock is read. -/
theorem setStamp (h : Scheduled late behind due ev []) {clock : Int × Int} (hc : Readable clock)
    {behind' : Int}
    (hle : ∀ e ∈ ev.timers, Timer.setStamp clock.1 clock.2 ≤ e.1 + behind' * ms2ns) :
    Scheduled late behind' due { ev with stamp := Timer.setStamp clock.1 clock.2 } [] :=
  ⟨hc.stamp.1, hc.stamp.2, h.sorted, h.nodup, h.key, h.stands, h.key_lt, h.armed,
    fun _ ht => (by cases ht), hle⟩

omit [DecidableEq τ] in
/-- The first loop of `trigger_timers` leaves no timer that is over. -/
theorem collect (h : Scheduled late late due ev []) :
    Scheduled late 0 due ev.collect (ev.expired.map Prod.snd) := by
  have hsplit := ev.expired_append_collect
  have hexp : ∀ e ∈ ev.expired, e ∈ ev.timers := by
    intro e he
    rw [← hsplit]
    exact List.mem_append_left _ he
  have hrest : ∀ e ∈ ev.collect.timers, e ∈ ev.timers := by
    intro e he
    rw [← hsplit]
    exact List.mem_append_right _ he
  have hnames : ev.expired.map Prod.snd ++ ev.collect.names = ev.names := by
    show ev.expired.map Prod.snd ++ ev.collect.timers.map Prod.snd = _
    rw [← List.map_append, hsplit]
    rfl
  refine ⟨h.stamp_nonneg, h.whole, h.sorted.sublist (List.dropWhile_sublist _), ?_, ?_, ?_, ?_, ?_,
    ?_, ?_⟩
  · rw [hnames]
    exact h.nodup
  · exact fun e he => h.key e (hrest e he)
  · exact fun e he => h.stands e (hrest e he)
  · exact fun e he => h.key_lt e (hrest e he)
  · rw [hnames]
    exact h.armed
  · intro t ht
    obtain ⟨e, he, rfl⟩ := List.mem_map.mp ht
    obtain ⟨d, hd, hwd, hlow, hhigh⟩ := h.stands e (hexp e he)
    have hle : e.1 ≤ ev.stamp := Timers.le_of_mem_expired he
    have hbeyond := h.overdue e (hexp e he)
    have hwhole := h.whole
    -- whole milliseconds, so that the offset of `counter_` does not count
    refine ⟨d, hd, hlow.trans hle, ?_⟩
    show ev.stamp ≤ _
    dsimp only [ms2ns] at hwd hhigh hbeyond hwhole ⊢
    omega
  · intro e he
    have hlate : ev.stamp < e.1 := by
      by_contra hn
      have hmem : e ∈ ev.expired := by
        rw [Timers.expired, h.sorted.takeWhile_eq]
        exact List.mem_filter.mpr ⟨hrest e he, by simpa using hn⟩
      have hnd := h.nodup
      rw [List.nil_append, ← hnames] at hnd
      exact (List.nodup_append.mp hnd).2.2 e.2 (List.mem_map_of_mem hmem) e.2
        (List.mem_map_of_mem he) rfl
    show ev.stamp ≤ _
    omega

/-- A timer of the vector is called. -/
theorem enter {tm : τ} (h : Scheduled late behind due ev (tm :: batch)) :
    Scheduled late behind (Function.update due tm none) ev batch := by
  obtain ⟨hnot, hnodup⟩ := List.nodup_cons.mp (List.cons_append ▸ h.nodup)
  have hbatch : ∀ t ∈ batch, t ≠ tm := fun t ht he => hnot (he ▸ List.mem_append_left _ ht)
  have hnames : ∀ e ∈ ev.timers, e.2 ≠ tm := fun e he ht =>
    hnot (List.mem_append_right _ (ht ▸ List.mem_map_of_mem he))
  refine ⟨h.stamp_nonneg, h.whole, h.sorted, hnodup, h.key, ?_, h.key_lt, ?_, ?_, h.overdue⟩
  · intro e he
    rw [Function.update_of_ne (hnames e he)]
    exact h.stands e he
  · intro t d hd
    by_cases ht : t = tm
    · subst ht
      rw [Function.update_self] at hd
      cases hd
    · rw [Function.update_of_ne ht] at hd
      exact (List.mem_cons.mp (List.cons_append ▸ h.armed t d hd)).resolve_left ht
  · intro t ht
    rw [Function.update_of_ne (hbatch t ht)]
    exact h.collected t (List.mem_cons_of_mem _ ht)

omit [DecidableEq τ] in
/-- An armed timer is not over by a millisecond. -/
theorem le_deadline (h : Scheduled late 0 due ev []) {tm : τ} {d : Int} (hd : due tm = some d) :
    ev.stamp ≤ d := by
  obtain ⟨e, he, rfl⟩ := List.mem_map.mp (h.armed tm d hd)
  obtain ⟨d', hd', hwd, -, hhigh⟩ := h.stands e he
  rw [hd] at hd'
  cases hd'
  have hbeyond := h.overdue e he
  have hwhole := h.whole
  dsimp only [ms2ns] at hwd hhigh hbeyond hwhole
  omega

end Scheduled

/-! ## One turn -/

/-- The timers of a loop stand for the deadlines of its log, and whatever has
fired so far has fired on time. -/
structure Timely (late behind : Int) (s : Loop τ) : Prop where
  scheduled : Scheduled late behind (fun tm => deadline tm s.log) s.ev s.batch
  onTime : Trace.Always (OnTime late) s.log

def Act.timer : Act τ → τ
  | .call c _ _ => c.timer
  | .onTimer tm _ _ => tm

/-- The deadline that an act leaves its timer with. -/
def Act.leaves : Act τ → Option Int
  | .call (.addTimer _ ms) ev _ => some (ev.stamp + ms * ms2ns)
  | .call (.delTimer _) _ _ => none
  | .call (.resetTimer _ ms) ev _ => some (ev.stamp + ms * ms2ns)
  | .onTimer _ _ _ => none

theorem deadline_snoc (log : List (Act τ)) (a : Act τ) :
    (fun tm => deadline tm (log ++ [a])) =
      Function.update (fun tm => deadline tm log) a.timer a.leaves := by
  funext tm
  rw [deadline_append, Function.update_apply]
  cases a with
  | call c ev batch => cases c <;> exact ite_congr (propext eq_comm) (fun _ => rfl) (fun _ => rfl)
  | onTimer t ev batch => exact ite_congr (propext eq_comm) (fun _ => rfl) (fun _ => rfl)

namespace Timely

variable {late behind : Int} {s : Loop τ}

theorem call (h : Timely late behind s) (hb : 0 ≤ behind) (c : Call τ)
    (ho : Orderly s.log (.call c s.ev s.batch)) : Timely late behind (s.call c) := by
  refine ⟨?_, h.onTime.snoc trivial⟩
  show Scheduled late behind (fun tm => deadline tm (s.log ++ [.call c s.ev s.batch]))
    (s.ev.apply c) s.batch
  rw [deadline_snoc]
  cases c with
  | addTimer tm ms => exact h.scheduled.addTimer hb ho.1 ho.2
  | delTimer tm => exact h.scheduled.delTimer ho
  | resetTimer tm ms => exact h.scheduled.resetTimer hb ho.1 ho.2

theorem enter (h : Timely late behind s) {tm : τ} {batch : List τ} (hb : s.batch = tm :: batch) :
    Timely late behind (s.enter tm batch) := by
  have hs := h.scheduled
  rw [hb] at hs
  refine ⟨?_, h.onTime.snoc (hs.collected tm List.mem_cons_self)⟩
  show Scheduled late behind (fun t => deadline t (s.log ++ [.onTimer tm s.ev batch])) s.ev batch
  rw [deadline_snoc]
  exact hs.enter

theorem collect (h : Timely late late s) (hb : s.batch = []) : Timely late 0 s.collect := by
  have hs := h.scheduled
  rw [hb] at hs
  exact ⟨hs.collect, h.onTime⟩

end Timely

/-! ## Every run -/

section Run

variable {behave : Behaviour τ} {limit : Int} {slack beyond : Nat}

/-- Timely, as far as the program has been orderly. -/
def TimelySoFar (late behind : Int) (s : Loop τ) : Prop :=
  Trace.Always Orderly s.log → Timely late behind s

theorem TimelySoFar.call {late behind : Int} {s : Loop τ} (h : TimelySoFar late behind s)
    (hb : 0 ≤ behind) (c : Call τ) : TimelySoFar late behind (s.call c) := by
  intro ha
  obtain ⟨hpre, hlast⟩ := Trace.Always.append_iff.mp ha
  exact (h hpre).call hb c hlast

theorem TimelySoFar.calls {late behind : Int} (hb : 0 ≤ behind) (cs : List (Call τ)) {s : Loop τ}
    (h : TimelySoFar late behind s) : TimelySoFar late behind (cs.foldl Loop.call s) := by
  induction cs generalizing s with
  | nil => exact h
  | cons c cs ih => exact ih (h.call hb c)

theorem Loop.calls_batch (cs : List (Call τ)) (s : Loop τ) :
    (cs.foldl Loop.call s).batch = s.batch := by
  induction cs generalizing s with
  | nil => rfl
  | cons c cs ih => exact ih (s.call c)

theorem Loop.calls_timers (cs : List (Call τ)) (hdel : ∀ c ∈ cs, c.arms = false) (s : Loop τ) :
    ∀ e ∈ (cs.foldl Loop.call s).ev.timers, e ∈ s.ev.timers := by
  induction cs generalizing s with
  | nil => exact fun _ he => he
  | cons c cs ih =>
      intro e he
      have hc := ih (fun c hm => hdel c (List.mem_cons_of_mem _ hm)) (s.call c) e he
      cases c with
      | addTimer tm ms => exact absurd (hdel _ List.mem_cons_self) (by simp [Call.arms])
      | delTimer tm => exact Timers.mem_delTimer hc
      | resetTimer tm ms => exact absurd (hdel _ List.mem_cons_self) (by simp [Call.arms])

theorem Loop.calls_stamp (cs : List (Call τ)) (s : Loop τ) :
    (cs.foldl Loop.call s).ev.stamp = s.ev.stamp := by
  induction cs generalizing s with
  | nil => rfl
  | cons c cs ih =>
      rw [List.foldl_cons, ih]
      cases c <;> rfl

theorem Loop.calls_log (cs : List (Call τ)) (s : Loop τ) :
    ∃ more, (cs.foldl Loop.call s).log = s.log ++ more := by
  induction cs generalizing s with
  | nil => exact ⟨[], (List.append_nil _).symm⟩
  | cons c cs ih =>
      obtain ⟨more, hm⟩ := ih (s.call c)
      exact ⟨.call c s.ev s.batch :: more, by rw [List.foldl_cons, hm]; simp [Loop.call]⟩

/-- The wait of a round: what was ahead of the clock is behind it by at most
what the timeout went beyond it, and the slack. -/
theorem TimelySoFar.eventWait {s : Loop τ} (h : TimelySoFar (beyond + slack) 0 s)
    (hb : s.batch = []) {ms : Int} {before : List (Call τ)} {kernel : Int → Int × Int}
    {during : List (Call τ)} (hp : s.Prompt limit slack (.wait ms before kernel during))
    (hbeyond : s.Within limit beyond (.wait ms before kernel during)) :
    TimelySoFar (beyond + slack) (beyond + slack)
      ((before.foldl Loop.call s).eventWait (kernel (s.timeout limit ms)) during) := by
  obtain ⟨hread, hstamp⟩ := hp
  refine TimelySoFar.calls (by omega) during ?_
  intro ha
  have hs' := h.calls le_rfl before ha
  obtain ⟨more, hlog⟩ := Loop.calls_log before s
  have hs : Timely (beyond + slack) 0 s := by
    refine h fun pre a post hp => ?_
    refine ha pre a (post ++ more) ?_
    show (before.foldl Loop.call s).log = _
    rw [hlog, hp]
    simp
  have hsched := hs'.scheduled
  rw [Loop.calls_batch, hb] at hsched
  refine ⟨?_, hs'.onTime⟩
  show Scheduled _ _ _ { (before.foldl Loop.call s).ev with stamp := _ }
    (before.foldl Loop.call s).batch
  rw [Loop.calls_batch, hb]
  refine hsched.setStamp hread fun e he => ?_
  have hahead := hsched.overdue e he
  rw [Loop.calls_stamp] at hahead
  change s.overrun limit ms before ≤ beyond at hbeyond
  unfold Loop.overrun at hbeyond
  dsimp only [ms2ns] at hstamp hahead ⊢
  split at hbeyond
  · rename_i hc
    obtain ⟨hms, hdel, hfar⟩ := hc
    have hend := wait2Timeout_le_first hms limit hs.scheduled.sorted hs.scheduled.stamp_nonneg
      hs.scheduled.key_lt hfar e (Loop.calls_timers before hdel s e he)
    unfold Loop.timeout at hstamp ⊢
    dsimp only [ms2ns] at hend
    omega
  · omega

theorem TimelySoFar.triggerTimers {late : Int} {s : Loop τ} (h : TimelySoFar late late s)
    (hb : s.batch = []) :
    TimelySoFar late 0 (s.triggerTimers behave) ∧ (s.triggerTimers behave).batch = [] := by
  refine Loop.fire_induct (P := TimelySoFar late 0) ?_ ?_ _ s.collect rfl ?_
  · exact fun _ c _ s hs => hs.call le_rfl c
  · intro s tm batch hb hs ha
    exact (hs (Trace.Always.append_iff.mp ha).1).enter hb
  · exact fun ha => (h ha).collect hb

theorem TimelySoFar.turn {s : Loop τ} (h : TimelySoFar (beyond + slack) 0 s) (hb : s.batch = [])
    {t : Turn τ} (hp : s.Prompt limit slack t) (hbeyond : s.Within limit beyond t) :
    TimelySoFar (beyond + slack) 0 (s.turn behave limit t) ∧
      (s.turn behave limit t).batch = [] := by
  cases t with
  | call c => exact ⟨h.call le_rfl c, hb⟩
  | wait ms before kernel during =>
      have hw := h.eventWait hb hp hbeyond
      have hwb : ((before.foldl Loop.call s).eventWait (kernel (s.timeout limit ms)) during).batch
          = [] := by
        rw [Loop.eventWait, Loop.calls_batch]
        exact (Loop.calls_batch before s).trans hb
      show TimelySoFar _ _ (Loop.wait ..) ∧ (Loop.wait ..).batch = []
      unfold Loop.wait
      dsimp only
      split
      · -- no timer, none over
        rename_i hempty
        refine ⟨fun ha => ⟨?_, (hw ha).onTime⟩, hwb⟩
        refine { (hw ha).scheduled with overdue := ?_ }
        intro e he
        rw [List.isEmpty_iff.mp hempty] at he
        cases he
      · exact hw.triggerTimers hwb

theorem TimelySoFar.turns {s : Loop τ} (h : TimelySoFar (beyond + slack) 0 s) (hb : s.batch = [])
    (ts : List (Turn τ)) (hp : s.Along behave limit (Loop.Prompt limit slack) ts)
    (hbeyond : s.Along behave limit (Loop.Within limit beyond) ts) :
    TimelySoFar (beyond + slack) 0 (s.turns behave limit ts) ∧
      (s.turns behave limit ts).batch = [] := by
  induction ts generalizing s with
  | nil => exact ⟨h, hb⟩
  | cons t ts ih =>
      obtain ⟨hs, hbatch⟩ := h.turn hb hp.1 hbeyond.1
      exact ih hs hbatch hp.2 hbeyond.2

theorem Timely.start {clock : Int × Int} (h : Readable clock) (late : Int) (counter : UInt32)
    (expire : τ → Int) : Timely late 0 (Loop.start clock.1 clock.2 counter expire) where
  scheduled :=
    { stamp_nonneg := h.stamp.1
      whole := h.stamp.2
      sorted := List.Pairwise.nil
      nodup := List.nodup_nil
      key := fun _ h => by cases h
      stands := fun _ h => by cases h
      key_lt := fun _ h => by cases h
      armed := fun _ _ h => by cases h
      collected := fun _ h => by cases h
      overdue := fun _ h => by cases h }
  onTime := Trace.Always.nil

/-- **How late a timer can be.** In every run of waits, and of calls from outside,
from `before_wait`, from the callbacks of descriptors and of timers, no timer
fires before its deadline, nor later than the slack and what the timeouts go
beyond a timer, a second at most; and no turn leaves one armed whose deadline is
over. -/
theorem timers_late_at_most (behave : Behaviour τ) (limit : Int) (slack : Nat)
    (clock : Int × Int) (counter : UInt32) (expire : τ → Int) (ts : List (Turn τ)) :
    let s₀ := Loop.start clock.1 clock.2 counter expire
    let s := s₀.turns behave limit ts
    Readable clock → s₀.Along behave limit (Loop.Prompt limit slack) ts →
      Trace.Always Orderly s.log →
      (∀ beyond : Nat, s₀.Along behave limit (Loop.Within limit beyond) ts →
        Trace.Always (OnTime (beyond + slack)) s.log) ∧
      Trace.Always (OnTime (1000 + slack)) s.log ∧
      ∀ tm d, deadline tm s.log = some d → s.ev.stamp ≤ d := by
  intro s₀ s hclock hp ho
  have hall : ∀ beyond : Nat, s₀.Along behave limit (Loop.Within limit beyond) ts →
      Timely (beyond + slack) 0 s ∧ s.batch = [] := by
    intro beyond hbeyond
    obtain ⟨hs, hb⟩ := TimelySoFar.turns (fun _ => Timely.start hclock _ counter expire) rfl ts hp
      hbeyond
    exact ⟨hs ho, hb⟩
  obtain ⟨hsecond, hb⟩ := hall 1000 (Loop.within_second behave limit s₀ ts)
  have hsched := hsecond.scheduled
  rw [hb] at hsched
  exact ⟨fun beyond hbeyond => (hall beyond hbeyond).1.onTime, hsecond.onTime,
    fun tm d hd => hsched.le_deadline hd⟩

/-- Two timers of a millisecond and a kernel that is never late. The first fires
on time; the second, which `counter_` has put a nanosecond behind it, waits for
the whole second of the next timeout. -/
theorem timers_late_at_most_second :
    let ts : List (Turn Nat) :=
      [.call (.addTimer 0 1), .call (.addTimer 1 1), .wait 1000 [] (fun t => (0, t * 1000000)) [],
        .wait 1000 [] (fun t => (1, (t - 999) * 1000000)) []]
    let s := (Loop.start 0 0 0 (fun _ => 0)).turns (fun _ => []) (-1) ts
    fired s.log = [0, 1] ∧ Trace.Always (OnTime (1000 + (0 : Nat))) s.log ∧
      ¬ Trace.Always (OnTime 999) s.log := by
  intro ts s
  have hp : (Loop.start 0 0 0 (fun _ => 0)).Along (fun _ => []) (-1) (Loop.Prompt (-1) 0) ts := by
    decide +kernel
  have ho : Trace.Always Orderly s.log := by decide +kernel
  refine ⟨by decide +kernel, ?_, by decide +kernel⟩
  exact (timers_late_at_most _ (-1) 0 (0, 0) 0 _ ts (by decide) hp ho).2.1

end Run

end Libnio.Timer
