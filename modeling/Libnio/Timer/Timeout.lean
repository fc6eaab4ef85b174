import Libnio.Timer.Base

/-!
# Timer — how long a wait may take

The timeout that `nio_event::wait` hands to `nio_event_wait2`, against the time
to the earliest timer. The difference is narrowed to an `int` before it is divided,
it is divided downwards, and only a positive result counts.
-/

namespace Libnio.Timer

variable {τ : Type}

/-- `static_cast<int>`: the low 32 bits. -/
def int32 (n : Int) : Int := n.bmod (2 ^ 32)

/-- `delay` of `nio_event::wait`, of the difference `it->first - stamp`. -/
def delay (d : Int) : Int := (int32 (longLong d)).tdiv ms2ns

/-- What `nio_event::wait(ms)` hands to `nio_event_wait2`. -/
def Timers.waitTimeout (ev : Timers τ) (ms : Int) : Int :=
  match ev.timers with
  | [] => ms
  | e :: _ => if delay (e.1 - ev.stamp) > 0 ∧ delay (e.1 - ev.stamp) < ms then
      delay (e.1 - ev.stamp) else ms

/-- Nanoseconds in milliseconds, rounded up. -/
def ceilMs (d : Int) : Int := (d + (ms2ns - 1)) / ms2ns

/-- The timeout is `ms`, or less when the earliest timer is due before. -/
def Timers.FollowsEarliest (ev : Timers τ) (ms timeout : Int) : Prop :=
  (ev.timers = [] → timeout = ms) ∧
    ∀ e ∈ ev.timers, (∀ f ∈ ev.timers, e.1 ≤ f.1) →
      timeout = min ms (max 0 (ceilMs (e.1 - ev.stamp)))

/-- The time `d` to the earliest timer comes out right: it is more than all but
one of the `ms` milliseconds and its low 32 bits do not pass for less, or it is
less than `ms` milliseconds, a whole number of them, and fits in 31 bits. -/
def Exact (ms d : Int) : Prop :=
  ((ms = 0 ∨ (ms - 1) * 1000000 < d) ∧
      ¬ (1000000 ≤ d.bmod (2 ^ 32) ∧ d.bmod (2 ^ 32) < ms * 1000000)) ∨
    (1000000 ∣ d ∧ 0 < d ∧ d < 2 ^ 31 ∧ d < ms * 1000000)

/-- The low 32 bits of a number, read with a sign. -/
theorem bmod_spec (d : Int) :
    (∃ k, d = d.bmod (2 ^ 32) + 4294967296 * k) ∧
      -2147483648 ≤ d.bmod (2 ^ 32) ∧ d.bmod (2 ^ 32) < 2147483648 := by
  have hge := @Int.le_bmod d (2 ^ 32) (by decide)
  have hlt := @Int.bmod_lt d (2 ^ 32) (by decide)
  obtain ⟨k, hk⟩ := @Int.dvd_bmod_sub_self d (2 ^ 32)
  refine ⟨⟨-k, ?_⟩, by omega, by omega⟩
  have hk' : d.bmod (2 ^ 32) - d = 4294967296 * k := hk
  omega

/-- Division towards zero of an `int`. -/
theorem tdiv_ms2ns (c : Int) :
    (0 ≤ c → c.tdiv ms2ns = c / 1000000) ∧ (c ≤ 0 → c.tdiv ms2ns ≤ 0) := by
  refine ⟨fun h => Int.tdiv_eq_ediv_of_nonneg h, fun h => ?_⟩
  have hneg : c.tdiv ms2ns = -((-c).tdiv ms2ns) := by rw [Int.neg_tdiv, neg_neg]
  have hpos : (-c).tdiv ms2ns = -c / 1000000 := Int.tdiv_eq_ediv_of_nonneg (by omega)
  omega

theorem delay_eq {d : Int} (h : -2 ^ 63 ≤ d) (h' : d < 2 ^ 63) :
    delay d = (d.bmod (2 ^ 32)).tdiv ms2ns := by
  rw [delay, longLong_of_lt h h', int32]

/-- When the `int` counts and shortens the wait. -/
theorem delay_shortens {d : Int} (h : -2 ^ 63 ≤ d) (h' : d < 2 ^ 63) (ms : Int) :
    (delay d > 0 ∧ delay d < ms) ↔
      1000000 ≤ d.bmod (2 ^ 32) ∧ d.bmod (2 ^ 32) < ms * 1000000 := by
  obtain ⟨hpos, hneg⟩ := tdiv_ms2ns (d.bmod (2 ^ 32))
  rw [delay_eq h h']
  rcases le_total 0 (d.bmod (2 ^ 32)) with hc | hc
  · rw [hpos hc]
    omega
  · have := hneg hc
    omega

theorem exact_iff {ms d : Int} (hms : 0 ≤ ms) (h : -2 ^ 63 ≤ d) (h' : d < 2 ^ 63) :
    (if delay d > 0 ∧ delay d < ms then delay d else ms) = min ms (max 0 (ceilMs d)) ↔
      Exact ms d := by
  obtain ⟨⟨k, hk⟩, hlo, hhi⟩ := bmod_spec d
  have hceil : ceilMs d = (d + 999999) / 1000000 := rfl
  have hdelay := delay_eq h h'
  have hpos := (tdiv_ms2ns (d.bmod (2 ^ 32))).1
  rw [Exact, hceil]
  by_cases hs : delay d > 0 ∧ delay d < ms
  · rw [if_pos hs]
    rw [delay_shortens h h'] at hs
    rw [hdelay, hpos (by omega)]
    have hout : d.bmod (2 ^ 32) / 1000000 = min ms (max 0 ((d + 999999) / 1000000)) ↔
        d.bmod (2 ^ 32) / 1000000 = (d + 999999) / 1000000 := by omega
    rw [hout]
    constructor
    · intro he
      -- Both are between `k` turns of 32 bits, so that there are none.
      have hz : k = 0 := by omega
      subst hz
      exact .inr (by omega)
    · rintro (⟨-, hn⟩ | ⟨hdvd, hp, hl, -⟩)
      · exact absurd hs hn
      · have hz : k = 0 := by omega
        subst hz
        omega
  · rw [if_neg hs]
    rw [delay_shortens h h'] at hs
    have hout : ms = min ms (max 0 ((d + 999999) / 1000000)) ↔
        ms = 0 ∨ (ms - 1) * 1000000 < d := by omega
    rw [hout]
    constructor
    · exact fun hle => .inl ⟨hle, hs⟩
    · rintro (⟨hle, -⟩ | ⟨hdvd, hp, hl, hlt⟩)
      · exact hle
      · -- Such a number is its own low 32 bits, which shorten the wait.
        have hz : k = 0 := by omega
        subst hz
        exact absurd (by omega) hs

/-- **The wait goes by the earliest timer exactly if the time to it comes out
right**: it is a whole number of milliseconds that fits in 31 bits and ends the
wait, or it is beyond the wait and does not look shorter. -/
theorem waitTimeout_follows_iff {ev : Timers τ} (hs : Sorted ev.timers) {ms : Int} (hms : 0 ≤ ms)
    (hd : ∀ e ∈ ev.timers, -2 ^ 63 ≤ e.1 - ev.stamp ∧ e.1 - ev.stamp < 2 ^ 63) :
    ev.FollowsEarliest ms (ev.waitTimeout ms) ↔
      ∀ e ∈ ev.timers, (∀ f ∈ ev.timers, e.1 ≤ f.1) → Exact ms (e.1 - ev.stamp) := by
  unfold Timers.FollowsEarliest Timers.waitTimeout
  cases hl : ev.timers with
  | nil => simp
  | cons e rest =>
      rw [hl] at hs hd
      obtain ⟨hle, -⟩ := List.pairwise_cons.mp hs
      -- Every earliest entry has the key of the first.
      have hfirst : ∀ f ∈ e :: rest, e.1 ≤ f.1 := by
        intro f hf
        rcases List.mem_cons.mp hf with rfl | hf
        · exact le_refl _
        · exact hle f hf
      obtain ⟨h, h'⟩ := hd e List.mem_cons_self
      have hiff := exact_iff hms h h'
      constructor
      · rintro ⟨-, hmin⟩ f hf hmf
        have heq : f.1 = e.1 := le_antisymm (hmf e List.mem_cons_self) (hfirst f hf)
        rw [heq]
        exact hiff.mp (hmin e List.mem_cons_self hfirst)
      · intro hex
        refine ⟨fun hc => (by cases hc), fun f hf hmf => ?_⟩
        have heq : f.1 = e.1 := le_antisymm (hmf e List.mem_cons_self) (hfirst f hf)
        rw [heq]
        exact hiff.mpr (hex e List.mem_cons_self hfirst)

/-- A timer that is due already: the wait takes its 1000 milliseconds all the same. -/
theorem waitTimeout_not_follows :
    let ev : Timers Unit := { stamp := 2000000, counter := 0, timers := [(1000000, ())],
                              expire := fun _ => 1000000 }
    ev.waitTimeout 1000 = 1000 ∧ ¬ ev.FollowsEarliest 1000 (ev.waitTimeout 1000) := by
  intro ev
  have hout : ev.waitTimeout 1000 = 1000 := by decide
  refine ⟨hout, fun h => ?_⟩
  have hmin := h.2 (1000000, ()) (by simp [ev]) (by simp [ev])
  rw [hout] at hmin
  exact absurd hmin (by decide)

/-- Five milliseconds to the only timer, which end a wait of a second. -/
theorem waitTimeout_follows_five :
    let ev : Timers Unit := { stamp := 2000000, counter := 0, timers := [(7000000, ())],
                              expire := fun _ => 7000000 }
    ev.waitTimeout 1000 = 5 ∧
      (ev.FollowsEarliest 1000 (ev.waitTimeout 1000) ↔
        ∀ e ∈ ev.timers, (∀ f ∈ ev.timers, e.1 ≤ f.1) → Exact 1000 (e.1 - ev.stamp)) := by
  intro ev
  exact ⟨by decide, waitTimeout_follows_iff (by simp [ev, Sorted]) (by decide)
    (by simp [ev])⟩

end Libnio.Timer
