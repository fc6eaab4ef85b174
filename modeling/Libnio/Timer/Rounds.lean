import Libnio.Timer.Loop
import Libnio.Timer.Timeout

/-!
# Timer — rounds

`nio_event::wait` as far as timers go: the timeout that the backend gets, what
`before_wait` and the callbacks of descriptors call around it, the clock that
the backend reads when the kernel returns, and `trigger_timers`.
-/

namespace Libnio.Timer

/-- What `nio_event_wait2` makes of a timeout; `limit` is `ev->timeout`, which
`nio_event_create2` sets to -1. -/
def wait2Timeout (limit timeout : Int) : Int :=
  let timeout :=
    if limit < 0 then
      if timeout < 0 then 100 else timeout
    else if timeout < 0 then limit
    else if timeout > limit then limit
    else timeout
  -- "just for fiber schedule exiting quickly when no tasks left"
  if timeout > 1000 ∨ timeout < 0 then 100 else timeout

variable {τ : Type} [DecidableEq τ]

/-- A turn of a program: a call of its own, or a `wait`, of which `before` is
what `before_wait` calls, `kernel` what `clock_gettime` answers once the kernel
has returned from the wait it was asked for, and `during` what the callbacks of
descriptors call. -/
inductive Turn (τ : Type) where
  | call (c : Call τ)
  | wait (ms : Int) (before : List (Call τ)) (kernel : Int → Int × Int) (during : List (Call τ))

namespace Loop

section Run

variable (behave : Behaviour τ) (limit : Int)

/-- The timeout that a `wait(ms)` ends up with. -/
def timeout (s : Loop τ) (ms : Int) : Int := wait2Timeout limit (s.ev.waitTimeout ms)

/-- The backend's `event_wait`: the clock is read, then callbacks are called. -/
def eventWait (s : Loop τ) (clock : Int × Int) (during : List (Call τ)) : Loop τ :=
  during.foldl call (s.setStamp clock.1 clock.2)

/-- `nio_event::wait` -/
def wait (s : Loop τ) (ms : Int) (before : List (Call τ)) (kernel : Int → Int × Int)
    (during : List (Call τ)) : Loop τ :=
  -- the timeout goes by the timers of before `before_wait`
  let s := (before.foldl call s).eventWait (kernel (s.timeout limit ms)) during
  if s.ev.timers.isEmpty then s else s.triggerTimers behave

def turn (s : Loop τ) : Turn τ → Loop τ
  | .call c => s.call c
  | .wait ms before kernel during => s.wait behave limit ms before kernel during

def turns (s : Loop τ) (ts : List (Turn τ)) : Loop τ :=
  ts.foldl (turn behave limit) s

end Run

end Loop

/-! ## How long a wait can take -/

theorem wait2Timeout_bounds (limit timeout : Int) :
    0 ≤ wait2Timeout limit timeout ∧ wait2Timeout limit timeout ≤ 1000 := by
  unfold wait2Timeout
  dsimp only
  generalize (if limit < 0 then _ else _ : Int) = t
  split <;> omega

/-- No wait is longer than was asked for. -/
theorem wait2Timeout_le (limit : Int) {timeout : Int} (h : 0 ≤ timeout) :
    wait2Timeout limit timeout ≤ timeout := by
  unfold wait2Timeout
  dsimp only
  have hle : (if limit < 0 then if timeout < 0 then 100 else timeout
      else if timeout < 0 then limit else if timeout > limit then limit else timeout)
      ≤ timeout := by
    split_ifs <;> omega
  split <;> omega

omit [DecidableEq τ] in
/-- **The limits of `nio_event_wait2` make up for the narrowing in
`nio_event::wait`.** A wait that finds the earliest timer a millisecond away or
more ends before it, also where the difference does not fit in an `int`. -/
theorem wait2Timeout_le_first {ms : Int} (hms : 0 ≤ ms) {ev : Timers τ} (limit : Int)
    (hs : Sorted ev.timers) (hstamp : 0 ≤ ev.stamp) (htop : ∀ e ∈ ev.timers, e.1 < 2 ^ 63)
    (hahead : ∀ e ∈ ev.timers, ev.stamp + ms2ns ≤ e.1) :
    ∀ e ∈ ev.timers, ev.stamp + wait2Timeout limit (ev.waitTimeout ms) * ms2ns ≤ e.1 := by
  unfold Timers.waitTimeout
  cases hl : ev.timers with
  | nil => exact fun _ he => by cases he
  | cons first rest =>
      rw [hl] at hs htop hahead
      obtain ⟨hle, -⟩ := List.pairwise_cons.mp hs
      -- it is enough to end before the first
      suffices h : ev.stamp +
          wait2Timeout limit (if delay (first.1 - ev.stamp) > 0 ∧ delay (first.1 - ev.stamp) < ms
            then delay (first.1 - ev.stamp) else ms) * ms2ns ≤ first.1 by
        intro e he
        rcases List.mem_cons.mp he with rfl | he
        · exact h
        · exact h.trans (hle e he)
      have hfar := hahead first List.mem_cons_self
      have hhigh := htop first List.mem_cons_self
      dsimp only [ms2ns] at hfar ⊢
      have hd : -2 ^ 63 ≤ first.1 - ev.stamp := by omega
      have hd' : first.1 - ev.stamp < 2 ^ 63 := by omega
      obtain ⟨⟨k, hk⟩, hlo, hhi⟩ := bmod_spec (first.1 - ev.stamp)
      have hshort := delay_shortens hd hd' ms
      by_cases hc : delay (first.1 - ev.stamp) > 0 ∧ delay (first.1 - ev.stamp) < ms
      · rw [if_pos hc]
        rw [hshort] at hc
        have hT : wait2Timeout limit (delay (first.1 - ev.stamp)) ≤ delay (first.1 - ev.stamp) :=
          wait2Timeout_le limit (by omega)
        have heq := delay_eq hd hd'
        rw [(tdiv_ms2ns _).1 (by omega)] at heq
        -- the low bits are at most the whole
        have hk0 : 0 ≤ k := by omega
        omega
      · rw [if_neg hc]
        rw [hshort] at hc
        have hT := wait2Timeout_le limit hms
        have hT' := (wait2Timeout_bounds limit ms).2
        by_cases hlow : (first.1 - ev.stamp).bmod (2 ^ 32) < 1000000
        · -- what does not fit is more than two seconds away
          have hk1 : 1 ≤ k := by omega
          omega
        · have hk0 : 0 ≤ k := by omega
          omega

end Libnio.Timer
