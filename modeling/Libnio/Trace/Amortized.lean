import Libnio.Trace.Machine
import Mathlib.Algebra.Ring.Nat

/-!
# Trace — what a run costs

A step may be dear if the steps before it have put something by. `Pays` is the
argument for one step, with what a state has put by as its potential, and
`Pays.spent_le` is what comes of it for a run.
-/

namespace Libnio.Trace

variable {σ α : Type*} (step : σ → α → Option σ)

/-- What the steps that are taken cost in all. -/
def spent (cost : σ → α → Nat) (s : σ) (as : List α) : Nat :=
  noted step (fun s a n => n + cost s a) s 0 as

/-- Each step costs what is charged for it, and what the potential falls by. `I` is of a
state and of what is still to come. -/
structure Pays (I : σ → List α → Prop) (cost charge : σ → α → Nat) (potential : σ → Nat) :
    Prop where
  keeps : ∀ {s a as s'}, I s (a :: as) → step s a = some s' → I s' as
  pays : ∀ {s a as s'}, I s (a :: as) → step s a = some s' →
    cost s a + potential s' ≤ charge s a + potential s

variable {step} {I : σ → List α → Prop} {cost charge : σ → α → Nat} {potential : σ → Nat}

/-- A count that is under way goes on from where it stands. -/
theorem noted_add (cost : σ → α → Nat) (s : σ) (n : Nat) (as : List α) :
    noted step (fun s a n => n + cost s a) s n as = n + spent step cost s as := by
  unfold spent
  induction as generalizing s n with
  | nil => rfl
  | cons a as ih =>
      rw [noted, noted]
      cases step s a with
      | none => rfl
      | some s' =>
          dsimp only
          rw [ih, ih s' (0 + cost s a), Nat.zero_add, Nat.add_assoc]

theorem spent_none {s : σ} {a : α} (h : step s a = none) (as : List α) :
    spent step cost s (a :: as) = 0 := by
  rw [spent, noted, h]

theorem spent_some {s s' : σ} {a : α} (h : step s a = some s') (as : List α) :
    spent step cost s (a :: as) = cost s a + spent step cost s' as := by
  rw [spent, noted, h]
  dsimp only
  rw [noted_add, Nat.zero_add]

/-- **A run costs** what is charged for its steps, and what it finds put by. -/
theorem Pays.spent_le (h : Pays step I cost charge potential) {s : σ} {as : List α}
    (hi : I s as) : spent step cost s as ≤ spent step charge s as + potential s := by
  induction as generalizing s with
  | nil => exact Nat.zero_le _
  | cons a as ih =>
      cases hs : step s a with
      | none =>
          rw [spent_none hs]
          exact Nat.zero_le _
      | some s' =>
          have hrest := ih (h.keeps hi hs)
          have hstep := h.pays hi hs
          rw [spent_some hs, spent_some hs]
          omega

/-- What is charged by the step alone. -/
theorem spent_le_sum (charge : α → Nat) (s : σ) (as : List α) :
    spent step (fun _ a => charge a) s as ≤ (as.map charge).sum := by
  induction as generalizing s with
  | nil => exact Nat.le_refl 0
  | cons a as ih =>
      rw [List.map_cons, List.sum_cons]
      cases hs : step s a with
      | none =>
          rw [spent_none hs]
          exact Nat.zero_le _
      | some s' =>
          rw [spent_some hs]
          exact Nat.add_le_add_left (ih s') _

end Libnio.Trace
