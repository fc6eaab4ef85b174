import Libnio.Trace.Machine
import Mathlib.Data.Finset.Card
import Mathlib.Logic.Function.Basic

/-!
# Trace — custody

Things that one holder has at a time: a table says who has a thing, and no more
than one can. A thing is taken by a holder while nobody has it, passed on, or
released, by the one who has it.
-/

namespace Libnio.Trace.Custody

variable {θ η : Type*}

/-- What happens to a thing `x`. -/
inductive Move (θ η : Type*) where
  | take (x : θ) (h : η)
  | pass (x : θ) (h h' : η)
  | release (x : θ) (h : η)
deriving DecidableEq

/-- `s` is all that `h` has. -/
def Has (t : θ → Option η) (h : η) (s : Finset θ) : Prop := ∀ x, x ∈ s ↔ t x = some h

variable [DecidableEq θ] {t t' : θ → Option η} {h : η} {s : Finset θ} {x : θ}

/-- One more, if `h` has not had it. -/
theorem Has.insert (hs : Has t h s) (hx : t x ≠ some h) :
    Has (Function.update t x (some h)) h (insert x s) ∧ (insert x s).card = s.card + 1 := by
  refine ⟨fun y => ?_, Finset.card_insert_of_notMem fun hm => hx ((hs x).mp hm)⟩
  by_cases hy : y = x
  · simp [hy]
  · simp [hy, hs y]

/-- What others have goes on among others. -/
theorem Has.beside (hs : Has t h s) {o : Option η} (hx : t x ≠ some h) (ho : o ≠ some h) :
    Has (Function.update t x o) h s := by
  intro y
  by_cases hy : y = x
  · rw [hy, Function.update_self, hs x]
    exact ⟨fun h => absurd h hx, fun h => absurd h ho⟩
  · rw [Function.update_of_ne hy, hs y]

variable [DecidableEq η]

/-- It ends up with `h`. -/
def Move.gives (h : η) : Move θ η → Bool
  | .take _ g => g = h
  | .pass _ _ g => g = h
  | .release _ _ => false

/-- It was with `h`. -/
def Move.leaves (h : η) : Move θ η → Bool
  | .take _ _ => false
  | .pass _ g _ => g = h
  | .release _ g => g = h

/-- A move is made by the one who has the thing. -/
def move (t : θ → Option η) : Move θ η → Option (θ → Option η)
  | .take x h => if t x = none then some (Function.update t x (some h)) else none
  | .pass x h h' => if t x = some h then some (Function.update t x (some h')) else none
  | .release x h => if t x = some h then some (Function.update t x none) else none

theorem Has.moved (hs : Has t h s) {m : Move θ η} (hm : m.leaves h = false)
    (ht : move t m = some t') :
    ∃ s', Has t' h s' ∧ s'.card = s.card + if m.gives h then 1 else 0 := by
  have hadd (x : θ) (g : η) (hx : t x ≠ some h)
      (ht : some (Function.update t x (some g)) = some t') :
      ∃ s', Has t' h s' ∧ s'.card = s.card + if decide (g = h) then 1 else 0 := by
    cases ht
    by_cases hg : g = h
    · subst hg
      simpa using ⟨_, hs.insert hx⟩
    · exact ⟨s, hs.beside hx (by simpa using hg), by simp [hg]⟩
  cases m with
  | take x g =>
      rw [Custody.move] at ht
      split at ht
      next hx => exact hadd x g (by simp [hx]) ht
      next => cases ht
  | pass x g g' =>
      rw [Custody.move] at ht
      split at ht
      next hx => exact hadd x g' (by simpa [Move.leaves, hx] using hm) ht
      next => cases ht
  | release x g =>
      rw [Custody.move] at ht
      split at ht
      next hx =>
        cases ht
        exact ⟨s, hs.beside (by simpa [Move.leaves, hx] using hm) (by simp), by simp [Move.gives]⟩
      next => cases ht

/-- **Who never lets go of anything** has one thing more for each move to it. -/
theorem Has.run (hs : Has t h s) {ms : List (Move θ η)} (hm : ∀ m ∈ ms, m.leaves h = false)
    (ht : run move t ms = some t') :
    ∃ s', Has t' h s' ∧ s'.card = s.card + ms.countP (Move.gives h) := by
  induction ms generalizing t s with
  | nil =>
      cases ht
      exact ⟨s, hs, rfl⟩
  | cons m ms ih =>
      rw [run_cons] at ht
      obtain ⟨u, hu, ht⟩ := Option.bind_eq_some_iff.mp ht
      obtain ⟨s₁, hs₁, hc₁⟩ := hs.moved (hm m List.mem_cons_self) hu
      obtain ⟨s₂, hs₂, hc₂⟩ := ih hs₁ (fun m h => hm m (List.mem_cons_of_mem _ h)) ht
      refine ⟨s₂, hs₂, ?_⟩
      rw [hc₂, hc₁, List.countP_cons]
      omega

end Libnio.Trace.Custody
