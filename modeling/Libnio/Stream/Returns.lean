import Mathlib.Init

/-!
# Stream — computations that may fail

What a chain of such computations returns, and what is known of the value where it
returns one: `Returns` is the partial reading, and its rules follow the chain.
-/

namespace Stream

universe u v w

variable {ε : Type u}

@[simp] theorem ok_bind {β γ : Type v} (a : β) (f : β → Except ε γ) :
    (Except.ok a >>= f) = f a := rfl

@[simp] theorem error_bind {β γ : Type v} (e : ε) (f : β → Except ε γ) :
    ((Except.error e : Except ε β) >>= f) = Except.error e := rfl

@[simp] theorem pure_eq_ok {β : Type v} (a : β) :
    (pure a : Except ε β) = Except.ok a := rfl

@[simp] theorem throw_eq_error {β : Type v} (e : ε) :
    (throw e : Except ε β) = Except.error e := rfl

/-- A bind that returns a value: both halves returned one. -/
theorem bind_eq_ok {β γ : Type v} {x : Except ε β} {f : β → Except ε γ} {c : γ} :
    (x >>= f) = Except.ok c ↔ ∃ a, x = Except.ok a ∧ f a = Except.ok c := by
  cases x with
  | error e => simp
  | ok a => simp

/-- What the computation returns, if it returns, meets `P`. -/
def Returns {β : Type v} (P : β → Prop) (x : Except ε β) : Prop := ∀ a, x = .ok a → P a

namespace Returns

theorem ok {β : Type v} {P : β → Prop} {a : β} (h : P a) : Returns P (.ok a : Except ε β) := by
  intro b hb
  cases hb
  exact h

theorem error {β : Type v} {P : β → Prop} (e : ε) : Returns P (.error e : Except ε β) := by
  intro b hb
  cases hb

theorem bind {β γ : Type v} {P : β → Prop} {Q : γ → Prop} {x : Except ε β}
    {f : β → Except ε γ} (hx : Returns P x) (hf : ∀ a, P a → Returns Q (f a)) :
    Returns Q (x >>= f) := by
  intro c hc
  obtain ⟨a, ha, hfa⟩ := bind_eq_ok.mp hc
  exact hf a (hx a ha) c hfa

theorem map {β : Type v} {γ : Type w} {P : γ → Prop} {x : Except ε β} {f : β → γ}
    (hx : Returns (fun a => P (f a)) x) : Returns P (x.map f) := by
  cases x with
  | error e => exact error e
  | ok a => exact ok (hx a rfl)

theorem ite {β : Type v} {P : β → Prop} {c : Prop} [Decidable c] {x y : Except ε β}
    (hx : Returns P x) (hy : Returns P y) : Returns P (if c then x else y) := by
  split
  · exact hx
  · exact hy

end Returns

end Stream
