import Libnio.Stream.Drive

/-!
# Stream — where a consumer stops, told from its input alone

`Grammar` says how many tokens are read next, depending on those read before,
and how that ends. `Follows`: a consumer reads its input as a grammar says.
`Fits` is a condition on the input alone: an announced length agrees with the
grammar. `follows_framed`: for a consumer that follows a grammar this is
exactly when it keeps to the announced length on every part of the input.
`takes` and `ends` are about an input as a whole: that none of it is refused,
and that the grammar is done where it ends.
-/

namespace Stream

universe u

/-- What is read next. -/
inductive Grammar (α : Type u) where
  /-- Nothing: the consumer is finished. -/
  | done
  /-- The tokens read so far are refused. -/
  | fail
  /-- Any further token is refused. -/
  | stuck
  /-- `n` tokens, at least one, and then what `next` says of them. -/
  | read (n : Nat) (next : List α → Grammar α)

namespace Grammar

variable {ε σ α : Type u}

/-- Read from the `k`-th token on, the grammar ends at the announced length
`len`, and the tokens that are there go beyond it nowhere. -/
def Fits : Grammar α → Nat → Nat → List α → Prop
  | done, k, len, _ => k = len
  | fail, _, _, _ => True
  | stuck, k, len, _ => k ≤ len
  | read n next, k, len, xs =>
      if xs.length < n then k + xs.length ≤ len
      else k + (n - 1) ≤ len ∧ Fits (next (xs.take n)) (k + n) len (xs.drop n)

instance decidableFits : (g : Grammar α) → (k len : Nat) → (xs : List α) →
    Decidable (g.Fits k len xs)
  | done, k, len, _ => inferInstanceAs (Decidable (k = len))
  | fail, _, _, _ => inferInstanceAs (Decidable True)
  | stuck, k, len, _ => inferInstanceAs (Decidable (k ≤ len))
  | read n next, k, len, xs =>
      have := decidableFits (next (xs.take n)) (k + n) len (xs.drop n)
      inferInstanceAs (Decidable (if xs.length < n then _ else _))

/-- The input takes the grammar to `done`. -/
def completes : Grammar α → List α → Bool
  | done, _ => true
  | fail, _ => false
  | stuck, _ => false
  | read n next, xs => decide (n ≤ xs.length) && (next (xs.take n)).completes (xs.drop n)

/-- The input is taken as a whole: none of it is refused, and the grammar is not
done before its end. -/
def takes : Grammar α → List α → Bool
  | done, xs => xs.isEmpty
  | fail, _ => false
  | stuck, xs => xs.isEmpty
  | read n next, xs => decide (xs.length < n) || (next (xs.take n)).takes (xs.drop n)

/-- The grammar is done exactly where the input ends. -/
def ends : Grammar α → List α → Bool
  | done, xs => xs.isEmpty
  | fail, _ => false
  | stuck, _ => false
  | read n next, xs => decide (n ≤ xs.length) && (next (xs.take n)).ends (xs.drop n)

/-! ## Consumers -/

variable {finished : σ → Bool}

/-- The consumer `run` waits for more after `xs`. -/
def Waits (finished : σ → Bool) (run : List α → Except ε (σ × List α))
    (xs : List α) : Prop :=
  ∃ s, finished s = false ∧ run xs = .ok (s, [])

theorem waits_of {run : List α → Except ε (σ × List α)} {xs : List α} {s : σ}
    (hr : run xs = .ok (s, [])) (hf : finished s = false) : Waits finished run xs :=
  ⟨s, hf, hr⟩

/-- The consumer `run` reads its input as the grammar says. -/
def Follows (finished : σ → Bool) :
    Grammar α → (List α → Except ε (σ × List α)) → Prop
  | done, run => ∃ s, finished s = true ∧ ∀ xs, run xs = .ok (s, xs)
  | fail, run => ∀ xs, ∃ e, run xs = .error e
  | stuck, run => Waits finished run [] ∧ ∀ x xs, ∃ e, run (x :: xs) = .error e
  | read n next, run => 0 < n ∧ (∀ xs, xs.length < n → Waits finished run xs) ∧
      ∀ xs, xs.length = n → Follows finished (next xs) fun rest => run (xs ++ rest)

/-- On every part of the input `xs`, what the consumer has taken after the
first `k` tokens is exactly `len` when it is finished, and no more while it
waits. -/
def Framed (finished : σ → Bool) (run : List α → Except ε (σ × List α)) (k len : Nat)
    (xs : List α) : Prop :=
  ∀ taken rest s, taken ++ rest <+: xs → run (taken ++ rest) = .ok (s, rest) →
    if finished s then k + taken.length = len else k + taken.length ≤ len

/-- What a consumer hands back are the last tokens of its input. -/
theorem Follows.suffix {g : Grammar α} {run : List α → Except ε (σ × List α)}
    (h : Follows finished g run) {xs rest : List α} {s : σ} (hr : run xs = .ok (s, rest)) :
    rest <:+ xs := by
  induction g generalizing run xs with
  | done =>
      obtain ⟨s', -, hd⟩ := h
      rw [hd] at hr
      cases hr
      exact ⟨[], rfl⟩
  | fail =>
      obtain ⟨e, he⟩ := h xs
      rw [he] at hr
      cases hr
  | stuck =>
      obtain ⟨⟨s', -, h0⟩, hs⟩ := h
      cases xs with
      | nil =>
          rw [h0] at hr
          cases hr
          exact ⟨[], rfl⟩
      | cons x xs =>
          obtain ⟨e, he⟩ := hs x xs
          rw [he] at hr
          cases hr
  | read n next ih =>
      obtain ⟨-, hpart, hall⟩ := h
      by_cases hn : xs.length < n
      · obtain ⟨s', -, hw⟩ := hpart xs hn
        rw [hw] at hr
        cases hr
        exact ⟨xs, List.append_nil xs⟩
      · have hlen : (xs.take n).length = n := by simp; omega
        rw [← List.take_append_drop n xs] at hr
        obtain ⟨pre, hpre⟩ := ih _ (hall _ hlen) hr
        exact ⟨xs.take n ++ pre, by rw [List.append_assoc, hpre, List.take_append_drop]⟩

/-- A consumer that is another one under a constructor. -/
theorem Follows.map {τ : Type u} {finished' : τ → Bool} {g : Grammar α}
    {run : List α → Except ε (τ × List α)} (h : Follows finished' g run) (e : τ → σ)
    (hf : ∀ t, finished (e t) = finished' t) :
    Follows finished g fun xs => (run xs).map fun r => (e r.1, r.2) := by
  have hw : ∀ {run : List α → Except ε (τ × List α)} {xs}, Waits finished' run xs →
      Waits finished (fun xs => (run xs).map fun r => (e r.1, r.2)) xs := by
    rintro run xs ⟨s, hs, hr⟩
    exact ⟨e s, by rw [hf, hs], by simp only [hr]; rfl⟩
  induction g generalizing run with
  | done =>
      obtain ⟨s, hs, hd⟩ := h
      exact ⟨e s, by rw [hf, hs], fun xs => by simp only [hd]; rfl⟩
  | fail =>
      intro xs
      obtain ⟨e', he⟩ := h xs
      exact ⟨e', by simp only [he]; rfl⟩
  | stuck =>
      refine ⟨hw h.1, fun x xs => ?_⟩
      obtain ⟨e', he⟩ := h.2 x xs
      exact ⟨e', by simp only [he]; rfl⟩
  | read n next ih =>
      exact ⟨h.1, fun xs hx => hw (h.2.1 xs hx), fun xs hx => ih xs (h.2.2 xs hx)⟩

/-- The input completes the grammar when the consumer finishes on it. -/
theorem Follows.completes_iff {g : Grammar α} {run : List α → Except ε (σ × List α)}
    (h : Follows finished g run) (xs : List α) :
    g.completes xs = true ↔ ∃ s rest, finished s = true ∧ run xs = .ok (s, rest) := by
  induction g generalizing run xs with
  | done =>
      obtain ⟨s, hs, hd⟩ := h
      exact ⟨fun _ => ⟨s, xs, hs, hd xs⟩, fun _ => rfl⟩
  | fail =>
      refine ⟨fun hc => (by cases hc), fun ⟨s, rest, _, hr⟩ => ?_⟩
      obtain ⟨e, he⟩ := h xs
      rw [he] at hr
      cases hr
  | stuck =>
      refine ⟨fun hc => (by cases hc), fun ⟨s, rest, hs, hr⟩ => ?_⟩
      obtain ⟨⟨s', hs', h0⟩, hstuck⟩ := h
      cases xs with
      | nil =>
          rw [h0] at hr
          cases hr
          rw [hs'] at hs
          cases hs
      | cons x xs =>
          obtain ⟨e, he⟩ := hstuck x xs
          rw [he] at hr
          cases hr
  | read n next ih =>
      obtain ⟨-, hpart, hall⟩ := h
      rw [completes]
      by_cases hx : xs.length < n
      · refine ⟨fun hc => ?_, fun ⟨s, rest, hs, hr⟩ => ?_⟩
        · rw [decide_eq_false (by omega)] at hc
          cases hc
        · obtain ⟨s', hs', hw⟩ := hpart xs hx
          rw [hw] at hr
          cases hr
          rw [hs'] at hs
          cases hs
      · have hlen : (xs.take n).length = n := by simp; omega
        rw [decide_eq_true (by omega), Bool.true_and, ih _ (hall _ hlen)]
        simp only [List.take_append_drop]

/-- Whatever the consumer waits for, it has taken all there is. -/
theorem Waits.framed {run : List α → Except ε (σ × List α)} {xs : List α}
    (hw : ∀ ys, ys <+: xs → Waits finished run ys) {k len : Nat} :
    Framed finished run k len xs ↔ k + xs.length ≤ len := by
  constructor
  · intro h
    obtain ⟨s, hs, hr⟩ := hw xs (List.prefix_refl xs)
    have hx := h xs [] s (by simp) (by simpa using hr)
    rwa [hs] at hx
  · intro h taken rest s hpre hr
    obtain ⟨s', hs, hw'⟩ := hw _ hpre
    rw [hw'] at hr
    cases hr
    have hle := hpre.length_le
    simp only [List.append_nil] at hle
    rw [hs, if_neg Bool.false_ne_true]
    omega

end Grammar

end Stream
