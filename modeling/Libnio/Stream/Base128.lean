import Mathlib.Algebra.BigOperators.Ring.Finset
import Mathlib.Data.Nat.Bitwise
import Mathlib.Tactic.Ring

/-!
# Stream — base-128 numbers

A natural number as a little-endian list of seven-bit digits, one a byte,
with bit 7 set on every byte but the last. `encode` writes the shortest
such list and `decode` is the value of any list of digits. `Digits` says
where a list ends, `front_cases` what may stand at the front of a stream,
and `or_digit` is the step of a machine that shifts one digit after the
other into place.
-/

namespace Base128

/-- The shortest base-128 encoding of `n`. -/
def encode (n : Nat) : List UInt8 :=
  if n < 128 then [UInt8.ofNat n]
  else UInt8.ofNat (n % 128 + 128) :: encode (n / 128)
termination_by n

/-- The value of a list of digits; bit 7 of a byte does not count. -/
def decode : List UInt8 → Nat
  | [] => 0
  | b :: bs => b.toNat % 128 + 128 * decode bs

/-- Bit 7 is set on every byte but the last. -/
def Digits : List UInt8 → Prop
  | [] => False
  | [b] => b.toNat < 128
  | b :: bs => 128 ≤ b.toNat ∧ Digits bs

theorem encode_small {n : Nat} (h : n < 128) : encode n = [UInt8.ofNat n] := by
  rw [encode, if_pos h]

theorem encode_large {n : Nat} (h : 128 ≤ n) :
    encode n = UInt8.ofNat (n % 128 + 128) :: encode (n / 128) := by
  rw [encode, if_neg (by omega)]

theorem digits_cons {b : UInt8} {bs : List UInt8} (hb : bs ≠ []) :
    Digits (b :: bs) ↔ 128 ≤ b.toNat ∧ Digits bs := by
  cases bs with
  | nil => exact absurd rfl hb
  | cons c cs => rfl

theorem Digits.ne_nil {bs : List UInt8} (h : Digits bs) : bs ≠ [] := by
  rintro rfl
  exact h

theorem digits_encode (n : Nat) : Digits (encode n) := by
  induction n using Nat.strongRecOn with
  | ind n ih =>
      rcases Nat.lt_or_ge n 128 with h | h
      · rw [encode_small h, Digits, UInt8.toNat_ofNat']
        omega
      · have ht := ih (n / 128) (by omega)
        rw [encode_large h, digits_cons ht.ne_nil]
        refine ⟨?_, ht⟩
        rw [UInt8.toNat_ofNat']
        omega

theorem decode_encode (n : Nat) : decode (encode n) = n := by
  induction n using Nat.strongRecOn with
  | ind n ih =>
      rcases Nat.lt_or_ge n 128 with h | h
      · rw [encode_small h, decode, decode, UInt8.toNat_ofNat']
        omega
      · rw [encode_large h, decode, ih (n / 128) (by omega), UInt8.toNat_ofNat']
        omega

/-- A number of at most `7 k` bits takes at most `k` bytes. -/
theorem length_encode_le {k : Nat} (hk : 0 < k) {n : Nat} (h : n < 128 ^ k) :
    (encode n).length ≤ k := by
  induction k, hk using Nat.le_induction generalizing n with
  | base => rw [encode_small (by simpa using h)]; simp
  | succ k hk ih =>
      rcases Nat.lt_or_ge n 128 with hn | hn
      · rw [encode_small hn]
        simp
      · have hd : n / 128 < 128 ^ k := by
          rw [Nat.div_lt_iff_lt_mul (by decide), ← Nat.pow_succ]
          exact h
        rw [encode_large hn, List.length_cons]
        exact Nat.succ_le_succ (ih hd)

theorem decode_lt (bs : List UInt8) : decode bs < 128 ^ bs.length := by
  induction bs with
  | nil => simp [decode]
  | cons b bs ih =>
      rw [decode, List.length_cons, Nat.pow_succ]
      have := Nat.mod_lt b.toNat (show 0 < 128 by decide)
      omega

theorem decode_concat (bs : List UInt8) (b : UInt8) :
    decode (bs ++ [b]) = decode bs + 128 ^ bs.length * (b.toNat % 128) := by
  induction bs with
  | nil => simp [decode]
  | cons c cs ih =>
      rw [List.cons_append, decode, ih, decode, List.length_cons, Nat.pow_succ]
      ring

/-- The value of digits is a sum over their places. -/
theorem decode_eq_sum (bs : List UInt8) :
    decode bs = ∑ i ∈ Finset.range bs.length, (bs.getD i 0).toNat % 128 * 128 ^ i := by
  induction bs with
  | nil => rfl
  | cons b bs ih =>
      rw [decode, ih, List.length_cons, Finset.sum_range_succ', Finset.mul_sum]
      simp only [List.getD_cons_succ, List.getD_cons_zero, Nat.pow_zero, Nat.mul_one]
      rw [Nat.add_comm]
      congr 1
      apply Finset.sum_congr rfl
      intro i _
      rw [Nat.pow_succ]
      ring

/-- No digits of a value are fewer than those of `encode`. -/
theorem Digits.length_encode_le {ds : List UInt8} (h : Digits ds) :
    (encode (decode ds)).length ≤ ds.length :=
  Base128.length_encode_le (List.length_pos_iff.mpr h.ne_nil) (decode_lt ds)

theorem digits_iff {ds : List UInt8} :
    Digits ds ↔ ∃ ms last, ds = ms ++ [last] ∧ (∀ c ∈ ms, 128 ≤ c.toNat)
      ∧ last.toNat < 128 := by
  constructor
  · intro h
    induction ds with
    | nil => exact absurd rfl h.ne_nil
    | cons b bs ih =>
        by_cases h0 : bs = []
        · subst h0
          exact ⟨[], b, rfl, by simp, h⟩
        · obtain ⟨hb, hbs⟩ := (digits_cons h0).mp h
          obtain ⟨ms, last, rfl, hms, hlast⟩ := ih hbs
          exact ⟨b :: ms, last, rfl, by simpa using ⟨hb, hms⟩, hlast⟩
  · rintro ⟨ms, last, rfl, hms, hlast⟩
    induction ms with
    | nil => exact hlast
    | cons c ms ih =>
        rw [List.cons_append, digits_cons (by simp)]
        exact ⟨hms c (by simp), ih fun d hd => hms d (by simp [hd])⟩

/-- What stands at the front of a stream: digits that end within `k` bytes, `k`
bytes that all go on, or fewer bytes that all go on. -/
theorem front_cases (k : Nat) (xs : List UInt8) :
    (∃ ds rest, xs = ds ++ rest ∧ Digits ds ∧ ds.length ≤ k) ∨
    (∃ ms rest, xs = ms ++ rest ∧ ms.length = k ∧ ∀ c ∈ ms, 128 ≤ c.toNat) ∨
    (xs.length < k ∧ ∀ c ∈ xs, 128 ≤ c.toNat) := by
  induction k generalizing xs with
  | zero => exact .inr (.inl ⟨[], xs, rfl, rfl, by simp⟩)
  | succ k ih =>
      cases xs with
      | nil => exact .inr (.inr ⟨Nat.succ_pos k, by simp⟩)
      | cons b xs =>
          rcases Nat.lt_or_ge b.toNat 128 with hb | hb
          · exact .inl ⟨[b], xs, rfl, hb, by simp⟩
          -- the first byte goes on: it is put in front of whatever follows
          rcases ih xs with ⟨ds, rest, rfl, hds, hk⟩ | ⟨ms, rest, rfl, hk, hms⟩ | ⟨hk, hxs⟩
          · exact .inl ⟨b :: ds, rest, rfl, (digits_cons hds.ne_nil).mpr ⟨hb, hds⟩,
              Nat.succ_le_succ hk⟩
          · exact .inr (.inl ⟨b :: ms, rest, rfl, congrArg Nat.succ hk,
              by simpa using ⟨hb, hms⟩⟩)
          · exact .inr (.inr ⟨Nat.succ_lt_succ hk, by simpa using ⟨hb, hxs⟩⟩)

/-- The digits at the front of `xs`, at most `k` of them, and what follows. -/
def split : Nat → List UInt8 → Option (List UInt8 × List UInt8)
  | 0, _ => none
  | _ + 1, [] => none
  | k + 1, b :: xs =>
      if b.toNat < 128 then some ([b], xs)
      else (split k xs).map fun r => (b :: r.1, r.2)

theorem split_eq_some {k : Nat} {xs ds rest : List UInt8} :
    split k xs = some (ds, rest) ↔ xs = ds ++ rest ∧ Digits ds ∧ ds.length ≤ k := by
  induction k generalizing xs ds with
  | zero =>
      refine ⟨fun h => by simp [split] at h, fun ⟨_, hd, hl⟩ => ?_⟩
      exact absurd (List.eq_nil_of_length_eq_zero (by omega)) hd.ne_nil
  | succ k ih =>
      cases xs with
      | nil =>
          refine ⟨fun h => by simp [split] at h, fun ⟨hx, hd, _⟩ => ?_⟩
          exact absurd (List.append_eq_nil_iff.mp hx.symm).1 hd.ne_nil
      | cons b xs =>
          rw [split]
          split
          · rename_i hb
            constructor
            · intro h
              cases h
              exact ⟨rfl, hb, by simp⟩
            · rintro ⟨hx, hd, -⟩
              cases ds with
              | nil => exact absurd rfl hd.ne_nil
              | cons d ds =>
                  simp only [List.cons_append, List.cons.injEq] at hx
                  obtain ⟨rfl, rfl⟩ := hx
                  by_cases h0 : ds = []
                  · simp [h0]
                  · have := ((digits_cons h0).mp hd).1
                    omega
          · rename_i hb
            constructor
            · intro h
              cases hs : split k xs with
              | none => simp [hs] at h
              | some r =>
                  obtain ⟨ds', rest'⟩ := r
                  simp only [hs, Option.map_some, Option.some.injEq, Prod.mk.injEq] at h
                  obtain ⟨rfl, rfl⟩ := h
                  obtain ⟨rfl, hd, hl⟩ := ih.mp hs
                  exact ⟨rfl, (digits_cons hd.ne_nil).mpr ⟨by omega, hd⟩,
                    Nat.succ_le_succ hl⟩
            · rintro ⟨hx, hd, hl⟩
              cases ds with
              | nil => exact absurd rfl hd.ne_nil
              | cons d ds =>
                  simp only [List.cons_append, List.cons.injEq] at hx
                  obtain ⟨rfl, rfl⟩ := hx
                  by_cases h0 : ds = []
                  · rw [h0] at hd
                    exact absurd hd hb
                  · rw [ih.mpr ⟨rfl, ((digits_cons h0).mp hd).2, Nat.le_of_succ_le_succ hl⟩]
                    rfl

/-- Or-ing the next digit into place adds it: the digits do not overlap. -/
theorem or_digit {x i : Nat} (hx : x < 128 ^ i) (d : Nat) :
    x ||| (d <<< (7 * i)) = x + 128 ^ i * d := by
  have hp : 128 ^ i = 2 ^ (7 * i) := by
    rw [Nat.pow_mul]
  rw [hp] at hx ⊢
  rw [Nat.shiftLeft_eq, Nat.mul_comm d, Nat.or_comm,
    ← Nat.two_pow_add_eq_or_of_lt hx, Nat.add_comm]

end Base128
