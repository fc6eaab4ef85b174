import Libnio.Common.Array
import Libnio.Stream.Returns
import Mathlib.Data.List.ReduceOption

/-!
# Common — arrays, call by call

What the loops of `nio_array.c` do to the cells, what growing makes of the capacity,
and what an array holds that is in order.
-/

namespace Libnio.Common

open Slots Stream

theorem int32_of_small {n : Int} (h : -2 ^ 31 ≤ n) (h' : n < 2 ^ 31) : int32 n = n := by
  rw [int32]
  exact Int.bmod_eq_of_le (by omega) (by omega)

theorem int32_of_large {n : Int} (h : 2 ^ 31 ≤ n) (h' : n < 2 ^ 32) : int32 n = n - 2 ^ 32 := by
  rw [int32, Int.bmod_def]
  split <;> omega

theorem int32_bounds (n : Int) : -2 ^ 31 ≤ int32 n ∧ int32 n < 2 ^ 31 := by
  rw [int32]
  have hlow := Int.le_bmod (x := n) (m := 2 ^ 32) (by decide)
  have hhigh := Int.bmod_lt (x := n) (m := 2 ^ 32) (by decide)
  omega

/-- Two sizes add up, or the sum has become negative. -/
theorem int32_add {m n : Int} (hm : 0 ≤ m ∧ m < 2 ^ 31) (hn : 0 ≤ n ∧ n < 2 ^ 31) :
    int32 (m + n) = m + n ∧ m + n < 2 ^ 31 ∨ int32 (m + n) < 0 ∧ 2 ^ 31 ≤ m + n := by
  rw [int32, Int.bmod_def]
  split <;> omega

/-- What is taken for a multiple of sixteen is not positive where the number is not. -/
theorem tdiv_mul_bounds {n : Int} (h : 0 < n.tdiv 16 * 16) :
    n.tdiv 16 * 16 = n / 16 * 16 ∧ 0 < n := by
  rcases Int.le_total 0 n with hn | hn
  · rw [Int.tdiv_eq_ediv_of_nonneg hn] at h ⊢
    omega
  · have hneg : n.tdiv 16 = -((-n) / 16) := by
      rw [← Int.tdiv_eq_ediv_of_nonneg (by omega), Int.neg_tdiv, Int.neg_neg]
    rw [hneg] at h
    omega

namespace NioArray

variable {ν : Type} {a : NioArray ν} {l : List (Option ν)}

/-! ## Cells -/

theorem get_eq {i : Nat} (h : (i : Int) < a.capacity) : a.get i = .ok (a.items i) := by
  rw [get, if_pos ⟨Int.natCast_nonneg i, h⟩, Int.toNat_natCast]

theorem put_eq {i : Nat} (h : (i : Int) < a.capacity) (obj : Option ν) :
    a.put i obj = .ok { a with items := Function.update a.items i obj } := by
  rw [put, if_pos ⟨Int.natCast_nonneg i, h⟩, Int.toNat_natCast]

theorem put_outOfBounds {i : Int} (h : a.capacity ≤ i) (obj : Option ν) :
    a.put i obj = .error .outOfBounds := by
  rw [put, if_neg (fun hi => absurd hi.2 (Int.not_lt.mpr h))]

theorem shiftUp_eq (p : Nat) : ∀ (n : Nat) (a : NioArray ν), (n : Int) < a.capacity →
    a.shiftUp p n = .ok { a with items := opened a.items p n } := by
  intro n
  induction n with
  | zero =>
      intro a _
      rw [shiftUp, opened_of_le a.items (Nat.zero_le p)]
  | succ n ih =>
      intro a h
      by_cases hp : p < n + 1
      · have hroom := ih { a with items := Function.update a.items (n + 1) (a.items n) }
          (show (n : Int) < a.capacity by omega)
        have hput := put_eq (i := n + 1) h (a.items n)
        rw [shiftUp, if_pos (by omega), get_eq (by omega), ok_bind, ← Int.natCast_succ, hput,
          ok_bind, hroom]
        simp only [opened_succ a.items hp]
      · rw [shiftUp, if_neg (by omega), opened_of_le a.items (by omega)]

theorem moveDown_eq : ∀ (n dst src : Nat) (a : NioArray ν), dst ≤ src →
    ((src + n : Nat) : Int) ≤ a.capacity →
    a.moveDown n dst src = .ok { a with items := moved a.items dst src n } := by
  intro n
  induction n with
  | zero =>
      intro dst src a _ _
      rw [moveDown, moved_zero]
  | succ n ih =>
      intro dst src a hle h
      have hrest := ih (dst + 1) (src + 1)
        { a with items := Function.update a.items dst (a.items src) } (by omega)
        (show ((src + 1 + n : Nat) : Int) ≤ a.capacity by omega)
      rw [moveDown, get_eq (by omega), ok_bind, put_eq (by omega), ok_bind, ← Int.natCast_succ,
        ← Int.natCast_succ, hrest]
      simp only [moved_succ a.items hle]

theorem freeAt_eq (freeFn : Bool) {i : Nat} (h : (i : Int) < a.capacity) :
    a.freeAt freeFn i
      = .ok { a with freed := a.freed ++ if freeFn then (a.items i).toList else [] } := by
  rw [freeAt]
  split
  · rw [get_eq h, ok_bind, pure_eq_ok]
  · rw [List.append_nil]

/-- The objects among the cells that are freed, in the order of the cells. -/
theorem clear_eq (freeFn : Bool) : ∀ (n i : Nat) (a : NioArray ν),
    ((i + n : Nat) : Int) ≤ a.capacity →
    a.clear freeFn n i = .ok { a with
      items := filled a.items none i n
      freed := a.freed ++
        if freeFn then (block (fun j => a.items (i + j)) n).reduceOption else [] } := by
  intro n
  induction n with
  | zero =>
      intro i a _
      rw [clear, filled_zero]
      cases freeFn <;> simp [block, List.reduceOption]
  | succ n ih =>
      intro i a h
      have hrest := ih (i + 1)
        { a with
          items := Function.update a.items i none
          freed := a.freed ++ if freeFn then (a.items i).toList else [] }
        (show ((i + 1 + n : Nat) : Int) ≤ a.capacity by omega)
      have hsame : block (fun j => Function.update a.items i none (i + 1 + j)) n
          = block (fun j => a.items (i + 1 + j)) n := by
        refine block_congr fun j _ => ?_
        rw [Function.update_of_ne (by omega)]
      have hput := put_eq (i := i)
        (a := { a with freed := a.freed ++ if freeFn then (a.items i).toList else [] })
        (show (i : Int) < a.capacity by omega) none
      rw [clear, freeAt_eq freeFn (by omega), ok_bind, hput, ok_bind, ← Int.natCast_succ, hrest]
      simp only [filled_succ, hsame, block_succ_front, List.append_assoc]
      cases freeFn with
      | false => rfl
      | true =>
          cases hi : a.items i with
          | none => simp [List.reduceOption_cons_of_none]
          | some obj => simp [List.reduceOption_cons_of_some]

/-! ## An array in order -/

/-- The array has these items: each cell of `items[0..count)` is below the capacity. -/
structure Holds (a : NioArray ν) (l : List (Option ν)) : Prop where
  count : a.count = l.length
  capacity : a.count ≤ a.capacity
  items : block a.items l.length = l

theorem holds_iff : a.Holds l ↔ 0 ≤ a.count ∧ a.count ≤ a.capacity ∧ l = a.contents := by
  constructor
  · intro h
    have hcount := h.count
    refine ⟨by omega, h.capacity, ?_⟩
    rw [contents, h.count, Int.toNat_natCast, h.items]
  · rintro ⟨hcount, hle, rfl⟩
    have hlen : a.contents.length = a.count.toNat := length_block a.items _
    exact ⟨by omega, hle, by rw [hlen, contents]⟩

theorem Holds.item (h : a.Holds l) {i : Nat} (hi : i < l.length) :
    l[i]? = some (a.items i) := by
  rw [← h.items, getElem?_block, if_pos hi]

/-! ## What every call keeps -/

/-- How large an array can be. -/
structure Sized (a : NioArray ν) : Prop where
  multiple : 16 ∣ a.capacity
  nonneg : 0 ≤ a.capacity
  small : a.capacity < 2 ^ 31
  count : 0 ≤ a.count

/-- The two sizes are the same. -/
def SameSize (a a' : NioArray ν) : Prop := a'.capacity = a.capacity ∧ a'.count = a.count

theorem SameSize.refl (a : NioArray ν) : SameSize a a := ⟨rfl, rfl⟩

theorem SameSize.trans {a a' a'' : NioArray ν} (h : SameSize a a') (h' : SameSize a' a'') :
    SameSize a a'' := ⟨h'.1.trans h.1, h'.2.trans h.2⟩

theorem Sized.resize {a' : NioArray ν} (h : a.Sized) (hcap : a'.capacity = a.capacity)
    (hcount : 0 ≤ a'.count) : a'.Sized :=
  ⟨hcap ▸ h.multiple, hcap ▸ h.nonneg, hcap ▸ h.small, hcount⟩

theorem Sized.same {a' : NioArray ν} (h : a.Sized) (hs : SameSize a a') : a'.Sized :=
  h.resize hs.1 (hs.2 ▸ h.count)

section Loops

theorem returns_get (i : Int) (a : NioArray ν) : Returns (fun _ => True) (a.get i) :=
  fun _ _ => trivial

theorem returns_put (i : Int) (obj : Option ν) (a : NioArray ν) :
    Returns (SameSize a) (a.put i obj) :=
  Returns.ite (Returns.ok ⟨rfl, rfl⟩) (Returns.error _)

/-- A cell is read, another is written, and the rest is the same size. -/
theorem returns_copy {src dst : Int} {f : NioArray ν → Except ArrayFault (NioArray ν)}
    (hf : ∀ a', SameSize a a' → Returns (SameSize a') (f a')) :
    Returns (SameSize a) (do
      let obj ← a.get src
      let a ← a.put dst obj
      f a) := by
  refine (returns_get src a).bind fun obj _ => (returns_put dst obj a).bind fun a' h => ?_
  exact fun a'' h' => h.trans (hf a' h a'' h')

theorem returns_shiftUp (position : Int) : ∀ (n : Nat) (a : NioArray ν),
    Returns (SameSize a) (a.shiftUp position n) := by
  intro n
  induction n with
  | zero => exact fun a => Returns.ok (SameSize.refl a)
  | succ n ih =>
      intro a
      rw [shiftUp]
      exact Returns.ite (returns_copy fun a' _ => ih a') (Returns.ok (SameSize.refl a))

theorem returns_moveDown : ∀ (n : Nat) (dst src : Int) (a : NioArray ν),
    Returns (SameSize a) (a.moveDown n dst src) := by
  intro n
  induction n with
  | zero => exact fun _ _ a => Returns.ok (SameSize.refl a)
  | succ n ih => exact fun dst src a => returns_copy fun a' _ => ih (dst + 1) (src + 1) a'

theorem returns_freeAt (freeFn : Bool) (i : Int) (a : NioArray ν) :
    Returns (SameSize a) (a.freeAt freeFn i) :=
  Returns.ite ((returns_get i a).bind fun _ _ => Returns.ok ⟨rfl, rfl⟩)
    (Returns.ok (SameSize.refl a))

theorem returns_clear (freeFn : Bool) : ∀ (n : Nat) (i : Int) (a : NioArray ν),
    Returns (SameSize a) (a.clear freeFn n i) := by
  intro n
  induction n with
  | zero => exact fun _ a => Returns.ok (SameSize.refl a)
  | succ n ih =>
      intro i a
      refine (returns_freeAt freeFn i a).bind fun a₁ h₁ => ?_
      refine (returns_put i none a₁).bind fun a₂ h₂ => ?_
      exact fun a₃ h₃ => (h₁.trans h₂).trans (ih (i + 1) a₂ a₃ h₃)

theorem returns_clear_if (c freeFn : Bool) (n : Nat) (i : Int) (a : NioArray ν) :
    Returns (SameSize a) (if c then a.clear freeFn n i else .ok a) :=
  Returns.ite (returns_clear freeFn n i a) (Returns.ok (SameSize.refl a))

end Loops

/-! ## Growing -/

/-- The array with so many more cells, each of them null from `count` on. -/
def grown (d : Int) (a : NioArray ν) : NioArray ν :=
  { a with
    capacity := a.capacity + d
    items := fun i => if a.count ≤ i ∧ i < a.capacity + d then none else a.items i }

/-- **Growing**: it does nothing, or it asks for a multiple of sixteen cells more. -/
theorem grow_cases (h : a.Sized) (m : Int) :
    a.nioArrayGrow m = .ok a ∧ (m ≤ a.capacity ∨ int32 (m + 15) < 16) ∨
    ∃ d, d = int32 (m + 15) / 16 * 16 ∧ 0 < d ∧
      (a.nioArrayGrow m = .error .noMemory ∧ 2 ^ 31 ≤ a.capacity + d ∨
       a.nioArrayGrow m = .error .outOfBounds ∧ a.capacity + d < a.count ∨
       a.nioArrayGrow m = .ok (a.grown d) ∧ a.capacity + d < 2 ^ 31) := by
  by_cases hm : a.capacity ≥ m
  · exact .inl ⟨by rw [nioArrayGrow, if_pos hm], .inl hm⟩
  · have hbounds := int32_bounds (m + 15)
    by_cases hd : (int32 (m + 15)).tdiv 16 * 16 ≤ 0
    · refine .inl ⟨by rw [nioArrayGrow, if_neg hm]; exact if_pos hd, .inr ?_⟩
      rcases Int.le_total 0 (int32 (m + 15)) with hn | hn
      · rw [Int.tdiv_eq_ediv_of_nonneg hn] at hd
        omega
      · omega
    · obtain ⟨htdiv, -⟩ := tdiv_mul_bounds (Int.not_le.mp hd)
      have hgrow : a.nioArrayGrow m = if int32 (a.capacity + int32 (m + 15) / 16 * 16) < 0 then
          .error .noMemory
        else if int32 (a.capacity + int32 (m + 15) / 16 * 16) < a.count then .error .outOfBounds
        else .ok { a with
          capacity := int32 (a.capacity + int32 (m + 15) / 16 * 16)
          items := fun i => if a.count ≤ i ∧ i < int32 (a.capacity + int32 (m + 15) / 16 * 16)
            then none else a.items i } := by
        rw [nioArrayGrow, if_neg hm, ← htdiv]
        exact if_neg hd
      rw [htdiv] at hd
      refine .inr ⟨int32 (m + 15) / 16 * 16, rfl, Int.not_le.mp hd, ?_⟩
      rcases int32_add (n := int32 (m + 15) / 16 * 16) ⟨h.nonneg, h.small⟩ (by omega)
        with ⟨hsum, hlt⟩ | ⟨hneg, hlt⟩
      · have hnonneg := h.nonneg
        rw [hsum, if_neg (by omega)] at hgrow
        by_cases hc : a.capacity + int32 (m + 15) / 16 * 16 < a.count
        · exact .inr (.inl ⟨by rw [hgrow, if_pos hc], hc⟩)
        · exact .inr (.inr ⟨by rw [hgrow, if_neg hc, grown], hlt⟩)
      · exact .inl ⟨by rw [hgrow, if_pos hneg], hlt⟩

theorem Sized.grown (h : a.Sized) {d : Int} (hdvd : 16 ∣ d) (hpos : 0 < d)
    (hlt : a.capacity + d < 2 ^ 31) : (a.grown d).Sized :=
  ⟨Int.dvd_add h.multiple hdvd, Int.add_nonneg h.nonneg (Int.le_of_lt hpos), hlt, h.count⟩

/-- Where an array grows it stays an array of its kind. -/
theorem returns_grow (h : a.Sized) (m : Int) :
    Returns (fun a' => a'.Sized ∧ a'.count = a.count) (a.nioArrayGrow m) := by
  rcases grow_cases h m with ⟨hg, -⟩ | ⟨d, hd, hpos, ⟨hg, -⟩ | ⟨hg, -⟩ | ⟨hg, hlt⟩⟩
  · exact hg ▸ Returns.ok ⟨h, rfl⟩
  · exact hg ▸ Returns.error _
  · exact hg ▸ Returns.error _
  · exact hg ▸ Returns.ok ⟨h.grown (hd ▸ Int.dvd_mul_left _ _) hpos hlt, rfl⟩

/-- How large an array can become: the next size would not be an `int`. -/
def most : Nat := 2147483632

/-- **Room for one more** is made, unless there is no memory for it; the largest array
of all does not grow. -/
theorem makeRoom_cases (h : a.Sized) (hle : a.count ≤ a.capacity) {more : Int}
    (hmore : 1 ≤ more ∧ more ≤ 16) :
    a.makeRoom more = .error .noMemory ∨
    ∃ a', a.makeRoom more = .ok a' ∧ a'.count = a.count ∧ a'.freed = a.freed ∧
      a'.count ≤ a'.capacity ∧ (∀ i : Nat, i < a.count → a'.items i = a.items i) ∧
      (a'.count < a'.capacity ↔ a.count ≠ most) := by
  have hmul := h.multiple
  have hsmall := h.small
  have hcount := h.count
  rw [makeRoom, most]
  by_cases hfull : a.count ≥ a.capacity
  · rw [if_pos hfull]
    by_cases hmost : a.count = 2147483632
    · -- the number of cells asked for, or what makes it a multiple, is no `int` any more
      have hnone : int32 (int32 (a.count + more) + 15) < 16 := by
        rcases Int.lt_or_le (a.count + more) (2 ^ 31) with hlt | hge
        · rw [int32_of_small (by omega) hlt, int32_of_large (by omega) (by omega)]
          omega
        · rw [int32_of_large hge (by omega), int32_of_small (by omega) (by omega)]
          omega
      rcases grow_cases h (int32 (a.count + more)) with ⟨hg, -⟩ | ⟨d, hd, hpos, -⟩
      · rw [hg]
        exact .inr ⟨a, rfl, rfl, rfl, hle, fun _ _ => rfl, by omega⟩
      · omega
    · have hasked : int32 (a.count + more) = a.count + more :=
        int32_of_small (by omega) (by omega)
      have hrounded : int32 (a.count + more + 15) = a.count + more + 15 :=
        int32_of_small (by omega) (by omega)
      rcases grow_cases h (int32 (a.count + more)) with ⟨-, hno⟩ | ⟨d, hd, hpos, hcases⟩
      · rw [hasked, hrounded] at hno
        omega
      · rw [hasked, hrounded] at hd
        rcases hcases with ⟨hg, -⟩ | ⟨-, hlt⟩ | ⟨hg, -⟩
        · exact .inl hg
        · omega
        · rw [hg]
          have hsize : a.count < a.capacity + d := by omega
          refine .inr ⟨a.grown d, rfl, rfl, rfl, Int.le_of_lt hsize, ?_, ?_⟩
          · intro i hi
            exact if_neg (by omega)
          · exact ⟨fun _ => by omega, fun _ => hsize⟩
  · rw [if_neg hfull]
    exact .inr ⟨a, rfl, rfl, rfl, hle, fun _ _ => rfl, by omega⟩

/-! ## Call by call -/

section Calls

variable (h : a.Sized)
include h

theorem returns_makeRoom (more : Int) :
    Returns (fun a' => a'.Sized ∧ a'.count = a.count) (a.makeRoom more) :=
  Returns.ite (returns_grow h _) (Returns.ok ⟨h, rfl⟩)

theorem returns_preAppend (appCount : Int) : Returns Sized (a.nioArrayPreAppend appCount) := by
  refine Returns.ite (Returns.error _) (Returns.ite ?_ (Returns.ok h))
  exact fun a' ha' => (returns_grow h _ a' ha').1

theorem returns_append (obj : Option ν) :
    Returns (fun r => r.2.Sized) (a.nioArrayAppend obj) := by
  refine (returns_makeRoom h 16).bind fun a₁ h₁ => ?_
  refine (returns_put a₁.count obj a₁).bind fun a₂ h₂ => Returns.ok ?_
  have hcount := (h₁.1.same h₂).count
  exact (h₁.1.same h₂).resize rfl (show 0 ≤ a₂.count + 1 by omega)

/-- The part that the two insertions have in common. -/
theorem returns_insert (position dst : Int) (obj : Option ν) :
    Returns (fun r => r.2.Sized) (do
      let a ← a.makeRoom 1
      let a ← a.shiftUp dst a.count.toNat
      let a ← a.put dst obj
      return (position, { a with count := a.count + 1 }) :
        Except ArrayFault (Int × NioArray ν)) := by
  refine (returns_makeRoom h 1).bind fun a₁ h₁ => ?_
  refine (returns_shiftUp dst a₁.count.toNat a₁).bind fun a₂ h₂ => ?_
  refine (returns_put dst obj a₂).bind fun a₃ h₃ => Returns.ok ?_
  have hsized := h₁.1.same (h₂.trans h₃)
  have hcount := hsized.count
  exact hsized.resize rfl (show 0 ≤ a₃.count + 1 by omega)

theorem returns_predInsert (position : Int) (obj : Option ν) :
    Returns (fun r => r.2.Sized) (a.nioArrayPredInsert position obj) :=
  Returns.ite (Returns.ok h) (returns_insert h position position obj)

theorem returns_succInsert (position : Int) (obj : Option ν) :
    Returns (fun r => r.2.Sized) (a.nioArraySuccInsert position obj) :=
  Returns.ite (Returns.ok h) (returns_insert h (position + 1) (position + 1) obj)

theorem returns_popBack : Returns (fun r => r.2.Sized) a.nioArrayPopBack := by
  rw [nioArrayPopBack]
  split
  · exact Returns.ok h
  · refine (returns_get (a.count - 1) { a with count := a.count - 1 }).bind fun obj _ => ?_
    exact Returns.ok (h.resize rfl (show 0 ≤ a.count - 1 by omega))

theorem returns_popFront : Returns (fun r => r.2.Sized) a.nioArrayPopFront := by
  rw [nioArrayPopFront]
  split
  · exact Returns.ok h
  · refine (returns_get 0 a).bind fun obj _ => ?_
    have hless : ({ a with count := a.count - 1 } : NioArray ν).Sized :=
      h.resize rfl (show 0 ≤ a.count - 1 by omega)
    exact (returns_moveDown _ 0 1 _).bind fun a₁ h₁ => Returns.ok (hless.same h₁)

theorem returns_dequeCall (c : DequeCall ν) :
    Returns (fun r => r.2.Sized) (a.dequeCall c) := by
  cases c <;> refine Returns.map ?_
  case append obj => exact returns_append h obj
  case prepend obj => exact returns_predInsert h 0 obj
  case pushBack obj => exact (returns_append h obj).bind fun _ hr => Returns.ok hr
  case pushFront obj => exact (returns_predInsert h 0 obj).bind fun _ hr => Returns.ok hr
  case predInsert position obj => exact returns_predInsert h position obj
  case succInsert position obj => exact returns_succInsert h position obj
  case popBack => exact returns_popBack h
  case popFront => exact returns_popFront h

theorem returns_deleteIdx (position : Int) (freeFn : Bool) :
    Returns (fun r => r.2.Sized) (a.nioArrayDeleteIdx position freeFn) := by
  rw [nioArrayDeleteIdx]
  split
  · exact Returns.ok h
  · refine (returns_freeAt freeFn position a).bind fun a₁ h₁ => ?_
    refine (returns_put position none a₁).bind fun a₂ h₂ => ?_
    refine (returns_moveDown _ position (position + 1) a₂).bind fun a₃ h₃ => Returns.ok ?_
    have hsame := (h₁.trans h₂).trans h₃
    have hcount := hsame.2
    exact (h.same hsame).resize rfl (show 0 ≤ a₃.count - 1 by omega)

theorem returns_delete (idx : Int) (freeFn : Bool) :
    Returns (fun r => r.2.Sized) (a.nioArrayDelete idx freeFn) := by
  rw [nioArrayDelete]
  split
  · exact Returns.ok h
  · refine (returns_freeAt freeFn idx a).bind fun a₁ h₁ => ?_
    have hcount := h₁.2
    have hless : ({ a₁ with count := a₁.count - 1 } : NioArray ν).Sized :=
      (h.same h₁).resize rfl (show 0 ≤ a₁.count - 1 by omega)
    refine Returns.ite ?_ (Returns.ok hless)
    refine (returns_get _ _).bind fun obj _ => ?_
    exact (returns_put idx obj _).bind fun a₂ h₂ => Returns.ok (hless.same h₂)

theorem returns_deleteRange (ibegin iend : Int) (freeFn : Bool) :
    Returns (fun r => r.2.Sized) (a.nioArrayDeleteRange ibegin iend freeFn) := by
  rw [nioArrayDeleteRange]
  split
  · exact Returns.ok h
  · split
    · exact Returns.ok h
    · refine (returns_clear_if freeFn true _ ibegin a).bind fun a₁ h₁ => ?_
      have hless : ∀ n, 0 ≤ a₁.count - n → ({ a₁ with count := a₁.count - n } : NioArray ν).Sized :=
        fun n hn => (h.same h₁).resize rfl hn
      refine (returns_moveDown _ ibegin _ _).bind fun a₂ h₂ => Returns.ok ?_
      have hcount := h₁.2
      refine (hless _ ?_).same h₂
      split <;> omega

theorem returns_mvIdx (ito ifrom : Int) (freeFn : Bool) :
    Returns (fun r => r.2.Sized) (a.nioArrayMvIdx ito ifrom freeFn) := by
  rw [nioArrayMvIdx]
  split
  · exact Returns.ok h
  · split
    · exact Returns.ok h
    · refine (returns_clear_if freeFn true _ ito a).bind fun a₁ h₁ => ?_
      refine (returns_moveDown _ ito ifrom a₁).bind fun a₂ h₂ => ?_
      have hcount := (h₁.trans h₂).2
      have hless : ({ a₂ with count := a₂.count - (ifrom - ito) } : NioArray ν).Sized :=
        (h.same (h₁.trans h₂)).resize rfl (show 0 ≤ a₂.count - (ifrom - ito) by omega)
      exact Returns.ite (Returns.ok hless) (Returns.ok hless)

theorem returns_clean (freeFn : Bool) : Returns Sized (a.nioArrayClean freeFn) :=
  (returns_clear freeFn a.count.toNat 0 a).bind fun _ h₁ =>
    Returns.ok ((h.same h₁).resize rfl (Int.le_refl 0))

variable [DecidableEq ν]

theorem returns_deleteObj (obj : Option ν) (freeFn : Bool) :
    Returns (fun r => r.2.Sized) (a.nioArrayDeleteObj obj freeFn) := by
  have hfreed : ∀ fs, ({ a with freed := fs } : NioArray ν).Sized :=
    fun fs => h.resize rfl h.count
  rw [nioArrayDeleteObj]
  refine Returns.bind (P := fun _ => True) (fun _ _ => trivial) fun position _ => ?_
  have hif : (if freeFn then { a with freed := a.freed ++ obj.toList } else a).Sized := by
    split
    · exact hfreed _
    · exact h
  cases position with
  | none => exact Returns.ok hif
  | some position =>
      refine (returns_put position none _).bind fun a₁ h₁ => ?_
      refine (returns_deleteIdx (hif.same h₁) position false).bind fun r hr => ?_
      exact Returns.ite (Returns.ok hr) (Returns.ok hr)

/-- **Every call** leaves an array of its kind, whatever state it finds. -/
theorem returns_call (c : ArrayCall ν) : Returns (fun r => r.2.Sized) (a.call c) := by
  cases c with
  | deque c => exact returns_dequeCall h c
  | deletion d =>
      refine Returns.map ?_
      cases d with
      | deleteIdx position freeFn => exact returns_deleteIdx h position freeFn
      | delete idx freeFn => exact returns_delete h idx freeFn
      | deleteObj obj freeFn => exact returns_deleteObj h obj freeFn
      | deleteRange ibegin iend freeFn => exact returns_deleteRange h ibegin iend freeFn
      | mvIdx ito ifrom freeFn => exact returns_mvIdx h ito ifrom freeFn
  | clean freeFn =>
      refine Returns.map ?_
      exact returns_clean h freeFn
  | preAppend appCount =>
      refine Returns.map ?_
      exact returns_preAppend h appCount

end Calls

end NioArray

end Libnio.Common
