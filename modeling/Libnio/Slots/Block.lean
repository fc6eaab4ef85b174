import Mathlib.Data.List.Basic
import Mathlib.Logic.Function.Basic

/-!
# Slots — a block of cells

Cells numbered from zero, and the list of what is in the first of them. A loop that
copies cells down, one after the other, closes the gap between two places; one that
copies them up from the end makes room at a place.
-/

namespace Libnio.Slots

variable {α : Type}

/-- What is in the first cells. -/
def block (f : Nat → α) (n : Nat) : List α := (List.range n).map f

@[simp] theorem length_block (f : Nat → α) (n : Nat) : (block f n).length = n := by
  simp [block]

theorem getElem?_block (f : Nat → α) (n i : Nat) :
    (block f n)[i]? = if i < n then some (f i) else none := by
  rw [block, List.getElem?_map]
  split
  · rw [List.getElem?_range (by assumption)]
    rfl
  · rw [List.getElem?_eq_none (by simp; omega)]
    rfl

theorem block_congr {f g : Nat → α} {n : Nat} (h : ∀ i < n, f i = g i) :
    block f n = block g n := by
  refine List.map_congr_left fun i hi => h i (List.mem_range.mp hi)

theorem block_succ (f : Nat → α) (n : Nat) : block f (n + 1) = block f n ++ [f n] := by
  rw [block, List.range_succ, List.map_append]
  rfl

/-- One more cell at the end. -/
theorem block_update_end (f : Nat → α) (n : Nat) (x : α) :
    block (Function.update f n x) (n + 1) = block f n ++ [x] := by
  rw [block_succ, Function.update_self]
  congr 1
  exact block_congr fun i hi => Function.update_of_ne (Nat.ne_of_lt hi) x f

/-! ## Making room -/

/-- The cells behind place `p` after those from there on have gone up by one. -/
def opened (f : Nat → α) (p n : Nat) : Nat → α := fun i => if p < i ∧ i ≤ n then f (i - 1) else f i

theorem opened_of_le (f : Nat → α) {p n : Nat} (h : n ≤ p) : opened f p n = f := by
  ext i
  rw [opened, if_neg (by omega)]

/-- The last cell goes first. -/
theorem opened_succ (f : Nat → α) {p n : Nat} (h : p < n + 1) :
    opened (Function.update f (n + 1) (f n)) p n = opened f p (n + 1) := by
  ext i
  by_cases hi : i = n + 1
  · rw [opened, if_neg (by omega), opened, if_pos (by omega), hi, Function.update_self]
    rfl
  · by_cases hp : p < i ∧ i ≤ n
    · rw [opened, if_pos hp, opened, if_pos (by omega), Function.update_of_ne (by omega)]
    · rw [opened, if_neg hp, opened, if_neg (by omega), Function.update_of_ne hi]

/-- **Room is made** at place `p`, and something is put there. -/
theorem block_opened (f : Nat → α) {p n : Nat} (hp : p ≤ n) (x : α) :
    block (Function.update (opened f p n) p x) (n + 1) = (block f n).insertIdx p x := by
  refine List.ext_getElem? fun i => ?_
  rw [getElem?_block, List.getElem?_insertIdx, length_block]
  rcases Nat.lt_trichotomy i p with hi | hi | hi
  · rw [if_pos (show i < n + 1 by omega), if_pos hi, getElem?_block, if_pos (by omega),
      Function.update_of_ne (by omega), opened, if_neg (by omega)]
  · rw [if_pos (show i < n + 1 by omega), if_neg (by omega), if_pos hi, if_pos (by omega), hi,
      Function.update_self]
  · rw [if_neg (show ¬ i < p by omega), if_neg (show i ≠ p by omega), getElem?_block]
    by_cases hn : i < n + 1
    · rw [if_pos hn, if_pos (by omega), Function.update_of_ne (by omega), opened,
        if_pos (by omega)]
    · rw [if_neg hn, if_neg (by omega)]

/-! ## Closing gaps -/

/-- So many cells from `src` on come down to `dst`. -/
def moved (f : Nat → α) (dst src n : Nat) : Nat → α := fun i =>
  if dst ≤ i ∧ i < dst + n then f (i - dst + src) else f i

theorem moved_zero (f : Nat → α) (dst src : Nat) : moved f dst src 0 = f := by
  ext i
  rw [moved, if_neg (by omega)]

/-- The first cell goes first. -/
theorem moved_succ (f : Nat → α) {dst src : Nat} (h : dst ≤ src) (n : Nat) :
    moved (Function.update f dst (f src)) (dst + 1) (src + 1) n = moved f dst src (n + 1) := by
  ext i
  by_cases hi : i = dst
  · rw [moved, if_neg (by omega), moved, if_pos (by omega), hi, Function.update_self,
      Nat.sub_self, Nat.zero_add]
  · by_cases hin : dst + 1 ≤ i ∧ i < dst + 1 + n
    · have hidx : i - (dst + 1) + (src + 1) = i - dst + src := by omega
      rw [moved, if_pos hin, moved, if_pos (by omega), hidx, Function.update_of_ne (by omega)]
    · rw [moved, if_neg hin, moved, if_neg (by omega), Function.update_of_ne hi]

/-- **A gap is closed**, whatever is in it. -/
theorem block_moved {f g : Nat → α} {dst src n : Nat} (h : dst ≤ src) (hs : src ≤ n)
    (hlow : ∀ i < dst, g i = f i) (hhigh : ∀ i, src ≤ i → i < n → g i = f i) :
    block (moved g dst src (n - src)) (n - (src - dst))
      = (block f n).take dst ++ (block f n).drop src := by
  refine List.ext_getElem? fun i => ?_
  rw [getElem?_block, List.getElem?_append, List.length_take, length_block,
    Nat.min_eq_left (Nat.le_trans h hs)]
  by_cases hi : i < dst
  · rw [if_pos (by omega), if_pos hi, List.getElem?_take, if_pos hi, getElem?_block,
      if_pos (by omega), moved, if_neg (by omega), hlow i hi]
  · rw [if_neg hi, List.getElem?_drop, getElem?_block]
    by_cases hn : i < n - (src - dst)
    · have hidx : src + (i - dst) = i - dst + src := by omega
      rw [if_pos hn, if_pos (by omega), moved, if_pos (by omega), hidx,
        hhigh _ (by omega) (by omega)]
    · rw [if_neg hn, if_neg (by omega)]

/-! ## Filling cells -/

/-- So many cells from `i` on hold `x`. -/
def filled (f : Nat → α) (x : α) (i n : Nat) : Nat → α := fun j =>
  if i ≤ j ∧ j < i + n then x else f j

theorem filled_zero (f : Nat → α) (x : α) (i : Nat) : filled f x i 0 = f := by
  ext j
  rw [filled, if_neg (by omega)]

/-- The first cell goes first. -/
theorem filled_succ (f : Nat → α) (x : α) (i n : Nat) :
    filled (Function.update f i x) x (i + 1) n = filled f x i (n + 1) := by
  ext j
  by_cases hj : j = i
  · rw [filled, if_neg (by omega), filled, if_pos (by omega), hj, Function.update_self]
  · by_cases hin : i + 1 ≤ j ∧ j < i + 1 + n
    · rw [filled, if_pos hin, filled, if_pos (by omega)]
    · rw [filled, if_neg hin, filled, if_neg (by omega), Function.update_of_ne hj]

theorem filled_outside (f : Nat → α) (x : α) {i n j : Nat} (h : j < i ∨ i + n ≤ j) :
    filled f x i n j = f j := by
  rw [filled, if_neg (by omega)]

/-! ## Parts of a block -/

theorem block_succ_front (f : Nat → α) (i n : Nat) :
    block (fun j => f (i + j)) (n + 1) = f i :: block (fun j => f (i + 1 + j)) n := by
  rw [block, List.range_succ_eq_map, List.map_cons, List.map_map, Nat.add_zero]
  congr 1
  refine List.map_congr_left fun j _ => ?_
  simp only [Function.comp_apply, Nat.succ_eq_add_one]
  congr 1
  omega

/-- The cells from `i` on are so many items of the block. -/
theorem block_shift (f : Nat → α) {i n m : Nat} (h : i + n ≤ m) :
    block (fun j => f (i + j)) n = ((block f m).drop i).take n := by
  refine List.ext_getElem? fun j => ?_
  rw [getElem?_block, List.getElem?_take, List.getElem?_drop, getElem?_block]
  by_cases hj : j < n
  · rw [if_pos hj, if_pos hj, if_pos (by omega)]
  · rw [if_neg hj, if_neg hj]

theorem block_take (f : Nat → α) {k n : Nat} (h : k ≤ n) : (block f n).take k = block f k := by
  rw [block, ← List.map_take, List.take_range, Nat.min_eq_left h]
  rfl

theorem block_update (f : Nat → α) (p n : Nat) (x : α) :
    block (Function.update f p x) n = (block f n).set p x := by
  refine List.ext_getElem? fun i => ?_
  rw [List.getElem?_set, getElem?_block, getElem?_block, length_block]
  by_cases hi : p = i
  · rw [if_pos hi, hi, Function.update_self]
  · rw [if_neg hi, Function.update_of_ne (fun h => hi h.symm)]

/-- **The last cell** comes to the place of one that goes. -/
theorem block_swap_last (f : Nat → α) {p n : Nat} (hp : p ≤ n) :
    (block (Function.update f p (f n)) n).Perm ((block f (n + 1)).eraseIdx p) := by
  rcases Nat.eq_or_lt_of_le hp with rfl | hp
  · have hsame : block (Function.update f p (f p)) p = (block f (p + 1)).eraseIdx p := by
      rw [Function.update_eq_self, List.eraseIdx_eq_take_drop_succ, block_take f (Nat.le_succ p),
        List.drop_eq_nil_of_le (by simp), List.append_nil]
    rw [hsame]
  · have hlen : p < (block f n).length := by rwa [length_block]
    rw [block_update, block_succ, List.eraseIdx_append_of_lt_length hlen,
      List.set_eq_take_append_cons_drop, if_pos hlen, List.eraseIdx_eq_take_drop_succ,
      List.append_assoc]
    exact (List.perm_append_singleton (f n) _).symm.append_left _

end Libnio.Slots
