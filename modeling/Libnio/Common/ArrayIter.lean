import Libnio.Common.ArrayDeque
import Libnio.Common.Htable

/-!
# Common — arrays, the iterator

`FOREACH` and `FOREACH_REVERSE` of `iterator.h` over an array: they come to the items
one after the other, and end at the first null pointer, which is what they take for
the end of the array.
-/

namespace Libnio.Common

open Slots Stream NioHtable

variable {ν σ : Type}

namespace NioArray

/-- `iter->data = iter->ptr = a->items[iter->i]` -/
def load (iter : Iter ν ν) (a : NioArray ν) : Except ArrayFault (Iter ν ν) := do
  let obj ← a.get iter.i
  return { iter with ptr := obj, data := obj }

/-- `iter->data = iter->ptr = 0` -/
def stop (iter : Iter ν ν) : Iter ν ν := { iter with ptr := none, data := none }

/-- What head and tail begin with. -/
def iterAt (i : Int) (a : NioArray ν) : Iter ν ν :=
  { ptr := none, data := none, dlen := -1, key := none, klen := 0, i, size := a.count }

/-- `nio_array_iter_head`; `items` is not null in an array that has been created. -/
def nioArrayIterHead (a : NioArray ν) : Except ArrayFault (Iter ν ν) :=
  let iter := a.iterAt 0
  if a.count ≤ 0 then .ok (stop iter) else a.load iter

/-- `nio_array_iter_next` -/
def nioArrayIterNext (iter : Iter ν ν) (a : NioArray ν) : Except ArrayFault (Iter ν ν) :=
  let iter := { iter with i := iter.i + 1 }
  if iter.i ≥ a.count then .ok (stop iter) else a.load iter

/-- `nio_array_iter_tail` -/
def nioArrayIterTail (a : NioArray ν) : Except ArrayFault (Iter ν ν) :=
  let iter := a.iterAt (a.count - 1)
  if iter.i < 0 then .ok (stop iter) else a.load iter

/-- `nio_array_iter_prev` -/
def nioArrayIterPrev (iter : Iter ν ν) (a : NioArray ν) : Except ArrayFault (Iter ν ν) :=
  let iter := { iter with i := iter.i - 1 }
  if iter.i < 0 then .ok (stop iter) else a.load iter

/-- The loop of `FOREACH` and `FOREACH_REVERSE`, for at most so many rounds, with a body
that leaves the array alone. -/
def forEach (on : Iter ν ν → NioArray ν → Except ArrayFault (Iter ν ν)) (body : σ → ν → σ)
    (a : NioArray ν) : Nat → Iter ν ν → σ → Except ArrayFault (Option σ)
  | 0, iter, s => .ok (if iter.ptr.isSome then none else some s)
  | rounds + 1, iter, s =>
      match iter.ptr with
      | none => .ok (some s)
      | some obj => do
          let iter ← on iter a
          forEach on body a rounds iter (body s obj)

/-- `FOREACH` -/
def foreachUp (body : σ → ν → σ) (rounds : Nat) (a : NioArray ν) (s : σ) :
    Except ArrayFault (Option σ) := do
  let iter ← a.nioArrayIterHead
  forEach nioArrayIterNext body a rounds iter s

/-- `FOREACH_REVERSE` -/
def foreachDown (body : σ → ν → σ) (rounds : Nat) (a : NioArray ν) (s : σ) :
    Except ArrayFault (Option σ) := do
  let iter ← a.nioArrayIterTail
  forEach nioArrayIterPrev body a rounds iter s

/-! ## What it comes to -/

/-- The objects up to the first null pointer. -/
def objects (l : List (Option ν)) : List ν := (l.takeWhile Option.isSome).reduceOption

@[simp] theorem objects_nil : objects ([] : List (Option ν)) = [] := rfl

@[simp] theorem objects_none (l : List (Option ν)) : objects (none :: l) = [] := rfl

@[simp] theorem objects_some (obj : ν) (l : List (Option ν)) :
    objects (some obj :: l) = obj :: objects l := rfl

/-- All of them, where there is no null pointer. -/
theorem objects_map_some (l : List ν) : objects (l.map some) = l := by
  induction l with
  | nil => rfl
  | cons obj l ih => rw [List.map_cons, objects_some, ih]

/-- The iterator stands at the first of these items, and comes to the others. -/
def Yields (on : Iter ν ν → NioArray ν → Except ArrayFault (Iter ν ν)) (a : NioArray ν) :
    List (Option ν) → Iter ν ν → Prop
  | [], iter => iter.ptr = none
  | obj :: l, iter => iter.ptr = obj ∧ ∃ iter', on iter a = .ok iter' ∧ Yields on a l iter'

theorem forEach_eq {on : Iter ν ν → NioArray ν → Except ArrayFault (Iter ν ν)} {a : NioArray ν}
    {l : List (Option ν)} {iter : Iter ν ν} (h : Yields on a l iter) (body : σ → ν → σ)
    {rounds : Nat} (hr : l.length ≤ rounds) (s : σ) :
    forEach on body a rounds iter s = .ok (some ((objects l).foldl body s)) := by
  induction l generalizing rounds iter s with
  | nil =>
      have hptr : iter.ptr = none := h
      cases rounds with
      | zero => rw [forEach, hptr, objects_nil]; rfl
      | succ rounds => rw [forEach, hptr]; rfl
  | cons obj l ih =>
      obtain ⟨hptr, iter', hon, h'⟩ := h
      obtain ⟨rounds, rfl⟩ : ∃ n, rounds = n + 1 := ⟨rounds - 1, by simp at hr; omega⟩
      rw [forEach, hptr]
      cases obj with
      | none => rfl
      | some obj =>
          dsimp only
          rw [hon, ok_bind]
          exact ih h' (Nat.le_of_succ_le_succ hr) _

variable {a : NioArray ν} {l : List (Option ν)}

/-- Where an iterator goes to within the array, it stands at the item there. -/
theorem Holds.load (h : a.Holds l) {i : Nat} (hi : i < l.length) {iter : Iter ν ν}
    (hiter : iter.i = i) :
    ∃ iter', a.load iter = .ok iter' ∧ iter'.i = i ∧ iter'.ptr = l[i]?.join := by
  have hcount := h.count
  have hcap := h.capacity
  rw [NioArray.load, hiter, get_eq (show (i : Int) < a.capacity by omega)]
  exact ⟨_, rfl, rfl, by rw [h.item hi]; rfl⟩

/-! ### Forwards -/

/-- The place behind the last item is the end. -/
theorem Holds.arrive (h : a.Holds l) {i : Nat} (hi : i ≤ l.length) {iter : Iter ν ν}
    (hiter : iter.i = i) :
    ∃ iter', (if iter.i ≥ a.count then .ok (stop iter) else a.load iter) = .ok iter' ∧
      iter'.i = i ∧ iter'.ptr = l[i]?.join := by
  have hcount := h.count
  by_cases hend : i = l.length
  · rw [if_pos (by omega)]
    refine ⟨_, rfl, hiter, ?_⟩
    rw [List.getElem?_eq_none (by omega)]
    rfl
  · rw [if_neg (by omega)]
    exact h.load (by omega) hiter

theorem Holds.yields_next (h : a.Holds l) : ∀ (n i : Nat) (iter : Iter ν ν), i + n = l.length →
    iter.i = i → iter.ptr = l[i]?.join → Yields nioArrayIterNext a (l.drop i) iter := by
  intro n
  induction n with
  | zero =>
      intro i iter hi _ hptr
      rw [List.drop_eq_nil_of_le (by omega)]
      rw [List.getElem?_eq_none (by omega)] at hptr
      exact hptr
  | succ n ih =>
      intro i iter hi hiter hptr
      have hlt : i < l.length := by omega
      rw [List.drop_eq_getElem_cons hlt]
      rw [List.getElem?_eq_getElem hlt] at hptr
      obtain ⟨iter', hon, hi', hptr'⟩ := h.arrive (show i + 1 ≤ l.length by omega)
        (show ({ iter with i := iter.i + 1 } : Iter ν ν).i = (i + 1 : Nat) by dsimp only; omega)
      exact ⟨hptr, iter', hon, ih (i + 1) iter' (by omega) hi' hptr'⟩

/-- **`FOREACH`** runs its body over the objects, up to the first null pointer. -/
theorem Holds.foreachUp (h : a.Holds l) (body : σ → ν → σ) {rounds : Nat}
    (hr : l.length ≤ rounds) (s : σ) :
    a.foreachUp body rounds s = .ok (some ((objects l).foldl body s)) := by
  have hcount := h.count
  obtain ⟨iter, hhead, hi, hptr⟩ := h.arrive (Nat.zero_le _)
    (show (a.iterAt 0).i = (0 : Nat) from rfl)
  have hhead' : a.nioArrayIterHead = .ok iter := by
    rw [nioArrayIterHead, ← hhead]
    by_cases hnil : a.count ≤ 0
    · exact (if_pos hnil).trans (if_pos hnil).symm
    · exact (if_neg hnil).trans (if_neg hnil).symm
  rw [NioArray.foreachUp, hhead', ok_bind]
  exact forEach_eq (h.yields_next l.length 0 iter (Nat.zero_add _) hi hptr) body hr s

/-! ### Backwards -/

/-- The place before the first item is the end. -/
theorem Holds.leave (h : a.Holds l) {i : Nat} (hi : i ≤ l.length) {iter : Iter ν ν}
    (hiter : iter.i = (i : Int) - 1) :
    ∃ iter', (if iter.i < 0 then .ok (stop iter) else a.load iter) = .ok iter' ∧
      iter'.i = (i : Int) - 1 ∧ iter'.ptr = (l.take i).getLast?.join := by
  cases i with
  | zero =>
      rw [if_pos (by omega)]
      exact ⟨_, rfl, hiter, rfl⟩
  | succ i =>
      rw [if_neg (by omega)]
      obtain ⟨iter', hload, hi', hptr⟩ := h.load (show i < l.length by omega)
        (show iter.i = (i : Int) by omega)
      refine ⟨iter', hload, by omega, ?_⟩
      rw [hptr, List.getLast?_take, if_neg (Nat.succ_ne_zero i), Nat.add_sub_cancel,
        List.getElem?_eq_getElem (show i < l.length by omega), Option.some_or]

theorem Holds.yields_prev (h : a.Holds l) : ∀ (i : Nat) (iter : Iter ν ν), i ≤ l.length →
    iter.i = (i : Int) - 1 → iter.ptr = (l.take i).getLast?.join →
    Yields nioArrayIterPrev a (l.take i).reverse iter := by
  intro i
  induction i with
  | zero => exact fun iter _ _ hptr => hptr
  | succ i ih =>
      intro iter hi hiter hptr
      have hlt : i < l.length := by omega
      rw [← List.take_concat_get' l i hlt, List.reverse_append]
      rw [← List.take_concat_get' l i hlt, List.getLast?_concat] at hptr
      obtain ⟨iter', hon, hi', hptr'⟩ := h.leave (show i ≤ l.length by omega)
        (show ({ iter with i := iter.i - 1 } : Iter ν ν).i = (i : Int) - 1 by dsimp only; omega)
      exact ⟨hptr, iter', hon, ih iter' (by omega) hi' hptr'⟩

/-- **`FOREACH_REVERSE`** does from the other end. -/
theorem Holds.foreachDown (h : a.Holds l) (body : σ → ν → σ) {rounds : Nat}
    (hr : l.length ≤ rounds) (s : σ) :
    a.foreachDown body rounds s = .ok (some ((objects l.reverse).foldl body s)) := by
  have hcount := h.count
  obtain ⟨iter, htail, hi, hptr⟩ := h.leave (Nat.le_refl l.length)
    (show (a.iterAt (a.count - 1)).i = (l.length : Int) - 1 by rw [hcount]; rfl)
  have htail' : a.nioArrayIterTail = .ok iter := htail
  have hy := h.yields_prev l.length iter (Nat.le_refl _) hi hptr
  rw [List.take_length] at hy
  rw [NioArray.foreachDown, htail', ok_bind]
  exact forEach_eq hy body (by rw [List.length_reverse]; exact hr) s

/-! ## An array that is filled and emptied -/

/-- `nio_array_append` of one object after the other. -/
def appendAll (objs : List ν) (a : NioArray ν) : Except ArrayFault (NioArray ν) :=
  objs.foldlM (fun a obj => do
    let (_, a) ← a.nioArrayAppend (some obj)
    return a) a

/-- There is memory for an array of half the size that there can be. -/
theorem makeRoom_ok (hs : a.Sized) (hcount : a.count < 2 ^ 30 - 16) :
    ∃ a', a.makeRoom 16 = .ok a' := by
  have hnonneg := hs.count
  rw [makeRoom]
  split
  · rename_i hfull
    have hm : int32 (a.count + 16) = a.count + 16 := int32_of_small (by omega) (by omega)
    have hd : int32 (a.count + 16 + 15) = a.count + 16 + 15 :=
      int32_of_small (by omega) (by omega)
    rcases grow_cases hs (int32 (a.count + 16)) with ⟨hg, -⟩ | ⟨d, hd', hpos, hg⟩
    · exact ⟨_, hg⟩
    · rw [hm, hd] at hd'
      have hcap := hs.nonneg
      rcases hg with ⟨-, hbig⟩ | ⟨-, hless⟩ | ⟨hg, -⟩
      · omega
      · omega
      · exact ⟨_, hg⟩
  · exact ⟨a, rfl⟩

theorem Holds.append (h : a.Holds l) (hs : a.Sized) (hlen : l.length < 2 ^ 30 - 16)
    (obj : Option ν) :
    ∃ a', a.nioArrayAppend obj = .ok ((l.length : Int), a') ∧ a'.Holds (l ++ [obj]) ∧ a'.Sized := by
  have hcount := h.count
  obtain ⟨a₁, hroom⟩ := makeRoom_ok hs (by omega)
  rcases inserts_append h hs obj with hno | ⟨hmost, -⟩ | ⟨-, a', happ, h'⟩
  · rw [nioArrayAppend, hroom, ok_bind, NioArray.put] at hno
    split at hno <;> cases hno
  · rw [most] at hmost
    omega
  · exact ⟨a', happ, h', returns_append hs obj _ happ⟩

theorem Holds.appendAll {objs : List ν} (h : a.Holds l) (hs : a.Sized)
    (hlen : l.length + objs.length ≤ 2 ^ 30 - 16) :
    ∃ a', a.appendAll objs = .ok a' ∧ a'.Holds (l ++ objs.map some) ∧ a'.Sized := by
  induction objs generalizing a l with
  | nil => exact ⟨a, rfl, by rwa [List.map_nil, List.append_nil], hs⟩
  | cons obj objs ih =>
      rw [List.length_cons] at hlen
      obtain ⟨a₁, happ, h₁, hs₁⟩ := h.append hs (by omega) (some obj)
      obtain ⟨a₂, hall, h₂, hs₂⟩ := ih h₁ hs₁ (by
        rw [List.length_append, List.length_singleton]
        omega)
      refine ⟨a₂, ?_, ?_, hs₂⟩
      · rw [NioArray.appendAll, List.foldlM_cons, happ]
        exact hall
      · rwa [List.map_cons, List.append_cons]

theorem Holds.clean (h : a.Holds l) (hs : a.Sized) (freeFn : Bool) :
    ∃ a', a.nioArrayClean freeFn = .ok a' ∧ a'.Holds [] ∧ a'.Sized := by
  have hcount := h.count
  have hcap := h.capacity
  have hclear := clear_eq freeFn a.count.toNat 0 a (by omega)
  have hok : ∃ a', a.nioArrayClean freeFn = .ok a' ∧ a'.count = 0 := by
    rw [nioArrayClean, show ((0 : Int)) = ((0 : Nat) : Int) from rfl, hclear]
    exact ⟨_, rfl, rfl⟩
  obtain ⟨a', hret, hzero⟩ := hok
  have hs' := returns_clean hs freeFn _ hret
  exact ⟨a', hret, ⟨hzero, hzero ▸ hs'.nonneg, rfl⟩, hs'⟩

/-- **An array as a list**: to fill it, to go through it and to empty it is to go through
the list. -/
theorem Holds.pass (h : a.Holds []) (hs : a.Sized) (objs : List ν)
    (hlen : objs.length ≤ 2 ^ 30 - 16) (body : σ → ν → σ) {rounds : Nat}
    (hr : objs.length ≤ rounds) (s : σ) :
    ∃ a₁ a₂, a.appendAll objs = .ok a₁ ∧
      a₁.foreachUp body rounds s = .ok (some (objs.foldl body s)) ∧
      a₁.nioArrayClean false = .ok a₂ ∧ a₂.Holds [] ∧ a₂.Sized := by
  obtain ⟨a₁, hall, h₁, hs₁⟩ := h.appendAll hs (by rwa [List.length_nil, Nat.zero_add])
  obtain ⟨a₂, hclean, h₂, hs₂⟩ := h₁.clean hs₁ false
  have hloop := h₁.foreachUp body (by simpa using hr) s
  rw [List.nil_append, objects_map_some] at hloop
  exact ⟨a₁, a₂, hall, hloop, hclean, h₂, hs₂⟩

end NioArray

end Libnio.Common
