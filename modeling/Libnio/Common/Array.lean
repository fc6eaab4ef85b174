import Libnio.Slots.Block
import Mathlib.Algebra.Ring.Int.Defs
import Mathlib.Algebra.Ring.Nat

/-!
# Common — arrays

`nio_array.c`: the fields of an `NIO_ARRAY`, the cells that `items` points to, and the
functions on them, statement by statement. A cell is read and written only below the
capacity: beyond it there is a fault. What a cell holds that was never written is what
the memory held before. `free_fn` does not touch the array; what it has been called
with is kept in order.

The functions' calls are given as data.
-/

namespace Libnio.Common

/-- What an `int` is after an addition: it wraps round. -/
def int32 (n : Int) : Int := n.bmod (2 ^ 32)

/-- How a call may end without returning. -/
inductive ArrayFault where
  /-- There is no memory of the size asked for. -/
  | noMemory
  /-- A cell at the capacity or behind it was read or written. -/
  | outOfBounds
  /-- `nio_msg_fatal` -/
  | fatal
deriving DecidableEq, Repr

/-- `struct NIO_ARRAY`, the cells that `items` points to, and what `free_fn` has been
called with. An object is a pointer, which may be null. -/
structure NioArray (ν : Type) where
  capacity : Int
  count : Int
  items : Nat → Option ν
  freed : List ν

namespace NioArray

variable {ν : Type}

/-- `a->items[i]` -/
def get (i : Int) (a : NioArray ν) : Except ArrayFault (Option ν) :=
  if 0 ≤ i ∧ i < a.capacity then .ok (a.items i.toNat) else .error .outOfBounds

/-- `a->items[i] = obj` -/
def put (i : Int) (obj : Option ν) (a : NioArray ν) : Except ArrayFault (NioArray ν) :=
  if 0 ≤ i ∧ i < a.capacity then
    .ok { a with items := Function.update a.items i.toNat obj }
  else .error .outOfBounds

/-! ## Growing -/

/-- `nio_array_grow`. A size below zero is to `malloc` more than there is, and to
`memset` more than there are cells. -/
def nioArrayGrow (minCapacity : Int) (a : NioArray ν) : Except ArrayFault (NioArray ν) :=
  if a.capacity ≥ minCapacity then .ok a
  else
    let delta := int32 (minCapacity + (16 - 1))
    let delta := delta.tdiv 16 * 16
    if delta ≤ 0 then .ok a
    else
      let capacity := int32 (a.capacity + delta)
      if capacity < 0 then .error .noMemory
      else if capacity < a.count then .error .outOfBounds
      else
        let items := fun i : Nat => if a.count ≤ i ∧ i < capacity then none else a.items i
        .ok { a with capacity, items }

/-- `nio_array_pre_append` -/
def nioArrayPreAppend (appCount : Int) (a : NioArray ν) : Except ArrayFault (NioArray ν) :=
  if appCount ≤ 0 then .error .fatal
  else if int32 (a.count + appCount) > a.capacity then
    a.nioArrayGrow (int32 (a.count + appCount))
  else .ok a

/-- `nio_array_create`, in a memory that holds anything. -/
def nioArrayCreate (initSize : Int) (memory : Nat → Option ν) :
    Except ArrayFault (NioArray ν) :=
  let a : NioArray ν := { capacity := 0, count := 0, items := memory, freed := [] }
  let initSize := if initSize ≤ 0 then 100 else initSize
  a.nioArrayPreAppend initSize

/-- `if (a->count >= a->capacity) nio_array_grow(a, a->count + more)` -/
def makeRoom (more : Int) (a : NioArray ν) : Except ArrayFault (NioArray ν) :=
  if a.count ≥ a.capacity then a.nioArrayGrow (int32 (a.count + more)) else .ok a

/-! ## Inserting -/

/-- `nio_array_append` -/
def nioArrayAppend (obj : Option ν) (a : NioArray ν) :
    Except ArrayFault (Int × NioArray ν) := do
  let a ← a.makeRoom 16
  let a ← a.put a.count obj
  let a := { a with count := a.count + 1 }
  return (a.count - 1, a)

/-- `for (idx = a->count; idx > position; idx--) a->items[idx] = a->items[idx - 1]`,
for a `position` that is not negative. -/
def shiftUp (position : Int) : Nat → NioArray ν → Except ArrayFault (NioArray ν)
  | 0, a => .ok a
  | idx + 1, a =>
      if position < idx + 1 then do
        let obj ← a.get idx
        let a ← a.put (idx + 1) obj
        shiftUp position idx a
      else .ok a

/-- `nio_array_pred_insert` -/
def nioArrayPredInsert (position : Int) (obj : Option ν) (a : NioArray ν) :
    Except ArrayFault (Int × NioArray ν) :=
  if position < 0 ∨ position ≥ a.count then .ok (-1, a)
  else do
    let a ← a.makeRoom 1
    let a ← a.shiftUp position a.count.toNat
    let a ← a.put position obj
    return (position, { a with count := a.count + 1 })

/-- `nio_array_succ_insert` -/
def nioArraySuccInsert (position : Int) (obj : Option ν) (a : NioArray ν) :
    Except ArrayFault (Int × NioArray ν) :=
  if position < 0 ∨ position ≥ a.count then .ok (-1, a)
  else do
    let a ← a.makeRoom 1
    let positionSucc := position + 1
    let a ← a.shiftUp positionSucc a.count.toNat
    let a ← a.put positionSucc obj
    return (positionSucc, { a with count := a.count + 1 })

/-- `nio_array_prepend` -/
def nioArrayPrepend (obj : Option ν) (a : NioArray ν) : Except ArrayFault (Int × NioArray ν) :=
  a.nioArrayPredInsert 0 obj

/-- `nio_array_push_back` -/
def nioArrayPushBack (obj : Option ν) (a : NioArray ν) : Except ArrayFault (NioArray ν) := do
  let (_, a) ← a.nioArrayAppend obj
  return a

/-- `nio_array_push_front` -/
def nioArrayPushFront (obj : Option ν) (a : NioArray ν) : Except ArrayFault (NioArray ν) := do
  let (_, a) ← a.nioArrayPrepend obj
  return a

/-! ## Popping and deleting -/

/-- `a->items[dst] = a->items[src]`, so many times, and both go up by one each time. -/
def moveDown : Nat → Int → Int → NioArray ν → Except ArrayFault (NioArray ν)
  | 0, _, _, a => .ok a
  | n + 1, dst, src, a => do
      let obj ← a.get src
      let a ← a.put dst obj
      moveDown n (dst + 1) (src + 1) a

/-- `nio_array_pop_back` -/
def nioArrayPopBack (a : NioArray ν) : Except ArrayFault (Option ν × NioArray ν) :=
  if a.count ≤ 0 then .ok (none, a)
  else do
    let a := { a with count := a.count - 1 }
    let obj ← a.get a.count
    return (obj, a)

/-- `nio_array_pop_front` -/
def nioArrayPopFront (a : NioArray ν) : Except ArrayFault (Option ν × NioArray ν) :=
  if a.count ≤ 0 then .ok (none, a)
  else do
    let obj ← a.get 0
    let a := { a with count := a.count - 1 }
    let a ← a.moveDown a.count.toNat 0 1
    return (obj, a)

/-- `if (free_fn != NULL && a->items[i] != NULL) free_fn(a->items[i])` -/
def freeAt (freeFn : Bool) (i : Int) (a : NioArray ν) : Except ArrayFault (NioArray ν) :=
  if freeFn then do
    let obj ← a.get i
    return { a with freed := a.freed ++ obj.toList }
  else .ok a

/-- What is done to so many cells from `i` on where they are freed: each is null then. -/
def clear (freeFn : Bool) : Nat → Int → NioArray ν → Except ArrayFault (NioArray ν)
  | 0, _, a => .ok a
  | n + 1, i, a => do
      let a ← a.freeAt freeFn i
      let a ← a.put i none
      clear freeFn n (i + 1) a

/-- `nio_array_clean` -/
def nioArrayClean (freeFn : Bool) (a : NioArray ν) : Except ArrayFault (NioArray ν) := do
  let a ← a.clear freeFn a.count.toNat 0
  return { a with count := 0 }

/-- `nio_array_delete_idx` -/
def nioArrayDeleteIdx (position : Int) (freeFn : Bool) (a : NioArray ν) :
    Except ArrayFault (Int × NioArray ν) :=
  if position < 0 ∨ position ≥ a.count then .ok (-1, a)
  else do
    let a ← a.freeAt freeFn position
    let a ← a.put position none
    let a ← a.moveDown (a.count - 1 - position).toNat position (position + 1)
    return (0, { a with count := a.count - 1 })

/-- `nio_array_delete` -/
def nioArrayDelete (idx : Int) (freeFn : Bool) (a : NioArray ν) :
    Except ArrayFault (Int × NioArray ν) :=
  if idx < 0 ∨ idx ≥ a.count then .ok (-1, a)
  else do
    let a ← a.freeAt freeFn idx
    let a := { a with count := a.count - 1 }
    if a.count > 0 then
      let obj ← a.get a.count
      let a ← a.put idx obj
      return (0, a)
    else return (0, a)

section Objects

variable [DecidableEq ν]

/-- `for (idx = ..; idx < a->count; idx++)` up to a cell with the object, if there is
one: its position. -/
def find (obj : Option ν) : Nat → Int → NioArray ν → Except ArrayFault (Option Int)
  | 0, _, _ => .ok none
  | n + 1, idx, a => do
      let item ← a.get idx
      if item = obj then return some idx else find obj n (idx + 1) a

/-- `nio_array_delete_obj`: `free_fn` is called with the object before it is known
whether the array has it. -/
def nioArrayDeleteObj (obj : Option ν) (freeFn : Bool) (a : NioArray ν) :
    Except ArrayFault (Int × NioArray ν) := do
  let position ← a.find obj a.count.toNat 0
  let a := if freeFn then { a with freed := a.freed ++ obj.toList } else a
  match position with
  | none => return (-1, a)
  | some position =>
      let a ← a.put position none
      let (ret, a) ← a.nioArrayDeleteIdx position false
      if ret < 0 then return (-1, a) else return (ret, a)

end Objects

/-- `nio_array_delete_range`: where `ibegin` is behind the last item, what is taken off
`count` is not positive. -/
def nioArrayDeleteRange (ibegin iend : Int) (freeFn : Bool) (a : NioArray ν) :
    Except ArrayFault (Int × NioArray ν) :=
  if ibegin < 0 ∨ iend < 0 ∨ a.count ≤ 0 then .ok (-1, a)
  else if ibegin > iend then .ok (-1, a)
  else do
    let imax := a.count - 1
    let iend := if iend > imax then imax else iend
    let a ← (if freeFn then a.clear true (iend - ibegin + 1).toNat ibegin else .ok a)
    let a := { a with count := a.count - (iend - ibegin + 1) }
    let a ← a.moveDown (imax - iend).toNat ibegin (iend + 1)
    return (0, a)

/-- `nio_array_mv_idx` -/
def nioArrayMvIdx (ito ifrom : Int) (freeFn : Bool) (a : NioArray ν) :
    Except ArrayFault (Int × NioArray ν) :=
  if ito < 0 ∨ ifrom < 0 ∨ a.count < 0 then .ok (-1, a)
  else if a.count = 0 ∨ ito ≥ ifrom ∨ ifrom ≥ a.count then .ok (0, a)
  else do
    let a ← (if freeFn then a.clear true (ifrom - ito).toNat ito else .ok a)
    let a ← a.moveDown (a.count - ifrom).toNat ito ifrom
    let a := { a with count := a.count - (ifrom - ito) }
    if a.count < 0 then return (-1, a) else return (0, a)

end NioArray

/-! ## The calls as data -/

/-- The insertions and the pops. -/
inductive DequeCall (ν : Type) where
  | append (obj : Option ν)
  | prepend (obj : Option ν)
  | pushBack (obj : Option ν)
  | pushFront (obj : Option ν)
  | predInsert (position : Int) (obj : Option ν)
  | succInsert (position : Int) (obj : Option ν)
  | popBack
  | popFront
deriving DecidableEq

/-- The deletions, each with whether it is given a `free_fn`. -/
inductive Deletion (ν : Type) where
  | deleteIdx (position : Int) (freeFn : Bool)
  | delete (idx : Int) (freeFn : Bool)
  | deleteObj (obj : Option ν) (freeFn : Bool)
  | deleteRange (ibegin iend : Int) (freeFn : Bool)
  | mvIdx (ito ifrom : Int) (freeFn : Bool)
deriving DecidableEq

inductive ArrayCall (ν : Type) where
  | deque (c : DequeCall ν)
  | deletion (d : Deletion ν)
  | clean (freeFn : Bool)
  | preAppend (appCount : Int)
deriving DecidableEq

/-- What a call returns. -/
inductive ArrayResult (ν : Type) where
  | ret (ret : Int)
  | obj (obj : Option ν)
  | nothing
deriving DecidableEq

namespace NioArray

variable {ν : Type}

/-- What an insertion or a pop returns, and the array after it. -/
def dequeCall (a : NioArray ν) :
    DequeCall ν → Except ArrayFault (ArrayResult ν × NioArray ν)
  | .append obj => (a.nioArrayAppend obj).map (Prod.map .ret id)
  | .prepend obj => (a.nioArrayPrepend obj).map (Prod.map .ret id)
  | .pushBack obj => (a.nioArrayPushBack obj).map (.nothing, ·)
  | .pushFront obj => (a.nioArrayPushFront obj).map (.nothing, ·)
  | .predInsert position obj => (a.nioArrayPredInsert position obj).map (Prod.map .ret id)
  | .succInsert position obj => (a.nioArraySuccInsert position obj).map (Prod.map .ret id)
  | .popBack => a.nioArrayPopBack.map (Prod.map .obj id)
  | .popFront => a.nioArrayPopFront.map (Prod.map .obj id)

variable [DecidableEq ν]

/-- What a deletion returns, and the array after it. -/
def delete (a : NioArray ν) : Deletion ν → Except ArrayFault (Int × NioArray ν)
  | .deleteIdx position freeFn => a.nioArrayDeleteIdx position freeFn
  | .delete idx freeFn => a.nioArrayDelete idx freeFn
  | .deleteObj obj freeFn => a.nioArrayDeleteObj obj freeFn
  | .deleteRange ibegin iend freeFn => a.nioArrayDeleteRange ibegin iend freeFn
  | .mvIdx ito ifrom freeFn => a.nioArrayMvIdx ito ifrom freeFn

/-- What a call returns, and the array after it. -/
def call (a : NioArray ν) : ArrayCall ν → Except ArrayFault (ArrayResult ν × NioArray ν)
  | .deque c => a.dequeCall c
  | .deletion d => (a.delete d).map (Prod.map .ret id)
  | .clean freeFn => (a.nioArrayClean freeFn).map (.nothing, ·)
  | .preAppend appCount => (a.nioArrayPreAppend appCount).map (.nothing, ·)

/-- The calls, one after the other: what each returns, and the array in the end. -/
def run (a : NioArray ν) :
    List (ArrayCall ν) → Except ArrayFault (List (ArrayResult ν) × NioArray ν)
  | [] => .ok ([], a)
  | c :: cs => do
      let (r, a) ← a.call c
      let (rs, a) ← run a cs
      return (r :: rs, a)

/-- What is in the array: `items[0..count)`. -/
def contents (a : NioArray ν) : List (Option ν) := Slots.block a.items a.count.toNat

end NioArray

end Libnio.Common
