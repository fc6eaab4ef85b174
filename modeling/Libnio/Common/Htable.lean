import Libnio.Linked.Segment
import Mathlib.Data.List.DropRight
import Mathlib.Data.Set.Card

/-!
# Common — hash tables

`nio_htable.c`: the fields of an `NIO_HTABLE` and of its entries, and the functions
on them, statement by statement. Sizes are the C ones: `size` is an `int` which the
hash functions take for an `unsigned`. Where the code follows a chain the model
follows it for so many rounds at most, and has no result if there are more.
`nio_mem_malloc` never fails here: what it returns comes with the call.

The table's calls are given as data, and `Dict` is what they are to a map.
-/

namespace Libnio.Common

open Linked

/-- A C string: its bytes, and no zero among them. -/
structure CString where
  bytes : List UInt8
  ended : 0 ∉ bytes
deriving DecidableEq

/-- `STREQ`: first the first characters, then the strings. What has the same address
is the same string. -/
def CString.strEq (x y : CString) : Bool :=
  x.bytes.headD 0 == y.bytes.headD 0 && x.bytes == y.bytes

/-- `NIO_HTABLE_STAT_*` -/
inductive HtableStatus where
  | ok
  | inval
  | duplexKey
deriving DecidableEq, Repr

/-- `struct NIO_HTABLE`, the fields of every `NIO_HTABLE_INFO` there is, and what
`free_fn` has been called with. -/
structure NioHtable (ν ω : Type) where
  size : Int32
  initSize : Int32
  used : Int32
  data : Nat → Option ν
  status : HtableStatus
  key : ν → CString
  value : ν → Option ω
  hash : ν → UInt32
  next : ν → Option ν
  prev : ν → Option ν
  freed : List ω

/-- `__def_hash_fn` -/
def defHashFn (buffer : List UInt8) : UInt32 :=
  let h := buffer.foldl (fun (h : UInt64) s =>
    let h := (h <<< 4) + s.toUInt64
    let g := h &&& 0xf0000000
    if g ≠ 0 then (h ^^^ (g >>> 24)) ^^^ g else h) 0
  h.toUInt32

namespace NioHtable

variable {ν ω : Type}

/-- `(unsigned) table->size`: how many buckets there are. -/
def slots (t : NioHtable ν ω) : Nat := t.size.toUInt32.toNat

/-- `hash % table->size`, which is a modulo of unsigned numbers. -/
def place (hash : UInt32) (t : NioHtable ν ω) : Nat := (hash % t.size.toUInt32).toNat

/-- `__nio_htable_size` -/
def nioHtableSize (size : UInt32) (t : NioHtable ν ω) : NioHtable ν ω :=
  let size := size ||| 1
  { t with data := fun _ => none, size := size.toInt32, used := 0 }

/-- `nio_htable_create`, in a memory that holds anything. -/
def nioHtableCreate (size : Int32) (memory : NioHtable ν ω) : NioHtable ν ω :=
  let t := { memory with status := .ok, freed := [], initSize := size }
  t.nioHtableSize (if size < 13 then 13 else size.toUInt32)

section Functions

variable [DecidableEq ν]

/-- `nio_htable_link` -/
def nioHtableLink (element : ν) (n : Nat) (t : NioHtable ν ω) : NioHtable ν ω :=
  let t := { t with prev := Function.update t.prev element none }
  let t := { t with next := Function.update t.next element (t.data n) }
  let t := match t.next element with
    | some h => { t with prev := Function.update t.prev h (some element) }
    | none => t
  let t := { t with data := Function.update t.data n (some element) }
  { t with used := t.used + 1 }

/-- `for (ht = *h0++; ht; ht = next)` of `nio_htable_grow` -/
def growChain : Nat → Option ν → NioHtable ν ω → Option (NioHtable ν ω)
  | _, none, t => some t
  | 0, some _, _ => none
  | rounds + 1, some ht, t =>
      let next := t.next ht
      let n := t.place (defHashFn (t.key ht).bytes)
      growChain rounds next (t.nioHtableLink ht n)

/-- `nio_htable_grow` -/
def nioHtableGrow (rounds : Nat) (t : NioHtable ν ω) : Option (NioHtable ν ω) :=
  let oldSize := t.size.toUInt32
  let oldEntries := t.data
  (List.range oldSize.toNat).foldlM (fun t i => t.growChain rounds (oldEntries i))
    (t.nioHtableSize (2 * oldSize))

/-- `for (ht = ..; ht; ht = ht->next)` up to an entry with the key, if there is one -/
def search (t : NioHtable ν ω) (key : CString) : Nat → Option ν → Option (Option ν)
  | _, none => some none
  | 0, some _ => none
  | rounds + 1, some ht =>
      if key.strEq (t.key ht) then some (some ht) else t.search key rounds (t.next ht)

/-- `nio_htable_enter`; the new entry is `p`, where one is made. -/
def nioHtableEnter (rounds : Nat) (key : CString) (value : Option ω) (p : ν)
    (t : NioHtable ν ω) : Option (ν × NioHtable ν ω) := do
  let t := { t with status := .ok }
  let hash := defHashFn key.bytes
  let t ← (if t.used ≥ t.size then t.nioHtableGrow rounds else some t)
  let n := t.place hash
  match ← t.search key rounds (t.data n) with
  | some ht => return (ht, { t with status := .duplexKey })
  | none =>
      let t := { t with key := Function.update t.key p key }
      let t := { t with hash := Function.update t.hash p hash }
      let t := { t with value := Function.update t.value p value }
      return (p, t.nioHtableLink p n)

/-- `nio_htable_locate` -/
def nioHtableLocate (rounds : Nat) (key : CString) (t : NioHtable ν ω) : Option (Option ν) :=
  t.search key rounds (t.data (t.place (defHashFn key.bytes)))

/-- `nio_htable_find` -/
def nioHtableFind (rounds : Nat) (key : CString) (t : NioHtable ν ω) : Option (Option ω) := do
  let ht ← t.nioHtableLocate rounds key
  return ht.bind t.value

/-- `if (free_fn && ht->value) (*free_fn) (ht->value)` -/
def freeValue (freeFn : Bool) (ht : ν) (t : NioHtable ν ω) : NioHtable ν ω :=
  if freeFn then { t with freed := t.freed ++ (t.value ht).toList } else t

/-- `nio_htable_delete_entry` -/
def nioHtableDeleteEntry (ht : ν) (freeFn : Bool) (t : NioHtable ν ω) : NioHtable ν ω :=
  let n := t.place (t.hash ht)
  let t := match t.next ht with
    | some next => { t with prev := Function.update t.prev next (t.prev ht) }
    | none => t
  let t := match t.prev ht with
    | some prev => { t with next := Function.update t.next prev (t.next ht) }
    | none => { t with data := Function.update t.data n (t.next ht) }
  let t := t.freeValue freeFn ht
  { t with used := t.used - 1 }

/-- `nio_htable_delete` -/
def nioHtableDelete (rounds : Nat) (key : CString) (freeFn : Bool) (t : NioHtable ν ω) :
    Option (Int × NioHtable ν ω) := do
  let n := t.place (defHashFn key.bytes)
  match ← t.search key rounds (t.data n) with
  | some ht => return (0, t.nioHtableDeleteEntry ht freeFn)
  | none => return (-1, t)

/-- `for (ht = *h++; ht; ht = next)` of `nio_htable_reset` -/
def resetChain (freeFn : Bool) : Nat → Option ν → NioHtable ν ω → Option (NioHtable ν ω)
  | _, none, t => some t
  | 0, some _, _ => none
  | rounds + 1, some ht, t =>
      let next := t.next ht
      resetChain freeFn rounds next (t.freeValue freeFn ht)

/-- `nio_htable_reset` -/
def nioHtableReset (rounds : Nat) (freeFn : Bool) (t : NioHtable ν ω) :
    Option (Int × NioHtable ν ω) := do
  let t ← (List.range t.slots).foldlM (fun t i => t.resetChain freeFn rounds (t.data i)) t
  return (0, t.nioHtableSize (if t.initSize < 13 then 13 else t.initSize.toUInt32))

/-- `for (ht = *h++; ht; ht = ht->next)` for the first so many buckets, one after the
other: the entries it comes to. -/
def chains (rounds slots : Nat) (t : NioHtable ν ω) : Option (List ν) :=
  ((List.range slots).mapM fun i => follow t.next none rounds (t.data i)).map List.flatten

/-- `nio_htable_walk`: the entries that `action` is called with. -/
def nioHtableWalk (rounds : Nat) (t : NioHtable ν ω) : Option (List ν) :=
  t.chains rounds t.slots

/-- `nio_htable_list`: the array has `used + 1` places, and a write behind them has
no result. That sum and the index of the buckets are signed. -/
def nioHtableList (rounds : Nat) (t : NioHtable ν ω) : Option (List (Option ν)) := do
  let members ← t.chains rounds t.size.toInt.toNat
  if members.length < (t.used + 1).toInt then return members.map some ++ [none]
  none

end Functions

/-! ## The iterator -/

/-- `struct ITER` -/
structure Iter (ν ω : Type) where
  ptr : Option ν
  data : Option ω
  dlen : Int
  key : Option CString
  klen : Int
  i : Int
  size : Int

/-- The two ways through the buckets. -/
inductive Way where
  | up
  | down

/-- `iter->i++`, `iter->i--` -/
def Way.step : Way → Int
  | up => 1
  | down => -1

/-- How often `iter->i < iter->size`, or `iter->i >= 0`, is still true. -/
def Way.left (iter : Iter ν ω) : Way → Nat
  | up => (iter.size - iter.i).toNat
  | down => (iter.i + 1).toNat

/-- The loop of all four functions, up to a bucket that is not empty. -/
def seek (w : Way) (t : NioHtable ν ω) : Nat → Iter ν ω → Iter ν ω
  | 0, iter => iter
  | n + 1, iter =>
      match t.data iter.i.toNat with
      | some ptr => { iter with ptr := some ptr }
      | none => seek w t n { iter with i := iter.i + w.step }

/-- The end of all four functions. -/
def settle (t : NioHtable ν ω) (iter : Iter ν ω) : Iter ν ω :=
  match iter.ptr with
  | some ptr => { iter with data := t.value ptr, key := some (t.key ptr) }
  | none => { iter with data := none, key := none }

def iterFrom (w : Way) (i : Int) (t : NioHtable ν ω) : Iter ν ω :=
  let iter : Iter ν ω :=
    { ptr := none, data := none, dlen := -1, key := none, klen := -1, i, size := t.size.toInt }
  t.settle (t.seek w (w.left iter) iter)

def iterOn (w : Way) (t : NioHtable ν ω) (iter : Iter ν ω) : Iter ν ω :=
  let iter := { iter with ptr := iter.ptr.bind t.next }
  match iter.ptr with
  | some _ => t.settle iter
  | none =>
      let iter := { iter with i := iter.i + w.step }
      t.settle (t.seek w (w.left iter) iter)

/-- `nio_htable_iter_head` -/
def nioHtableIterHead (t : NioHtable ν ω) : Iter ν ω := t.iterFrom .up 0

/-- `nio_htable_iter_next` -/
def nioHtableIterNext (t : NioHtable ν ω) : Iter ν ω → Iter ν ω := t.iterOn .up

/-- `nio_htable_iter_tail` -/
def nioHtableIterTail (t : NioHtable ν ω) : Iter ν ω := t.iterFrom .down (t.size.toInt - 1)

/-- `nio_htable_iter_prev` -/
def nioHtableIterPrev (t : NioHtable ν ω) : Iter ν ω → Iter ν ω := t.iterOn .down

/-- `FOREACH` and `FOREACH_REVERSE`, for at most so many rounds: the entry, the key
and the value in each of them. -/
def forEach (on : Iter ν ω → Iter ν ω) :
    Nat → Iter ν ω → Option (List (ν × Option CString × Option ω))
  | 0, iter => if iter.ptr.isSome then none else some []
  | rounds + 1, iter =>
      match iter.ptr with
      | none => some []
      | some ptr => (forEach on rounds (on iter)).map ((ptr, iter.key, iter.data) :: ·)

end NioHtable

/-! ## The calls as data -/

/-- A call, with its arguments; for `enter` also the memory a new entry gets. -/
inductive HtableCall (ν ω : Type) where
  | enter (key : CString) (value : Option ω) (p : ν)
  | find (key : CString)
  | locate (key : CString)
  | delete (key : CString) (freeFn : Bool)
  | reset (freeFn : Bool)
deriving DecidableEq

/-- What a call returns. -/
inductive HtableResult (ν ω : Type) where
  | info (ht : Option ν)
  | value (value : Option ω)
  | ret (ret : Int)
deriving DecidableEq

variable {ν ω : Type}

namespace NioHtable

variable [DecidableEq ν]

/-- What a call returns, and the table after it. -/
def call (rounds : Nat) (t : NioHtable ν ω) :
    HtableCall ν ω → Option (HtableResult ν ω × NioHtable ν ω)
  | .enter key value p => do
      let (ht, t) ← t.nioHtableEnter rounds key value p
      return (.info (some ht), t)
  | .find key => do
      let v ← t.nioHtableFind rounds key
      return (.value v, t)
  | .locate key => do
      let ht ← t.nioHtableLocate rounds key
      return (.info ht, t)
  | .delete key freeFn => do
      let (ret, t) ← t.nioHtableDelete rounds key freeFn
      return (.ret ret, t)
  | .reset freeFn => do
      let (ret, t) ← t.nioHtableReset rounds freeFn
      return (.ret ret, t)

/-- The calls, one after the other: what each returns, and the table in the end. -/
def run (rounds : Nat) (t : NioHtable ν ω) :
    List (HtableCall ν ω) → Option (List (HtableResult ν ω) × NioHtable ν ω)
  | [] => some ([], t)
  | c :: cs => do
      let (r, t) ← t.call rounds c
      let (rs, t) ← run rounds t cs
      return (r :: rs, t)

end NioHtable

/-! ## The map -/

/-- What a table is for: an entry and a value for each key that is present, and how
the last `enter` went. -/
structure Dict (ν ω : Type) where
  entry : CString → Option (ν × Option ω)
  status : HtableStatus

namespace Dict

def empty : Dict ν ω := ⟨fun _ => none, .ok⟩

/-- The keys that are present. -/
def present (d : Dict ν ω) : Set CString := {key | d.entry key ≠ none}

/-- What a call is to the map. -/
def apply (d : Dict ν ω) : HtableCall ν ω → Dict ν ω
  | .enter key value p =>
      match d.entry key with
      | some _ => { d with status := .duplexKey }
      | none => ⟨Function.update d.entry key (some (p, value)), .ok⟩
  | .find _ | .locate _ => d
  | .delete key _ => { d with entry := Function.update d.entry key none }
  | .reset _ => { d with entry := fun _ => none }

/-- What it returns, from the map. -/
def result (d : Dict ν ω) : HtableCall ν ω → HtableResult ν ω
  | .enter key _ p => .info (some ((d.entry key).elim p (·.1)))
  | .find key => .value ((d.entry key).bind (·.2))
  | .locate key => .info ((d.entry key).map (·.1))
  | .delete key _ => .ret (if d.entry key = none then -1 else 0)
  | .reset _ => .ret 0

/-- What the calls are to the map, one after the other. -/
def applyAll (d : Dict ν ω) (cs : List (HtableCall ν ω)) : Dict ν ω := cs.foldl apply d

def results (d : Dict ν ω) : List (HtableCall ν ω) → List (HtableResult ν ω)
  | [] => []
  | c :: cs => d.result c :: (d.apply c).results cs

/-- A new entry gets memory that no other entry has. -/
def Proper (d : Dict ν ω) : HtableCall ν ω → Prop
  | .enter key _ p => d.entry key = none → ∀ k v, d.entry k ≠ some (p, v)
  | _ => True

/-- Each call is made as it should be, where it is made. -/
def ProperRun : Dict ν ω → List (HtableCall ν ω) → Prop
  | _, [] => True
  | d, c :: cs => d.Proper c ∧ ProperRun (d.apply c) cs

end Dict

/-! ## The calls of one key -/

namespace HtableCall

/-- The call takes the key out of the table. -/
def drops (key : CString) : HtableCall ν ω → Bool
  | .delete k _ => k = key
  | .reset _ => true
  | _ => false

/-- The call enters the key, with this. -/
def enters (key : CString) : HtableCall ν ω → Option (ν × Option ω)
  | .enter k value p => if k = key then some (p, value) else none
  | _ => none

/-- The first time that the key is entered since it was last taken out. -/
def firstEnter (key : CString) (cs : List (HtableCall ν ω)) : Option (ν × Option ω) :=
  (cs.rtakeWhile fun c => !c.drops key).findSome? (enters key)

end HtableCall

end Libnio.Common
