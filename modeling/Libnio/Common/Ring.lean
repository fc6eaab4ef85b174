import Libnio.Linked.Segment
import Mathlib.Data.Set.Insert

/-!
# Common — rings

`nio_ring.c`: the pointers of `NIO_RING`, node by node, and the functions that
write them, statement by statement. Following a null pointer has no result. Each
call is also given as what it does to the sequences that the heads stand for.
-/

namespace Libnio.Common

open Linked

variable {ν : Type}

/-- The fields of every `NIO_RING` there is. -/
structure RingMem (ν : Type) where
  succ : ν → Option ν
  pred : ν → Option ν
  parent : ν → Option ν
  /-- an `int`, which `len++` and `len--` take around -/
  len : ν → Int32

namespace RingMem

section Functions

variable [DecidableEq ν]

/-- `nio_ring_init` -/
def nioRingInit (ring : ν) (m : RingMem ν) : RingMem ν :=
  let m := { m with succ := Function.update m.succ ring (some ring) }
  let m := { m with pred := Function.update m.pred ring (some ring) }
  let m := { m with parent := Function.update m.parent ring (some ring) }
  { m with len := Function.update m.len ring 0 }

/-- `nio_ring_size` -/
def nioRingSize (ring : ν) (m : RingMem ν) : Int32 := m.len ring

/-- `nio_ring_append` -/
def nioRingAppend (ring entry : ν) (m : RingMem ν) : Option (RingMem ν) := do
  let m := { m with succ := Function.update m.succ entry (m.succ ring) }
  let m := { m with pred := Function.update m.pred entry (some ring) }
  let m := { m with parent := Function.update m.parent entry (m.parent ring) }
  let succ ← m.succ ring
  let m := { m with pred := Function.update m.pred succ (some entry) }
  let m := { m with succ := Function.update m.succ ring (some entry) }
  let parent ← m.parent ring
  return { m with len := Function.update m.len parent (m.len parent + 1) }

/-- `nio_ring_prepend` -/
def nioRingPrepend (ring entry : ν) (m : RingMem ν) : Option (RingMem ν) := do
  let m := { m with pred := Function.update m.pred entry (m.pred ring) }
  let m := { m with succ := Function.update m.succ entry (some ring) }
  let m := { m with parent := Function.update m.parent entry (m.parent ring) }
  let pred ← m.pred ring
  let m := { m with succ := Function.update m.succ pred (some entry) }
  let m := { m with pred := Function.update m.pred ring (some entry) }
  let parent ← m.parent ring
  return { m with len := Function.update m.len parent (m.len parent + 1) }

/-- `nio_ring_detach` -/
def nioRingDetach (entry : ν) (m : RingMem ν) : Option (RingMem ν) :=
  if m.parent entry ≠ some entry then
    match m.succ entry, m.pred entry with
    | some succ, some pred => do
        let m := { m with succ := Function.update m.succ pred (some succ) }
        let m := { m with pred := Function.update m.pred succ (some pred) }
        let parent ← m.parent entry
        let m := { m with len := Function.update m.len parent (m.len parent - 1) }
        let m := { m with pred := Function.update m.pred entry (some entry) }
        let m := { m with succ := Function.update m.succ entry (some entry) }
        let m := { m with parent := Function.update m.parent entry (some entry) }
        return { m with len := Function.update m.len entry 0 }
    | _, _ => some m
  else some m

/-- `nio_ring_pop_head` -/
def nioRingPopHead (ring : ν) (m : RingMem ν) : Option (Option ν × RingMem ν) := do
  let succ ← m.succ ring
  if succ = ring then return (none, m)
  let m ← m.nioRingDetach succ
  return (some succ, m)

/-- `nio_ring_pop_tail` -/
def nioRingPopTail (ring : ν) (m : RingMem ν) : Option (Option ν × RingMem ν) := do
  let pred ← m.pred ring
  if pred = ring then return (none, m)
  let m ← m.nioRingDetach pred
  return (some pred, m)

/-- `nio_ring_first` -/
def nioRingFirst (ring : ν) (m : RingMem ν) : Option ν :=
  if m.succ ring ≠ some ring then m.succ ring else none

/-- `nio_ring_foreach`: the entries it comes to, in at most so many rounds. -/
def nioRingForeach (ring : ν) (m : RingMem ν) (rounds : Nat) : Option (List ν) :=
  follow m.succ (some ring) rounds (m.succ ring)

/-- `nio_ring_foreach_reverse` -/
def nioRingForeachReverse (ring : ν) (m : RingMem ν) (rounds : Nat) : Option (List ν) :=
  follow m.pred (some ring) rounds (m.pred ring)

end Functions

end RingMem

/-! ## The calls as data -/

/-- A call, with its arguments. -/
inductive RingCall (ν : Type) where
  | init (ring : ν)
  | append (ring entry : ν)
  | prepend (ring entry : ν)
  | detach (entry : ν)
  | popHead (ring : ν)
  | popTail (ring : ν)
deriving DecidableEq

variable [DecidableEq ν]

/-- What a call returns, null where it returns nothing, and the memory after it. -/
def RingMem.call (m : RingMem ν) : RingCall ν → Option (Option ν × RingMem ν)
  | .init ring => some (none, m.nioRingInit ring)
  | .append ring entry => (m.nioRingAppend ring entry).map (none, ·)
  | .prepend ring entry => (m.nioRingPrepend ring entry).map (none, ·)
  | .detach entry => (m.nioRingDetach entry).map (none, ·)
  | .popHead ring => m.nioRingPopHead ring
  | .popTail ring => m.nioRingPopTail ring

namespace RingCall

/-- What a call is to the sequences that the heads stand for. -/
def seqs (s : ν → List ν) : RingCall ν → ν → List ν
  | .init _ => s
  | .append ring entry => Function.update s ring (entry :: s ring)
  | .prepend ring entry => Function.update s ring (s ring ++ [entry])
  | .detach entry => fun ring => (s ring).erase entry
  | .popHead ring => Function.update s ring (s ring).tail
  | .popTail ring => Function.update s ring (s ring).dropLast

/-- What it returns, from the sequences. -/
def result (s : ν → List ν) : RingCall ν → Option ν
  | .popHead ring => (s ring).head?
  | .popTail ring => (s ring).getLast?
  | _ => none

/-- The nodes that `nio_ring_init` has been called for. -/
def known (inited : Set ν) : RingCall ν → Set ν
  | .init ring => insert ring inited
  | _ => inited

/-- How a program calls: with nodes that are initialised, heads where heads belong,
and entries that are in no ring where one goes in. What is in a ring, or has
entries, is not initialised anew. -/
def Proper (heads inited : Set ν) (m : RingMem ν) : RingCall ν → Prop
  | .init ring => ring ∈ inited →
      (ring ∈ heads → m.succ ring = some ring) ∧ (ring ∉ heads → m.parent ring = some ring)
  | .append ring entry | .prepend ring entry =>
      (ring ∈ heads ∧ ring ∈ inited) ∧ (entry ∉ heads ∧ entry ∈ inited) ∧
        m.parent entry = some entry
  | .detach entry => entry ∉ heads ∧ entry ∈ inited
  | .popHead ring | .popTail ring => ring ∈ heads ∧ ring ∈ inited

end RingCall

namespace RingCall

/-- What the calls are to the sequences, one after the other. -/
def seqsAll (s : ν → List ν) (cs : List (RingCall ν)) : ν → List ν :=
  cs.foldl (fun s c => c.seqs s) s

def results (s : ν → List ν) : List (RingCall ν) → List (Option ν)
  | [] => []
  | c :: cs => c.result s :: results (c.seqs s) cs

def knownAll (inited : Set ν) (cs : List (RingCall ν)) : Set ν :=
  cs.foldl (fun inited c => c.known inited) inited

end RingCall

namespace RingMem

/-- The calls, one after the other: what each returns, and the memory in the end. -/
def run (m : RingMem ν) : List (RingCall ν) → Option (List (Option ν) × RingMem ν)
  | [] => some ([], m)
  | c :: cs => do
      let (r, m) ← m.call c
      let (rs, m) ← run m cs
      return (r :: rs, m)

/-- Each call is made as it should be, where it is made. -/
def ProperRun (heads : Set ν) : Set ν → RingMem ν → List (RingCall ν) → Prop
  | _, _, [] => True
  | inited, m, c :: cs => c.Proper heads inited m ∧
      ∀ r m', m.call c = some (r, m') → ProperRun heads (c.known inited) m' cs

end RingMem

end Libnio.Common
