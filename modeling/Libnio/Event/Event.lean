import Libnio.Event.Base
import Mathlib.Tactic.Simps.Basic

/-!
# Event — registration

`nio_event.c`: the five calls that change what a file is registered for, and
`nio_event_prepare`, which hands what is pending to the backend. The calls for
reading and for writing are the same on either side, so that each pair is one
definition with the side as its argument.
-/

namespace Libnio.Event

variable {ι κ π : Type}

namespace NioFile

@[simps]
def setOperAdd (dir : Dir) (b : Bool) (fe : NioFile π) : NioFile π :=
  { fe with operAdd := Function.update fe.operAdd dir b }

@[simps]
def setOperDel (dir : Dir) (b : Bool) (fe : NioFile π) : NioFile π :=
  { fe with operDel := Function.update fe.operDel dir b }

@[simps]
def setType (type : FileType) (fe : NioFile π) : NioFile π := { fe with type }

@[simps]
def setProc (dir : Dir) (proc : Option π) (fe : NioFile π) : NioFile π :=
  { fe with proc := Function.update fe.proc dir proc }

/-- `oper = 0` -/
@[simps]
def clearOper (fe : NioFile π) : NioFile π :=
  { fe with operAdd := fun _ => false, operDel := fun _ => false }

end NioFile

variable [DecidableEq ι]

namespace NioEvent

variable (host : Host ι κ π)

/-- `nio_ring_prepend(&ev->events, &fe->me)`, of a file that is not in the ring. -/
def enqueue (ev : NioEvent ι κ π) (fe : ι) : NioEvent ι κ π :=
  if !ev.ring.linked fe then { ev with ring := ev.ring.prepend fe } else ev

/-- `nio_event_add_read`, `nio_event_add_write` -/
def add (dir : Dir) (fe : ι) (proc : π) (ev : NioEvent ι κ π) : Bool × NioEvent ι κ π :=
  if (ev.files fe).type = .nosock then (false, ev)
  else if (ev.files fe).fd ≥ ev.setsize then (false, ev)
  else
    let ev := ev.modify fe (·.setOperDel dir false)
    if !(ev.files fe).mask dir || ev.oneshot then
      if (ev.files fe).type = .none ∧ host.espipe (ev.files fe).fd = false then
        (false, ev.modify fe (·.setType .nosock))
      else
        let ev := ev.modify fe (·.setType .sock)
        let ev := if ev.direct then ev.oper (.add dir) (host.add dir) fe else ev.enqueue fe
        let ev := ev.modify fe (·.setOperAdd dir true)
        (true, ev.modify fe (·.setProc dir (some proc)))
    else (true, ev.modify fe (·.setProc dir (some proc)))

/-- `nio_event_del_read`, `nio_event_del_write` -/
def del (dir : Dir) (fe : ι) (ev : NioEvent ι κ π) : NioEvent ι κ π :=
  let ev := ev.modify fe (·.setOperAdd dir false)
  let ev :=
    if (ev.files fe).mask dir then
      if ev.direct then ev.oper (.del dir) (host.del dir) fe
      else (ev.enqueue fe).modify fe (·.setOperDel dir true)
    else ev
  ev.modify fe (·.setProc dir none)

/-- What `nio_event_del_readwrite` asks of the backend. -/
def delMasked (fe : ι) (ev : NioEvent ι κ π) : NioEvent ι κ π :=
  match host.delReadwrite with
  | some op =>
      if (ev.files fe).mask .read || (ev.files fe).mask .write then ev.oper .delReadwrite op fe
      else ev
  | none =>
      let ev :=
        if (ev.files fe).mask .read then ev.oper (.del .read) (host.del .read) fe else ev
      if (ev.files fe).mask .write then ev.oper (.del .write) (host.del .write) fe else ev

/-- `if (ev->event_fflush) ev->event_fflush(ev);` -/
def fflush (ev : NioEvent ι κ π) : NioEvent ι κ π :=
  match host.eventFflush with
  | some flush => { ev with backend := flush ev.backend }
  | none => ev

/-- `nio_event_del_readwrite`: at once, whatever the mode; the procs stay. -/
def delReadwrite (fe : ι) (ev : NioEvent ι κ π) : NioEvent ι κ π :=
  let ev := ev.delMasked host fe
  let ev := if ev.ring.linked fe then { ev with ring := ev.ring.detach fe } else ev
  let ev := ev.modify fe (·.clearOper)
  ev.fflush host

/-- `if (fe->oper & ..) ev->..(ev, fe);` for one bit of `oper`. -/
def pending (kind : OperKind) (op : EventOper ι κ π) (bit : NioFile π → Bool) (fe : ι)
    (ev : NioEvent ι κ π) : NioEvent ι κ π :=
  if bit (ev.files fe) then ev.oper kind op fe else ev

/-- The body of the loop of `nio_event_prepare`. -/
def prepareOne (fe : ι) (ev : NioEvent ι κ π) : NioEvent ι κ π :=
  let ev := ev.pending (.del .read) (host.del .read) (·.operDel .read) fe
  let ev := ev.pending (.del .write) (host.del .write) (·.operDel .write) fe
  let ev := ev.pending (.add .read) (host.add .read) (·.operAdd .read) fe
  let ev := ev.pending (.add .write) (host.add .write) (·.operAdd .write) fe
  let ev := { ev with ring := ev.ring.detach fe }
  ev.modify fe (·.clearOper)

/-- `while ((next = nio_ring_first(&ev->events)))`, at most `n` times. -/
def prepareLoop : Nat → NioEvent ι κ π → NioEvent ι κ π
  | 0, ev => ev
  | n + 1, ev =>
      match ev.ring.first with
      | none => ev
      | some fe => prepareLoop n (ev.prepareOne host fe)

/-- `nio_event_prepare`. Every round takes one file out of the ring. -/
def prepare (ev : NioEvent ι κ π) : NioEvent ι κ π :=
  { prepareLoop host ev.ring.entries.length ev with ring := .init }

end NioEvent

/-! ## The calls as data -/

/-- A call of the interface, with its arguments. -/
inductive Call (ι π : Type) where
  | add (dir : Dir) (fe : ι) (proc : π)
  | del (dir : Dir) (fe : ι)
  | delReadwrite (fe : ι)
deriving DecidableEq

def NioEvent.apply (host : Host ι κ π) (ev : NioEvent ι κ π) : Call ι π → NioEvent ι κ π
  | .add dir fe proc => (ev.add host dir fe proc).2
  | .del dir fe => ev.del host dir fe
  | .delReadwrite fe => ev.delReadwrite host fe

end Libnio.Event
