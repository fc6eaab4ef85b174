import Mathlib.Logic.Function.Basic
import Mathlib.Data.List.Basic

/-!
# Event — files, the pending ring, the backend

The data of `event.h`: `NIO_FILE_`, `NIO_EVENT` and the operations a backend
brings with it, and of `nio_ring.c` what the queue of pending files needs.
Files are named by any type `ι`, callbacks by any type `π`; what a backend
keeps for itself is a value of any type `κ`.
-/

namespace Libnio.Event

/-- The read and the write side of a file. -/
inductive Dir where
  | read
  | write
deriving DecidableEq

/-- `TYPE_NONE`, `TYPE_SOCK`, `TYPE_NOSOCK` -/
inductive FileType where
  | none
  | sock
  | nosock
deriving DecidableEq

/-- `NIO_FILE_`: the bits of `oper` and `mask` and the two procs, by side. The
ring entry `me` is where the file stands in the ring of its event. -/
structure NioFile (π : Type) where
  fd : Int
  type : FileType
  /-- `NIO_EVENT_ADD_READ`, `NIO_EVENT_ADD_WRITE` -/
  operAdd : Dir → Bool
  /-- `NIO_EVENT_DEL_READ`, `NIO_EVENT_DEL_WRITE` -/
  operDel : Dir → Bool
  /-- `NIO_EVENT_READ`, `NIO_EVENT_WRITE` -/
  mask : Dir → Bool
  /-- `r_proc`, `w_proc` -/
  proc : Dir → Option π

/-- `nio_file_alloc(socket_t fd)` -/
def NioFile.alloc {π : Type} (fd : Int) : NioFile π :=
  { fd, type := .none, operAdd := fun _ => false, operDel := fun _ => false,
    mask := fun _ => false, proc := fun _ => none }

/-! ## The ring -/

/-- `NIO_RING`, a head with its entries in the order of `succ`. -/
structure NioRing (ι : Type) where
  entries : List ι
deriving DecidableEq

namespace NioRing

variable {ι : Type} [DecidableEq ι]

def init : NioRing ι := ⟨[]⟩

/-- `entry->parent != entry` -/
def linked (ring : NioRing ι) (entry : ι) : Bool := entry ∈ ring.entries

/-- `nio_ring_prepend`: in front of the head, which is behind the last entry. -/
def prepend (ring : NioRing ι) (entry : ι) : NioRing ι := ⟨ring.entries ++ [entry]⟩

/-- `nio_ring_detach` -/
def detach (ring : NioRing ι) (entry : ι) : NioRing ι := ⟨ring.entries.erase entry⟩

def first (ring : NioRing ι) : Option ι := ring.entries.head?

theorem linked_iff {ring : NioRing ι} {entry : ι} :
    ring.linked entry = true ↔ entry ∈ ring.entries := by
  simp [linked]

@[simp] theorem linked_init (entry : ι) : (init : NioRing ι).linked entry = false := rfl

@[simp] theorem linked_prepend (ring : NioRing ι) (entry e : ι) :
    (ring.prepend entry).linked e = (ring.linked e || decide (e = entry)) := by
  simp [linked, prepend]

theorem nodup_prepend {ring : NioRing ι} {entry : ι} (h : ring.entries.Nodup)
    (hn : ring.linked entry = false) : (ring.prepend entry).entries.Nodup := by
  have hm : entry ∉ ring.entries := by simpa [linked] using hn
  rw [prepend, List.nodup_append]
  refine ⟨h, by simp, fun a ha b hb => ?_⟩
  rw [List.mem_singleton.mp hb]
  exact fun hc => hm (hc ▸ ha)

theorem nodup_detach {ring : NioRing ι} (h : ring.entries.Nodup) (entry : ι) :
    (ring.detach entry).entries.Nodup :=
  h.erase entry

theorem linked_detach {ring : NioRing ι} (h : ring.entries.Nodup) (entry e : ι) :
    (ring.detach entry).linked e = (ring.linked e && !decide (e = entry)) := by
  rw [Bool.eq_iff_iff, linked_iff, detach, h.mem_erase_iff]
  simp [linked, and_comm]

end NioRing

/-! ## The event and its backend -/

/-- The operations of a backend. -/
inductive OperKind where
  | add (dir : Dir)
  | del (dir : Dir)
  | delReadwrite
deriving DecidableEq

/-- A call of one of them: on which file, and the mask it found there. -/
structure OperCall (ι : Type) where
  kind : OperKind
  file : ι
  mask : Dir → Bool

/-- `NIO_EVENT`, with its files and what its backend has been called for. -/
structure NioEvent (ι κ π : Type) where
  /-- `flags & NIO_EVENT_ONESHOT` -/
  oneshot : Bool
  /-- `flags & NIO_EVENT_DIRECT` -/
  direct : Bool
  setsize : Int
  /-- `events`, the files with something pending -/
  ring : NioRing ι
  files : ι → NioFile π
  /-- what the backend keeps for itself -/
  backend : κ
  opers : List (OperCall ι)

/-- `nio_event_oper`: it reads the flags of the event and the file, and changes
what the backend keeps and the mask of the file. -/
abbrev EventOper (ι κ π : Type) := Bool → κ → ι → NioFile π → κ × (Dir → Bool)

/-- What `nio_event.c` calls: the kernel and the functions of the backend. -/
structure Host (ι κ π : Type) where
  /-- `lseek(fd, 0, SEEK_SET) == -1 && errno == ESPIPE` -/
  espipe : Int → Bool
  /-- `add_read`, `add_write` -/
  add : Dir → EventOper ι κ π
  /-- `del_read`, `del_write` -/
  del : Dir → EventOper ι κ π
  /-- `del_readwrite`, which may be `NULL` -/
  delReadwrite : Option (EventOper ι κ π)
  /-- `event_fflush`, which may be `NULL` -/
  eventFflush : Option (κ → κ)

/-- The operations of the backend succeed. -/
structure Host.Succeeds {ι κ π : Type} (host : Host ι κ π) : Prop where
  add : ∀ dir oneshot k fe file,
    (host.add dir oneshot k fe file).2 = Function.update file.mask dir true
  del : ∀ dir oneshot k fe file,
    (host.del dir oneshot k fe file).2 = Function.update file.mask dir false
  delReadwrite : ∀ op, host.delReadwrite = some op → ∀ oneshot k fe file,
    (op oneshot k fe file).2 = fun _ => false

variable {ι κ π : Type} [DecidableEq ι]

namespace NioEvent

/-- An event with files that are all fresh. -/
def create (oneshot direct : Bool) (setsize : Int) (fd : ι → Int) (backend : κ) :
    NioEvent ι κ π :=
  { oneshot, direct, setsize, ring := .init, files := fun fe => NioFile.alloc (fd fe),
    backend, opers := [] }

/-- The file `fe` becomes what `f` makes of it. -/
def modify (ev : NioEvent ι κ π) (fe : ι) (f : NioFile π → NioFile π) : NioEvent ι κ π :=
  { ev with files := Function.update ev.files fe (f (ev.files fe)) }

/-- `ev->add_read(ev, fe)` and the like. -/
def oper (ev : NioEvent ι κ π) (kind : OperKind) (op : EventOper ι κ π) (fe : ι) :
    NioEvent ι κ π :=
  let r := op ev.oneshot ev.backend fe (ev.files fe)
  { ev with
    backend := r.1,
    opers := ev.opers ++ [⟨kind, fe, (ev.files fe).mask⟩],
    files := Function.update ev.files fe { ev.files fe with mask := r.2 } }

section Fields

variable (ev : NioEvent ι κ π) (fe : ι) (f : NioFile π → NioFile π) (kind : OperKind)
  (op : EventOper ι κ π)

@[simp] theorem modify_files (e : ι) :
    (ev.modify fe f).files e = if e = fe then f (ev.files fe) else ev.files e := by
  simp [modify, Function.update_apply]

@[simp] theorem modify_oneshot : (ev.modify fe f).oneshot = ev.oneshot := rfl
@[simp] theorem modify_direct : (ev.modify fe f).direct = ev.direct := rfl
@[simp] theorem modify_setsize : (ev.modify fe f).setsize = ev.setsize := rfl
@[simp] theorem modify_ring : (ev.modify fe f).ring = ev.ring := rfl
@[simp] theorem modify_opers : (ev.modify fe f).opers = ev.opers := rfl

@[simp] theorem oper_files (e : ι) :
    (ev.oper kind op fe).files e
      = if e = fe then
          { ev.files fe with mask := (op ev.oneshot ev.backend fe (ev.files fe)).2 }
        else ev.files e := by
  simp [oper, Function.update_apply]

@[simp] theorem oper_oneshot : (ev.oper kind op fe).oneshot = ev.oneshot := rfl
@[simp] theorem oper_direct : (ev.oper kind op fe).direct = ev.direct := rfl
@[simp] theorem oper_setsize : (ev.oper kind op fe).setsize = ev.setsize := rfl
@[simp] theorem oper_ring : (ev.oper kind op fe).ring = ev.ring := rfl
@[simp] theorem oper_opers :
    (ev.oper kind op fe).opers = ev.opers ++ [⟨kind, fe, (ev.files fe).mask⟩] := rfl

end Fields

end NioEvent

end Libnio.Event
