import Libnio.Event.Event

/-!
# Event — the epoll backend

The operations of `nio_event_epoll.c`. The kernel's part is its answer to
`epoll_ctl`, any function `ctl`; `epollTable` is the one of a kernel that keeps
a table of descriptors.
-/

namespace Libnio.Event

variable {ι κ π : Type}

/-- `EPOLL_CTL_ADD`, `EPOLL_CTL_MOD`, `EPOLL_CTL_DEL` -/
inductive EpollOp where
  | add
  | mod
  | del
deriving DecidableEq

/-- `struct epoll_event` as it is handed to `epoll_ctl`. -/
structure EpollInterest (ι : Type) where
  epollin : Bool
  epollout : Bool
  oneshot : Bool
  ptr : ι
deriving DecidableEq

/-- `epoll_ctl(epfd, op, fd, &ee) == 0`, with what it makes of the kernel. -/
abbrev EpollCtl (ι κ : Type) := EpollOp → Int → EpollInterest ι → κ → Option κ

/-- `EVENT_EPOLL`: the kernel behind `epfd`, and `fdcount`. -/
structure EventEpoll (κ : Type) where
  kernel : κ
  fdcount : Int

namespace EventEpoll

variable (ctl : EpollCtl ι κ)

def addRead : EventOper ι (EventEpoll κ) π := fun oneshot ep fe file =>
  let ee : EpollInterest ι := { epollin := true, epollout := file.mask .write, oneshot, ptr := fe }
  let (op, n) : EpollOp × Int :=
    if file.mask .write then (.mod, 0) else if file.mask .read then (.mod, 0) else (.add, 1)
  match ctl op file.fd ee ep.kernel with
  | some kernel =>
      ({ kernel, fdcount := ep.fdcount + n }, Function.update file.mask .read true)
  | none => (ep, file.mask)

/-- `EPOLLONESHOT` is not asked for here. -/
def addWrite : EventOper ι (EventEpoll κ) π := fun _ ep fe file =>
  let ee : EpollInterest ι :=
    { epollin := file.mask .read, epollout := true, oneshot := false, ptr := fe }
  let (op, n) : EpollOp × Int :=
    if file.mask .read then (.mod, 0) else if file.mask .write then (.mod, 0) else (.add, 1)
  match ctl op file.fd ee ep.kernel with
  | some kernel =>
      ({ kernel, fdcount := ep.fdcount + n }, Function.update file.mask .write true)
  | none => (ep, file.mask)

/-- The mask is cleared before `epoll_ctl`, whatever that answers. -/
def delRead : EventOper ι (EventEpoll κ) π := fun oneshot ep fe file =>
  let mask := Function.update file.mask .read false
  let ee : EpollInterest ι :=
    { epollin := false, epollout := mask .write, oneshot := mask .write && oneshot, ptr := fe }
  let (op, n) : EpollOp × Int := if mask .write then (.mod, 0) else (.del, -1)
  match ctl op file.fd ee ep.kernel with
  | some kernel => ({ kernel, fdcount := ep.fdcount + n }, mask)
  | none => (ep, mask)

def delWrite : EventOper ι (EventEpoll κ) π := fun oneshot ep fe file =>
  let mask := Function.update file.mask .write false
  let ee : EpollInterest ι :=
    { epollin := mask .read, epollout := false, oneshot := mask .read && oneshot, ptr := fe }
  let (op, n) : EpollOp × Int := if mask .read then (.mod, 0) else (.del, -1)
  match ctl op file.fd ee ep.kernel with
  | some kernel => ({ kernel, fdcount := ep.fdcount + n }, mask)
  | none => (ep, mask)

def delReadwrite : EventOper ι (EventEpoll κ) π := fun _ ep fe file =>
  let ee : EpollInterest ι := { epollin := false, epollout := false, oneshot := false, ptr := fe }
  match ctl .del file.fd ee ep.kernel with
  | some kernel => ({ kernel, fdcount := ep.fdcount - 1 }, fun _ => false)
  | none => (ep, fun _ => false)

/-- `nio_epoll_create`: what the event gets from this backend. -/
def host (espipe : Int → Bool) : Host ι (EventEpoll κ) π :=
  { espipe
    add := fun dir => match dir with
      | .read => addRead ctl
      | .write => addWrite ctl
    del := fun dir => match dir with
      | .read => delRead ctl
      | .write => delWrite ctl
    delReadwrite := some (delReadwrite ctl)
    eventFflush := none }

/-- The backend succeeds when `epoll_ctl` does. -/
theorem host_succeeds {ctl : EpollCtl ι κ} (h : ∀ op fd ee k, (ctl op fd ee k).isSome = true)
    (espipe : Int → Bool) : (host ctl espipe : Host ι (EventEpoll κ) π).Succeeds := by
  have hctl : ∀ op fd ee k, ∃ k', ctl op fd ee k = some k' := fun op fd ee k =>
    Option.isSome_iff_exists.mp (h op fd ee k)
  refine ⟨fun dir oneshot k fe file => ?_, fun dir oneshot k fe file => ?_,
    fun op hop oneshot k fe file => ?_⟩
  · cases dir
    all_goals
      simp only [host, addRead, addWrite]
      split
      · rfl
      · rename_i hn
        obtain ⟨k', hk⟩ := hctl _ _ _ _
        rw [hk] at hn
        cases hn
  · cases dir
    all_goals
      simp only [host, delRead, delWrite]
      split <;> rfl
  · cases hop
    simp only [delReadwrite]
    split <;> rfl

end EventEpoll

/-- The kernel's table of an epoll descriptor: `EPOLL_CTL_ADD` of a descriptor
that is there and the other two of one that is not there fail. -/
def epollTable : EpollCtl ι (Int → Option (EpollInterest ι)) := fun op fd ee table =>
  match op, table fd with
  | .add, none => some (Function.update table fd (some ee))
  | .mod, some _ => some (Function.update table fd (some ee))
  | .del, some _ => some (Function.update table fd none)
  | _, _ => none

theorem epollTable_add {fd : Int} {ee : EpollInterest ι}
    {table : Int → Option (EpollInterest ι)} (h : table fd = none) :
    epollTable .add fd ee table = some (Function.update table fd (some ee)) := by
  simp only [epollTable, h]

theorem epollTable_mod {fd : Int} {ee e : EpollInterest ι}
    {table : Int → Option (EpollInterest ι)} (h : table fd = some e) :
    epollTable .mod fd ee table = some (Function.update table fd (some ee)) := by
  simp only [epollTable, h]

theorem epollTable_del {fd : Int} {ee e : EpollInterest ι}
    {table : Int → Option (EpollInterest ι)} (h : table fd = some e) :
    epollTable .del fd ee table = some (Function.update table fd none) := by
  simp only [epollTable, h]

end Libnio.Event
