import Mathlib.Data.Finset.Image
import Mathlib.Data.Finset.Option

/-!
# Socket — server sockets

The functions of `server_socket.cpp` and the descriptors they deal in. A process
has server sockets, named by any type `σ`, beside the other things it does; the
kernel gives it any descriptor that is not open at the time, so that a number
comes back after it has been closed.
-/

namespace Libnio.Socket

/-- `server_socket` -/
structure ServerSocket where
  lfd : Int
  /-- `on_accept_`, `on_error_` are set -/
  onAccept : Bool
  onError : Bool
deriving DecidableEq

/-- `SOCK_ADDR` -/
inductive SockAddr where
  | inet (addr : List UInt8) (port : Nat)
  | inet6 (addr : List UInt8) (scopeId port : Nat)
  /-- of a family that is neither -/
  | other
deriving DecidableEq

/-- `inet_ntop` and `if_indextoname` -/
structure Names where
  inetNtop : List UInt8 → Option String
  ifIndexToName : Nat → Option String

/-- What `socket`, `bind` and `listen` answer. -/
structure OpenAnswer where
  socket : Option Nat
  bind : Bool
  listen : Bool
deriving DecidableEq

/-- What `::accept` answers. -/
inductive AcceptAnswer where
  | accepted (fd : Nat) (peer : SockAddr)
  /-- `-1`, and whether `errno` is `EAGAIN` or `EWOULDBLOCK` -/
  | fails (again : Bool)
deriving DecidableEq

/-- The descriptor that comes with the answer. -/
def AcceptAnswer.fd : AcceptAnswer → Option Nat
  | .accepted fd _ => some fd
  | .fails _ => none

/-- What a function has done, with its calls of `::close` in order. -/
structure Opened where
  server : ServerSocket
  ret : Bool
  closes : List Int
deriving DecidableEq

structure Accepted where
  ret : Int
  /-- what is stored in `*addr` -/
  addr : Option String
  closes : List Int
deriving DecidableEq

/-- The handler that is called. -/
inductive Told where
  | onAccept (fd : Int) (addr : String)
  | onError
deriving DecidableEq

/-- The descriptor that the handler is given. -/
def Told.fd : Told → Option Int
  | .onAccept fd _ => some fd
  | .onError => none

namespace ServerSocket

/-- `server_socket::server_socket` -/
def new : ServerSocket := ⟨-1, false, false⟩

/-- `server_socket::open` -/
def «open» (srv : ServerSocket) (answer : OpenAnswer) : Opened :=
  match answer.socket with
  | none => ⟨{ srv with lfd := -1 }, false, []⟩
  | some fd =>
      let srv := { srv with lfd := fd }
      if !answer.bind then
        let closes := [srv.lfd]
        ⟨{ srv with lfd := -1 }, false, closes⟩
      else if !answer.listen then
        -- here `lfd_` is set before it is closed
        let srv := { srv with lfd := -1 }
        ⟨srv, false, [srv.lfd]⟩
      else ⟨srv, true, []⟩

/-- `lfd_`, unless it is `-1`. -/
def held (srv : ServerSocket) : Option Int := if srv.lfd ≥ 0 then some srv.lfd else none

/-- `server_socket::~server_socket`, what it closes. -/
def destroy (srv : ServerSocket) : List Int := if srv.lfd ≥ 0 then [srv.lfd] else []

end ServerSocket

/-- The text of an address, in the two forms of `accept`. -/
def addrText (names : Names) : SockAddr → Option (Option String)
  | .inet addr port => (names.inetNtop addr).map fun ip => some (ip ++ ":" ++ toString port)
  | .inet6 addr scopeId port =>
      (names.inetNtop addr).map fun ip =>
        let ifname := (names.ifIndexToName scopeId).getD ""
        let host := if ip ≠ "::1" ∧ ifname ≠ "" then ip ++ "%" ++ ifname else ip
        some (if port = 0 then host else host ++ "|" ++ toString port)
  | .other => some none

/-- `server_socket::accept`, which is given an `addr` to fill or not. -/
def accept (names : Names) (wantsAddr : Bool) : AcceptAnswer → Accepted
  | .fails _ => ⟨-1, none, []⟩
  | .accepted fd peer =>
      if !wantsAddr then ⟨fd, none, []⟩
      else
        match addrText names peer with
        | none => ⟨-1, none, [(fd : Int)]⟩
        | some addr => ⟨fd, addr, []⟩

/-- What `accept` does to the descriptors: nothing, unless it returns the new one. -/
theorem accept_cases (names : Names) (wantsAddr : Bool) (answer : AcceptAnswer) :
    (∃ fd, answer.fd = some fd ∧ accept names wantsAddr answer = ⟨-1, none, [(fd : Int)]⟩) ∨
    (answer.fd = none ∧ accept names wantsAddr answer = ⟨-1, none, []⟩) ∨
    ∃ fd addr, answer.fd = some fd ∧
      accept names wantsAddr answer = ⟨(fd : Int), addr, []⟩ := by
  cases answer with
  | fails => exact .inr (.inl ⟨rfl, rfl⟩)
  | accepted fd peer =>
      rw [accept]
      split
      next => exact .inr (.inr ⟨fd, none, rfl, rfl⟩)
      next =>
        split
        next => exact .inl ⟨fd, rfl, rfl⟩
        next addr _ => exact .inr (.inr ⟨fd, addr, rfl, rfl⟩)

/-- `server_socket::on_read`, the handler it calls. -/
def ServerSocket.onRead (names : Names) (srv : ServerSocket) (answer : AcceptAnswer) :
    Option Told :=
  let acc := accept names true answer
  if acc.ret = -1 then
    if answer ≠ .fails true ∧ srv.onError then some .onError else none
  else if srv.onAccept then some (.onAccept acc.ret (acc.addr.getD ""))
  else none

/-- The descriptor that `on_read` hands on. -/
theorem ServerSocket.onRead_fd (names : Names) (srv : ServerSocket) (answer : AcceptAnswer) :
    (srv.onRead names answer).bind Told.fd =
      if (accept names true answer).ret = -1 ∨ srv.onAccept = false then none
      else some (accept names true answer).ret := by
  rw [onRead]
  by_cases hret : (accept names true answer).ret = -1
  · rw [if_pos hret, if_pos (Or.inl hret)]
    split <;> rfl
  · rw [if_neg hret]
    cases ha : srv.onAccept with
    | false => simp
    | true => simp [hret, Told.fd]

/-- A process: its servers, the descriptors that are open, and those that are for
the rest of the program to close. -/
@[ext]
structure Process (σ : Type*) where
  servers : σ → Option ServerSocket
  opened : Finset Int
  given : Finset Int

/-- What the process does next. -/
inductive Turn (σ : Type*) where
  | construct (s : σ)
  | setHandlers (s : σ) (onAccept onError : Bool)
  | open (s : σ) (answer : OpenAnswer)
  | accept (s : σ) (wantsAddr : Bool) (answer : AcceptAnswer)
  | onRead (s : σ) (answer : AcceptAnswer)
  | destroy (s : σ)
  /-- elsewhere in the program -/
  | opens (fd : Nat)
  | closes (fd : Int)
deriving DecidableEq

namespace Process

variable {σ : Type*} (names : Names)

/-- Before there is any server; what is open is the program's. -/
def start (opened : Finset Nat) : Process σ :=
  ⟨fun _ => none, opened.image Nat.cast, opened.image Nat.cast⟩

/-- The kernel has given the process a descriptor. -/
def get (p : Process σ) (fd : Option Nat) : Process σ :=
  { p with opened := p.opened ∪ (fd.map Nat.cast : Option Int).toFinset }

/-- `::close`, which does nothing to a descriptor that is not open. -/
def close (p : Process σ) (fds : List Int) : Process σ :=
  { p with opened := p.opened \ fds.toFinset }

/-- The program has the descriptor from now on. -/
def give (p : Process σ) (fd : Option Int) : Process σ :=
  { p with given := p.given ∪ fd.toFinset }

/-- What the kernel gives is not open. -/
def Free (p : Process σ) (fd : Option Nat) : Prop := ∀ n ∈ fd, (n : Int) ∉ p.opened

instance (p : Process σ) (fd : Option Nat) : Decidable (p.Free fd) :=
  inferInstanceAs (Decidable (∀ n ∈ fd, (n : Int) ∉ p.opened))

/-- `::accept` gives a descriptor only for one that is open. -/
def Answers (p : Process σ) (srv : ServerSocket) (answer : AcceptAnswer) : Prop :=
  p.Free answer.fd ∧ (answer.fd.isSome → srv.lfd ∈ p.opened)

instance (p : Process σ) (srv : ServerSocket) (answer : AcceptAnswer) :
    Decidable (p.Answers srv answer) :=
  inferInstanceAs (Decidable (p.Free answer.fd ∧ (answer.fd.isSome → srv.lfd ∈ p.opened)))

/-- The program closes a descriptor. -/
def drop (p : Process σ) (fd : Int) : Process σ :=
  { p.close [fd] with given := p.given.erase fd }

section Step

variable [DecidableEq σ]

def setServer (p : Process σ) (s : σ) (srv : Option ServerSocket) : Process σ :=
  { p with servers := Function.update p.servers s srv }

/-- One turn, if it can be taken. The program closes what it has been given. -/
def step (p : Process σ) : Turn σ → Option (Process σ)
  | .construct s =>
      if (p.servers s).isNone then some (p.setServer s (some .new)) else none
  | .setHandlers s onAccept onError =>
      (p.servers s).map fun srv => p.setServer s (some { srv with onAccept, onError })
  | .open s answer =>
      (p.servers s).bind fun srv =>
        if p.Free answer.socket then
          let r := srv.open answer
          some (((p.get answer.socket).close r.closes).setServer s (some r.server))
        else none
  | .accept s wantsAddr answer =>
      (p.servers s).bind fun srv =>
        if p.Answers srv answer then
          let r := Socket.accept names wantsAddr answer
          some (((p.get answer.fd).close r.closes).give (if r.ret = -1 then none else some r.ret))
        else none
  | .onRead s answer =>
      (p.servers s).bind fun srv =>
        if p.Answers srv answer then
          let r := Socket.accept names true answer
          some (((p.get answer.fd).close r.closes).give
            ((srv.onRead names answer).bind Told.fd))
        else none
  | .destroy s =>
      (p.servers s).map fun srv => (p.close srv.destroy).setServer s none
  | .opens fd => if p.Free (some fd) then some ((p.get (some fd)).give (some fd)) else none
  | .closes fd => if fd ∈ p.given then some (p.drop fd) else none

end Step

end Process

end Libnio.Socket
