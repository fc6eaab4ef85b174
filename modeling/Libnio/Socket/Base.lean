import Libnio.Event.Kernel
import Libnio.Timer.Base
import Libnio.Socket.Outgoing

/-!
# Socket — the objects of an event

The data of `client_socket.hpp`, `event_proc.hpp` and `nio_event.hpp`: the
sockets and procs of one `nio_event`, their files, timers and buffers, the two
lists of objects to be closed, and where the loop of `nio_event::wait` stands.
Sockets, procs and the timers of the program are named by any types `γ`, `ρ`
and `υ`; what the kernel keeps is a value of any type `κ`.
-/

namespace Libnio.Socket

open Event (Dir)

/-- An object with a file. -/
inductive Owner (γ ρ : Type) where
  | client (c : γ)
  | proc (p : ρ)
deriving DecidableEq

/-- `NIO_FILE *`: the `n`-th file that is allocated for its object, which is the
`ctx` of it. -/
abbrev File (γ ρ : Type) := Owner γ ρ × Nat

/-- The static functions that are handed to the event as callbacks. -/
inductive Callback where
  | connectCallback
  | readCallback
  | writeCallback
  | connectProc
  | readProc
  | writeProc
deriving DecidableEq

/-- `on_connect_`, `on_read_` and so on; the virtual functions of a proc. -/
inductive Handler where
  | onConnect
  | onRead
  | onWrite
  | onError
  | onClose
deriving DecidableEq

/-- A timer in `timers_`: `read_timer_` or `write_timer_` of a socket, or one of
the program. -/
inductive TimerName (γ υ : Type) where
  | client (c : γ) (dir : Dir)
  | user (u : υ)
deriving DecidableEq

/-- `client_timer`; one that is not allocated yet is neither. -/
structure ClientTimer where
  waiting : Bool
  connecting : Bool
deriving DecidableEq

/-- `client_socket` -/
structure ClientSocket (γ ρ : Type) where
  /-- the handlers that are set -/
  handlers : Handler → Bool
  fe : Option (File γ ρ)
  closing : Bool
  /-- `client_f_rtimer`, `client_f_wtimer` -/
  flags : Dir → Bool
  /-- `read_timer_`, `write_timer_` -/
  timer : Dir → ClientTimer
  /-- `buf_`, empty when it is null -/
  buf : List UInt8

/-- `event_proc`: it has a file when it is bound to the event. -/
structure EventProc (γ ρ : Type) where
  fe : Option (File γ ρ)
  closing : Bool
  buf : List UInt8

/-- A handler that is running: of a socket with the descriptor it is given and
whether a timer has called it, of a proc with its flag, or of a timer. -/
inductive Running (γ ρ υ : Type) where
  | client (c : γ) (h : Handler) (fd : Int) (timeout : Bool)
  | proc (p : ρ) (h : Handler) (ok : Bool)
  | onTimer (u : υ)
deriving DecidableEq

/-- Where `nio_event::wait` stands. -/
inductive Phase (γ ρ υ : Type) where
  /-- not in `wait` -/
  | idle
  /-- the first loop of `before_wait`, at this place of the list -/
  | procsFree (i : Nat)
  /-- the second loop -/
  | clientsFree (i : Nat)
  /-- in front of `epoll_wait` -/
  | poll
  /-- the loop over the events, and the `w_proc` that is yet to be called for the
  last of them -/
  | dispatch (batch : List (Event.EpollEvent (File γ ρ))) (wProc : Option (File γ ρ × Callback))
  /-- the loop over the expired timers, and the flag to be cleared for the last of
  them -/
  | timers (batch : List (TimerName γ υ)) (flag : Option (γ × Dir))

/-- A call of the interface, with what the kernel answers. -/
inductive Call (γ ρ υ : Type) where
  | connectAwait (c : γ) (ms : Int) (connected : Bool)
  | readAwait (c : γ) (ms : Int)
  | writeAwait (c : γ) (ms : Int)
  | write (c : γ) (data : Data) (ms : Int) (answer : WriteAnswer)
  | readDisable (c : γ)
  | writeDisable (c : γ)
  | readwriteDisable (c : γ)
  | closeAwait (c : γ)
  | procConnectAwait (p : ρ)
  | procReadAwait (p : ρ)
  | procWriteAwait (p : ρ)
  | procWrite (p : ρ) (data : Data) (answer : WriteAnswer)
  | procReadDisable (p : ρ)
  | procWriteDisable (p : ρ)
  | procCloseAwait (p : ρ)
  | addTimer (u : υ) (ms : Int)
  | delTimer (u : υ)
  | resetTimer (u : υ) (ms : Int)

/-- What happens in a run. -/
inductive Act (γ ρ υ : Type) where
  /-- a call, the handler it was made by, what it returned, and for a `write`
  which part of the data it has copied -/
  | call (c : Call γ ρ υ) (by_ : Option (Running γ ρ υ)) (ret : Int) (copied : Int × Nat)
  /-- the kernel has taken these bytes of what the object sends -/
  | taken (o : Owner γ ρ) (bytes : List UInt8)
  /-- a handler is entered -/
  | enter (r : Running γ ρ υ)
  /-- `before_wait` has come to this object -/
  | close (o : Owner γ ρ)
  /-- `nio_event::wait` is called -/
  | wait

/-- The kernel and the backend. -/
structure Sys (γ ρ κ : Type) where
  host : Event.Host (File γ ρ) κ Callback
  /-- `epoll_wait`, by what is ready -/
  epollWait : List (Int × Event.Ready) → κ → List (Event.EpollEvent (File γ ρ)) × κ

/-- A `nio_event` with its objects. -/
structure World (γ ρ υ κ : Type) where
  ev : Event.NioEvent (File γ ρ) κ Callback
  timers : Timer.Timers (TimerName γ υ)
  clients : γ → ClientSocket γ ρ
  procs : ρ → EventProc γ ρ
  /-- how many files have been allocated -/
  allocated : Owner γ ρ → Nat
  clientsFree : List γ
  procsFree : List ρ
  phase : Phase γ ρ υ
  running : Option (Running γ ρ υ)
  log : List (Act γ ρ υ)

namespace World

variable {γ ρ υ κ : Type}

/-! ## Parts of a world -/

def logged (w : World γ ρ υ κ) (a : Act γ ρ υ) : World γ ρ υ κ := { w with log := w.log ++ [a] }

def setEv (w : World γ ρ υ κ) (ev : Event.NioEvent (File γ ρ) κ Callback) : World γ ρ υ κ :=
  { w with ev }

def setTimers (w : World γ ρ υ κ) (timers : Timer.Timers (TimerName γ υ)) : World γ ρ υ κ :=
  { w with timers }

def setPhase (w : World γ ρ υ κ) (phase : Phase γ ρ υ) : World γ ρ υ κ := { w with phase }

/-- A handler is entered. -/
def enter (w : World γ ρ υ κ) (r : Running γ ρ υ) : World γ ρ υ κ :=
  { w with running := some r, log := w.log ++ [.enter r] }

variable [DecidableEq γ] [DecidableEq ρ]

def setClient (w : World γ ρ υ κ) (c : γ) (f : ClientSocket γ ρ → ClientSocket γ ρ) :
    World γ ρ υ κ :=
  { w with clients := Function.update w.clients c (f (w.clients c)) }

def setProc (w : World γ ρ υ κ) (p : ρ) (f : EventProc γ ρ → EventProc γ ρ) : World γ ρ υ κ :=
  { w with procs := Function.update w.procs p (f (w.procs p)) }

end World

namespace ClientSocket

variable {γ ρ : Type}

def setWaiting (dir : Dir) (b : Bool) (cli : ClientSocket γ ρ) : ClientSocket γ ρ :=
  { cli with timer := Function.update cli.timer dir { cli.timer dir with waiting := b } }

def setConnecting (dir : Dir) (b : Bool) (cli : ClientSocket γ ρ) : ClientSocket γ ρ :=
  { cli with timer := Function.update cli.timer dir { cli.timer dir with connecting := b } }

def setFlag (dir : Dir) (b : Bool) (cli : ClientSocket γ ρ) : ClientSocket γ ρ :=
  { cli with flags := Function.update cli.flags dir b }

def setBuf (buf : List UInt8) (cli : ClientSocket γ ρ) : ClientSocket γ ρ := { cli with buf }

end ClientSocket

end Libnio.Socket
