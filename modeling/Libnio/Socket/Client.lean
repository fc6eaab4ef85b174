import Libnio.Socket.Base

/-!
# Socket — client sockets

The functions of `client_socket.cpp`. What runs a handler does so at its end, so
that it leaves the world with this handler entered; `none` is a program that
has stopped, by an assertion or a null pointer.
-/

namespace Libnio.Socket

open Event (Dir)

namespace World

variable {γ ρ υ κ : Type} [DecidableEq γ] [DecidableEq ρ]

/-! ## What the event is asked for -/

section Event

variable (sys : Sys γ ρ κ)

/-- `nio_event_add_read`, `nio_event_add_write` -/
def addEvent (dir : Dir) (fe : File γ ρ) (proc : Callback) (w : World γ ρ υ κ) :
    Bool × World γ ρ υ κ :=
  let r := w.ev.add sys.host dir fe proc
  (r.1, w.setEv r.2)

/-- `nio_event_del_read`, `nio_event_del_write` -/
def delEvent (dir : Dir) (fe : File γ ρ) (w : World γ ρ υ κ) : World γ ρ υ κ :=
  w.setEv (w.ev.del sys.host dir fe)

/-- `nio_event_del_readwrite` -/
def delReadwrite (fe : File γ ρ) (w : World γ ρ υ κ) : World γ ρ υ κ :=
  w.setEv (w.ev.delReadwrite sys.host fe)

/-- `fe->fd` -/
def fd (w : World γ ρ υ κ) (fe : File γ ρ) : Int := (w.ev.files fe).fd

/-- `nio_file_alloc` -/
def allocate (o : Owner γ ρ) (w : World γ ρ υ κ) : File γ ρ × World γ ρ υ κ :=
  ((o, w.allocated o),
    { w with allocated := Function.update w.allocated o (w.allocated o + 1) })

end Event

/-- The kernel has taken bytes of what the object sends. -/
def sent (o : Owner γ ρ) (bytes : List UInt8) (w : World γ ρ υ κ) : World γ ρ υ κ :=
  w.logged (.taken o bytes)

/-! ## Timers of a socket -/

section Timers

variable [DecidableEq υ]

/-- `ev_.add_timer(timer, ms); timer->set_waiting(true);` -/
def armTimer (c : γ) (dir : Dir) (ms : Int) (w : World γ ρ υ κ) : World γ ρ υ κ :=
  (w.setTimers (w.timers.addTimer (.client c dir) ms)).setClient c (·.setWaiting dir true)

/-- `if (timer && timer->is_waiting()) { ev_.del_timer(timer); timer->set_waiting(false); }` -/
def disarmTimer (c : γ) (dir : Dir) (w : World γ ρ υ κ) : World γ ρ υ κ :=
  if ((w.clients c).timer dir).waiting then
    (w.setTimers (w.timers.delTimer (.client c dir))).setClient c (·.setWaiting dir false)
  else w

end Timers

/-- `fe_->fd`, `-1` without a file. -/
def clientFd (w : World γ ρ υ κ) (c : γ) : Int := ((w.clients c).fe.map w.fd).getD (-1)

/-- `if (on_..) on_..(fd, timeout);` -/
def callHandler (c : γ) (h : Handler) (fd : Int) (timeout : Bool) (w : World γ ρ υ κ) :
    World γ ρ υ κ :=
  if (w.clients c).handlers h then w.enter (.client c h fd timeout) else w

/-! ## Calls -/

section Calls

variable (sys : Sys γ ρ κ) [DecidableEq υ]

/-- `client_socket::connect_await`, with what `::connect` answers. -/
def connectAwait (c : γ) (ms : Int) (connected : Bool) (w : World γ ρ υ κ) :
    Bool × World γ ρ υ κ :=
  if !connected then (false, w)
  else
    let a := w.allocate (.client c)
    let r := a.2.addEvent sys .write a.1 .connectCallback
    if !r.1 then (false, r.2)
    else
      let w := r.2.setClient c fun cli => { cli with fe := some a.1 }
      if ms < 0 then (true, w)
      else
        let w := w.setTimers (w.timers.addTimer (.client c .write) ms)
        let w := w.setClient c (·.setConnecting .write true)
        (true, w.setClient c (·.setWaiting .write true))

/-- `client_socket::read_await` and `write_await`, with the callback of their
side. -/
def await (dir : Dir) (proc : Callback) (c : γ) (ms : Int) (w : World γ ρ υ κ) :
    Option (Bool × World γ ρ υ κ) :=
  match (w.clients c).fe with
  | none => none
  | some fe =>
      let r := if !w.ev.oneshot || !(w.clients c).flags dir then w.addEvent sys dir fe proc
        else (true, w)
      if !r.1 then some (false, r.2)
      else if ms ≤ 0 then some (true, r.2)
      else if !((r.2.clients c).timer dir).waiting then some (true, r.2.armTimer c dir ms)
      else some (true, r.2)

def readAwait (c : γ) (ms : Int) (w : World γ ρ υ κ) : Option (Bool × World γ ρ υ κ) :=
  w.await sys .read .readCallback c ms

def writeAwait (c : γ) (ms : Int) (w : World γ ρ υ κ) : Option (Bool × World γ ρ υ κ) :=
  w.await sys .write .writeCallback c ms

/-- `client_socket::write`: what it returns, what it copies and what it leaves. -/
def write (c : γ) (data : Data) (ms : Int) (answer : WriteAnswer) (w : World γ ρ υ κ) :
    Option (Int × (Int × Nat) × World γ ρ υ κ) :=
  if (w.clients c).buf.isEmpty && (w.clients c).fe.isNone then none
  else
    let out := Outgoing.write (w.clients c).buf data answer
    let w := (w.setClient c (·.setBuf out.buf)).sent (.client c) out.taken
    if out.awaits then
      (w.writeAwait sys c ms).map fun r => (if r.1 then out.ret else -1, out.copied, r.2)
    else some (out.ret, out.copied, w)

/-- `client_socket::read_disable` and `write_disable` -/
def disable (dir : Dir) (c : γ) (w : World γ ρ υ κ) : Option (World γ ρ υ κ) :=
  (w.clients c).fe.map fun fe => w.delEvent sys dir fe

def readDisable (c : γ) (w : World γ ρ υ κ) : Option (World γ ρ υ κ) := w.disable sys .read c

def writeDisable (c : γ) (w : World γ ρ υ κ) : Option (World γ ρ υ κ) := w.disable sys .write c

/-- `client_socket::readwrite_disable` -/
def readwriteDisable (c : γ) (w : World γ ρ υ κ) : Option (World γ ρ υ κ) :=
  (w.clients c).fe.map fun fe => w.delReadwrite sys fe

/-- `nio_event::delay_close(client_socket *)` -/
def delayClose (c : γ) (w : World γ ρ υ κ) : World γ ρ υ κ :=
  if !(w.clients c).closing then
    let w := w.setClient c fun cli => { cli with closing := true }
    { w with clientsFree := w.clientsFree ++ [c] }
  else w

/-- `client_socket::close_await` -/
def closeAwait (c : γ) (w : World γ ρ υ κ) : World γ ρ υ κ :=
  if !(w.clients c).closing then
    let w := match (w.clients c).fe with
      | some fe => if w.fd fe ≥ 0 then w.delReadwrite sys fe else w
      | none => w
    (w.delayClose c).setClient c fun cli => { cli with closing := true }
  else w

end Calls

/-! ## Callbacks -/

section Callbacks

variable (sys : Sys γ ρ κ) [DecidableEq υ]

/-- `client_socket::connect_callback`, with what `getsockopt` answers. Its
handler is not asked for. -/
def connectCallback (c : γ) (fe : File γ ρ) (connected : Bool) (w : World γ ρ υ κ) :
    Option (World γ ρ υ κ) :=
  let w := w.setClient c (·.setFlag .write false)
  let w :=
    if ((w.clients c).timer .write).connecting then
      let w := w.setClient c (·.setWaiting .write false)
      let w := w.setClient c (·.setConnecting .write false)
      w.setTimers (w.timers.delTimer (.client c .write))
    else w
  let w := if connected then w.delEvent sys .write fe else w.delReadwrite sys fe
  if (w.clients c).handlers .onConnect then
    some (w.enter (.client c .onConnect (if connected then w.fd fe else -1) false))
  else none

/-- `client_socket::read_callback` -/
def readCallback (c : γ) (fe : File γ ρ) (w : World γ ρ υ κ) : World γ ρ υ κ :=
  let w := w.setClient c (·.setFlag .read false)
  let w := w.disarmTimer c .read
  w.callHandler c .onRead (w.fd fe) false

/-- `client_socket::write_callback`, with what `::write` answers if there is
something to flush. -/
def writeCallback (c : γ) (fe : File γ ρ) (answer : WriteAnswer) (w : World γ ρ υ κ) :
    World γ ρ υ κ :=
  let w := w.setClient c (·.setFlag .write false)
  let w := w.disarmTimer c .write
  if !(w.clients c).buf.isEmpty then
    let out := Outgoing.flush (w.clients c).buf answer
    let w := (w.setClient c (·.setBuf out.buf)).sent (.client c) out.taken
    if out.ret = -1 then w.callHandler c .onError (w.clientFd c) false
    else if out.ret = 0 ∨ out.buf.isEmpty then w
    else w.callHandler c .onWrite (w.fd fe) false
  else w.callHandler c .onWrite (w.fd fe) false

/-- `client_socket::on_timer`, up to its handler; the flag of the side is cleared
when that has returned. -/
def onTimer (c : γ) (dir : Dir) (w : World γ ρ υ κ) : World γ ρ υ κ :=
  let fd := w.clientFd c
  let w := w.setClient c (·.setWaiting dir false)
  let w := w.setClient c (·.setFlag dir true)
  match dir with
  | .read => w.callHandler c .onRead fd true
  | .write =>
      if ((w.clients c).timer .write).connecting then
        (w.setClient c (·.setConnecting .write false)).callHandler c .onConnect fd true
      else w.callHandler c .onWrite fd true

/-- `client_socket::close`. The descriptor is closed after the handler, which is
the last use of it. -/
def close (c : γ) (w : World γ ρ υ κ) : World γ ρ υ κ :=
  let w := w.disarmTimer c .read
  let w := w.disarmTimer c .write
  let w := w.logged (.close (.client c))
  w.callHandler c .onClose (if w.clientFd c ≥ 0 then w.clientFd c else -1) false

end Callbacks

end World

end Libnio.Socket
