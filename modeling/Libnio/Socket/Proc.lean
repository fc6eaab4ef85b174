import Libnio.Socket.Client

/-!
# Socket — event procs

The functions of `event_proc.cpp`. A proc that is not bound to the event has no
file.
-/

namespace Libnio.Socket

open Event (Dir)

namespace World

variable {γ ρ υ κ : Type} [DecidableEq γ] [DecidableEq ρ] (sys : Sys γ ρ κ)

/-- `event_proc::read_await` and `write_await`, with the callback of their side. -/
def procAwait (dir : Dir) (proc : Callback) (p : ρ) (w : World γ ρ υ κ) : Bool × World γ ρ υ κ :=
  match (w.procs p).fe with
  | none => (false, w)
  | some fe => w.addEvent sys dir fe proc

def procReadAwait (p : ρ) (w : World γ ρ υ κ) : Bool × World γ ρ υ κ :=
  w.procAwait sys .read .readProc p

def procWriteAwait (p : ρ) (w : World γ ρ υ κ) : Bool × World γ ρ υ κ :=
  w.procAwait sys .write .writeProc p

/-- `event_proc::connect_await`: an unbound proc answers with success here. -/
def procConnectAwait (p : ρ) (w : World γ ρ υ κ) : Bool × World γ ρ υ κ :=
  match (w.procs p).fe with
  | none => (true, w)
  | some fe => w.addEvent sys .write fe .connectProc

/-- `event_proc::read_disable` and `write_disable` -/
def procDisable (dir : Dir) (p : ρ) (w : World γ ρ υ κ) : World γ ρ υ κ :=
  match (w.procs p).fe with
  | none => w
  | some fe => w.delEvent sys dir fe

def procReadDisable (p : ρ) (w : World γ ρ υ κ) : World γ ρ υ κ := w.procDisable sys .read p

def procWriteDisable (p : ρ) (w : World γ ρ υ κ) : World γ ρ υ κ := w.procDisable sys .write p

/-- `event_proc::write` -/
def procWrite (p : ρ) (data : Data) (answer : WriteAnswer) (w : World γ ρ υ κ) :
    Option (Int × (Int × Nat) × World γ ρ υ κ) :=
  if (w.procs p).buf.isEmpty && (w.procs p).fe.isNone then none
  else
    let out := Outgoing.write (w.procs p).buf data answer
    let w := (w.setProc p fun proc => { proc with buf := out.buf }).sent (.proc p) out.taken
    if out.awaits then
      let r := w.procWriteAwait sys p
      some (if r.1 then out.ret else -1, out.copied, r.2)
    else some (out.ret, out.copied, w)

/-- `nio_event::delay_close(event_proc *)` -/
def procDelayClose (p : ρ) (w : World γ ρ υ κ) : World γ ρ υ κ :=
  if !(w.procs p).closing then
    let w := w.setProc p fun proc => { proc with closing := true }
    { w with procsFree := w.procsFree ++ [p] }
  else w

/-- `event_proc::close_await` -/
def procCloseAwait (p : ρ) (w : World γ ρ υ κ) : World γ ρ υ κ :=
  match (w.procs p).fe with
  | none => w
  | some fe =>
      if !(w.procs p).closing then
        ((w.delReadwrite sys fe).procDelayClose p).setProc p fun proc =>
          { proc with closing := true }
      else w

/-- `event_proc::read_proc` -/
def readProc (p : ρ) (w : World γ ρ υ κ) : World γ ρ υ κ := w.enter (.proc p .onRead false)

/-- `event_proc::write_proc`, with what `::write` answers if there is something
to flush. -/
def writeProc (p : ρ) (answer : WriteAnswer) (w : World γ ρ υ κ) : World γ ρ υ κ :=
  if !(w.procs p).buf.isEmpty then
    let out := Outgoing.flush (w.procs p).buf answer
    let w := (w.setProc p fun proc => { proc with buf := out.buf }).sent (.proc p) out.taken
    if out.ret = -1 then w.enter (.proc p .onError false)
    else if out.ret = 0 ∨ !out.buf.isEmpty then w
    else w.enter (.proc p .onWrite false)
  else w.enter (.proc p .onWrite false)

/-- `event_proc::connect_proc`, with what `getsockopt` answers. -/
def connectProc (p : ρ) (connected : Bool) (w : World γ ρ υ κ) : World γ ρ υ κ :=
  (w.procWriteDisable sys p).enter (.proc p .onConnect connected)

/-- `proc->on_close()` in `before_wait` -/
def procClose (p : ρ) (w : World γ ρ υ κ) : World γ ρ υ κ :=
  (w.logged (.close (.proc p))).enter (.proc p .onClose false)

end World

end Libnio.Socket
