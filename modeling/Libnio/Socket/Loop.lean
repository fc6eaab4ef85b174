import Libnio.Socket.Proc
import Libnio.Trace.Machine

/-!
# Socket — the loop

`nio_event::wait` with everything it calls, one step at a time: each step ends
where a handler is entered, and while one is running it makes calls. The
kernel's answers come with the steps, so that a run is any order of calls,
rounds, ready events and expired timers, under any answers.
-/

namespace Libnio.Socket

open Event (Dir)

/-- What the kernel answers in a step of the loop. -/
structure Answer where
  /-- to `epoll_wait` -/
  ready : List (Int × Event.Ready)
  /-- to `clock_gettime` -/
  sec : Int
  nsec : Int
  /-- to the `::write` of a `flush` -/
  write : WriteAnswer
  /-- to `getsockopt`: there is no error -/
  connected : Bool

/-- A step of a program. -/
inductive Label (γ ρ υ : Type) where
  /-- a call, outside of `wait` or by the handler that is running -/
  | call (c : Call γ ρ υ)
  /-- the handler returns -/
  | ret
  /-- `nio_event::wait` is called -/
  | wait
  /-- `wait` goes on -/
  | next (answer : Answer)

namespace World

variable {γ ρ υ κ : Type} [DecidableEq γ] [DecidableEq ρ] [DecidableEq υ] (sys : Sys γ ρ κ)

/-- A call: what it returns (`0` if nothing), what it copies and what it leaves. -/
def perform (w : World γ ρ υ κ) : Call γ ρ υ → Option (Int × (Int × Nat) × World γ ρ υ κ)
  | .connectAwait c ms connected =>
      let r := w.connectAwait sys c ms connected
      some (r.1.toInt, (0, 0), r.2)
  | .readAwait c ms => (w.readAwait sys c ms).map fun r => (r.1.toInt, (0, 0), r.2)
  | .writeAwait c ms => (w.writeAwait sys c ms).map fun r => (r.1.toInt, (0, 0), r.2)
  | .write c data ms answer => w.write sys c data ms answer
  | .readDisable c => (w.readDisable sys c).map fun w => (0, (0, 0), w)
  | .writeDisable c => (w.writeDisable sys c).map fun w => (0, (0, 0), w)
  | .readwriteDisable c => (w.readwriteDisable sys c).map fun w => (0, (0, 0), w)
  | .closeAwait c => some (0, (0, 0), w.closeAwait sys c)
  | .procConnectAwait p =>
      let r := w.procConnectAwait sys p
      some (r.1.toInt, (0, 0), r.2)
  | .procReadAwait p =>
      let r := w.procReadAwait sys p
      some (r.1.toInt, (0, 0), r.2)
  | .procWriteAwait p =>
      let r := w.procWriteAwait sys p
      some (r.1.toInt, (0, 0), r.2)
  | .procWrite p data answer => w.procWrite sys p data answer
  | .procReadDisable p => some (0, (0, 0), w.procReadDisable sys p)
  | .procWriteDisable p => some (0, (0, 0), w.procWriteDisable sys p)
  | .procCloseAwait p => some (0, (0, 0), w.procCloseAwait sys p)
  | .addTimer u ms => some (0, (0, 0), w.setTimers (w.timers.addTimer (.user u) ms))
  | .delTimer u => some (0, (0, 0), w.setTimers (w.timers.delTimer (.user u)))
  | .resetTimer u ms => some (0, (0, 0), w.setTimers (w.timers.resetTimer (.user u) ms))

def call (w : World γ ρ υ κ) (c : Call γ ρ υ) : Option (World γ ρ υ κ) :=
  (w.perform sys c).map fun r => r.2.2.logged (.call c w.running r.1 r.2.1)

/-- `proc(ev, fe)`, of a callback that takes the `ctx` of its file for what it is. -/
def callback (fe : File γ ρ) (proc : Callback) (answer : Answer) (w : World γ ρ υ κ) :
    Option (World γ ρ υ κ) :=
  match proc, fe.1 with
  | .connectCallback, .client c => w.connectCallback sys c fe answer.connected
  | .readCallback, .client c => some (w.readCallback c fe)
  | .writeCallback, .client c => some (w.writeCallback c fe answer.write)
  | .connectProc, .proc p => some (w.connectProc sys p answer.connected)
  | .readProc, .proc p => some (w.readProc p)
  | .writeProc, .proc p => some (w.writeProc p answer.write)
  | _, _ => none

/-- One event of the batch, up to its read callback; `w_proc` is read before that
is called. -/
def entry (ee : Event.EpollEvent (File γ ρ)) (batch : List (Event.EpollEvent (File γ ρ)))
    (answer : Answer) (w : World γ ρ υ κ) : Option (World γ ρ υ κ) :=
  match ee.ptr with
  | none => some (w.setPhase (.dispatch batch none))
  | some fe =>
      let rProc := (w.ev.files fe).proc .read
      let wProc := (w.ev.files fe).proc .write
      let later := if ee.hits .write then wProc.map (fe, ·) else none
      let w := w.setPhase (.dispatch batch later)
      match rProc with
      | some proc => if ee.hits .read then w.callback sys fe proc answer else some w
      | none => some w

/-- `epoll_wait` and `nio_set_stamp` of `epoll_event_wait`. -/
def fetch (answer : Answer) (w : World γ ρ υ κ) : World γ ρ υ κ :=
  let r := sys.epollWait answer.ready w.ev.backend
  let w := w.setEv { w.ev with backend := r.2 }
  let w := w.setTimers { w.timers with stamp := Timer.setStamp answer.sec answer.nsec }
  w.setPhase (.dispatch r.1 none)

/-- The end of `wait`, with the first loop of `trigger_timers`. -/
def triggerTimers (w : World γ ρ υ κ) : World γ ρ υ κ :=
  if !w.timers.timers.isEmpty then
    (w.setTimers w.timers.collect).setPhase (.timers (w.timers.expired.map Prod.snd) none)
  else w.setPhase .idle

/-- `timer->on_timer()` -/
def fire (t : TimerName γ υ) (batch : List (TimerName γ υ)) (w : World γ ρ υ κ) : World γ ρ υ κ :=
  match t with
  | .client c dir => (w.setPhase (.timers batch (some (c, dir)))).onTimer c dir
  | .user u => (w.setPhase (.timers batch none)).enter (.onTimer u)

/-- `nio_event::wait` from where it stands to the next handler, or a part of that
way. -/
def next (answer : Answer) (w : World γ ρ υ κ) : Option (World γ ρ υ κ) :=
  match w.phase with
  | .idle => none
  | .procsFree i =>
      match w.procsFree[i]? with
      | some p => some ((w.setPhase (.procsFree (i + 1))).procClose p)
      | none => some (({ w with procsFree := [] } : World γ ρ υ κ).setPhase (.clientsFree 0))
  | .clientsFree i =>
      match w.clientsFree[i]? with
      | some c => some ((w.setPhase (.clientsFree (i + 1))).close c)
      | none => some (({ w with clientsFree := [] } : World γ ρ υ κ).setPhase .poll)
  | .poll => some (w.fetch sys answer)
  | .dispatch batch (some (fe, proc)) =>
      (w.setPhase (.dispatch batch none)).callback sys fe proc answer
  | .dispatch (ee :: batch) none => w.entry sys ee batch answer
  | .dispatch [] none => some w.triggerTimers
  | .timers batch (some (c, dir)) =>
      some ((w.setPhase (.timers batch none)).setClient c (·.setFlag dir false))
  | .timers (t :: batch) none => some (w.fire t batch)
  | .timers [] none => some (w.setPhase .idle)

/-- A call is made outside of `wait` or by a handler. -/
def mayCall (w : World γ ρ υ κ) : Bool :=
  match w.running, w.phase with
  | some _, _ => true
  | none, .idle => true
  | none, _ => false

def step (w : World γ ρ υ κ) : Label γ ρ υ → Option (World γ ρ υ κ)
  | .call c => if w.mayCall then w.call sys c else none
  | .ret => w.running.map fun _ => { w with running := none }
  | .wait =>
      match w.running, w.phase with
      | none, .idle => some
          (((w.logged .wait).setEv (w.ev.prepare sys.host)).setPhase (.procsFree 0))
      | _, _ => none
  | .next answer =>
      match w.running with
      | none => w.next sys answer
      | some _ => none

end World

/-- The epoll backend over a kernel that disarms. -/
def Sys.epoll {γ ρ : Type} (espipe : Int → Bool) :
    Sys γ ρ (Event.EventEpoll (Event.EpollSet (File γ ρ))) :=
  { host := Event.EventEpoll.host Event.epollCtl espipe
    epollWait := fun ready ep =>
      let r := Event.epollWait ready ep.kernel
      (r.1, { ep with kernel := r.2 }) }

/-- How the objects are made before a run: which sockets and procs have a file
from their constructor, and which handlers are set. -/
structure Setup (γ ρ : Type) where
  clientFile : γ → Bool
  procFile : ρ → Bool
  handlers : γ → Handler → Bool

/-- A fresh event; the descriptors that files will get are `fd`. -/
def World.start {γ ρ υ κ : Type} (setup : Setup γ ρ) (oneshot direct : Bool) (setsize : Int)
    (fd : File γ ρ → Int) (backend : κ) (sec nsec : Int) : World γ ρ υ κ :=
  { ev := .create oneshot direct setsize fd backend
    timers := { stamp := Timer.setStamp sec nsec, counter := 0, timers := [], expire := fun _ => 0 }
    clients := fun c =>
      { handlers := setup.handlers c
        fe := if setup.clientFile c then some (.client c, 0) else none
        closing := false
        flags := fun _ => false
        timer := fun _ => ⟨false, false⟩
        buf := [] }
    procs := fun p =>
      { fe := if setup.procFile p then some (.proc p, 0) else none, closing := false, buf := [] }
    allocated := fun o =>
      match o with
      | .client c => (setup.clientFile c).toNat
      | .proc p => (setup.procFile p).toNat
    clientsFree := []
    procsFree := []
    phase := .idle
    running := none
    log := [] }

/-! ## A loop over an empty table

Where the runs on fixed inputs start. -/

/-- Every handler is set. -/
def Setup.handled {γ ρ : Type} (clientFile procFile : Bool) : Setup γ ρ :=
  ⟨fun _ => clientFile, fun _ => procFile, fun _ _ => true⟩

/-- Epoll takes every descriptor. -/
def Sys.table {γ ρ : Type} : Sys γ ρ (Event.EventEpoll (Event.EpollSet (File γ ρ))) :=
  .epoll fun fd => decide (0 ≤ fd)

/-- The first file of every object has the descriptor 0, the second has 1. -/
def File.turn {γ ρ : Type} (fe : File γ ρ) : Int := fe.2

/-- Sockets and procs by number, each with a descriptor of its own. -/
def File.number (fe : File Nat Nat) : Int :=
  match fe.1 with
  | .client c => c
  | .proc p => -1 - p

def World.fresh {γ ρ υ : Type} (setup : Setup γ ρ) (oneshot : Bool) (fd : File γ ρ → Int) :
    World γ ρ υ (Event.EventEpoll (Event.EpollSet (File γ ρ))) :=
  .start setup oneshot false 1024 fd ⟨fun _ => none, 0⟩ 0 0

/-- Nothing is ready. -/
def Answer.idle : Answer := ⟨[], 0, 0, .wouldBlock, true⟩

def Answer.writable (fd : Int) (write : WriteAnswer) : Answer :=
  ⟨[(fd, ⟨false, true, false, false⟩)], 0, 0, write, true⟩

end Libnio.Socket
