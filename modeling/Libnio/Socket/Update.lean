import Libnio.Socket.Loop
import Libnio.Timer.Loop

/-!
# Socket — what a function does

Every function of a socket or a proc is made of a few updates: a call of the
event, a timer that is armed or disarmed, a flag, the buffer, a handler that is
entered. The lemmas say which updates each function may do; a property that every
one of them keeps is then kept by the function.
-/

namespace Libnio.Socket

open Event (Dir)

/-- A part of what a function does to the world. -/
inductive Update (γ ρ υ : Type) where
  | add (dir : Dir) (fe : File γ ρ) (proc : Callback)
  | del (dir : Dir) (fe : File γ ρ)
  | delReadwrite (fe : File γ ρ)
  | setFlag (c : γ) (dir : Dir) (b : Bool)
  /-- unless it is waiting -/
  | armTimer (c : γ) (dir : Dir) (ms : Int)
  /-- if it is waiting -/
  | disarmTimer (c : γ) (dir : Dir)
  /-- the timer of a `connect_await` -/
  | startConnecting (c : γ) (ms : Int)
  /-- if it is connecting -/
  | stopConnecting (c : γ)
  /-- the timer has fired -/
  | timerFired (c : γ) (dir : Dir)
  | connectTimeout (c : γ)
  | allocate (o : Owner γ ρ)
  | setFe (c : γ) (fe : File γ ρ)
  | setBuf (c : γ) (buf taken : List UInt8)
  | setProcBuf (p : ρ) (buf taken : List UInt8)
  /-- unless it is closing -/
  | delayClose (c : γ)
  | procDelayClose (p : ρ)
  | timer (c : Timer.Call (TimerName γ υ))
  | enter (r : Running γ ρ υ)
  | close (o : Owner γ ρ)

namespace World

variable {γ ρ υ κ : Type} [DecidableEq γ] [DecidableEq ρ] [DecidableEq υ] (sys : Sys γ ρ κ)

/-- What an update makes of a world. -/
def update (w : World γ ρ υ κ) : Update γ ρ υ → World γ ρ υ κ
  | .add dir fe proc => (w.addEvent sys dir fe proc).2
  | .del dir fe => w.delEvent sys dir fe
  | .delReadwrite fe => w.delReadwrite sys fe
  | .setFlag c dir b => w.setClient c (·.setFlag dir b)
  | .armTimer c dir ms => if ((w.clients c).timer dir).waiting then w else w.armTimer c dir ms
  | .disarmTimer c dir => w.disarmTimer c dir
  | .startConnecting c ms =>
      ((w.setTimers (w.timers.addTimer (.client c .write) ms)).setClient c
        (·.setConnecting .write true)).setClient c (·.setWaiting .write true)
  | .stopConnecting c =>
      if ((w.clients c).timer .write).connecting then
        let w := w.setClient c (·.setWaiting .write false)
        let w := w.setClient c (·.setConnecting .write false)
        w.setTimers (w.timers.delTimer (.client c .write))
      else w
  | .timerFired c dir => w.setClient c (·.setWaiting dir false)
  | .connectTimeout c => w.setClient c (·.setConnecting .write false)
  | .allocate o => (w.allocate o).2
  | .setFe c fe => w.setClient c fun cli => { cli with fe := some fe }
  | .setBuf c buf taken => (w.setClient c (·.setBuf buf)).sent (.client c) taken
  | .setProcBuf p buf taken => (w.setProc p fun proc => { proc with buf }).sent (.proc p) taken
  | .delayClose c => w.delayClose c
  | .procDelayClose p => w.procDelayClose p
  | .timer c => w.setTimers (w.timers.apply c)
  | .enter r => w.enter r
  | .close o => w.logged (.close o)

/-- One world is left by updates that meet `Q`. -/
inductive Updates (Q : Update γ ρ υ → Prop) : World γ ρ υ κ → World γ ρ υ κ → Prop
  | nothing (w : World γ ρ υ κ) : Updates Q w w
  | then_ {w w' : World γ ρ υ κ} (d : Update γ ρ υ) (h : Updates Q w w') (hq : Q d) :
      Updates Q w (w'.update sys d)

namespace Updates

variable {sys} {Q R : Update γ ρ υ → Prop} {w w' w'' : World γ ρ υ κ}

theorem one (w : World γ ρ υ κ) {d : Update γ ρ υ} (hq : Q d) : Updates sys Q w (w.update sys d) :=
  (nothing w).then_ d hq

theorem trans (h : Updates sys Q w w') (h' : Updates sys Q w' w'') : Updates sys Q w w'' := by
  induction h' with
  | nothing => exact h
  | then_ d _ hq ih => exact ih.then_ d hq

theorem mono (h : Updates sys Q w w') (hqr : ∀ d, Q d → R d) : Updates sys R w w' := by
  induction h with
  | nothing => exact .nothing _
  | then_ d _ hq ih => exact ih.then_ d (hqr d hq)

/-- **What each update keeps, the whole keeps.** -/
theorem keeps {P : World γ ρ υ κ → Prop} (hkeep : ∀ w d, Q d → P w → P (w.update sys d))
    (h : Updates sys Q w w') (hp : P w) : P w' := by
  induction h with
  | nothing => exact hp
  | then_ d _ hq ih => exact hkeep _ d hq ih

end Updates

/-- Each object holds a file of its own. -/
structure Owned (w : World γ ρ υ κ) : Prop where
  client : ∀ c fe, (w.clients c).fe = some fe → fe.1 = .client c
  proc : ∀ p fe, (w.procs p).fe = some fe → fe.1 = .proc p

end World

/-! ## Which updates belong to what -/

/-- The object whose handler it is. -/
def Running.owner {γ ρ υ : Type} : Running γ ρ υ → Option (Owner γ ρ)
  | .client c _ _ _ => some (.client c)
  | .proc p _ _ => some (.proc p)
  | .onTimer _ => none

/-- It is a close handler. -/
def Running.isClose {γ ρ υ : Type} : Running γ ρ υ → Bool
  | .client _ h _ _ => h = .onClose
  | .proc _ h _ => h = .onClose
  | .onTimer _ => false

/-- The updates by what they touch. -/
inductive Kind where
  | add
  | del
  | flag
  | arm
  | disarm
  | fired
  | connect
  | buf
  | queue
  | enter
  | enterClose
  | close
  | user
deriving DecidableEq

namespace Update

variable {γ ρ υ : Type}

def kind : Update γ ρ υ → Kind
  | .add _ _ _ => .add
  | .del _ _ => .del
  | .delReadwrite _ => .del
  | .setFlag _ _ _ => .flag
  | .armTimer _ _ _ => .arm
  | .disarmTimer _ _ => .disarm
  | .startConnecting _ _ => .connect
  | .stopConnecting _ => .disarm
  | .timerFired _ _ => .fired
  | .connectTimeout _ => .flag
  | .allocate _ => .connect
  | .setFe _ _ => .connect
  | .setBuf _ _ _ => .buf
  | .setProcBuf _ _ _ => .buf
  | .delayClose _ => .queue
  | .procDelayClose _ => .queue
  | .timer _ => .user
  | .enter r => if r.isClose then .enterClose else .enter
  | .close _ => .close

/-- It touches this object and its files only. -/
def For (o : Owner γ ρ) : Update γ ρ υ → Prop
  | .add _ fe _ => fe.1 = o
  | .del _ fe => fe.1 = o
  | .delReadwrite fe => fe.1 = o
  | .setFlag c _ _ => .client c = o
  | .armTimer c _ _ => .client c = o
  | .disarmTimer c _ => .client c = o
  | .startConnecting c _ => .client c = o
  | .stopConnecting c => .client c = o
  | .timerFired c _ => .client c = o
  | .connectTimeout c => .client c = o
  | .allocate o' => o' = o
  | .setFe c fe => .client c = o ∧ fe.1 = o
  | .setBuf c _ _ => .client c = o
  | .setProcBuf p _ _ => .proc p = o
  | .delayClose c => .client c = o
  | .procDelayClose p => .proc p = o
  | .timer _ => False
  | .enter r => r.owner = some o
  | .close o' => o' = o

end Update

namespace Call

variable {γ ρ υ : Type}

/-- The object that a call is about. -/
def owner : Call γ ρ υ → Option (Owner γ ρ)
  | .connectAwait c _ _ => some (.client c)
  | .readAwait c _ => some (.client c)
  | .writeAwait c _ => some (.client c)
  | .write c _ _ _ => some (.client c)
  | .readDisable c => some (.client c)
  | .writeDisable c => some (.client c)
  | .readwriteDisable c => some (.client c)
  | .closeAwait c => some (.client c)
  | .procConnectAwait p => some (.proc p)
  | .procReadAwait p => some (.proc p)
  | .procWriteAwait p => some (.proc p)
  | .procWrite p _ _ => some (.proc p)
  | .procReadDisable p => some (.proc p)
  | .procWriteDisable p => some (.proc p)
  | .procCloseAwait p => some (.proc p)
  | .addTimer _ _ => none
  | .delTimer _ => none
  | .resetTimer _ _ => none

/-- What a call may touch. -/
def kinds : Call γ ρ υ → List Kind
  | .connectAwait _ _ _ => [.connect, .add]
  | .readAwait _ _ => [.add, .arm]
  | .writeAwait _ _ => [.add, .arm]
  | .write _ _ _ _ => [.buf, .add, .arm]
  | .readDisable _ => [.del]
  | .writeDisable _ => [.del]
  | .readwriteDisable _ => [.del]
  | .closeAwait _ => [.del, .queue]
  | .procConnectAwait _ => [.add]
  | .procReadAwait _ => [.add]
  | .procWriteAwait _ => [.add]
  | .procWrite _ _ _ => [.buf, .add]
  | .procReadDisable _ => [.del]
  | .procWriteDisable _ => [.del]
  | .procCloseAwait _ => [.del, .queue]
  | .addTimer _ _ => [.user]
  | .delTimer _ => [.user]
  | .resetTimer _ _ => [.user]

end Call

/-- The object that a step calls. -/
def Label.owner {γ ρ υ : Type} : Label γ ρ υ → Option (Owner γ ρ)
  | .call c => c.owner
  | .ret | .wait | .next _ => none

/-- What a callback may touch. -/
def Callback.kinds : Callback → List Kind
  | .connectCallback => [.flag, .disarm, .del, .enter]
  | .readCallback => [.flag, .disarm, .enter]
  | .writeCallback => [.flag, .disarm, .buf, .enter]
  | .connectProc => [.del, .enter]
  | .readProc => [.enter]
  | .writeProc => [.buf, .enter]

/-- An update of this object, of one of these kinds. -/
def Within {γ ρ υ : Type} (o : Owner γ ρ) (kinds : List Kind) (d : Update γ ρ υ) : Prop :=
  d.For o ∧ d.kind ∈ kinds

theorem Within.mono {γ ρ υ : Type} {o : Owner γ ρ} {ks ls : List Kind} (hkl : ks ⊆ ls)
    {d : Update γ ρ υ} (h : Within o ks d) : Within o ls d :=
  ⟨h.1, hkl h.2⟩

end Libnio.Socket
