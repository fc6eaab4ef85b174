import Libnio.Event.Event

/-!
# Event — the event loop

`nio_event_wait` with `epoll_event_wait`: what is pending is prepared, then the
callbacks of the events that the kernel reports are called. A callback is any
finite list of calls of the interface, depending on all that has happened so
far.
-/

namespace Libnio.Event

variable {ι κ π : Type} [DecidableEq ι]

/-- `struct epoll_event` as it comes from `epoll_wait`. -/
structure EpollEvent (ι : Type) where
  epollin : Bool
  epollout : Bool
  epollerr : Bool
  epollhup : Bool
  ptr : Option ι

/-- `ee->events & (EPOLLIN | EVENT_ERR)`, `ee->events & (EPOLLOUT | EVENT_ERR)` -/
def EpollEvent.hits (ee : EpollEvent ι) : Dir → Bool
  | .read => ee.epollin || ee.epollerr || ee.epollhup
  | .write => ee.epollout || ee.epollerr || ee.epollhup

/-- What happens in a run: calls of the interface, and callbacks that the loop
invokes. -/
inductive Act (ι π : Type) where
  | call (c : Call ι π)
  | invoke (dir : Dir) (fe : ι) (proc : π)
deriving DecidableEq

/-- What a callback calls, from what has happened so far; its own invocation is
the last of it. -/
abbrev Behaviour (ι π : Type) := List (Act ι π) → List (Call ι π)

/-- The event, and what has happened so far. -/
structure Loop (ι κ π : Type) where
  ev : NioEvent ι κ π
  log : List (Act ι π)

namespace Loop

variable (host : Host ι κ π) (behave : Behaviour ι π)

def call (s : Loop ι κ π) (c : Call ι π) : Loop ι κ π :=
  { ev := s.ev.apply host c, log := s.log ++ [.call c] }

/-- `proc(ev, fe)` -/
def invoke (dir : Dir) (fe : ι) (proc : π) (s : Loop ι κ π) : Loop ι κ π :=
  let s := { s with log := s.log ++ [.invoke dir fe proc] }
  (behave s.log).foldl (call host) s

/-- `if (ee->events & .. && r_proc) r_proc(ev, fe);`, of either side. -/
def dispatch (ee : EpollEvent ι) (dir : Dir) (fe : ι) (proc : Option π) (s : Loop ι κ π) :
    Loop ι κ π :=
  match proc with
  | some proc => if ee.hits dir then s.invoke host behave dir fe proc else s
  | none => s

/-- The body of the loop of `epoll_event_wait`; both procs are read before the
first of them is called. -/
def entry (s : Loop ι κ π) (ee : EpollEvent ι) : Loop ι κ π :=
  match ee.ptr with
  | none => s
  | some fe =>
      let rProc := (s.ev.files fe).proc .read
      let wProc := (s.ev.files fe).proc .write
      let s := s.dispatch host behave ee .read fe rProc
      s.dispatch host behave ee .write fe wProc

/-- `epoll_event_wait`, with the events that `epoll_wait` has put into `batch`. -/
def eventWait (s : Loop ι κ π) (batch : List (EpollEvent ι)) : Loop ι κ π :=
  batch.foldl (entry host behave) s

/-- `nio_event_wait` -/
def wait (s : Loop ι κ π) (batch : List (EpollEvent ι)) : Loop ι κ π :=
  eventWait host behave { s with ev := s.ev.prepare host } batch

end Loop

/-- A step of a program: a call of its own, or a round of the loop. -/
inductive Step (ι π : Type) where
  | call (c : Call ι π)
  | wait (batch : List (EpollEvent ι))

namespace Loop

variable (host : Host ι κ π) (behave : Behaviour ι π)

def step (s : Loop ι κ π) : Step ι π → Loop ι κ π
  | .call c => s.call host c
  | .wait batch => s.wait host behave batch

def run (s : Loop ι κ π) (steps : List (Step ι π)) : Loop ι κ π :=
  steps.foldl (step host behave) s

/-- What every call and every invocation keep, a batch keeps. -/
theorem eventWait_induct {host : Host ι κ π} {behave : Behaviour ι π} {P : Loop ι κ π → Prop}
    (hcall : ∀ s c, P s → P (s.call host c))
    (hinvoke : ∀ s dir fe proc, P s → P { s with log := s.log ++ [.invoke dir fe proc] })
    {s : Loop ι κ π} (h : P s) (batch : List (EpollEvent ι)) :
    P (s.eventWait host behave batch) := by
  have hcalls : ∀ (cs : List (Call ι π)) s, P s → P (cs.foldl (call host) s) := by
    intro cs
    induction cs with
    | nil => exact fun s h => h
    | cons c cs ih => exact fun s h => ih _ (hcall s c h)
  have hdispatch : ∀ ee dir fe proc s, P s → P (dispatch host behave ee dir fe proc s) := by
    intro ee dir fe proc s h
    unfold dispatch
    split
    · split
      · exact hcalls _ _ (hinvoke s dir fe _ h)
      · exact h
    · exact h
  have hentry : ∀ s ee, P s → P (entry host behave s ee) := by
    intro s ee h
    unfold entry
    split
    · exact h
    · exact hdispatch _ _ _ _ _ (hdispatch _ _ _ _ _ h)
  induction batch generalizing s with
  | nil => exact h
  | cons ee batch ih => exact ih (hentry s ee h)

/-- What every call, every invocation and every prepare keep, a run keeps. -/
theorem run_induct {host : Host ι κ π} {behave : Behaviour ι π} {P : Loop ι κ π → Prop}
    (hcall : ∀ s c, P s → P (s.call host c))
    (hinvoke : ∀ s dir fe proc, P s → P { s with log := s.log ++ [.invoke dir fe proc] })
    (hprepare : ∀ s, P s → P { s with ev := s.ev.prepare host })
    {s : Loop ι κ π} (h : P s) (steps : List (Step ι π)) : P (s.run host behave steps) := by
  induction steps generalizing s with
  | nil => exact h
  | cons st steps ih =>
      refine ih ?_
      cases st with
      | call c => exact hcall s c h
      | wait batch => exact eventWait_induct hcall hinvoke (hprepare s h) batch

/-- A program starts with a fresh event and fresh files. -/
def start (oneshot direct : Bool) (setsize : Int) (fd : ι → Int) (backend : κ) :
    Loop ι κ π :=
  { ev := .create oneshot direct setsize fd backend, log := [] }

end Loop

end Libnio.Event
