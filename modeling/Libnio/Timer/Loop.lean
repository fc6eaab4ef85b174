import Libnio.Timer.Base

/-!
# Timer — runs

The timers under calls from outside, changes of the clock and
`trigger_timers`, whose callbacks make any finite list of calls. The log holds
with each call and each `on_timer` what it found.
-/

namespace Libnio.Timer

variable {τ : Type} [DecidableEq τ]

/-- A call of the interface. -/
inductive Call (τ : Type) where
  | addTimer (tm : τ) (ms : Int)
  | delTimer (tm : τ)
  | resetTimer (tm : τ) (ms : Int)
deriving DecidableEq

def Call.timer : Call τ → τ
  | .addTimer tm _ => tm
  | .delTimer tm => tm
  | .resetTimer tm _ => tm

def Timers.apply (ev : Timers τ) : Call τ → Timers τ
  | .addTimer tm ms => ev.addTimer tm ms
  | .delTimer tm => ev.delTimer tm
  | .resetTimer tm ms => ev.resetTimer tm ms

/-- What happens in a run, each with the timers it found; `batch` is what the
vector of a `trigger_timers` still has to go through. -/
inductive Act (τ : Type) where
  | call (c : Call τ) (ev : Timers τ) (batch : List τ)
  | onTimer (tm : τ) (ev : Timers τ) (batch : List τ)

/-- What a callback calls, from what has happened so far; its own `on_timer` is
the last of it. -/
abbrev Behaviour (τ : Type) := List (Act τ) → List (Call τ)

/-- The timers, the rest of the vector of a running `trigger_timers`, and what
has happened so far. -/
structure Loop (τ : Type) where
  ev : Timers τ
  batch : List τ
  log : List (Act τ)

namespace Loop

def call (s : Loop τ) (c : Call τ) : Loop τ :=
  { s with ev := s.ev.apply c, log := s.log ++ [.call c s.ev s.batch] }

/-- The clock is read, by the backend of a round. -/
def setStamp (s : Loop τ) (sec nsec : Int) : Loop τ :=
  { s with ev := { s.ev with stamp := Timer.setStamp sec nsec } }

/-- The first loop of `trigger_timers`. -/
def collect (s : Loop τ) : Loop τ :=
  { s with ev := s.ev.collect, batch := s.ev.expired.map Prod.snd }

/-- The vector moves on to `tm`, whose `on_timer` is entered. -/
def enter (s : Loop τ) (tm : τ) (batch : List τ) : Loop τ :=
  { s with batch, log := s.log ++ [.onTimer tm s.ev batch] }

section Run

variable (behave : Behaviour τ)

/-- `timer->on_timer()` -/
def onTimer (s : Loop τ) (tm : τ) (batch : List τ) : Loop τ :=
  let s := s.enter tm batch
  (behave s.log).foldl call s

/-- `for (const auto timer: timers) { timer->on_timer(); }` -/
def fire (s : Loop τ) : List τ → Loop τ
  | [] => s
  | tm :: batch => fire (s.onTimer behave tm batch) batch

/-- `nio_event::trigger_timers` -/
def triggerTimers (s : Loop τ) : Loop τ :=
  s.collect.fire behave s.collect.batch

end Run

end Loop

/-- A step of a program: a call of its own, a change of the clock, or the end
of a round of the loop. -/
inductive Step (τ : Type) where
  | call (c : Call τ)
  | setStamp (sec nsec : Int)
  | triggerTimers

namespace Loop

section Run

variable (behave : Behaviour τ)

def step (s : Loop τ) : Step τ → Loop τ
  | .call c => s.call c
  | .setStamp sec nsec => s.setStamp sec nsec
  | .triggerTimers => s.triggerTimers behave

def run (s : Loop τ) (steps : List (Step τ)) : Loop τ :=
  steps.foldl (step behave) s

end Run

/-- The event has just been created, which reads the clock; no timer is armed
yet. -/
def start (sec nsec : Int) (counter : UInt32) (expire : τ → Int) : Loop τ :=
  { ev := { stamp := Timer.setStamp sec nsec, counter, timers := [], expire },
    batch := [], log := [] }

/-! ## What a run keeps -/

section Induct

variable {behave : Behaviour τ} {P : Loop τ → Prop}

/-- What the calls and the entries of callbacks keep, the loop over the vector
keeps. -/
theorem fire_induct
    (hcall : ∀ log, ∀ c ∈ behave log, ∀ s, P s → P (s.call c))
    (henter : ∀ s tm batch, s.batch = tm :: batch → P s → P (s.enter tm batch)) :
    ∀ (batch : List τ) (s : Loop τ), s.batch = batch → P s →
      P (s.fire behave batch) ∧ (s.fire behave batch).batch = [] := by
  have hcalls : ∀ (cs : List (Call τ)) (s : Loop τ), (∀ c ∈ cs, ∀ s', P s' → P (s'.call c)) →
      P s → P (cs.foldl call s) ∧ (cs.foldl call s).batch = s.batch := by
    intro cs
    induction cs with
    | nil => exact fun s _ h => ⟨h, rfl⟩
    | cons c cs ih =>
        intro s hc h
        exact ih (s.call c) (fun c hm => hc c (List.mem_cons_of_mem _ hm))
          (hc c (List.mem_cons_self ..) s h)
  intro batch
  induction batch with
  | nil => exact fun s hb h => ⟨h, hb⟩
  | cons tm batch ih =>
      intro s hb h
      have hin := henter s tm batch hb h
      obtain ⟨hp, hbatch⟩ := hcalls _ _ (hcall (s.enter tm batch).log) hin
      exact ih (s.onTimer behave tm batch) hbatch hp

/-- What the calls, the clock, the first loop of `trigger_timers` and the
entries of callbacks keep, a run keeps. Outside of `trigger_timers` its vector
is empty. -/
theorem run_induct
    (hstep : ∀ s c, s.batch = [] → P s → P (s.call c))
    (hcall : ∀ log, ∀ c ∈ behave log, ∀ s, P s → P (s.call c))
    (hstamp : ∀ s sec nsec, s.batch = [] → P s → P (s.setStamp sec nsec))
    (hcollect : ∀ s, s.batch = [] → P s → P s.collect)
    (henter : ∀ s tm batch, s.batch = tm :: batch → P s → P (s.enter tm batch))
    {s : Loop τ} (hb : s.batch = []) (h : P s) (steps : List (Step τ)) :
    P (s.run behave steps) ∧ (s.run behave steps).batch = [] := by
  induction steps generalizing s with
  | nil => exact ⟨h, hb⟩
  | cons st steps ih =>
      cases st with
      | call c => exact ih hb (hstep s c hb h)
      | setStamp sec nsec => exact ih hb (hstamp s sec nsec hb h)
      | triggerTimers =>
          obtain ⟨hp, hbatch⟩ := fire_induct hcall henter _ s.collect rfl (hcollect s hb h)
          exact ih hbatch hp

end Induct

end Loop

end Libnio.Timer
