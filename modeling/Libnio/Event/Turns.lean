import Libnio.Event.Requests
import Mathlib.Data.Set.Insert

/-!
# Event — turns of any backend

A run of an event with a backend of any kind: calls of the interface, prepares,
and what the kernel makes of the backend in a wait. The callbacks of a wait are
calls like any others. With it the set of the files that are registered for
something, which each backend has a table of.
-/

namespace Libnio.Event

variable {ι κ π ω : Type}

/-- `NIO_EVENT_WRITE` of `NIO_EVENT_READ`, and the other way round. -/
def Dir.other : Dir → Dir
  | .read => .write
  | .write => .read

@[simp] theorem Dir.other_ne (dir : Dir) : dir.other ≠ dir := by cases dir <;> simp [other]

theorem Dir.eq_or_other (dir d : Dir) : d = dir ∨ d = dir.other := by
  cases dir <;> cases d <;> simp [other]

/-- A mask without its side `dir` has the other one, or nothing. -/
theorem update_false_iff (mask : Dir → Bool) (dir : Dir) :
    (∃ d, Function.update mask dir false d = true) ↔ mask dir.other = true := by
  constructor
  · rintro ⟨d, hd⟩
    rcases dir.eq_or_other d with rfl | rfl
    · simp at hd
    · simpa using hd
  · exact fun h => ⟨dir.other, by simpa using h⟩

namespace NioEvent

/-- The files with a mask that is not zero. -/
def registered (ev : NioEvent ι κ π) : Set ι := {fe | ∃ dir, (ev.files fe).mask dir = true}

theorem mem_registered {ev : NioEvent ι κ π} {fe : ι} :
    fe ∈ ev.registered ↔ ∃ dir, (ev.files fe).mask dir = true := Iff.rfl

theorem notMem_registered {ev : NioEvent ι κ π} {fe : ι} :
    fe ∉ ev.registered ↔ (ev.files fe).mask = fun _ => false := by
  rw [mem_registered, not_exists]
  constructor
  · intro h
    funext dir
    simpa using h dir
  · intro h dir
    rw [h]
    simp

@[simp] theorem registered_create (oneshot direct : Bool) (setsize : Int) (fd : ι → Int)
    (backend : κ) :
    (create oneshot direct setsize fd backend : NioEvent ι κ π).registered = ∅ := by
  ext fe
  simp [registered, create, NioFile.alloc]

theorem Unasked.registered {ev ev' : NioEvent ι κ π} (h : Unasked ev ev') :
    ev'.registered = ev.registered := by
  ext fe
  rw [mem_registered, mem_registered, h.mask]

/-! ## One operation -/

variable [DecidableEq ι]

section Oper

variable {ev : NioEvent ι κ π} {kind : OperKind} {op : EventOper ι κ π} {fe : ι}
  {mask : Dir → Bool}

theorem mask_oper (hm : (op ev.oneshot ev.backend fe (ev.files fe)).2 = mask) :
    ((ev.oper kind op fe).files fe).mask = mask := by
  rw [oper_files, if_pos rfl]
  exact hm

theorem mask_oper_of_ne {e : ι} (he : e ≠ fe) :
    ((ev.oper kind op fe).files e).mask = (ev.files e).mask := by
  rw [oper_files, if_neg he]

theorem fd_oper (e : ι) : ((ev.oper kind op fe).files e).fd = (ev.files e).fd :=
  (keeps_oper ev kind op fe).fd e

variable (kind) in
theorem registered_oper_insert (hm : (op ev.oneshot ev.backend fe (ev.files fe)).2 = mask)
    (h : ∃ dir, mask dir = true) :
    (ev.oper kind op fe).registered = insert fe ev.registered := by
  ext e
  rw [Set.mem_insert_iff, mem_registered]
  by_cases he : e = fe
  · rw [he, mask_oper hm]
    exact ⟨fun _ => .inl rfl, fun _ => h⟩
  · rw [mask_oper_of_ne he, mem_registered]
    exact ⟨.inr, fun hc => hc.resolve_left he⟩

variable (kind) in
theorem registered_oper_erase (hm : (op ev.oneshot ev.backend fe (ev.files fe)).2 = mask)
    (h : ¬ ∃ dir, mask dir = true) : (ev.oper kind op fe).registered = ev.registered \ {fe} := by
  ext e
  rw [Set.mem_sdiff, Set.mem_singleton_iff, mem_registered]
  by_cases he : e = fe
  · rw [he, mask_oper hm]
    exact ⟨fun hc => absurd hc h, fun hc => absurd rfl hc.2⟩
  · rw [mask_oper_of_ne he, mem_registered]
    exact ⟨fun hc => ⟨hc, he⟩, And.left⟩

end Oper

/-! ## Runs -/

/-- The backend becomes what `f` makes of it. -/
def setBackend (f : κ → κ) (ev : NioEvent ι κ π) : NioEvent ι κ π :=
  { ev with backend := f ev.backend }

omit [DecidableEq ι] in
@[simp] theorem setBackend_files (f : κ → κ) (ev : NioEvent ι κ π) :
    (ev.setBackend f).files = ev.files := rfl

omit [DecidableEq ι] in
@[simp] theorem setBackend_backend (f : κ → κ) (ev : NioEvent ι κ π) :
    (ev.setBackend f).backend = f ev.backend := rfl

omit [DecidableEq ι] in
@[simp] theorem registered_setBackend (f : κ → κ) (ev : NioEvent ι κ π) :
    (ev.setBackend f).registered = ev.registered := rfl

end NioEvent

/-- A turn of a program: a call, `nio_event_prepare`, or a wait that the kernel
answers with `w`. -/
inductive Turn (ι π ω : Type) where
  | call (c : Call ι π)
  | prepare
  | answer (w : ω)

namespace NioEvent

variable [DecidableEq ι] (host : Host ι κ π) (answer : ω → NioEvent ι κ π → NioEvent ι κ π)

def turn (ev : NioEvent ι κ π) : Turn ι π ω → NioEvent ι κ π
  | .call c => ev.apply host c
  | .prepare => ev.prepare host
  | .answer w => answer w ev

def turns (ev : NioEvent ι κ π) (ts : List (Turn ι π ω)) : NioEvent ι κ π :=
  ts.foldl (turn host answer) ev

variable {host answer} {J : NioEvent ι κ π → Prop}

/-- **What all that is asked of the backend keeps, a run keeps**, as long as the
kernel does. -/
theorem Backed.turns (hb : Backed host J)
    (hans : ∀ {ev} w, J ev ∧ ev.DelsHeld → J (answer w ev) ∧ (answer w ev).DelsHeld)
    {ev : NioEvent ι κ π} (hj : J ev) (hh : ev.DelsHeld) (ts : List (Turn ι π ω)) :
    J (ev.turns host answer ts) ∧ (ev.turns host answer ts).DelsHeld := by
  have hturn : ∀ ev : NioEvent ι κ π, J ev ∧ ev.DelsHeld → ∀ t : Turn ι π ω,
      J (ev.turn host answer t) ∧ (ev.turn host answer t).DelsHeld := by
    intro ev h t
    cases t with
    | call c => exact hb.apply h.1 h.2 c
    | prepare => exact hb.prepare h.1 h.2
    | answer w => exact hans w h
  induction ts generalizing ev with
  | nil => exact ⟨hj, hh⟩
  | cons t ts ih =>
      obtain ⟨hj', hh'⟩ := hturn ev ⟨hj, hh⟩ t
      exact ih hj' hh'

/-- The one event becomes the other in some turns. -/
def Reaches (host : Host ι κ π) (answer : ω → NioEvent ι κ π → NioEvent ι κ π)
    (ev ev' : NioEvent ι κ π) : Prop :=
  ∃ ts : List (Turn ι π ω), ev.turns host answer ts = ev'

theorem Reaches.refl (ev : NioEvent ι κ π) : Reaches host answer ev ev := ⟨[], rfl⟩

theorem Reaches.turn {ev ev' : NioEvent ι κ π} (h : Reaches host answer ev ev')
    (t : Turn ι π ω) : Reaches host answer ev (ev'.turn host answer t) := by
  obtain ⟨ts, rfl⟩ := h
  exact ⟨ts ++ [t], by rw [NioEvent.turns, List.foldl_append]; rfl⟩

end NioEvent

end Libnio.Event
