import Libnio.Event.EventFacts
import Libnio.Event.Loop

/-!
# Event — what a history says

The procs of a file and the callbacks of a run follow from the calls that were
made and the events that were reported, whatever the mode, the backend and the
pending ring do: `History.run` is the event loop on histories alone, and
`run_log` says that the loop of the code is it.
-/

namespace Libnio.Event

variable {ι κ π : Type} [DecidableEq ι]

namespace History

/-- What one act makes of the proc on side `dir` of `fe`. -/
def heldStep (accepts : ι → Bool) (dir : Dir) (fe : ι) (proc : Option π) :
    Act ι π → Option π
  | .call (.add d f p) => if f = fe ∧ d = dir ∧ accepts f = true then some p else proc
  | .call (.del d f) => if f = fe ∧ d = dir then none else proc
  | .call (.delReadwrite _) => proc
  | .invoke _ _ _ => proc

/-- The proc on side `dir` of `fe`: that of the last accepted add, unless a
delete of this side came after it. -/
def held (accepts : ι → Bool) (dir : Dir) (fe : ι) (log : List (Act ι π)) : Option π :=
  log.foldl (heldStep accepts dir fe) none

section Run

variable (accepts : ι → Bool) (behave : Behaviour ι π)

/-- One side of an event, whose proc is `proc`. -/
def dispatch (ee : EpollEvent ι) (dir : Dir) (fe : ι) (proc : Option π)
    (log : List (Act ι π)) : List (Act ι π) :=
  match proc with
  | some proc =>
      if ee.hits dir then
        log ++ [.invoke dir fe proc] ++ (behave (log ++ [.invoke dir fe proc])).map .call
      else log
  | none => log

def entry (log : List (Act ι π)) (ee : EpollEvent ι) : List (Act ι π) :=
  match ee.ptr with
  | none => log
  | some fe =>
      dispatch behave ee .write fe (held accepts .write fe log)
        (dispatch behave ee .read fe (held accepts .read fe log) log)

def wait (log : List (Act ι π)) (batch : List (EpollEvent ι)) : List (Act ι π) :=
  batch.foldl (entry accepts behave) log

def step (log : List (Act ι π)) : Step ι π → List (Act ι π)
  | .call c => log ++ [.call c]
  | .wait batch => wait accepts behave log batch

def run (log : List (Act ι π)) (steps : List (Step ι π)) : List (Act ι π) :=
  steps.foldl (step accepts behave) log

end Run

/-! ## What holds of every invocation -/

/-- `ok` holds of what has happened before each callback that is invoked. -/
def EveryInvoke (ok : Dir → ι → List (Act ι π) → Prop) (log : List (Act ι π)) : Prop :=
  ∀ pre dir fe proc post, log = pre ++ .invoke dir fe proc :: post → ok dir fe pre

variable {ok : Dir → ι → List (Act ι π) → Prop}

omit [DecidableEq ι] in
theorem everyInvoke_nil : EveryInvoke ok ([] : List (Act ι π)) := by
  intro pre dir fe proc post h
  simp at h

omit [DecidableEq ι] in
theorem everyInvoke_append {log : List (Act ι π)} {a : Act ι π} :
    EveryInvoke ok (log ++ [a]) ↔
      EveryInvoke ok log ∧ ∀ dir fe proc, a = .invoke dir fe proc → ok dir fe log := by
  constructor
  · intro h
    refine ⟨fun pre dir fe proc post hl => ?_, fun dir fe proc ha => ?_⟩
    · exact h pre dir fe proc (post ++ [a]) (by rw [hl]; simp)
    · exact h log dir fe proc [] (by rw [ha])
  · rintro ⟨hq, ha⟩ pre dir fe proc post hl
    rcases List.eq_nil_or_concat post with rfl | ⟨post, b, rfl⟩
    · obtain ⟨rfl, hab⟩ := List.append_inj' hl rfl
      exact ha dir fe proc (List.cons.inj hab).1
    · rw [List.concat_eq_append, ← List.cons_append, ← List.append_assoc] at hl
      obtain ⟨hl, -⟩ := List.append_inj' hl rfl
      exact hq pre dir fe proc post hl

omit [DecidableEq ι] in
theorem everyInvoke_call {log : List (Act ι π)} {c : Call ι π} :
    EveryInvoke ok (log ++ [.call c]) ↔ EveryInvoke ok log := by
  rw [everyInvoke_append]
  exact ⟨fun h => h.1, fun h => ⟨h, fun dir fe proc hc => (by cases hc)⟩⟩

omit [DecidableEq ι] in
theorem everyInvoke_calls {log : List (Act ι π)} {cs : List (Call ι π)} :
    EveryInvoke ok (log ++ cs.map .call) ↔ EveryInvoke ok log := by
  induction cs generalizing log with
  | nil => rw [List.map_nil, List.append_nil]
  | cons c cs ih =>
      rw [List.map_cons, ← List.singleton_append, ← List.append_assoc, ih, everyInvoke_call]

omit [DecidableEq ι] in
/-- One side of an event. -/
theorem everyInvoke_dispatch {behave : Behaviour ι π} {log : List (Act ι π)}
    (ee : EpollEvent ι) (dir : Dir) (fe : ι) (proc : Option π) :
    EveryInvoke ok (dispatch behave ee dir fe proc log) ↔
      EveryInvoke ok log ∧ (ee.hits dir = true → proc ≠ none → ok dir fe log) := by
  cases proc with
  | none =>
      rw [dispatch]
      exact ⟨fun h => ⟨h, fun _ hc => absurd rfl hc⟩, fun h => h.1⟩
  | some proc =>
      cases hh : ee.hits dir with
      | false =>
          simp only [dispatch, hh, Bool.false_eq_true, if_false]
          exact ⟨fun h => ⟨h, fun hc => (by cases hc)⟩, fun h => h.1⟩
      | true =>
          simp only [dispatch, hh, if_true]
          rw [everyInvoke_calls, everyInvoke_append]
          constructor
          · rintro ⟨hq, hg⟩
            exact ⟨hq, fun _ _ => hg dir fe proc rfl⟩
          · rintro ⟨hq, hg⟩
            refine ⟨hq, fun d f p hc => ?_⟩
            cases hc
            exact hg trivial (Option.some_ne_none proc)

/-- Both sides of an event; the second is looked at when the first is through. -/
theorem everyInvoke_entry {accepts : ι → Bool} {behave : Behaviour ι π}
    {log : List (Act ι π)} {ee : EpollEvent ι} {fe : ι} (hp : ee.ptr = some fe) :
    EveryInvoke ok (entry accepts behave log ee) ↔
      EveryInvoke ok log ∧
        (ee.hits .read = true → held accepts .read fe log ≠ none → ok .read fe log) ∧
        (ee.hits .write = true → held accepts .write fe log ≠ none →
          ok .write fe (dispatch behave ee .read fe (held accepts .read fe log) log)) := by
  simp only [entry, hp, everyInvoke_dispatch, and_assoc]

end History

namespace Loop

open History NioEvent

variable {host : Host ι κ π}

/-- The event has the procs that the history says. -/
structure Follows (host : Host ι κ π) (accepts : ι → Bool) (s : Loop ι κ π) : Prop where
  typesOk : s.ev.TypesOk host
  accepts_eq : ∀ fe, s.ev.accepts host fe = accepts fe
  proc_eq : ∀ fe dir, (s.ev.files fe).proc dir = held accepts dir fe s.log

variable {accepts : ι → Bool}

theorem follows_start (host : Host ι κ π) (oneshot direct : Bool) (setsize : Int)
    (fd : ι → Int) (backend : κ) :
    (start oneshot direct setsize fd backend : Loop ι κ π).Follows host
      fun fe => decide (fd fe < setsize) && host.espipe (fd fe) :=
  ⟨typesOk_create host oneshot direct setsize fd backend, fun _ => rfl, fun _ _ => rfl⟩

/-- An event in place of another one with the same procs. -/
theorem Follows.keeps {s : Loop ι κ π} (h : s.Follows host accepts) {ev : NioEvent ι κ π}
    (hk : Keeps s.ev ev) (ht : ev.TypesOk host) : Follows host accepts { s with ev } :=
  ⟨ht, fun fe => (hk.accepts fe).trans (h.accepts_eq fe),
    fun fe dir => (congrFun (hk.proc fe) dir).trans (h.proc_eq fe dir)⟩

theorem Follows.setProc {s : Loop ι κ π} (h : s.Follows host accepts) {ev : NioEvent ι κ π}
    {fe : ι} {dir : Dir} {proc : Option π} (hk : Keeps (s.ev.modify fe (·.setProc dir proc)) ev)
    (ht : ev.TypesOk host) {a : Act ι π}
    (ha : ∀ e d p, heldStep accepts d e p a = if fe = e ∧ dir = d then proc else p) :
    Follows host accepts { ev, log := s.log ++ [a] } := by
  refine ⟨ht, fun e => ?_, fun e d => ?_⟩
  · rw [hk.accepts e, ← h.accepts_eq e, NioEvent.accepts, NioEvent.accepts, modify_files]
    split
    · rename_i he
      rw [he]
      rfl
    · rfl
  · rw [hk.proc e, modify_files, held, List.foldl_append, List.foldl_cons, List.foldl_nil, ha,
      ← held, ← h.proc_eq]
    by_cases he : e = fe
    · subst he
      by_cases hd : dir = d
      · simp [NioFile.setProc, hd]
      · simp [NioFile.setProc, hd, Ne.symm hd]
    · simp [he, Ne.symm he]

/-- Every call keeps it. -/
theorem Follows.call {s : Loop ι κ π} (h : s.Follows host accepts) (c : Call ι π) :
    (s.call host c).Follows host accepts := by
  have ht := typesOk_apply h.typesOk c
  cases c with
  | add dir fe proc =>
      cases ha : accepts fe with
      | true =>
          have ha' := (h.accepts_eq fe).trans ha
          refine h.setProc (add_keeps host h.typesOk ha' dir proc) ht fun e d p => ?_
          rw [heldStep]
          by_cases he : fe = e
          · subst he
            simp [ha]
          · simp [he]
      | false =>
          have ha' := (h.accepts_eq fe).trans ha
          have hk := h.keeps (refused_keeps host h.typesOk ha' dir proc) ht
          refine ⟨hk.typesOk, hk.accepts_eq, fun e d => ?_⟩
          rw [Loop.call, held, List.foldl_append, List.foldl_cons, List.foldl_nil, ← held,
            heldStep, if_neg]
          · exact hk.proc_eq e d
          · rintro ⟨-, -, hc⟩
            rw [ha] at hc
            cases hc
  | del dir fe =>
      exact h.setProc (del_keeps host dir fe s.ev) ht fun e d p => rfl
  | delReadwrite fe =>
      have hk := h.keeps (delReadwrite_keeps host fe s.ev) ht
      refine ⟨hk.typesOk, hk.accepts_eq, fun e d => ?_⟩
      rw [Loop.call, held, List.foldl_append]
      exact hk.proc_eq e d

theorem Follows.calls {s : Loop ι κ π} (h : s.Follows host accepts) (cs : List (Call ι π)) :
    (cs.foldl (Loop.call host) s).Follows host accepts ∧
      (cs.foldl (Loop.call host) s).log = s.log ++ cs.map .call := by
  induction cs generalizing s with
  | nil => exact ⟨h, (List.append_nil _).symm⟩
  | cons c cs ih =>
      obtain ⟨hf, hlog⟩ := ih (h.call c)
      refine ⟨hf, ?_⟩
      rw [List.foldl_cons, hlog, Loop.call, List.map_cons, List.append_assoc]
      rfl

theorem Follows.invoke {s : Loop ι κ π} (h : s.Follows host accepts) (dir : Dir) (fe : ι)
    (proc : π) : Follows host accepts { s with log := s.log ++ [.invoke dir fe proc] } := by
  refine ⟨h.typesOk, h.accepts_eq, fun e d => ?_⟩
  rw [held, List.foldl_append]
  exact h.proc_eq e d

theorem Follows.dispatch {s : Loop ι κ π} (h : s.Follows host accepts)
    (behave : Behaviour ι π) (ee : EpollEvent ι)
    (dir : Dir) (fe : ι) (proc : Option π) :
    (s.dispatch host behave ee dir fe proc).Follows host accepts ∧
      (s.dispatch host behave ee dir fe proc).log
        = History.dispatch behave ee dir fe proc s.log := by
  unfold Loop.dispatch History.dispatch
  split
  · rename_i proc
    split
    · exact (h.invoke dir fe proc).calls _
    · exact ⟨h, rfl⟩
  · exact ⟨h, rfl⟩

theorem Follows.entry {s : Loop ι κ π} (h : s.Follows host accepts)
    (behave : Behaviour ι π) (ee : EpollEvent ι) :
    (s.entry host behave ee).Follows host accepts ∧
      (s.entry host behave ee).log = History.entry accepts behave s.log ee := by
  cases hp : ee.ptr with
  | none =>
      simp only [Loop.entry, History.entry, hp]
      exact ⟨h, trivial⟩
  | some fe =>
      obtain ⟨h₁, hlog₁⟩ := h.dispatch behave ee .read fe ((s.ev.files fe).proc .read)
      obtain ⟨h₂, hlog₂⟩ := h₁.dispatch behave ee .write fe ((s.ev.files fe).proc .write)
      simp only [Loop.entry, History.entry, hp, ← h.proc_eq, ← hlog₁]
      exact ⟨h₂, hlog₂⟩

theorem Follows.eventWait {s : Loop ι κ π} (h : s.Follows host accepts)
    (behave : Behaviour ι π) (batch : List (EpollEvent ι)) :
    (s.eventWait host behave batch).Follows host accepts ∧
      (s.eventWait host behave batch).log = History.wait accepts behave s.log batch := by
  rw [Loop.eventWait, History.wait]
  induction batch generalizing s with
  | nil => exact ⟨h, rfl⟩
  | cons ee batch ih =>
      obtain ⟨he, hlog⟩ := h.entry behave ee
      rw [List.foldl_cons, List.foldl_cons, ← hlog]
      exact ih he

theorem Follows.wait {s : Loop ι κ π} (h : s.Follows host accepts)
    (behave : Behaviour ι π) (batch : List (EpollEvent ι)) :
    (s.wait host behave batch).Follows host accepts ∧
      (s.wait host behave batch).log = History.wait accepts behave s.log batch :=
  (h.keeps (prepare_keeps host s.ev) (typesOk_prepare h.typesOk)).eventWait behave batch

theorem Follows.run {s : Loop ι κ π} (h : s.Follows host accepts)
    (behave : Behaviour ι π) (steps : List (Step ι π)) :
    (s.run host behave steps).Follows host accepts ∧
      (s.run host behave steps).log = History.run accepts behave s.log steps := by
  induction steps generalizing s with
  | nil => exact ⟨h, rfl⟩
  | cons st steps ih =>
      have hstep : (s.step host behave st).Follows host accepts ∧
          (s.step host behave st).log = History.step accepts behave s.log st := by
        cases st with
        | call c => exact ⟨h.call c, rfl⟩
        | wait batch => exact h.wait behave batch
      rw [Loop.run, List.foldl_cons, History.run, List.foldl_cons, ← hstep.2]
      exact ih hstep.1

/-- **The callbacks of a run follow from its history.** -/
theorem run_log (host : Host ι κ π) (behave : Behaviour ι π) (oneshot direct : Bool)
    (setsize : Int) (fd : ι → Int) (backend : κ) (steps : List (Step ι π)) :
    ((start oneshot direct setsize fd backend).run host behave steps).log
      = History.run (fun fe => decide (fd fe < setsize) && host.espipe (fd fe)) behave [] steps :=
  ((follows_start host oneshot direct setsize fd backend).run behave steps).2

end Loop

end Libnio.Event
