import Libnio.Event.History
import Libnio.Event.Epoll

/-!
# Event — callbacks after a deletion

Whether a file whose interest has been deleted is still called. A batch is
fetched before any callback runs, both procs of a file are read before the
first is called, and `nio_event_del_readwrite` leaves them in place, so that
this depends on what the callbacks delete: `quiet_iff` is the exact condition.
-/

namespace Libnio.Event

variable {ι κ π : Type} [DecidableEq ι]

namespace History

/-- Whether one act leaves side `dir` of `fe` deleted. -/
def goneStep (dir : Dir) (fe : ι) (gone : Bool) : Act ι π → Bool
  | .call (.add d f _) => if f = fe ∧ d = dir then false else gone
  | .call (.del d f) => if f = fe ∧ d = dir then true else gone
  | .call (.delReadwrite f) => if f = fe then true else gone
  | .invoke _ _ _ => gone

/-- The last call about side `dir` of `fe` is a delete. -/
def gone (dir : Dir) (fe : ι) (log : List (Act ι π)) : Bool :=
  log.foldl (goneStep dir fe) false

/-- No callback is invoked for a side that is deleted. -/
def Quiet (log : List (Act ι π)) : Prop :=
  ∀ pre dir fe proc post, log = pre ++ .invoke dir fe proc :: post → gone dir fe pre = false

theorem quiet_iff_everyInvoke {log : List (Act ι π)} :
    Quiet log ↔ EveryInvoke (fun dir fe pre => gone dir fe pre = false) log :=
  Iff.rfl

section Careful

variable (accepts : ι → Bool) (behave : Behaviour ι π)

/-- No side that an event reports has a proc left after its deletion; for the
write side this is asked when the read callback of the same event is through. -/
def EntryCareful (log : List (Act ι π)) (ee : EpollEvent ι) : Prop :=
  ∀ fe, ee.ptr = some fe →
    (ee.hits .read = true → held accepts .read fe log ≠ none → gone .read fe log = false) ∧
    (ee.hits .write = true → held accepts .write fe log ≠ none →
      gone .write fe (dispatch behave ee .read fe (held accepts .read fe log) log) = false)

def BatchCareful : List (Act ι π) → List (EpollEvent ι) → Prop
  | _, [] => True
  | log, ee :: batch =>
      EntryCareful accepts behave log ee ∧ BatchCareful (entry accepts behave log ee) batch

/-- Every event of every batch of the run finds its file that way. -/
def Careful : List (Act ι π) → List (Step ι π) → Prop
  | _, [] => True
  | log, .call c :: steps => Careful (log ++ [.call c]) steps
  | log, .wait batch :: steps =>
      BatchCareful accepts behave log batch ∧ Careful (wait accepts behave log batch) steps

variable {accepts behave}

theorem quiet_entry {log : List (Act ι π)} (ee : EpollEvent ι) :
    Quiet (entry accepts behave log ee) ↔ Quiet log ∧ EntryCareful accepts behave log ee := by
  cases hp : ee.ptr with
  | none =>
      simp only [entry, EntryCareful, hp]
      exact ⟨fun h => ⟨h, fun _ hc => (by cases hc)⟩, fun h => h.1⟩
  | some fe =>
      rw [quiet_iff_everyInvoke, everyInvoke_entry hp]
      constructor
      · rintro ⟨hq, hrw⟩
        refine ⟨hq, fun f hf => ?_⟩
        rw [hp] at hf
        cases hf
        exact hrw
      · rintro ⟨hq, h⟩
        exact ⟨hq, h fe hp⟩

theorem quiet_wait {log : List (Act ι π)} (batch : List (EpollEvent ι)) :
    Quiet (wait accepts behave log batch) ↔
      Quiet log ∧ BatchCareful accepts behave log batch := by
  rw [wait]
  induction batch generalizing log with
  | nil => exact ⟨fun h => ⟨h, trivial⟩, fun h => h.1⟩
  | cons ee batch ih => rw [List.foldl_cons, ih, quiet_entry, BatchCareful, and_assoc]

theorem quiet_run {log : List (Act ι π)} (steps : List (Step ι π)) :
    Quiet (run accepts behave log steps) ↔ Quiet log ∧ Careful accepts behave log steps := by
  rw [run]
  induction steps generalizing log with
  | nil => exact ⟨fun h => ⟨h, trivial⟩, fun h => h.1⟩
  | cons st steps ih =>
      rw [List.foldl_cons, ih]
      cases st with
      | call c =>
          rw [step, quiet_iff_everyInvoke, everyInvoke_call, ← quiet_iff_everyInvoke, Careful]
      | wait batch => rw [step, quiet_wait, Careful, and_assoc]

end Careful

end History

namespace Loop

open History

/-- **No callback after deletion, exactly when the callbacks are careful.** -/
theorem quiet_iff (host : Host ι κ π) (behave : Behaviour ι π) (oneshot direct : Bool)
    (setsize : Int) (fd : ι → Int) (backend : κ) (steps : List (Step ι π)) :
    Quiet ((start oneshot direct setsize fd backend).run host behave steps).log ↔
      Careful (fun fe => decide (fd fe < setsize) && host.espipe (fd fe)) behave [] steps := by
  rw [run_log, quiet_run]
  exact ⟨fun h => h.2, fun h => ⟨everyInvoke_nil, h⟩⟩

/-- Two connections are readable in one round, and the callback of the first
deletes the second with `nio_event_del_readwrite`. -/
theorem second_called :
    ¬ ∀ (behave : Behaviour Bool Unit) (steps : List (Step Bool Unit)),
      Quiet ((start false false 1024 (fun fe => if fe then 4 else 3)
        ⟨fun _ => none, 0⟩ : Loop Bool (EventEpoll (Int → Option (EpollInterest Bool))) Unit).run
          (EventEpoll.host epollTable fun _ => true) behave steps).log := by
  intro h
  let readable (fe : Bool) : EpollEvent Bool := ⟨true, false, false, false, some fe⟩
  have hq := h
    (fun log => if log.getLast? = some (.invoke .read false ()) then [.delReadwrite true] else [])
    [.call (.add .read false ()), .call (.add .read true ()),
      .wait [readable false, readable true]]
  rw [run_log] at hq
  have hgone := hq [.call (.add .read false ()), .call (.add .read true ()),
    .invoke .read false (), .call (.delReadwrite true)] .read true () [] (by decide)
  revert hgone
  decide

end Loop

end Libnio.Event
