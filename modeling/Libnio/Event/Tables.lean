import Libnio.Event.Poll
import Libnio.Event.Select

/-!
# Event — the tables of poll and select

The table of a backend that keeps its files in an array, `Tabled`, is the set of
the registered files. The invariants of poll and select hold after every run,
whatever is called and in which mode.
-/

namespace Libnio.Event

open Slots

variable {ι κ π : Type}

namespace NioEvent

/-- `files[0..count)` are the files with a mask that is not zero, each once and
with its place as its `id`; `fdcount` counts them. -/
structure Tabled (ev : NioEvent ι κ π) (files : Dense ι) (fdcount : Int) : Prop where
  distinct : ∀ i j, 0 ≤ i → i < files.count → 0 ≤ j → j < files.count →
    files.slot i = files.slot j → i = j
  registered : ∀ fe, (∃ dir, (ev.files fe).mask dir = true) ↔
    ∃ i, 0 ≤ i ∧ i < files.count ∧ files.slot i = some fe
  filled : ∀ i, 0 ≤ i → i < files.count → ∃ fe, files.slot i = some fe ∧ files.id fe = i
  other : ∀ fe, (¬ ∃ dir, (ev.files fe).mask dir = true) → files.id fe = -1
  fdcount : fdcount = files.count

theorem tabled_of_packs {ev : NioEvent ι κ π} {files : Dense ι} {fdcount : Int}
    (h : files.Packs ev.registered) (hc : fdcount = files.count) : ev.Tabled files fdcount := by
  refine ⟨fun i j hi hi' hj hj' hs => ?_, fun fe => ⟨fun hfe => ?_, ?_⟩, fun i hi hi' => ?_,
    h.absent, hc⟩
  · obtain ⟨a, -, hsa, hia⟩ := h.filled i hi hi'
    have hib := (h.id_of_slot hj hj' (hs.symm.trans hsa)).2
    exact hia.symm.trans hib
  · exact ⟨files.id fe, h.placed fe hfe⟩
  · rintro ⟨i, hi, hi', hs⟩
    exact (h.id_of_slot hi hi' hs).1
  · obtain ⟨a, -, hs, hid⟩ := h.filled i hi hi'
    exact ⟨a, hs, hid⟩

/-- `poll` has answered with these `revents`. -/
def reported (revents : Int → Revents) (ev : NioEvent ι (EventPoll ι) π) :
    NioEvent ι (EventPoll ι) π :=
  ev.setBackend (EventPoll.report revents)

variable [DecidableEq ι] {fd : ι → Int}

theorem polled_turns (hfd : Function.Injective fd) (size : Int)
    (hfits : ∀ fe, 0 ≤ fd fe ∧ fd fe < size) (oneshot direct : Bool) (setsize : Int)
    (memory : Int → Pollfd) (espipe : Int → Bool) (ts : List (Turn ι π (Int → Revents))) :
    let ev := (create oneshot direct setsize fd (.create size memory) :
      NioEvent ι (EventPoll ι) π).turns (EventPoll.host espipe) reported ts
    ev.Polled fd (fun _ _ => True) ∧ ev.DelsHeld :=
  (polled_backed (fun _ => trivial) hfd espipe).turns
    (fun w h => ⟨h.1.report w fun _ _ => trivial, h.2⟩)
    (polled_create oneshot direct setsize memory hfits) (delsHeld_create _ _ _ _ _) ts

omit [DecidableEq ι] in
theorem delsHeld_scan {ev : NioEvent ι (EventSelect ι) π} (h : ev.DelsHeld) :
    ev.scan.DelsHeld := by
  unfold DelsHeld
  rw [scan_files, scan_direct]
  exact h

theorem selected_turns (hfd : Function.Injective fd) {size : Int}
    (hfits : ∀ fe, 0 ≤ fd fe ∧ fd fe < size) (oneshot direct : Bool) (setsize : Int)
    (espipe : Int → Bool) (ts : List (Turn ι π Unit)) :
    let ev := (create oneshot direct setsize fd (.create size) :
      NioEvent ι (EventSelect ι) π).turns (EventSelect.host espipe) (fun _ => scan) ts
    ev.Selected fd ∧ ev.DelsHeld :=
  (selected_backed hfd espipe).turns (fun _ h => ⟨h.1.scan, delsHeld_scan h.2⟩)
    (selected_create oneshot direct setsize hfits) (delsHeld_create _ _ _ _ _) ts

end NioEvent

end Libnio.Event
