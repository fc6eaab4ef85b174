import Libnio.Event.Clear
import Libnio.Event.Turns

/-!
# Event — the files that a backend gets to see

The admission test of `nio_event_add_read` and `nio_event_add_write` stands in
front of the backend: what it is asked for, in whatever order, is a file that
passed the test.
-/

namespace Libnio.Event

variable {ι κ π ω : Type}

namespace NioEvent

/-- The files that the backend has been asked for. -/
def asked (ev : NioEvent ι κ π) : Set ι := {fe | ∃ c ∈ ev.opers, c.file = fe}

/-- From the first event to the second the backend is asked for `fe` only. -/
def AsksOnly (fe : ι) (ev ev' : NioEvent ι κ π) : Prop :=
  ∀ c ∈ ev'.opers, c ∈ ev.opers ∨ c.file = fe

namespace AsksOnly

variable {fe : ι} {ev ev' ev'' : NioEvent ι κ π}

theorem same (h : ev'.opers = ev.opers) : AsksOnly fe ev ev' := by
  intro c hc
  rw [h] at hc
  exact .inl hc

theorem trans (h : AsksOnly fe ev ev') (h' : AsksOnly fe ev' ev'') : AsksOnly fe ev ev'' := by
  intro c hc
  rcases h' c hc with hc | hc
  · exact h c hc
  · exact .inr hc

variable [DecidableEq ι]

theorem oper (kind : OperKind) (op : EventOper ι κ π) : AsksOnly fe ev (ev.oper kind op fe) := by
  intro c hc
  rw [oper_opers, List.mem_append, List.mem_singleton] at hc
  rcases hc with hc | rfl
  · exact .inl hc
  · exact .inr rfl

end AsksOnly

variable [DecidableEq ι] {host : Host ι κ π} {accepts : ι → Bool} {ev : NioEvent ι κ π}

theorem asked_oper (ev : NioEvent ι κ π) (kind : OperKind) (op : EventOper ι κ π) (fe : ι) :
    (ev.oper kind op fe).asked = insert fe ev.asked := by
  ext e
  rw [Set.mem_insert_iff]
  constructor
  · rintro ⟨c, hc, rfl⟩
    rw [oper_opers, List.mem_append, List.mem_singleton] at hc
    rcases hc with hc | rfl
    · exact .inr ⟨c, hc, rfl⟩
    · exact .inl rfl
  · rintro (rfl | ⟨c, hc, rfl⟩)
    · exact ⟨_, List.mem_append_right _ (List.mem_singleton_self _), rfl⟩
    · exact ⟨c, List.mem_append_left _ hc, rfl⟩

variable (host) in
theorem asksOnly_delMasked (ev : NioEvent ι κ π) (fe : ι) :
    AsksOnly fe ev (ev.delMasked host fe) := by
  have hside : ∀ (dir : Dir) (ev : NioEvent ι κ π),
      AsksOnly fe ev
          (if (ev.files fe).mask dir then ev.oper (.del dir) (host.del dir) fe else ev) := by
    intro dir ev
    split
    · exact .oper _ _
    · exact .same rfl
  unfold NioEvent.delMasked
  split
  · split
    · exact .oper _ _
    · exact .same rfl
  · exact (hside .read ev).trans (hside .write _)

omit [DecidableEq ι] in
theorem opers_fflush (ev : NioEvent ι κ π) : (ev.fflush host).opers = ev.opers := by
  unfold fflush
  split <;> rfl

theorem opers_delReadwrite (ev : NioEvent ι κ π) (fe : ι) :
    (ev.delReadwrite host fe).opers = (ev.delMasked host fe).opers := by
  unfold NioEvent.delReadwrite
  rw [opers_fflush, modify_opers]
  split <;> rfl

/-- A call asks for its own file. -/
theorem asksOnly_apply (ev : NioEvent ι κ π) (c : Call ι π) :
    AsksOnly c.file ev (ev.apply host c) := by
  cases c with
  | add dir fe proc =>
      show AsksOnly fe ev (ev.add host dir fe proc).2
      unfold NioEvent.add
      split
      · exact .same rfl
      split
      · exact .same rfl
      dsimp only
      split
      · split
        · exact .same rfl
        · refine AsksOnly.trans ?_ (.same rfl)
          split
          · exact AsksOnly.trans (.same rfl) (.oper (.add dir) (host.add dir))
          · exact .same (enqueue_opers _ fe)
      · exact .same rfl
  | del dir fe =>
      show AsksOnly fe ev (ev.del host dir fe)
      unfold NioEvent.del
      dsimp only
      refine AsksOnly.trans ?_ (.same rfl)
      split
      · split
        · exact AsksOnly.trans (.same rfl) (.oper (.del dir) (host.del dir))
        · exact .same (enqueue_opers _ fe)
      · exact .same rfl
  | delReadwrite fe =>
      exact (asksOnly_delMasked host ev fe).trans (.same (opers_delReadwrite ev fe))

theorem asksOnly_prepareOne (ev : NioEvent ι κ π) (fe : ι) :
    AsksOnly fe ev (ev.prepareOne host fe) := by
  have hp : ∀ (kind : OperKind) (op : EventOper ι κ π) (bit : NioFile π → Bool)
      (ev : NioEvent ι κ π), AsksOnly fe ev (ev.pending kind op bit fe) := by
    intro kind op bit ev
    unfold pending
    split
    · exact .oper _ _
    · exact .same rfl
  exact ((((hp _ _ _ ev).trans (hp _ _ _ _)).trans (hp _ _ _ _)).trans (hp _ _ _ _)).trans
    (.same rfl)

/-- Nothing is asked for a file of which nothing is registered, unless it is taken. -/
theorem Clear.opers {fe : ι} (h : ev.Clear fe) (hok : TypesOk host ev)
    (ha : ev.accepts host fe = false) {c : Call ι π} (hc : c.file = fe) :
    (ev.apply host c).opers = ev.opers := by
  have hmask : ∀ dir, (ev.files fe).mask dir = false := fun dir => (h.idle dir).1
  cases c with
  | add dir f proc =>
      change f = fe at hc
      subst hc
      show (ev.add host dir f proc).2.opers = ev.opers
      rcases (add_refused hok ha dir proc).2 with heq | ⟨-, -, heq⟩
      · rw [heq]
      · rw [heq]
        rfl
  | del dir f =>
      change f = fe at hc
      subst hc
      simp [NioEvent.apply, NioEvent.del, hmask]
  | delReadwrite f =>
      change f = fe at hc
      subst hc
      refine (opers_delReadwrite ev f).trans ?_
      unfold NioEvent.delMasked
      split
      · simp [hmask]
      · simp [hmask]

/-- Only files that pass the test are registered, pending or asked for. -/
structure Admits (host : Host ι κ π) (accepts : ι → Bool) (ev : NioEvent ι κ π) : Prop where
  follows : ∃ log, Loop.Follows host accepts ⟨ev, log⟩
  ringed : ev.Ringed
  clear : ∀ fe, accepts fe = false → ev.Clear fe
  asked : ∀ fe ∈ ev.asked, accepts fe = true

namespace Admits

theorem create (host : Host ι κ π) (oneshot direct : Bool) (setsize : Int) (fd : ι → Int)
    (backend : κ) :
    Admits host (fun fe => decide (fd fe < setsize) && host.espipe (fd fe))
      (.create oneshot direct setsize fd backend) := by
  refine ⟨⟨[], Loop.follows_start host oneshot direct setsize fd backend⟩, ringed_create _ _ _ _ _,
    fun _ _ => ⟨rfl, fun _ => ⟨rfl, rfl, rfl⟩⟩, ?_⟩
  rintro fe ⟨c, hc, -⟩
  cases hc

theorem of_asksOnly (h : ev.Admits host accepts) {ev' : NioEvent ι κ π} {fe : ι}
    (ho : AsksOnly fe ev ev') (hfe : accepts fe = false → ev'.opers = ev.opers) :
    ∀ e ∈ ev'.asked, accepts e = true := by
  rintro e ⟨c, hc, rfl⟩
  cases ha : accepts fe with
  | true =>
      rcases ho c hc with hc | hc
      · exact h.asked _ ⟨c, hc, rfl⟩
      · rw [hc, ha]
  | false =>
      rw [hfe ha] at hc
      exact h.asked _ ⟨c, hc, rfl⟩

/-- **A call keeps it.** -/
theorem apply (hs : host.Clears) (h : ev.Admits host accepts) (c : Call ι π) :
    (ev.apply host c).Admits host accepts := by
  obtain ⟨log, hf⟩ := h.follows
  refine ⟨⟨_, hf.call c⟩, h.ringed.apply hf.typesOk c, fun fe ha => ?_, ?_⟩
  · exact (h.clear fe ha).apply hs hf.typesOk h.ringed c fun _ _ _ => (hf.accepts_eq fe).trans ha
  · refine h.of_asksOnly (asksOnly_apply ev c) fun ha => ?_
    exact (h.clear _ ha).opers hf.typesOk ((hf.accepts_eq _).trans ha) rfl

/-- What is prepared was pending. -/
theorem prepareLoop (n : Nat) (ev : NioEvent ι κ π) (hc : ∀ fe, accepts fe = false → ev.Clear fe)
    (ha : ∀ fe ∈ ev.asked, accepts fe = true) :
    ∀ fe ∈ (prepareLoop host n ev).asked, accepts fe = true := by
  induction n generalizing ev with
  | zero => exact ha
  | succ n ih =>
      unfold NioEvent.prepareLoop
      split
      · exact ha
      · rename_i f hf
        have hlinked : ev.ring.linked f = true :=
          NioRing.linked_iff.mpr (List.mem_of_mem_head? hf)
        have hacc : accepts f = true := by
          by_contra hn
          rw [(hc f (by simpa using hn)).unlinked] at hlinked
          cases hlinked
        refine ih _ (fun fe hfe => ?_) ?_
        · have hne : fe ≠ f := by
            rintro rfl
            rw [hacc] at hfe
            cases hfe
          refine Untouched.clear ⟨prepareOne_other ev hne, ?_⟩ (hc fe hfe)
          rw [prepareOne_ring]
          exact (Untouched.detach hne ev).linked
        · rintro e ⟨c, hc, rfl⟩
          rcases asksOnly_prepareOne ev f c hc with hc | hc
          · exact ha _ ⟨c, hc, rfl⟩
          · rw [hc, hacc]

theorem prepare (h : ev.Admits host accepts) : (ev.prepare host).Admits host accepts := by
  obtain ⟨log, hf⟩ := h.follows
  exact ⟨⟨log, hf.keeps (prepare_keeps host ev) (typesOk_prepare hf.typesOk)⟩, ringed_prepare ev,
    fun fe ha => (h.clear fe ha).prepare, prepareLoop _ ev h.clear h.asked⟩

theorem setBackend (h : ev.Admits host accepts) (f : κ → κ) :
    (ev.setBackend f).Admits host accepts := by
  obtain ⟨log, hf⟩ := h.follows
  exact ⟨⟨log, hf.keeps ⟨rfl, rfl, rfl, fun _ => rfl, fun _ => rfl⟩ hf.typesOk⟩,
    ⟨h.ringed.nodup, h.ringed.sock⟩, fun fe ha => ⟨(h.clear fe ha).unlinked, (h.clear fe ha).idle⟩,
    h.asked⟩

/-- **A run keeps it.** -/
theorem turns (hs : host.Clears) {answer : ω → NioEvent ι κ π → NioEvent ι κ π}
    (hans : ∀ w ev, ∃ f : κ → κ, answer w ev = ev.setBackend f) (h : ev.Admits host accepts)
    (ts : List (Turn ι π ω)) : (ev.turns host answer ts).Admits host accepts := by
  induction ts generalizing ev with
  | nil => exact h
  | cons t ts ih =>
      refine ih ?_
      cases t with
      | call c => exact h.apply hs c
      | prepare => exact h.prepare
      | answer w =>
          obtain ⟨f, hw⟩ := hans w ev
          show (answer w ev).Admits host accepts
          rw [hw]
          exact h.setBackend f

end Admits

/-! ## All of some files -/

/-- **Files that pass the test are registered** after a prepare. -/
theorem registered_adds (hs : host.Succeeds) (oneshot direct : Bool) (setsize : Int)
    (fd : ι → Int) (backend : κ) (answer : ω → NioEvent ι κ π → NioEvent ι κ π) (proc : π)
    (fes : List ι) {fe : ι} (hfe : fe ∈ fes)
    (ha : (decide (fd fe < setsize) && host.espipe (fd fe)) = true) :
    fe ∈ ((create oneshot direct setsize fd backend : NioEvent ι κ π).turns host answer
      (fes.map (fun fe => .call (.add .read fe proc)) ++ [.prepare])).registered := by
  let s : Loop ι κ π := .start oneshot direct setsize fd backend
  let calls : List (Call ι π) := fes.map fun fe => .add .read fe proc
  have hev : ∀ s : Loop ι κ π, (s.ev.turns host answer (fes.map fun fe =>
      .call (.add .read fe proc)) : NioEvent ι κ π) = (calls.foldl (Loop.call host) s).ev := by
    simp only [calls]
    clear hfe
    induction fes with
    | nil => exact fun _ => rfl
    | cons f fes ih => exact fun s => ih (s.call host (.add .read f proc))
  have hturns : (create oneshot direct setsize fd backend : NioEvent ι κ π).turns host answer
      (fes.map (fun fe => .call (.add .read fe proc)) ++ [.prepare])
        = ((calls.foldl (Loop.call host) s).ev).prepare host := by
    rw [← hev s, NioEvent.turns, List.foldl_append]
    rfl
  -- each of the adds leaves the interest of its file, and of the files before it
  have hwanted : History.wanted (fun fe => decide (fd fe < setsize) && host.espipe (fd fe)) .read fe
      (calls.foldl (Loop.call host) s).log = true := by
    rw [((Loop.follows_start host oneshot direct setsize fd backend).calls calls).2]
    have hstep : ∀ (fes : List ι) (want : Bool), (want = true ∨ fe ∈ fes) →
        ((fes.map fun fe => (.call (.add .read fe proc) : Act ι π)).foldl (History.wantedStep
          (fun fe => decide (fd fe < setsize) && host.espipe (fd fe)) .read fe) want) = true := by
      intro fes
      induction fes with
      | nil => exact fun want h => h.resolve_right List.not_mem_nil
      | cons f fes ih =>
          intro want h
          rw [List.map_cons, List.foldl_cons]
          apply ih
          rw [History.wantedStep]
          rcases h with rfl | h
          · left
            split <;> rfl
          · rcases List.mem_cons.mp h with rfl | h
            · exact .inl (if_pos ⟨rfl, rfl, ha⟩)
            · exact .inr h
    simpa [History.wanted, calls, Loop.start, Function.comp_def] using
      hstep fes false (.inr hfe)
  rw [hturns, mem_registered]
  refine ⟨.read, ?_⟩
  cases direct with
  | true =>
      have hd := Loop.Direct.calls hs (Loop.direct_start host oneshot setsize fd backend) calls
      exact (hd.prepare.mask_eq fe .read).trans hwanted
  | false =>
      have hd := Loop.Deferred.calls hs (Loop.deferred_start host oneshot setsize fd backend) calls
      obtain ⟨hp, hring⟩ := hd.prepare hs
      have hidle := (hp.pending fe).idle (by rw [hring]; rfl) .read
      have hw := (hp.pending fe).want_eq .read
      rw [hidle.1, hidle.2, Bool.not_false, Bool.and_true, Bool.or_false] at hw
      exact hw.symm.trans hwanted

end NioEvent

end Libnio.Event
