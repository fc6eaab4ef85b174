import Libnio.Event.Deferred

/-!
# Event — what is asked of the backend

Whatever is called, the backend is asked for three things only: to add a side of
a file, to delete a side that is in the mask, and to delete both of a file that
has one. What these three keep, every call and every prepare keeps.
-/

namespace Libnio.Event

variable {ι κ π : Type}

namespace NioEvent

/-- Nothing has been asked of the backend from the first event to the second. -/
structure Unasked (ev ev' : NioEvent ι κ π) : Prop where
  oneshot : ev'.oneshot = ev.oneshot
  backend : ev'.backend = ev.backend
  opers : ev'.opers = ev.opers
  fd : ∀ fe, (ev'.files fe).fd = (ev.files fe).fd
  mask : ∀ fe, (ev'.files fe).mask = (ev.files fe).mask

theorem Unasked.refl (ev : NioEvent ι κ π) : Unasked ev ev :=
  ⟨rfl, rfl, rfl, fun _ => rfl, fun _ => rfl⟩

theorem Unasked.trans {ev₁ ev₂ ev₃ : NioEvent ι κ π} (h : Unasked ev₁ ev₂)
    (h' : Unasked ev₂ ev₃) : Unasked ev₁ ev₃ :=
  ⟨h'.oneshot.trans h.oneshot, h'.backend.trans h.backend, h'.opers.trans h.opers,
    fun fe => (h'.fd fe).trans (h.fd fe), fun fe => (h'.mask fe).trans (h.mask fe)⟩

/-- What waits to be deleted is in the mask, and nothing waits in direct mode. -/
def DelsHeld (ev : NioEvent ι κ π) : Prop :=
  ∀ fe dir, (ev.files fe).operDel dir = true →
    (ev.files fe).mask dir = true ∧ ev.direct = false

theorem delsHeld_create (oneshot direct : Bool) (setsize : Int) (fd : ι → Int) (backend : κ) :
    DelsHeld (create oneshot direct setsize fd backend : NioEvent ι κ π) := by
  intro fe dir h
  cases h

variable [DecidableEq ι]

/-- What the three operations of the backend keep, the first two asked for one
side and the other two only of what is in the mask. -/
structure Backed (host : Host ι κ π) (J : NioEvent ι κ π → Prop) : Prop where
  unasked : ∀ {ev ev'}, J ev → Unasked ev ev' → J ev'
  add : ∀ {ev}, J ev → ∀ dir fe, J (ev.oper (.add dir) (host.add dir) fe)
  del : ∀ {ev}, J ev → ∀ dir fe, (ev.files fe).mask dir = true →
    J (ev.oper (.del dir) (host.del dir) fe)
  delReadwrite : ∀ {ev}, J ev → ∀ op fe, host.delReadwrite = some op →
    ((ev.files fe).mask .read || (ev.files fe).mask .write) = true →
    J (ev.oper .delReadwrite op fe)
  fflush : ∀ {ev}, J ev → J (ev.fflush host)
  /-- A side that is not deleted stays in the mask. -/
  other : ∀ {dir d}, d ≠ dir → ∀ oneshot k fe file,
    (host.del dir oneshot k fe file).2 d = file.mask d

theorem unasked_modify (ev : NioEvent ι κ π) (fe : ι) {f : NioFile π → NioFile π}
    (hfd : ∀ file, (f file).fd = file.fd) (hmask : ∀ file, (f file).mask = file.mask) :
    Unasked ev (ev.modify fe f) := by
  refine ⟨rfl, rfl, rfl, fun e => ?_, fun e => ?_⟩
  · rw [modify_files]
    split
    · rename_i he
      rw [he, hfd]
    · rfl
  · rw [modify_files]
    split
    · rename_i he
      rw [he, hmask]
    · rfl

theorem unasked_enqueue (ev : NioEvent ι κ π) (fe : ι) : Unasked ev (ev.enqueue fe) := by
  unfold enqueue
  split <;> exact ⟨rfl, rfl, rfl, fun _ => rfl, fun _ => rfl⟩

omit [DecidableEq ι] in
theorem unasked_ring (ev : NioEvent ι κ π) (ring : NioRing ι) : Unasked ev { ev with ring } :=
  ⟨rfl, rfl, rfl, fun _ => rfl, fun _ => rfl⟩

theorem unasked_setType (ev : NioEvent ι κ π) (fe : ι) (type : FileType) :
    Unasked ev (ev.modify fe (·.setType type)) :=
  unasked_modify _ _ (fun _ => rfl) fun _ => rfl

theorem unasked_setOperAdd (ev : NioEvent ι κ π) (fe : ι) (dir : Dir) (b : Bool) :
    Unasked ev (ev.modify fe (·.setOperAdd dir b)) :=
  unasked_modify _ _ (fun _ => rfl) fun _ => rfl

theorem unasked_setOperDel (ev : NioEvent ι κ π) (fe : ι) (dir : Dir) (b : Bool) :
    Unasked ev (ev.modify fe (·.setOperDel dir b)) :=
  unasked_modify _ _ (fun _ => rfl) fun _ => rfl

theorem unasked_setProc (ev : NioEvent ι κ π) (fe : ι) (dir : Dir) (proc : Option π) :
    Unasked ev (ev.modify fe (·.setProc dir proc)) :=
  unasked_modify _ _ (fun _ => rfl) fun _ => rfl

theorem unasked_clearOper (ev : NioEvent ι κ π) (fe : ι) :
    Unasked ev (ev.modify fe (·.clearOper)) :=
  unasked_modify _ _ (fun _ => rfl) fun _ => rfl

/-! ## What waits -/

/-- Only the file `fe` has changed, and what waits of it is held. -/
theorem DelsHeld.at {ev ev' : NioEvent ι κ π} (h : ev.DelsHeld) (hd : ev'.direct = ev.direct)
    (fe : ι) (hother : ∀ e, e ≠ fe → ev'.files e = ev.files e)
    (hfe : ∀ dir, (ev'.files fe).operDel dir = true →
      (ev'.files fe).mask dir = true ∧ ev.direct = false) : ev'.DelsHeld := by
  intro e dir he
  rw [hd]
  by_cases hc : e = fe
  · rw [hc] at he ⊢
    exact hfe dir he
  · rw [hother e hc] at he ⊢
    exact h e dir he

theorem DelsHeld.modify {ev : NioEvent ι κ π} (h : ev.DelsHeld) (fe : ι)
    {f : NioFile π → NioFile π} (hmask : ∀ file, (f file).mask = file.mask)
    (hdel : ∀ file dir, (f file).operDel dir = true → file.operDel dir = true) :
    (ev.modify fe f).DelsHeld := by
  refine h.at rfl fe (fun e he => by rw [modify_files, if_neg he]) fun dir hd => ?_
  rw [modify_files, if_pos rfl] at hd ⊢
  rw [hmask]
  exact h fe dir (hdel _ dir hd)

theorem DelsHeld.enqueue {ev : NioEvent ι κ π} (h : ev.DelsHeld) (fe : ι) :
    (ev.enqueue fe).DelsHeld :=
  h.at (enqueue_direct ev fe) fe (fun e _ => by rw [enqueue_files])
    (by rw [enqueue_files]; exact h fe)

/-- In direct mode nothing waits, whatever the backend does. -/
theorem DelsHeld.oper {ev : NioEvent ι κ π} (h : ev.DelsHeld) (hd : ev.direct = true)
    (kind : OperKind) (op : EventOper ι κ π) (fe : ι) : (ev.oper kind op fe).DelsHeld := by
  have hnone : ∀ e dir, (ev.files e).operDel dir = false := by
    intro e dir
    by_contra hc
    have := (h e dir (by simpa using hc)).2
    rw [hd] at this
    cases this
  intro e dir he
  rw [oper_files] at he
  split at he
  · rw [hnone] at he
    cases he
  · rw [hnone] at he
    cases he

/-! ## The calls -/

variable {host : Host ι κ π} {J : NioEvent ι κ π → Prop}

theorem Backed.add_call (hb : Backed host J) {ev : NioEvent ι κ π} (hj : J ev)
    (hh : ev.DelsHeld) (dir : Dir) (fe : ι) (proc : π) :
    J (ev.add host dir fe proc).2 ∧ (ev.add host dir fe proc).2.DelsHeld := by
  have hdel : ∀ (file : NioFile π) d, (file.setOperDel dir false).operDel d = true →
      file.operDel d = true := by
    intro file d h
    by_cases hc : d = dir
    · subst hc
      simp at h
    · simpa [Function.update_of_ne hc] using h
  have hj₁ := hb.unasked hj (unasked_setOperDel ev fe dir false)
  have hh₁ := hh.modify fe (f := (·.setOperDel dir false)) (fun _ => rfl) hdel
  have hproc : ∀ ev : NioEvent ι κ π, J ev → ev.DelsHeld →
      J (ev.modify fe (·.setProc dir (some proc))) ∧
        (ev.modify fe (·.setProc dir (some proc))).DelsHeld := fun ev hj hh =>
    ⟨hb.unasked hj (unasked_setProc ev fe dir _), hh.modify fe (fun _ => rfl) fun _ _ h => h⟩
  unfold NioEvent.add
  split
  · exact ⟨hj, hh⟩
  split
  · exact ⟨hj, hh⟩
  dsimp only
  split
  · split
    · exact ⟨hb.unasked hj₁ (unasked_setType _ fe _), hh₁.modify fe (fun _ => rfl) fun _ _ h => h⟩
    · have hj₂ := hb.unasked hj₁ (unasked_setType _ fe .sock)
      have hh₂ : ((ev.modify fe (·.setOperDel dir false)).modify fe (·.setType .sock)).DelsHeld :=
        hh₁.modify fe (fun _ => rfl) fun _ _ h => h
      refine hproc _ ?_ ?_
      · refine hb.unasked ?_ (unasked_setOperAdd _ fe dir true)
        split
        · exact hb.add hj₂ dir fe
        · exact hb.unasked hj₂ (unasked_enqueue _ fe)
      · refine DelsHeld.modify ?_ fe (fun _ => rfl) fun _ _ h => h
        split
        · rename_i hd
          exact hh₂.oper hd _ _ fe
        · exact hh₂.enqueue fe
  · exact hproc _ hj₁ hh₁

theorem Backed.del_call (hb : Backed host J) {ev : NioEvent ι κ π} (hj : J ev)
    (hh : ev.DelsHeld) (dir : Dir) (fe : ι) :
    J (ev.del host dir fe) ∧ (ev.del host dir fe).DelsHeld := by
  have hj₁ := hb.unasked hj (unasked_setOperAdd ev fe dir false)
  have hh₁ : (ev.modify fe (·.setOperAdd dir false)).DelsHeld :=
    hh.modify fe (fun _ => rfl) fun _ _ h => h
  have hproc : ∀ ev : NioEvent ι κ π, J ev ∧ ev.DelsHeld →
      J (ev.modify fe (·.setProc dir none)) ∧
        (ev.modify fe (·.setProc dir none)).DelsHeld := fun ev h =>
    ⟨hb.unasked h.1 (unasked_setProc ev fe dir _), h.2.modify fe (fun _ => rfl) fun _ _ h => h⟩
  unfold NioEvent.del
  refine hproc _ ?_
  split
  · rename_i hm
    split
    · rename_i hd
      exact ⟨hb.del hj₁ dir fe hm, hh₁.oper hd _ _ fe⟩
    · rename_i hd
      have hj₂ := hb.unasked hj₁ (unasked_enqueue _ fe)
      refine ⟨hb.unasked hj₂ (unasked_setOperDel _ fe dir true), ?_⟩
      refine (hh₁.enqueue fe).at rfl fe (fun e he => by rw [modify_files, if_neg he]) ?_
      intro d h
      rw [enqueue_direct]
      refine ⟨?_, by simpa using hd⟩
      rw [modify_files, if_pos rfl, enqueue_files] at h ⊢
      by_cases hc : d = dir
      · rw [hc]
        exact hm
      · exact (hh₁ fe d (by simpa [Function.update_of_ne hc] using h)).1
  · exact ⟨hj₁, hh₁⟩

theorem Backed.delMasked (hb : Backed host J) {ev : NioEvent ι κ π} (hj : J ev) (fe : ι) :
    J (ev.delMasked host fe) := by
  have hside : ∀ (dir : Dir) (ev : NioEvent ι κ π), J ev →
      J (if (ev.files fe).mask dir then ev.oper (.del dir) (host.del dir) fe else ev) := by
    intro dir ev hj
    split
    · rename_i hm
      exact hb.del hj dir fe hm
    · exact hj
  unfold NioEvent.delMasked
  split
  · rename_i op hop
    split
    · rename_i hm
      exact hb.delReadwrite hj op fe hop hm
    · exact hj
  · exact hside .write _ (hside .read ev hj)

/-- `nio_event_del_readwrite` touches no other file. -/
theorem delMasked_other (ev : NioEvent ι κ π) {fe e : ι} (he : e ≠ fe) :
    (ev.delMasked host fe).files e = ev.files e := by
  have hside : ∀ (dir : Dir) (ev : NioEvent ι κ π),
      (if (ev.files fe).mask dir then ev.oper (.del dir) (host.del dir) fe else ev).files e
        = ev.files e := by
    intro dir ev
    split
    · rw [oper_files, if_neg he]
    · rfl
  unfold NioEvent.delMasked
  split
  · split
    · rw [oper_files, if_neg he]
    · rfl
  · dsimp only
    rw [hside .write, hside .read]

theorem Backed.delReadwrite_call (hb : Backed host J) {ev : NioEvent ι κ π} (hj : J ev)
    (hh : ev.DelsHeld) (fe : ι) :
    J (ev.delReadwrite host fe) ∧ (ev.delReadwrite host fe).DelsHeld := by
  constructor
  · unfold NioEvent.delReadwrite
    refine hb.fflush (hb.unasked ?_ (unasked_clearOper _ fe))
    rw [detach_ring]
    exact hb.unasked (hb.delMasked hj fe) (unasked_ring _ _)
  · have hk := delReadwrite_keeps host fe ev
    refine hh.at hk.direct fe (fun e he => ?_) (fun dir h => ?_)
    · obtain ⟨backend, hb⟩ := delReadwrite_eq host ev fe
      rw [hb]
      exact (modify_files _ fe _ e).trans ((if_neg he).trans (delMasked_other ev he))
    · obtain ⟨backend, hb⟩ := delReadwrite_eq host ev fe
      rw [hb] at h
      simp at h

theorem Backed.apply (hb : Backed host J) {ev : NioEvent ι κ π} (hj : J ev) (hh : ev.DelsHeld)
    (c : Call ι π) : J (ev.apply host c) ∧ (ev.apply host c).DelsHeld := by
  cases c with
  | add dir fe proc => exact hb.add_call hj hh dir fe proc
  | del dir fe => exact hb.del_call hj hh dir fe
  | delReadwrite fe => exact hb.delReadwrite_call hj hh fe

/-! ## Prepare -/

theorem pending_other (ev : NioEvent ι κ π) (kind : OperKind) (op : EventOper ι κ π)
    (bit : NioFile π → Bool) {fe e : ι} (he : e ≠ fe) :
    (ev.pending kind op bit fe).files e = ev.files e := by
  unfold pending
  split
  · rw [oper_files, if_neg he]
  · rfl

theorem prepareOne_other (ev : NioEvent ι κ π) {fe e : ι} (he : e ≠ fe) :
    (ev.prepareOne host fe).files e = ev.files e := by
  unfold prepareOne
  dsimp only
  rw [modify_files, if_neg he]
  dsimp only
  rw [pending_other _ _ _ _ he, pending_other _ _ _ _ he, pending_other _ _ _ _ he,
    pending_other _ _ _ _ he]

/-- The deletions come first, and the one of reading leaves the other in the mask. -/
theorem Backed.prepareOne (hb : Backed host J) {ev : NioEvent ι κ π} (hj : J ev)
    (hh : ev.DelsHeld) (fe : ι) :
    J (ev.prepareOne host fe) ∧ (ev.prepareOne host fe).DelsHeld := by
  have hadd : ∀ (dir : Dir) (ev : NioEvent ι κ π), J ev →
      J (ev.pending (.add dir) (host.add dir) (·.operAdd dir) fe) := by
    intro dir ev hj
    unfold pending
    split
    · exact hb.add hj dir fe
    · exact hj
  have hdel : ∀ (dir : Dir) (ev : NioEvent ι κ π), J ev →
      ((ev.files fe).operDel dir = true → (ev.files fe).mask dir = true) →
      J (ev.pending (.del dir) (host.del dir) (·.operDel dir) fe) := by
    intro dir ev hj hm
    unfold pending
    split
    · rename_i h
      exact hb.del hj dir fe (hm h)
    · exact hj
  have hwrite : (((ev.pending (.del .read) (host.del .read) (·.operDel .read) fe).files fe).operDel
      .write = true →
      ((ev.pending (.del .read) (host.del .read) (·.operDel .read) fe).files fe).mask .write
        = true) := by
    unfold pending
    split
    · rw [oper_files, if_pos rfl]
      intro h
      dsimp only
      rw [hb.other (by simp)]
      exact (hh fe .write h).1
    · exact fun h => (hh fe .write h).1
  constructor
  · have h₁ := hdel .read ev hj fun h => (hh fe .read h).1
    have h₂ := hadd .write _ (hadd .read _ (hdel .write _ h₁ hwrite))
    exact hb.unasked (hb.unasked h₂ (unasked_ring _ _)) (unasked_clearOper _ fe)
  · have hk := keeps_prepareOne host fe ev
    refine hh.at hk.direct fe (fun e he => prepareOne_other ev he) (fun dir h => ?_)
    simp [NioEvent.prepareOne] at h

theorem Backed.prepare (hb : Backed host J) {ev : NioEvent ι κ π} (hj : J ev)
    (hh : ev.DelsHeld) : J (ev.prepare host) ∧ (ev.prepare host).DelsHeld := by
  have hloop : ∀ (n : Nat) (ev : NioEvent ι κ π), J ev → ev.DelsHeld →
      J (prepareLoop host n ev) ∧ (prepareLoop host n ev).DelsHeld := by
    intro n
    induction n with
    | zero => exact fun ev hj hh => ⟨hj, hh⟩
    | succ n ih =>
        intro ev hj hh
        rw [prepareLoop]
        split
        · exact ⟨hj, hh⟩
        · obtain ⟨hj', hh'⟩ := hb.prepareOne hj hh _
          exact ih _ hj' hh'
  obtain ⟨hj', hh'⟩ := hloop ev.ring.entries.length ev hj hh
  exact ⟨hb.unasked hj' (unasked_ring _ _), hh'⟩

end NioEvent

end Libnio.Event
