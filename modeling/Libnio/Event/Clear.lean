import Libnio.Event.Requests

/-!
# Event — files that are registered for nothing

A file that is neither in the ring nor in the mask, with nothing pending: what
makes it so, and that only an add of this very file changes it.
-/

namespace Libnio.Event

variable {ι κ π : Type}

/-- The deletions of a backend take what they delete out of the mask, whatever
the kernel answers. -/
structure Host.Clears (host : Host ι κ π) : Prop where
  del : ∀ dir oneshot k fe file,
    (host.del dir oneshot k fe file).2 = Function.update file.mask dir false
  delReadwrite : ∀ op, host.delReadwrite = some op → ∀ oneshot k fe file,
    (op oneshot k fe file).2 = fun _ => false

theorem EventEpoll.host_clears (ctl : EpollCtl ι κ) (espipe : Int → Bool) :
    (EventEpoll.host ctl espipe : Host ι (EventEpoll κ) π).Clears := by
  refine ⟨?_, ?_⟩
  · intro dir oneshot k fe file
    cases dir
    all_goals
      simp only [host, delRead, delWrite]
      split <;> rfl
  · intro op hop oneshot k fe file
    cases hop
    simp only [EventEpoll.delReadwrite]
    split <;> rfl

/-- The file that a call is about. -/
def Call.file : Call ι π → ι
  | .add _ fe _ => fe
  | .del _ fe => fe
  | .delReadwrite fe => fe

namespace NioEvent

variable [DecidableEq ι] {host : Host ι κ π} {ev ev' ev'' : NioEvent ι κ π} {fe e : ι}

/-- The file is registered for nothing, and nothing is pending for it. -/
structure Clear (ev : NioEvent ι κ π) (fe : ι) : Prop where
  unlinked : ev.ring.linked fe = false
  idle : ∀ dir, (ev.files fe).mask dir = false ∧ (ev.files fe).operAdd dir = false ∧
    (ev.files fe).operDel dir = false

/-- Only sockets are in the ring, each once. -/
structure Ringed (ev : NioEvent ι κ π) : Prop where
  nodup : ev.ring.entries.Nodup
  sock : ∀ fe, ev.ring.linked fe = true → (ev.files fe).type = .sock

theorem ringed_create (oneshot direct : Bool) (setsize : Int) (fd : ι → Int) (backend : κ) :
    (create oneshot direct setsize fd backend : NioEvent ι κ π).Ringed :=
  ⟨List.nodup_nil, fun _ h => by cases h⟩

/-! ## Calls of other files -/

/-- The file is as it was, in the ring and out of it. -/
structure Untouched (e : ι) (ev ev' : NioEvent ι κ π) : Prop where
  files : ev'.files e = ev.files e
  linked : ev'.ring.linked e = ev.ring.linked e

namespace Untouched

theorem refl (ev : NioEvent ι κ π) : Untouched e ev ev := ⟨rfl, rfl⟩

theorem trans (h : Untouched e ev ev') (h' : Untouched e ev' ev'') : Untouched e ev ev'' :=
  ⟨h'.files.trans h.files, h'.linked.trans h.linked⟩

theorem modify (he : e ≠ fe) (ev : NioEvent ι κ π) (f : NioFile π → NioFile π) :
    Untouched e ev (ev.modify fe f) :=
  ⟨by rw [modify_files, if_neg he], rfl⟩

theorem oper (he : e ≠ fe) (ev : NioEvent ι κ π) (kind : OperKind) (op : EventOper ι κ π) :
    Untouched e ev (ev.oper kind op fe) :=
  ⟨by rw [oper_files, if_neg he], rfl⟩

theorem enqueue (he : e ≠ fe) (ev : NioEvent ι κ π) : Untouched e ev (ev.enqueue fe) := by
  refine ⟨?_, ?_⟩
  · unfold NioEvent.enqueue
    split <;> rfl
  · rw [linked_enqueue, decide_eq_false he, Bool.or_false]

theorem detach (he : e ≠ fe) (ev : NioEvent ι κ π) :
    Untouched e ev { ev with ring := ev.ring.detach fe } := by
  refine ⟨rfl, ?_⟩
  rw [Bool.eq_iff_iff, NioRing.linked_iff, NioRing.linked_iff]
  exact List.mem_erase_of_ne he

theorem clear (h : Untouched e ev ev') (hc : ev.Clear e) : ev'.Clear e :=
  ⟨h.linked.trans hc.unlinked, fun dir => by rw [h.files]; exact hc.idle dir⟩

end Untouched

/-- **A call touches its own file only.** -/
theorem apply_other (ev : NioEvent ι κ π) {c : Call ι π} (he : e ≠ c.file) :
    Untouched e ev (ev.apply host c) := by
  cases c with
  | add dir fe proc =>
      change e ≠ fe at he
      show Untouched e ev (ev.add host dir fe proc).2
      unfold NioEvent.add
      split
      · exact .refl ev
      split
      · exact .refl ev
      dsimp only
      split
      · split
        · exact (Untouched.modify he ev _).trans (.modify he _ _)
        · have htype := (Untouched.modify he ev (·.setOperDel dir false)).trans
            (.modify he _ (·.setType .sock))
          refine (htype.trans ?_).trans ((Untouched.modify he _ _).trans (.modify he _ _))
          split
          · exact .oper he _ _ _
          · exact .enqueue he _
      · exact (Untouched.modify he ev _).trans (.modify he _ _)
  | del dir fe =>
      change e ≠ fe at he
      show Untouched e ev (ev.del host dir fe)
      unfold NioEvent.del
      refine ((Untouched.modify he ev (·.setOperAdd dir false)).trans ?_).trans (.modify he _ _)
      split
      · split
        · exact .oper he _ _ _
        · exact (Untouched.enqueue he _).trans (.modify he _ _)
      · exact .refl _
  | delReadwrite fe =>
      change e ≠ fe at he
      show Untouched e ev (ev.delReadwrite host fe)
      obtain ⟨backend, heq⟩ := delReadwrite_eq host ev fe
      rw [heq]
      have hring := (Untouched.detach he ev).linked
      exact ⟨(modify_files _ fe _ e).trans ((if_neg he).trans (delMasked_other ev he)), hring⟩

/-! ## Calls of the file -/

/-- An event that does not take the file leaves it as it is. -/
theorem Clear.add (h : ev.Clear fe) (hok : TypesOk host ev) (ha : ev.accepts host fe = false)
    (dir : Dir) (proc : π) : (ev.add host dir fe proc).2.Clear fe := by
  rcases (add_refused hok ha dir proc).2 with heq | ⟨-, -, heq⟩
  · rw [heq]
    exact h
  · rw [heq]
    refine ⟨h.unlinked, ?_⟩
    intro d
    have hd := h.idle d
    simp only [modify_files, if_true, NioFile.setType_mask, NioFile.setType_operAdd,
      NioFile.setType_operDel, NioFile.setOperDel_mask, NioFile.setOperDel_operAdd,
      NioFile.setOperDel_operDel, Function.update_apply]
    refine ⟨hd.1, hd.2.1, ?_⟩
    split
    · rfl
    · exact hd.2.2

theorem Clear.del (h : ev.Clear fe) (dir : Dir) : (ev.del host dir fe).Clear fe := by
  have hmask : ((ev.modify fe (·.setOperAdd dir false)).files fe).mask dir = false := by
    rw [modify_files, if_pos rfl]
    exact (h.idle dir).1
  unfold NioEvent.del
  simp only [hmask, Bool.false_eq_true, if_false]
  refine ⟨h.unlinked, ?_⟩
  intro d
  have hd := h.idle d
  simp only [modify_files, if_true, NioFile.setProc_mask, NioFile.setProc_operAdd,
    NioFile.setProc_operDel, NioFile.setOperAdd_mask, NioFile.setOperAdd_operAdd,
    NioFile.setOperAdd_operDel, Function.update_apply]
  refine ⟨hd.1, ?_, hd.2.2⟩
  split
  · rfl
  · exact hd.2.1

/-- Both sides leave the mask. -/
theorem delMasked_mask (hc : host.Clears) (ev : NioEvent ι κ π) (fe : ι) (dir : Dir) :
    ((ev.delMasked host fe).files fe).mask dir = false := by
  unfold NioEvent.delMasked
  split
  · rename_i op hop
    split
    · rw [oper_files, if_pos rfl]
      exact congrFun (hc.delReadwrite op hop _ _ _ _) dir
    · rename_i hno
      cases dir <;> simp_all
  · dsimp only
    have hside : ∀ (d : Dir) (ev : NioEvent ι κ π),
        ((if (ev.files fe).mask d then ev.oper (.del d) (host.del d) fe else ev).files fe).mask
          = Function.update (ev.files fe).mask d false := by
      intro d ev
      split
      · rw [oper_files, if_pos rfl]
        exact hc.del d _ _ _ _
      · rename_i hno
        rw [Bool.not_eq_true] at hno
        rw [← hno, Function.update_eq_self]
    rw [hside, hside]
    cases dir <;> simp

/-- **`nio_event_del_readwrite`** leaves nothing of the file. -/
theorem clear_delReadwrite (hc : host.Clears) (hr : ev.Ringed) (fe : ι) :
    (ev.delReadwrite host fe).Clear fe := by
  obtain ⟨backend, heq⟩ := delReadwrite_eq host ev fe
  rw [heq]
  refine ⟨?_, ?_⟩
  · show (ev.ring.detach fe).linked fe = false
    rw [NioRing.linked_detach hr.nodup]
    simp
  · intro dir
    show (((ev.delMasked host fe).modify fe (·.clearOper)).files fe).mask dir = false ∧ _
    rw [modify_files, if_pos rfl]
    exact ⟨delMasked_mask hc ev fe dir, rfl, rfl⟩

/-- **One call.** Only an add that the event takes ends it. -/
theorem Clear.apply (hc : host.Clears) (hok : TypesOk host ev) (hr : ev.Ringed) (h : ev.Clear fe)
    (c : Call ι π) (hadd : ∀ dir proc, c = .add dir fe proc → ev.accepts host fe = false) :
    (ev.apply host c).Clear fe := by
  by_cases he : fe = c.file
  · cases c with
    | add dir f proc =>
        cases he
        exact h.add hok (hadd dir proc rfl) dir proc
    | del dir f =>
        cases he
        exact h.del dir
    | delReadwrite f =>
        cases he
        exact clear_delReadwrite hc hr _
  · exact (apply_other ev he).clear h

/-! ## The ring -/

namespace Ringed

theorem modify (h : ev.Ringed) (fe : ι) {f : NioFile π → NioFile π}
    (hf : ev.ring.linked fe = true → (f (ev.files fe)).type = .sock) : (ev.modify fe f).Ringed := by
  refine ⟨h.nodup, ?_⟩
  intro e he
  rw [modify_files]
  split
  · rename_i hfe
    exact hf (hfe ▸ he)
  · exact h.sock e he

theorem oper (h : ev.Ringed) (kind : OperKind) (op : EventOper ι κ π) (fe : ι) :
    (ev.oper kind op fe).Ringed := by
  refine ⟨h.nodup, ?_⟩
  intro e he
  rw [oper_files]
  split
  · rename_i hfe
    exact h.sock fe (hfe ▸ he)
  · exact h.sock e he

theorem enqueue (h : ev.Ringed) (fe : ι) (ht : (ev.files fe).type = .sock) :
    (ev.enqueue fe).Ringed := by
  refine ⟨nodup_enqueue h.nodup fe, ?_⟩
  intro e he
  have hfiles : (ev.enqueue fe).files = ev.files := by
    unfold NioEvent.enqueue
    split <;> rfl
  rw [linked_enqueue, Bool.or_eq_true, decide_eq_true_eq] at he
  rw [hfiles]
  rcases he with he | rfl
  · exact h.sock e he
  · exact ht

theorem add (h : ev.Ringed) (hok : TypesOk host ev) (dir : Dir) (fe : ι) (proc : π) :
    (ev.add host dir fe proc).2.Ringed := by
  have hdel : (ev.modify fe (·.setOperDel dir false)).Ringed := h.modify fe (h.sock fe)
  have hproc : ∀ {ev : NioEvent ι κ π}, ev.Ringed →
      (ev.modify fe (·.setProc dir (some proc))).Ringed := fun h => h.modify fe (h.sock fe)
  cases ha : ev.accepts host fe with
  | true =>
      rw [add_accepted hok ha]
      refine hproc ?_
      split
      · have htype := hdel.modify fe (f := (·.setType .sock)) fun _ => rfl
        unfold arm
        dsimp only
        split
        · have hoper := htype.oper (.add dir) (host.add dir) fe
          exact hoper.modify fe (hoper.sock fe)
        · have hqueue := htype.enqueue fe (by rw [modify_files, if_pos rfl]; rfl)
          exact hqueue.modify fe (hqueue.sock fe)
      · exact hdel
  | false =>
      rcases (add_refused hok ha dir proc).2 with heq | ⟨hnone, -, heq⟩
      · rw [heq]
        exact h
      · rw [heq]
        refine hdel.modify fe ?_
        -- a file of no type yet is not in the ring
        intro hl
        rw [h.sock fe hl] at hnone
        cases hnone

theorem del (h : ev.Ringed) (hok : TypesOk host ev) (dir : Dir) (fe : ι) :
    (ev.del host dir fe).Ringed := by
  have hadd : (ev.modify fe (·.setOperAdd dir false)).Ringed := h.modify fe (h.sock fe)
  have hproc : ∀ {ev : NioEvent ι κ π}, ev.Ringed →
      (ev.modify fe (·.setProc dir none)).Ringed := fun h => h.modify fe (h.sock fe)
  unfold NioEvent.del
  refine hproc ?_
  split
  · rename_i hm
    split
    · exact hadd.oper (.del dir) (host.del dir) fe
    · -- what is in the mask is a socket
      have hsock : (ev.files fe).type = .sock := by
        by_contra hn
        rw [modify_files, if_pos rfl] at hm
        change (ev.files fe).mask dir = true at hm
        rw [((hok fe).idle hn dir).1] at hm
        cases hm
      have hqueue := hadd.enqueue fe (by rw [modify_files, if_pos rfl]; exact hsock)
      exact hqueue.modify fe (hqueue.sock fe)
  · exact hadd

theorem delReadwrite (h : ev.Ringed) (fe : ι) : (ev.delReadwrite host fe).Ringed := by
  obtain ⟨backend, heq⟩ := delReadwrite_eq host ev fe
  rw [heq]
  refine ⟨NioRing.nodup_detach h.nodup fe, ?_⟩
  intro e he
  change (ev.ring.detach fe).linked e = true at he
  rw [NioRing.linked_detach h.nodup, Bool.and_eq_true, Bool.not_eq_true', decide_eq_false_iff_not]
    at he
  show (((ev.delMasked host fe).modify fe (·.clearOper)).files e).type = .sock
  rw [modify_files, if_neg he.2, delMasked_other ev he.2]
  exact h.sock e he.1

theorem apply (h : ev.Ringed) (hok : TypesOk host ev) (c : Call ι π) :
    (ev.apply host c).Ringed := by
  cases c with
  | add dir fe proc => exact h.add hok dir fe proc
  | del dir fe => exact h.del hok dir fe
  | delReadwrite fe => exact h.delReadwrite fe

end Ringed

/-- What is no socket has never been registered. -/
theorem Ringed.clear (h : ev.Ringed) (hok : TypesOk host ev)
    (hs : host.espipe (ev.files fe).fd = false) : ev.Clear fe := by
  have ht : (ev.files fe).type ≠ .sock := by
    intro ht
    rw [(hok fe).sock ht] at hs
    cases hs
  refine ⟨?_, (hok fe).idle ht⟩
  by_contra hl
  rw [Bool.not_eq_false] at hl
  exact ht (h.sock fe hl)

/-- `nio_event_prepare` leaves the ring empty. -/
theorem ringed_prepare (ev : NioEvent ι κ π) : (ev.prepare host).Ringed := by
  refine ⟨List.nodup_nil, ?_⟩
  intro fe h
  cases h

/-- What is not in the ring is left alone. -/
theorem Clear.prepare (h : ev.Clear fe) : (ev.prepare host).Clear fe := by
  have hloop : ∀ (n : Nat) (ev : NioEvent ι κ π), ev.Clear fe →
      (prepareLoop host n ev).Clear fe := by
    intro n
    induction n with
    | zero => exact fun ev h => h
    | succ n ih =>
        intro ev h
        unfold prepareLoop
        split
        · exact h
        · rename_i f hf
          refine ih _ ?_
          -- the file is not in the ring, so another one is taken out
          have hne : fe ≠ f := by
            rintro rfl
            have hmem := List.mem_of_mem_head? hf
            rw [← NioRing.linked_iff, h.unlinked] at hmem
            cases hmem
          have hfile : (ev.prepareOne host f).files fe = ev.files fe := prepareOne_other ev hne
          refine Untouched.clear ⟨hfile, ?_⟩ h
          rw [prepareOne_ring]
          exact (Untouched.detach hne ev).linked
  have hl := hloop ev.ring.entries.length ev h
  exact ⟨rfl, hl.idle⟩

end NioEvent

end Libnio.Event
