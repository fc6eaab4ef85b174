import Libnio.Event.History
import Libnio.Event.Epoll

/-!
# Event — deferred and direct registration

Without `NIO_EVENT_DIRECT` a call only leaves bits in `oper` and the file in
the pending ring, for `nio_event_prepare` to hand to the backend. `Pending` is
what those bits mean; `deferred_refines_direct` says that after a prepare every
file is registered as it is when each call goes to the backend at once.
-/

namespace Libnio.Event

variable {ι κ π : Type}

/-- What is registered and what is pending come to the interest `want`. -/
structure Pending (file : NioFile π) (linked : Bool) (want : Dir → Bool) : Prop where
  want_eq : ∀ dir, want dir = ((file.mask dir && !file.operDel dir) || file.operAdd dir)
  /-- Only what is registered is to be deleted, and it is not to be added too. -/
  del_masked : ∀ dir, file.operDel dir = true →
    file.mask dir = true ∧ file.operAdd dir = false
  /-- A file outside of the ring has nothing pending. -/
  idle : linked = false → ∀ dir, file.operAdd dir = false ∧ file.operDel dir = false

/-- A backend `del_read` or `del_write` finds its side in the mask. -/
def DelsMasked (opers : List (OperCall ι)) : Prop :=
  ∀ c ∈ opers, ∀ dir, c.kind = .del dir → c.mask dir = true

theorem DelsMasked.snoc {opers : List (OperCall ι)} (h : DelsMasked opers) {c : OperCall ι}
    (hc : ∀ dir, c.kind = .del dir → c.mask dir = true) : DelsMasked (opers ++ [c]) := by
  intro c' hc' dir hk
  rcases List.mem_append.mp hc' with hc' | hc'
  · exact h c' hc' dir hk
  · rw [List.mem_singleton.mp hc'] at hk ⊢
    exact hc dir hk

namespace Pending

variable {file : NioFile π} {linked : Bool} {want : Dir → Bool}

/-- A call that adds a side which is not registered, or registers it anew. -/
theorem arm (h : Pending file linked want) (dir : Dir) {file' : NioFile π}
    (hm : file'.mask = file.mask) (ha : file'.operAdd = Function.update file.operAdd dir true)
    (hd : file'.operDel = Function.update file.operDel dir false) :
    Pending file' true (Function.update want dir true) := by
  refine ⟨fun d => ?_, fun d => ?_, fun hc => (by cases hc)⟩
  · rw [hm, ha, hd]
    by_cases hdir : d = dir
    · simp [hdir]
    · simp [hdir, h.want_eq d]
  · rw [hm, ha, hd]
    by_cases hdir : d = dir
    · simp [hdir]
    · simpa [hdir] using h.del_masked d

/-- A call that adds a side which is registered. -/
theorem keep (h : Pending file linked want) (dir : Dir) {file' : NioFile π}
    (hmask : file.mask dir = true) (hm : file'.mask = file.mask)
    (ha : file'.operAdd = file.operAdd)
    (hd : file'.operDel = Function.update file.operDel dir false) :
    Pending file' linked (Function.update want dir true) := by
  refine ⟨fun d => ?_, fun d => ?_, fun hl d => ?_⟩
  · rw [hm, ha, hd]
    by_cases hdir : d = dir
    · simp [hdir, hmask]
    · simp [hdir, h.want_eq d]
  · rw [hm, ha, hd]
    by_cases hdir : d = dir
    · simp [hdir]
    · simpa [hdir] using h.del_masked d
  · rw [ha, hd]
    refine ⟨(h.idle hl d).1, ?_⟩
    by_cases hdir : d = dir
    · simp [hdir]
    · simpa [hdir] using (h.idle hl d).2

/-- A call that deletes a side which is registered. -/
theorem del (h : Pending file linked want) (dir : Dir) {file' : NioFile π}
    (hmask : file.mask dir = true) (hm : file'.mask = file.mask)
    (ha : file'.operAdd = Function.update file.operAdd dir false)
    (hd : file'.operDel = Function.update file.operDel dir true) :
    Pending file' true (Function.update want dir false) := by
  refine ⟨fun d => ?_, fun d => ?_, fun hc => (by cases hc)⟩
  · rw [hm, ha, hd]
    by_cases hdir : d = dir
    · simp [hdir]
    · simp [hdir, h.want_eq d]
  · rw [hm, ha, hd]
    by_cases hdir : d = dir
    · simp [hdir, hmask]
    · simpa [hdir] using h.del_masked d

/-- A call that deletes a side which is not registered. -/
theorem forget (h : Pending file linked want) (dir : Dir) {file' : NioFile π}
    (hmask : file.mask dir = false) (hm : file'.mask = file.mask)
    (ha : file'.operAdd = Function.update file.operAdd dir false)
    (hd : file'.operDel = file.operDel) :
    Pending file' linked (Function.update want dir false) := by
  have hdel : file.operDel dir = false := by
    by_contra hc
    rw [Bool.not_eq_false] at hc
    rw [(h.del_masked dir hc).1] at hmask
    cases hmask
  refine ⟨fun d => ?_, fun d => ?_, fun hl d => ?_⟩
  · rw [hm, ha, hd]
    by_cases hdir : d = dir
    · simp [hdir, hmask]
    · simp [hdir, h.want_eq d]
  · rw [hm, ha, hd]
    by_cases hdir : d = dir
    · simp [hdir, hdel]
    · simpa [hdir] using h.del_masked d
  · rw [ha, hd]
    refine ⟨?_, (h.idle hl d).2⟩
    by_cases hdir : d = dir
    · simp [hdir]
    · simpa [hdir] using (h.idle hl d).1

/-- Nothing is pending, and the mask is the interest. -/
theorem settled {file : NioFile π} {want : Dir → Bool} (linked : Bool)
    (hm : ∀ dir, file.mask dir = want dir) (ha : ∀ dir, file.operAdd dir = false)
    (hd : ∀ dir, file.operDel dir = false) : Pending file linked want := by
  refine ⟨fun d => ?_, fun d hc => ?_, fun _ d => ⟨ha d, hd d⟩⟩
  · simp [hm, ha, hd]
  · rw [hd] at hc
    cases hc

end Pending

variable [DecidableEq ι]

namespace History

/-- What one act makes of the interest in side `dir` of `fe`. -/
def wantedStep (accepts : ι → Bool) (dir : Dir) (fe : ι) (want : Bool) : Act ι π → Bool
  | .call (.add d f _) => if f = fe ∧ d = dir ∧ accepts f = true then true else want
  | .call (.del d f) => if f = fe ∧ d = dir then false else want
  | .call (.delReadwrite f) => if f = fe then false else want
  | .invoke _ _ _ => want

/-- The last call about side `dir` of `fe` is an add, which is accepted. -/
def wanted (accepts : ι → Bool) (dir : Dir) (fe : ι) (log : List (Act ι π)) : Bool :=
  log.foldl (wantedStep accepts dir fe) false

variable {accepts : ι → Bool}

theorem wanted_snoc (dir : Dir) (fe : ι) (log : List (Act ι π)) (a : Act ι π) :
    wanted accepts dir fe (log ++ [a])
      = wantedStep accepts dir fe (wanted accepts dir fe log) a := by
  rw [wanted, List.foldl_append]
  rfl

end History

namespace NioEvent

variable (host : Host ι κ π)

@[simp] theorem linked_enqueue (ev : NioEvent ι κ π) (fe e : ι) :
    (ev.enqueue fe).ring.linked e = (ev.ring.linked e || decide (e = fe)) := by
  unfold enqueue
  split
  · exact NioRing.linked_prepend ev.ring fe e
  · rename_i hl
    by_cases he : e = fe
    · rw [he, decide_eq_true rfl, Bool.or_true]
      simpa using hl
    · rw [decide_eq_false he, Bool.or_false]

theorem nodup_enqueue {ev : NioEvent ι κ π} (h : ev.ring.entries.Nodup) (fe : ι) :
    (ev.enqueue fe).ring.entries.Nodup := by
  unfold enqueue
  split
  · rename_i hl
    exact NioRing.nodup_prepend h (by simpa using hl)
  · exact h

@[simp] theorem enqueue_opers (ev : NioEvent ι κ π) (fe : ι) :
    (ev.enqueue fe).opers = ev.opers := by
  unfold enqueue
  split <;> rfl

theorem modify_modify (ev : NioEvent ι κ π) (fe : ι) (f g : NioFile π → NioFile π) :
    (ev.modify fe f).modify fe g = ev.modify fe fun file => g (f file) := by
  simp [modify]

theorem enqueue_modify (ev : NioEvent ι κ π) (fe : ι) (f : NioFile π → NioFile π) :
    (ev.modify fe f).enqueue fe = (ev.enqueue fe).modify fe f := by
  unfold enqueue
  rw [modify_ring]
  split <;> rfl

variable {host} in
/-- Adding in deferred mode. -/
theorem add_deferred {ev : NioEvent ι κ π} {fe : ι} (hok : TypesOk host ev)
    (ha : ev.accepts host fe = true) (hd : ev.direct = false) (dir : Dir) (proc : π) :
    (ev.add host dir fe proc).2 =
      if (!(ev.files fe).mask dir || ev.oneshot) = true then
        (ev.enqueue fe).modify fe fun file =>
          { file with
            type := .sock
            operDel := Function.update file.operDel dir false
            operAdd := Function.update file.operAdd dir true
            proc := Function.update file.proc dir (some proc) }
      else
        ev.modify fe fun file =>
          { file with
            operDel := Function.update file.operDel dir false
            proc := Function.update file.proc dir (some proc) } := by
  rw [add_accepted hok ha]
  simp only [modify_files, modify_oneshot, if_true, NioFile.setOperDel_mask, arm, modify_direct,
    hd, Bool.false_eq_true, if_false, enqueue_modify, modify_modify]
  split
  · rw [modify_modify]
    rfl
  · rw [modify_modify]
    rfl

/-- Deleting in deferred mode. -/
theorem del_deferred {ev : NioEvent ι κ π} (hd : ev.direct = false) (dir : Dir) (fe : ι) :
    ev.del host dir fe =
      if (ev.files fe).mask dir = true then
        (ev.enqueue fe).modify fe fun file =>
          { file with
            operAdd := Function.update file.operAdd dir false
            operDel := Function.update file.operDel dir true
            proc := Function.update file.proc dir none }
      else
        ev.modify fe fun file =>
          { file with
            operAdd := Function.update file.operAdd dir false
            proc := Function.update file.proc dir none } := by
  simp only [del, modify_files, if_true, NioFile.setOperAdd_mask, modify_direct,
    hd, Bool.false_eq_true, if_false, enqueue_modify, modify_modify]
  split
  · rw [modify_modify]
    rfl
  · rw [modify_modify]
    rfl

@[simp] theorem enqueue_direct (ev : NioEvent ι κ π) (fe : ι) :
    (ev.enqueue fe).direct = ev.direct := by
  unfold enqueue
  split <;> rfl

section Succeeds

variable {host}

theorem oper_del (hs : host.Succeeds) (ev : NioEvent ι κ π) (dir : Dir) (fe e : ι) :
    (ev.oper (.del dir) (host.del dir) fe).files e
      = if e = fe then
          { ev.files fe with mask := Function.update (ev.files fe).mask dir false }
        else ev.files e := by
  rw [oper_files, hs.del]

theorem oper_add (hs : host.Succeeds) (ev : NioEvent ι κ π) (dir : Dir) (fe e : ι) :
    (ev.oper (.add dir) (host.add dir) fe).files e
      = if e = fe then
          { ev.files fe with mask := Function.update (ev.files fe).mask dir true }
        else ev.files e := by
  rw [oper_files, hs.add]

/-- One side of `nio_event_del_readwrite`, where the backend has nothing for both. -/
theorem delSide_files (hs : host.Succeeds) (ev : NioEvent ι κ π) (dir : Dir) (fe e : ι) :
    (if (ev.files fe).mask dir then ev.oper (.del dir) (host.del dir) fe else ev).files e
      = if e = fe then
          { ev.files fe with mask := Function.update (ev.files fe).mask dir false }
        else ev.files e := by
  split
  · exact oper_del hs ev dir fe e
  · rename_i hm
    split
    · rename_i he
      rw [Bool.not_eq_true] at hm
      rw [he, Function.update_eq_self_iff.mpr hm.symm]
    · rfl

/-- What a backend leaves of the files when both sides of `fe` are deleted. -/
theorem delMasked_files (hs : host.Succeeds) (ev : NioEvent ι κ π) (fe e : ι) :
    (ev.delMasked host fe).files e
      = if e = fe then { ev.files fe with mask := fun _ => false } else ev.files e := by
  unfold delMasked
  split
  · rename_i op hop
    split
    · rw [oper_files, hs.delReadwrite op hop]
    · rename_i hm
      rw [Bool.or_eq_true, not_or, Bool.not_eq_true, Bool.not_eq_true] at hm
      have hmask : (ev.files fe).mask = fun _ => false := by
        funext d
        cases d
        · exact hm.1
        · exact hm.2
      split
      · rename_i he
        rw [he, ← hmask]
      · rfl
  · have hr := delSide_files hs ev .read fe
    generalize (if (ev.files fe).mask .read then
      ev.oper (.del .read) (host.del .read) fe else ev) = ev₁ at hr ⊢
    have hm : Function.update (Function.update (ev.files fe).mask .read false) .write false
        = fun _ => false := by
      funext d
      cases d <;> rfl
    rw [delSide_files hs, hr fe, hr e, if_pos rfl]
    split
    · dsimp only
      rw [hm]
    · rfl

variable (host) in
theorem delMasked_dels {ev : NioEvent ι κ π} (h : DelsMasked ev.opers) (fe : ι) :
    DelsMasked (ev.delMasked host fe).opers := by
  have hside : ∀ (dir : Dir) (ev : NioEvent ι κ π), DelsMasked ev.opers → DelsMasked
      (if (ev.files fe).mask dir then ev.oper (.del dir) (host.del dir) fe else ev).opers := by
    intro dir ev h
    split
    · rename_i hm
      refine h.snoc fun d hk => ?_
      cases hk
      exact hm
    · exact h
  unfold delMasked
  split
  · split
    · exact h.snoc fun d hk => (by cases hk)
    · exact h
  · exact hside .write _ (hside .read ev h)

theorem delMasked_ring (ev : NioEvent ι κ π) (fe : ι) :
    (ev.delMasked host fe).ring = ev.ring := by
  have hside : ∀ (dir : Dir) (ev : NioEvent ι κ π),
      (if (ev.files fe).mask dir then ev.oper (.del dir) (host.del dir) fe else ev).ring
        = ev.ring := by
    intro dir ev
    split <;> rfl
  unfold delMasked
  split
  · split <;> rfl
  · rw [hside, hside]

/-- `nio_event_del_readwrite` takes a file out of the ring that is in it. -/
theorem detach_ring (ev : NioEvent ι κ π) (fe : ι) :
    (if ev.ring.linked fe then { ev with ring := ev.ring.detach fe } else ev)
      = { ev with ring := ev.ring.detach fe } := by
  split
  · rfl
  · rename_i hl
    rw [NioRing.linked_iff] at hl
    rw [NioRing.detach, List.erase_of_not_mem hl]

variable (host) in
theorem delReadwrite_eq (ev : NioEvent ι κ π) (fe : ι) :
    ∃ backend, ev.delReadwrite host fe =
      { (ev.delMasked host fe).modify fe (·.clearOper) with
        ring := ev.ring.detach fe, backend } := by
  have hring := detach_ring (ev.delMasked host fe) fe
  rw [delMasked_ring] at hring
  simp only [delReadwrite, delMasked_ring, hring]
  unfold fflush
  split <;> exact ⟨_, rfl⟩

/-- One bit of `oper`, as `nio_event_prepare` hands it on: the mask of the side it is
about follows it. -/
theorem pending_files {ev : NioEvent ι κ π} {kind : OperKind} {op : EventOper ι κ π} {dir : Dir}
    {fe : ι} {b : Bool} (bit : NioFile π → Bool)
    (hop : ∀ e, (ev.oper kind op fe).files e
      = if e = fe then
          { ev.files fe with mask := Function.update (ev.files fe).mask dir b }
        else ev.files e) (e : ι) :
    (ev.pending kind op bit fe).files e
      = if e = fe then
          { ev.files fe with
            mask := if bit (ev.files fe) then Function.update (ev.files fe).mask dir b
              else (ev.files fe).mask }
        else ev.files e := by
  unfold pending
  split
  · exact hop e
  · split
    · rename_i he
      rw [he]
    · rfl

theorem pendingDel_files (hs : host.Succeeds) (ev : NioEvent ι κ π) (dir : Dir) (fe e : ι) :
    (ev.pending (.del dir) (host.del dir) (·.operDel dir) fe).files e
      = if e = fe then
          { ev.files fe with
            mask := if (ev.files fe).operDel dir then
              Function.update (ev.files fe).mask dir false else (ev.files fe).mask }
        else ev.files e :=
  pending_files (·.operDel dir) (oper_del hs ev dir fe) e

theorem pendingAdd_files (hs : host.Succeeds) (ev : NioEvent ι κ π) (dir : Dir) (fe e : ι) :
    (ev.pending (.add dir) (host.add dir) (·.operAdd dir) fe).files e
      = if e = fe then
          { ev.files fe with
            mask := if (ev.files fe).operAdd dir then
              Function.update (ev.files fe).mask dir true else (ev.files fe).mask }
        else ev.files e :=
  pending_files (·.operAdd dir) (oper_add hs ev dir fe) e

/-- What a round of `nio_event_prepare` makes of its file. -/
theorem prepareOne_files (hs : host.Succeeds) (ev : NioEvent ι κ π) (fe e : ι) :
    (ev.prepareOne host fe).files e
      = if e = fe then
          { (ev.files fe).clearOper with
            mask := fun dir => ((ev.files fe).mask dir && !(ev.files fe).operDel dir)
              || (ev.files fe).operAdd dir }
        else ev.files e := by
  have h₁ := pendingDel_files hs ev .read fe
  simp only [prepareOne, modify_files]
  generalize ev.pending (.del .read) (host.del .read) (·.operDel .read) fe = ev₁ at h₁ ⊢
  have h₂ := pendingDel_files hs ev₁ .write fe
  generalize ev₁.pending (.del .write) (host.del .write) (·.operDel .write) fe = ev₂ at h₂ ⊢
  have h₃ := pendingAdd_files hs ev₂ .read fe
  generalize ev₂.pending (.add .read) (host.add .read) (·.operAdd .read) fe = ev₃ at h₃ ⊢
  have h₄ := pendingAdd_files hs ev₃ .write fe
  rw [h₄ e, h₄ fe, if_pos rfl]
  split
  · rw [h₃ fe, if_pos rfl, h₂ fe, if_pos rfl, h₁ fe, if_pos rfl]
    simp only [NioFile.clearOper, NioFile.mk.injEq, true_and, and_true]
    funext d
    cases d <;> cases hdr : (ev.files fe).operDel .read <;>
      cases hdw : (ev.files fe).operDel .write <;> cases har : (ev.files fe).operAdd .read <;>
      cases haw : (ev.files fe).operAdd .write <;> simp
  · rename_i he
    rw [h₃ e, if_neg he, h₂ e, if_neg he, h₁ e, if_neg he]

theorem pending_ring (ev : NioEvent ι κ π) (kind : OperKind) (op : EventOper ι κ π)
    (bit : NioFile π → Bool) (fe : ι) : (ev.pending kind op bit fe).ring = ev.ring := by
  unfold pending
  split <;> rfl

theorem prepareOne_ring (ev : NioEvent ι κ π) (fe : ι) :
    (ev.prepareOne host fe).ring = ev.ring.detach fe := by
  simp only [prepareOne, modify_ring, pending_ring]

theorem pending_dels {ev : NioEvent ι κ π} (h : DelsMasked ev.opers) {kind : OperKind}
    {op : EventOper ι κ π} {bit : NioFile π → Bool} {fe : ι}
    (hbit : bit (ev.files fe) = true → ∀ dir, kind = .del dir → (ev.files fe).mask dir = true) :
    DelsMasked (ev.pending kind op bit fe).opers := by
  unfold pending
  split
  · rename_i hb
    exact h.snoc (hbit hb)
  · exact h

/-- The deletions come first, on sides that are in the mask. -/
theorem prepareOne_dels {ev : NioEvent ι κ π} (hs : host.Succeeds) (h : DelsMasked ev.opers)
    (fe : ι) (hdel : ∀ dir, (ev.files fe).operDel dir = true → (ev.files fe).mask dir = true) :
    DelsMasked (ev.prepareOne host fe).opers := by
  have h₁ := pendingDel_files hs ev .read fe fe
  have d₁ : DelsMasked
      (ev.pending (.del .read) (host.del .read) (·.operDel .read) fe).opers :=
    pending_dels h fun hb dir hk => (by cases hk; exact hdel .read hb)
  simp only [prepareOne, modify_opers]
  generalize ev.pending (.del .read) (host.del .read) (·.operDel .read) fe = ev₁ at h₁ d₁ ⊢
  have d₂ : DelsMasked
      (ev₁.pending (.del .write) (host.del .write) (·.operDel .write) fe).opers := by
    refine pending_dels d₁ fun hb dir hk => ?_
    cases hk
    rw [h₁, if_pos rfl] at hb ⊢
    have hw := hdel .write hb
    simp only
    split
    · simpa using hw
    · exact hw
  exact pending_dels (pending_dels d₂ fun _ _ hk => (by cases hk)) fun _ _ hk => (by cases hk)

end Succeeds

end NioEvent

namespace Loop

open History NioEvent

variable {host : Host ι κ π} {accepts : ι → Bool}

/-- A run of the deferred mode, between two calls. -/
structure Deferred (host : Host ι κ π) (accepts : ι → Bool) (s : Loop ι κ π) : Prop where
  follows : s.Follows host accepts
  direct_eq : s.ev.direct = false
  nodup : s.ev.ring.entries.Nodup
  pending : ∀ fe, Pending (s.ev.files fe) (s.ev.ring.linked fe)
    fun dir => wanted accepts dir fe s.log
  dels : DelsMasked s.ev.opers

theorem deferred_start (host : Host ι κ π) (oneshot : Bool) (setsize : Int) (fd : ι → Int)
    (backend : κ) :
    (start oneshot false setsize fd backend : Loop ι κ π).Deferred host
      fun fe => decide (fd fe < setsize) && host.espipe (fd fe) :=
  ⟨follows_start host oneshot false setsize fd backend, rfl, List.nodup_nil,
    fun _ => .settled _ (fun _ => rfl) (fun _ => rfl) fun _ => rfl,
    fun _ hc => absurd hc List.not_mem_nil⟩

/-- The interest in the sides of `fe` after a call about it. -/
theorem wanted_update {log : List (Act ι π)} {a : Act ι π} {fe : ι} {dir : Dir} {b : Bool}
    (ha : ∀ d want, wantedStep accepts d fe want a = if d = dir then b else want) :
    (fun d => wanted accepts d fe (log ++ [a]))
      = Function.update (fun d => wanted accepts d fe log) dir b := by
  funext d
  rw [wanted_snoc, ha, Function.update_apply]

/-- A call about `fe` that leaves the other files alone. -/
theorem Deferred.of_call {s : Loop ι κ π} (h : s.Deferred host accepts) {ev : NioEvent ι κ π}
    {a : Act ι π} (fe : ι) (hf : Follows host accepts ⟨ev, s.log ++ [a]⟩)
    (hn : ev.ring.entries.Nodup)
    (hfe : Pending (ev.files fe) (ev.ring.linked fe)
      fun dir => wanted accepts dir fe (s.log ++ [a]))
    (hne : ∀ e, e ≠ fe → ev.files e = s.ev.files e ∧
      ev.ring.linked e = s.ev.ring.linked e ∧ ∀ d want, wantedStep accepts d e want a = want)
    (hd : ev.direct = false) (hdels : DelsMasked ev.opers) :
    Deferred host accepts ⟨ev, s.log ++ [a]⟩ := by
  refine ⟨hf, hd, hn, fun e => ?_, hdels⟩
  by_cases he : e = fe
  · subst he
    exact hfe
  · obtain ⟨hfile, hl, hw⟩ := hne e he
    simp only [hfile, hl, wanted_snoc, hw]
    exact h.pending e

/-- An add that the event accepts. -/
theorem Deferred.add_accepted {s : Loop ι κ π} (h : s.Deferred host accepts) (dir : Dir) {fe : ι}
    (hacc : accepts fe = true) (proc : π) :
    (s.call host (.add dir fe proc)).Deferred host accepts := by
  have hf := h.follows.call (.add dir fe proc)
  have hev := add_deferred h.follows.typesOk ((h.follows.accepts_eq fe).trans hacc)
    h.direct_eq dir proc
  have hwant : (fun d => wanted accepts d fe (s.log ++ [.call (.add dir fe proc)]))
      = Function.update (fun d => wanted accepts d fe s.log) dir true :=
    wanted_update (by simp [wantedStep, hacc, eq_comm])
  have hother : ∀ e, e ≠ fe → ∀ d want,
      wantedStep accepts d e want (.call (.add dir fe proc)) = want := by
    intro e he d want
    rw [wantedStep, if_neg fun hc => he hc.1.symm]
  by_cases harm : (!(s.ev.files fe).mask dir || s.ev.oneshot) = true
  · -- there is something to hand to the backend
    rw [if_pos harm] at hev
    refine h.of_call fe hf ?_ ?_ (fun e he => ⟨?_, ?_, hother e he⟩) ?_ ?_
    all_goals rw [NioEvent.apply, hev]
    · exact nodup_enqueue h.nodup fe
    · rw [hwant, modify_files, if_pos rfl, enqueue_files, modify_ring, linked_enqueue,
        decide_eq_true rfl, Bool.or_true]
      exact (h.pending fe).arm dir rfl rfl rfl
    · simp [he]
    · simp [he]
    · simpa using h.direct_eq
    · simpa using h.dels
  · rw [if_neg harm] at hev
    have hmask : (s.ev.files fe).mask dir = true := by
      cases hm : (s.ev.files fe).mask dir with
      | true => rfl
      | false => exact absurd (by rw [hm]; rfl) harm
    refine h.of_call fe hf ?_ ?_ (fun e he => ⟨?_, ?_, hother e he⟩) ?_ ?_
    all_goals rw [NioEvent.apply, hev]
    · exact h.nodup
    · rw [hwant, modify_files, if_pos rfl, modify_ring]
      exact (h.pending fe).keep dir hmask rfl rfl rfl
    · simp [he]
    · rfl
    · exact h.direct_eq
    · exact h.dels

/-- An add that the event refuses: it may leave a mark in the type of the file. -/
theorem Deferred.add_refused {s : Loop ι κ π} (h : s.Deferred host accepts) (dir : Dir) {fe : ι}
    (hacc : accepts fe = false) (proc : π) :
    (s.call host (.add dir fe proc)).Deferred host accepts := by
  have hf := h.follows.call (.add dir fe proc)
  have hwant : ∀ e d w, wantedStep accepts d e w (.call (.add dir fe proc)) = w := by
    intro e d w
    rw [wantedStep, if_neg]
    rintro ⟨-, -, hc⟩
    rw [hacc] at hc
    cases hc
  obtain ⟨-, hev | ⟨hnone, -, hev⟩⟩ :=
    NioEvent.add_refused h.follows.typesOk ((h.follows.accepts_eq fe).trans hacc) dir proc
  · refine h.of_call fe hf ?_ ?_ (fun e _ => ⟨?_, ?_, hwant e⟩) ?_ ?_
    all_goals rw [NioEvent.apply, hev]
    · exact h.nodup
    · simp only [wanted_snoc, hwant]
      exact h.pending fe
    · exact h.direct_eq
    · exact h.dels
  · have hidle := (h.follows.typesOk fe).idle (by rw [hnone]; simp)
    refine h.of_call fe hf ?_ ?_ (fun e he => ⟨?_, ?_, hwant e⟩) ?_ ?_
    all_goals rw [NioEvent.apply, hev, modify_modify]
    · exact h.nodup
    · simp only [wanted_snoc, hwant, modify_files, if_true, modify_ring]
      refine .settled _ (fun d => ?_) (fun d => (hidle d).2.1) fun d => ?_
      · rw [(h.pending fe).want_eq d, (hidle d).2.1, (hidle d).2.2, Bool.not_false,
          Bool.and_true, Bool.or_false]
        rfl
      · simp [NioFile.setOperDel, NioFile.setType, Function.update_apply, (hidle d).2.2]
    · simp [he]
    · rfl
    · exact h.direct_eq
    · exact h.dels

theorem Deferred.add {s : Loop ι κ π} (h : s.Deferred host accepts) (dir : Dir) (fe : ι)
    (proc : π) : (s.call host (.add dir fe proc)).Deferred host accepts := by
  cases hacc : accepts fe with
  | true => exact h.add_accepted dir hacc proc
  | false => exact h.add_refused dir hacc proc

theorem Deferred.del {s : Loop ι κ π} (h : s.Deferred host accepts) (dir : Dir) (fe : ι) :
    (s.call host (.del dir fe)).Deferred host accepts := by
  have hf := h.follows.call (.del dir fe)
  have hev := del_deferred host h.direct_eq dir fe
  have hwant : (fun d => wanted accepts d fe (s.log ++ [.call (.del dir fe)]))
      = Function.update (fun d => wanted accepts d fe s.log) dir false :=
    wanted_update (by simp [wantedStep, eq_comm])
  have hother : ∀ e, e ≠ fe → ∀ d want,
      wantedStep accepts d e want (.call (.del dir fe) : Act ι π) = want := by
    intro e he d want
    rw [wantedStep, if_neg fun hc => he hc.1.symm]
  cases hmask : (s.ev.files fe).mask dir with
  | true =>
      rw [hmask, if_pos rfl] at hev
      refine h.of_call fe hf ?_ ?_ (fun e he => ⟨?_, ?_, hother e he⟩) ?_ ?_
      all_goals rw [NioEvent.apply, hev]
      · exact nodup_enqueue h.nodup fe
      · rw [hwant, modify_files, if_pos rfl, enqueue_files, modify_ring, linked_enqueue,
          decide_eq_true rfl, Bool.or_true]
        exact (h.pending fe).del dir hmask rfl rfl rfl
      · simp [he]
      · simp [he]
      · simpa using h.direct_eq
      · simpa using h.dels
  | false =>
      rw [hmask, if_neg Bool.false_ne_true] at hev
      refine h.of_call fe hf ?_ ?_ (fun e he => ⟨?_, ?_, hother e he⟩) ?_ ?_
      all_goals rw [NioEvent.apply, hev]
      · exact h.nodup
      · rw [hwant, modify_files, if_pos rfl, modify_ring]
        exact (h.pending fe).forget dir hmask rfl rfl rfl
      · simp [he]
      · rfl
      · exact h.direct_eq
      · exact h.dels

theorem Deferred.delReadwrite (hs : host.Succeeds) {s : Loop ι κ π}
    (h : s.Deferred host accepts) (fe : ι) :
    (s.call host (.delReadwrite fe)).Deferred host accepts := by
  have hf := h.follows.call (.delReadwrite fe)
  obtain ⟨backend, hev⟩ := delReadwrite_eq host s.ev fe
  have hwant : ∀ e d w, wantedStep accepts d e w (.call (.delReadwrite fe) : Act ι π)
      = if fe = e then false else w := fun _ _ _ => rfl
  refine h.of_call fe hf ?_ ?_ (fun e he => ⟨?_, ?_, ?_⟩) ?_ ?_
  all_goals try rw [NioEvent.apply, hev]
  · exact NioRing.nodup_detach h.nodup fe
  · simp only [wanted_snoc, hwant, if_true, modify_files, delMasked_files hs]
    exact .settled _ (fun _ => rfl) (fun _ => rfl) fun _ => rfl
  · simp [he, delMasked_files hs]
  · rw [NioRing.linked_detach h.nodup]
    simp [he]
  · intro d w
    rw [hwant, if_neg (Ne.symm he)]
  · exact (keeps_delMasked host fe s.ev).direct.trans h.direct_eq
  · exact delMasked_dels host h.dels fe

theorem Deferred.call (hs : host.Succeeds) {s : Loop ι κ π} (h : s.Deferred host accepts)
    (c : Call ι π) : (s.call host c).Deferred host accepts := by
  cases c with
  | add dir fe proc => exact h.add dir fe proc
  | del dir fe => exact h.del dir fe
  | delReadwrite fe => exact h.delReadwrite hs fe

theorem Deferred.calls (hs : host.Succeeds) {s : Loop ι κ π} (h : s.Deferred host accepts)
    (cs : List (Call ι π)) : (cs.foldl (Loop.call host) s).Deferred host accepts := by
  induction cs generalizing s with
  | nil => exact h
  | cons c cs ih => exact ih (h.call hs c)

theorem Deferred.prepareOne (hs : host.Succeeds) {s : Loop ι κ π} (h : s.Deferred host accepts)
    (fe : ι) : Deferred host accepts { s with ev := s.ev.prepareOne host fe } := by
  have hk := keeps_prepareOne host fe s.ev
  refine ⟨h.follows.keeps hk (typesOk_prepareOne h.follows.typesOk fe), ?_, ?_, fun e => ?_, ?_⟩
  · exact hk.direct.trans h.direct_eq
  · rw [prepareOne_ring]
    exact NioRing.nodup_detach h.nodup fe
  · rw [prepareOne_files hs, prepareOne_ring, NioRing.linked_detach h.nodup]
    by_cases he : e = fe
    · rw [if_pos he, he]
      exact .settled _ (fun d => ((h.pending fe).want_eq d).symm) (fun _ => rfl) fun _ => rfl
    · simpa [he] using h.pending e
  · exact prepareOne_dels hs h.dels fe fun dir hd => ((h.pending fe).del_masked dir hd).1

/-- The loop of `nio_event_prepare` ends with an empty ring. -/
theorem Deferred.prepareLoop (hs : host.Succeeds) {s : Loop ι κ π} (h : s.Deferred host accepts)
    (n : Nat) (hn : s.ev.ring.entries.length ≤ n) :
    Deferred host accepts { s with ev := prepareLoop host n s.ev } ∧
      (prepareLoop host n s.ev).ring = .init := by
  induction n generalizing s with
  | zero =>
      refine ⟨h, ?_⟩
      have hnil := List.eq_nil_of_length_eq_zero (Nat.le_zero.mp hn)
      rw [NioEvent.prepareLoop, NioRing.init, ← hnil]
  | succ n ih =>
      rw [NioEvent.prepareLoop, NioRing.first]
      cases hring : s.ev.ring.entries with
      | nil =>
          refine ⟨h, ?_⟩
          rw [List.head?_nil, NioRing.init, ← hring]
      | cons fe rest =>
          rw [List.head?_cons]
          refine ih (h.prepareOne hs fe) ?_
          rw [prepareOne_ring, NioRing.detach, hring, List.erase_cons_head]
          rw [hring, List.length_cons] at hn
          exact Nat.le_of_succ_le_succ hn

/-- **Nothing is pending after `nio_event_prepare`.** -/
theorem Deferred.prepare (hs : host.Succeeds) {s : Loop ι κ π} (h : s.Deferred host accepts) :
    Deferred host accepts { s with ev := s.ev.prepare host } ∧
      (s.ev.prepare host).ring = .init := by
  obtain ⟨hl, hring⟩ := h.prepareLoop hs _ (Nat.le_refl _)
  refine ⟨⟨hl.follows.keeps (keeps_ring _ .init) hl.follows.typesOk, hl.direct_eq,
    List.nodup_nil, fun fe => ?_, hl.dels⟩, rfl⟩
  have hp := hl.pending fe
  rwa [hring] at hp

/-- A callback is logged. -/
theorem Deferred.invoke {s : Loop ι κ π} (h : s.Deferred host accepts) (dir : Dir) (fe : ι)
    (proc : π) :
    Deferred host accepts { s with log := s.log ++ [.invoke dir fe proc] } := by
  refine ⟨h.follows.invoke dir fe proc, h.direct_eq, h.nodup, fun e => ?_, h.dels⟩
  simp only [wanted_snoc, wantedStep]
  exact h.pending e

theorem Deferred.run (hs : host.Succeeds) {s : Loop ι κ π} (h : s.Deferred host accepts)
    (behave : Behaviour ι π) (steps : List (Step ι π)) :
    (s.run host behave steps).Deferred host accepts :=
  run_induct (fun _ c h => h.call hs c) (fun _ dir fe proc h => h.invoke dir fe proc)
    (fun _ h => (h.prepare hs).1) h steps

/-! ## The direct mode -/

/-- A run of the direct mode, between two calls: the mask is the interest. -/
structure Direct (host : Host ι κ π) (accepts : ι → Bool) (s : Loop ι κ π) : Prop where
  follows : s.Follows host accepts
  direct_eq : s.ev.direct = true
  ring_eq : s.ev.ring = .init
  mask_eq : ∀ fe dir, (s.ev.files fe).mask dir = wanted accepts dir fe s.log

theorem direct_start (host : Host ι κ π) (oneshot : Bool) (setsize : Int) (fd : ι → Int)
    (backend : κ) :
    (start oneshot true setsize fd backend : Loop ι κ π).Direct host
      fun fe => decide (fd fe < setsize) && host.espipe (fd fe) :=
  ⟨follows_start host oneshot true setsize fd backend, rfl, rfl, fun _ _ => rfl⟩

/-- An add that the event accepts sets the mask of its side, which it may have set. -/
theorem Direct.add_mask (hs : host.Succeeds) {s : Loop ι κ π} (h : s.Direct host accepts)
    (dir : Dir) {fe : ι} (hacc : accepts fe = true) (proc : π) :
    (s.ev.add host dir fe proc).2.ring = s.ev.ring ∧
      ∀ e, ((s.ev.add host dir fe proc).2.files e).mask
        = if e = fe then Function.update (s.ev.files fe).mask dir true
          else (s.ev.files e).mask := by
  have hev := congrArg Prod.snd
    (add_accepted h.follows.typesOk ((h.follows.accepts_eq fe).trans hacc) dir proc)
  simp only [modify_files, modify_oneshot, if_true, NioFile.setOperDel_mask, arm,
    modify_direct, h.direct_eq] at hev
  rw [hev]
  split
  · refine ⟨rfl, fun e => ?_⟩
    by_cases he : e = fe
    · simp only [he, modify_files, if_true, oper_files, hs.add]
      rfl
    · simp [he]
  · rename_i harm
    refine ⟨rfl, fun e => ?_⟩
    by_cases he : e = fe
    · have hm : true = (s.ev.files fe).mask dir := by
        cases hm : (s.ev.files fe).mask dir with
        | true => rfl
        | false => exact absurd (by rw [hm]; rfl) harm
      rw [if_pos he, Function.update_eq_self_iff.mpr hm, modify_files, if_pos he,
        modify_files, if_pos rfl]
      rfl
    · simp [he]

/-- An add that the event refuses leaves every mask. -/
theorem Direct.refused_mask {s : Loop ι κ π} (h : s.Direct host accepts) (dir : Dir) {fe : ι}
    (hacc : accepts fe = false) (proc : π) :
    (s.ev.add host dir fe proc).2.ring = s.ev.ring ∧
      ∀ e, ((s.ev.add host dir fe proc).2.files e).mask = (s.ev.files e).mask := by
  obtain ⟨-, hev | ⟨-, -, hev⟩⟩ :=
    NioEvent.add_refused h.follows.typesOk ((h.follows.accepts_eq fe).trans hacc) dir proc
  · rw [hev]
    exact ⟨rfl, fun _ => rfl⟩
  · rw [hev]
    refine ⟨rfl, fun e => ?_⟩
    by_cases he : e = fe
    · rw [he, modify_files, if_pos rfl, modify_files, if_pos rfl]
      rfl
    · simp [he]

theorem Direct.add (hs : host.Succeeds) {s : Loop ι κ π} (h : s.Direct host accepts)
    (dir : Dir) (fe : ι) (proc : π) :
    (s.call host (.add dir fe proc)).Direct host accepts := by
  have hf := h.follows.call (.add dir fe proc)
  cases hacc : accepts fe with
  | true =>
      obtain ⟨hring, hmask⟩ := h.add_mask hs dir hacc proc
      refine ⟨hf, (add_keeps host h.follows.typesOk ((h.follows.accepts_eq fe).trans hacc)
        dir proc).direct.trans h.direct_eq, hring.trans h.ring_eq, fun e d => ?_⟩
      rw [Loop.call, NioEvent.apply, hmask, wanted_snoc, wantedStep, hacc, ← h.mask_eq]
      by_cases he : e = fe
      · by_cases hd : d = dir
        · simp [he, hd]
        · simp [he, hd, Ne.symm hd]
      · simp [he, Ne.symm he]
  | false =>
      obtain ⟨hring, hmask⟩ := h.refused_mask dir hacc proc
      refine ⟨hf, (refused_keeps host h.follows.typesOk ((h.follows.accepts_eq fe).trans hacc)
        dir proc).direct.trans h.direct_eq, hring.trans h.ring_eq, fun e d => ?_⟩
      rw [Loop.call, NioEvent.apply, hmask, wanted_snoc, wantedStep, if_neg, h.mask_eq]
      rintro ⟨-, -, hc⟩
      rw [hacc] at hc
      cases hc

theorem Direct.del (hs : host.Succeeds) {s : Loop ι κ π} (h : s.Direct host accepts)
    (dir : Dir) (fe : ι) : (s.call host (.del dir fe)).Direct host accepts := by
  have hf := h.follows.call (.del dir fe)
  have hmask : ∀ e, ((s.ev.del host dir fe).files e).mask
      = if e = fe then Function.update (s.ev.files fe).mask dir false
        else (s.ev.files e).mask := by
    intro e
    simp only [NioEvent.del, modify_files, if_true, NioFile.setOperAdd_mask, modify_direct,
      h.direct_eq]
    by_cases he : e = fe
    · rw [if_pos he, if_pos he]
      by_cases hm : (s.ev.files fe).mask dir = true
      · simp only [hm, if_true, oper_files, hs.del, modify_files]
        rfl
      · have hm' : false = (s.ev.files fe).mask dir := (Bool.not_eq_true _ ▸ hm).symm
        rw [if_neg hm, Function.update_eq_self_iff.mpr hm', modify_files, if_pos rfl]
        rfl
    · rw [if_neg he, if_neg he]
      split <;> simp [he]
  refine ⟨hf, (del_keeps host dir fe s.ev).direct.trans h.direct_eq, ?_, fun e d => ?_⟩
  · simp only [Loop.call, NioEvent.apply, NioEvent.del, modify_ring, modify_direct, h.direct_eq,
      if_true]
    split <;> exact h.ring_eq
  · rw [Loop.call, NioEvent.apply, hmask, wanted_snoc, wantedStep, ← h.mask_eq]
    by_cases he : e = fe
    · by_cases hd : d = dir
      · simp [he, hd]
      · simp [he, hd, Ne.symm hd]
    · simp [he, Ne.symm he]

theorem Direct.delReadwrite (hs : host.Succeeds) {s : Loop ι κ π} (h : s.Direct host accepts)
    (fe : ι) : (s.call host (.delReadwrite fe)).Direct host accepts := by
  have hf := h.follows.call (.delReadwrite fe)
  obtain ⟨backend, hev⟩ := delReadwrite_eq host s.ev fe
  refine ⟨hf, (delReadwrite_keeps host fe s.ev).direct.trans h.direct_eq, ?_, fun e d => ?_⟩
  · rw [Loop.call, NioEvent.apply, hev, h.ring_eq]
    rfl
  · have hwant : wantedStep accepts d e (wanted accepts d e s.log)
        (.call (.delReadwrite fe) : Act ι π)
        = if fe = e then false else wanted accepts d e s.log := rfl
    rw [Loop.call, NioEvent.apply, hev, wanted_snoc, hwant, ← h.mask_eq]
    by_cases he : e = fe
    · simp [he, delMasked_files hs]
    · simp [he, Ne.symm he, delMasked_files hs]

theorem Direct.call (hs : host.Succeeds) {s : Loop ι κ π} (h : s.Direct host accepts)
    (c : Call ι π) : (s.call host c).Direct host accepts := by
  cases c with
  | add dir fe proc => exact h.add hs dir fe proc
  | del dir fe => exact h.del hs dir fe
  | delReadwrite fe => exact h.delReadwrite hs fe

theorem Direct.calls (hs : host.Succeeds) {s : Loop ι κ π} (h : s.Direct host accepts)
    (cs : List (Call ι π)) : (cs.foldl (Loop.call host) s).Direct host accepts := by
  induction cs generalizing s with
  | nil => exact h
  | cons c cs ih => exact ih (h.call hs c)

theorem Direct.invoke {s : Loop ι κ π} (h : s.Direct host accepts) (dir : Dir) (fe : ι)
    (proc : π) : Direct host accepts { s with log := s.log ++ [.invoke dir fe proc] } := by
  refine ⟨h.follows.invoke dir fe proc, h.direct_eq, h.ring_eq, fun e d => ?_⟩
  rw [wanted_snoc]
  exact h.mask_eq e d

/-- Nothing was ever pending. -/
theorem Direct.prepare {s : Loop ι κ π} (h : s.Direct host accepts) :
    Direct host accepts { s with ev := s.ev.prepare host } := by
  have hk := prepare_keeps host s.ev
  refine ⟨h.follows.keeps hk (typesOk_prepare h.follows.typesOk), hk.direct.trans h.direct_eq,
    rfl, fun e d => ?_⟩
  rw [← h.mask_eq, NioEvent.prepare, h.ring_eq]
  rfl

theorem Direct.run (hs : host.Succeeds) {s : Loop ι κ π} (h : s.Direct host accepts)
    (behave : Behaviour ι π) (steps : List (Step ι π)) :
    (s.run host behave steps).Direct host accepts :=
  run_induct (fun _ c h => h.call hs c) (fun _ dir fe proc h => h.invoke dir fe proc)
    (fun _ h => h.prepare) h steps

/-! ## The two modes side by side -/

/-- The calls `calls` after the run of `steps`, and then `nio_event_prepare`. -/
def prepared (host : Host ι κ π) (behave : Behaviour ι π) (s : Loop ι κ π)
    (steps : List (Step ι π)) (calls : List (Call ι π)) : NioEvent ι κ π :=
  (calls.foldl (call host) (s.run host behave steps)).ev.prepare host

/-- What has happened when the last of `calls` returns. -/
def history (accepts : ι → Bool) (behave : Behaviour ι π) (steps : List (Step ι π))
    (calls : List (Call ι π)) : List (Act ι π) :=
  History.run accepts behave [] steps ++ calls.map .call

/-- **Deferred registration refines direct registration.** -/
theorem deferred_refines_direct (host : Host ι κ π) (hs : host.Succeeds)
    (behave : Behaviour ι π) (oneshot : Bool) (setsize : Int) (fd : ι → Int) (backend : κ)
    (steps : List (Step ι π)) (calls : List (Call ι π)) :
    let accepts := fun fe => decide (fd fe < setsize) && host.espipe (fd fe)
    let log := history accepts behave steps calls
    let deferred := prepared host behave (start oneshot false setsize fd backend) steps calls
    let direct := prepared host behave (start oneshot true setsize fd backend) steps calls
    (∀ fe dir,
      (deferred.files fe).mask dir = (direct.files fe).mask dir ∧
      (deferred.files fe).proc dir = (direct.files fe).proc dir ∧
      (deferred.files fe).mask dir = wanted accepts dir fe log ∧
      (deferred.files fe).proc dir = held accepts dir fe log ∧
      (deferred.files fe).operAdd dir = false ∧ (deferred.files fe).operDel dir = false) ∧
    deferred.ring = .init ∧ DelsMasked deferred.opers := by
  intro accepts log deferred direct
  have hlog : ∀ mode : Bool,
      (calls.foldl (call host)
        ((start oneshot mode setsize fd backend).run host behave steps)).log = log := by
    intro mode
    obtain ⟨hf, hl⟩ := (follows_start host oneshot mode setsize fd backend).run
      behave steps
    rw [(hf.calls calls).2, hl]
    rfl
  have hd := ((deferred_start host oneshot setsize fd backend).run hs behave steps).calls hs calls
  have he := (((direct_start host oneshot setsize fd backend).run hs behave steps).calls hs
    calls).prepare
  obtain ⟨hd, hring⟩ := hd.prepare hs
  refine ⟨fun fe dir => ?_, hring, hd.dels⟩
  have hp := hd.pending fe
  have hidle := hp.idle (by rw [hring]; rfl) dir
  have hmask : (deferred.files fe).mask dir = wanted accepts dir fe log := by
    have hw := hp.want_eq dir
    rw [hidle.1, hidle.2, Bool.not_false, Bool.and_true, Bool.or_false] at hw
    rw [← hlog false]
    exact hw.symm
  have hproc : (deferred.files fe).proc dir = held accepts dir fe log := by
    rw [← hlog false]
    exact hd.follows.proc_eq fe dir
  have hmask' : (direct.files fe).mask dir = wanted accepts dir fe log := by
    rw [← hlog true]
    exact he.mask_eq fe dir
  have hproc' : (direct.files fe).proc dir = held accepts dir fe log := by
    rw [← hlog true]
    exact he.follows.proc_eq fe dir
  exact ⟨hmask.trans hmask'.symm, hproc.trans hproc'.symm, hmask, hproc, hidle⟩

/-- Two files on an epoll backend: what is pending is changed again before the
prepare. -/
theorem deferred_refines_direct_epoll :
    let host : Host Bool (EventEpoll Unit) Unit :=
      EventEpoll.host (fun _ _ _ k => some k) fun _ => true
    let fd := fun fe : Bool => if fe then 4 else 3
    let steps : List (Step Bool Unit) := [.call (.add .read false ()), .wait []]
    let calls : List (Call Bool Unit) :=
      [.del .read false, .add .read false (), .add .write true (), .delReadwrite true]
    ∀ fe dir,
      ((prepared host (fun _ => []) (start false false 1024 fd ⟨(), 0⟩) steps calls).files
        fe).mask dir =
      ((prepared host (fun _ => []) (start false true 1024 fd ⟨(), 0⟩) steps calls).files
        fe).mask dir := by
  intro host fd steps calls fe dir
  exact ((deferred_refines_direct host (EventEpoll.host_succeeds (fun _ _ _ _ => rfl) _)
    (fun _ => []) false 1024 fd ⟨(), 0⟩ steps calls).1 fe dir).1

end Loop

end Libnio.Event
