import Libnio.Event.Turns
import Libnio.Slots.Dense

/-!
# Event — the select backend

The operations of `nio_event_select.c`, which are the same for reading and for
writing. `files`, `count` and the `id` of every file are one table; an `fd_set`
is what `FD_ISSET` says of it.
-/

namespace Libnio.Event

open Slots

variable {ι π : Type}

/-- `EVENT_SELECT` -/
structure EventSelect (ι : Type) where
  /-- `rset`, `wset` -/
  set : Dir → Int → Bool
  xset : Int → Bool
  files : Dense ι
  size : Int
  maxfd : Int
  dirty : Bool
  fdcount : Int
  /-- no assertion has failed -/
  asserted : Bool

namespace EventSelect

/-- `nio_select_create` -/
def create (size : Int) : EventSelect ι :=
  { set := fun _ _ => false, xset := fun _ => false, files := .empty, size
    maxfd := -1, dirty := false, fdcount := 0, asserted := true }

def assert (es : EventSelect ι) (b : Bool) : EventSelect ι :=
  { es with asserted := es.asserted && b }

/-- `FD_SET(fe->fd, &es->rset)`, `FD_CLR(fe->fd, &es->rset)` and so on. -/
def setFd (es : EventSelect ι) (dir : Dir) (fd : Int) (b : Bool) : EventSelect ι :=
  { es with set := Function.update es.set dir (Function.update (es.set dir) fd b) }

variable [DecidableEq ι]

/-- A file that is in neither set gets the next place. -/
def enter (es : EventSelect ι) (fe : ι) (fd : Int) : EventSelect ι :=
  let es := es.assert (decide (es.files.count < es.size))
  { es with
    files := es.files.push fe
    xset := Function.update es.xset fd true
    maxfd := if fd > es.maxfd then fd else es.maxfd
    fdcount := es.fdcount + 1 }

/-- `select_add_read`, `select_add_write` -/
def add (dir : Dir) : EventOper ι (EventSelect ι) π := fun _ es fe file =>
  let id := es.files.id fe
  let es :=
    if es.set dir.other file.fd || es.set dir file.fd then
      (es.assert (decide (0 ≤ id ∧ id < es.files.count))).assert
        (decide (es.files.slot id = some fe))
    else es.enter fe file.fd
  (es.setFd dir file.fd true, Function.update file.mask dir true)

/-- A file leaves: the last one goes to its place. -/
def remove (es : EventSelect ι) (fe : ι) (fd : Int) : EventSelect ι :=
  { es with
    xset := Function.update es.xset fd false
    files := es.files.vacate fe
    dirty := if fd = es.maxfd then true else es.dirty
    fdcount := es.fdcount - 1 }

/-- `select_del_read`, `select_del_write` -/
def del (dir : Dir) : EventOper ι (EventSelect ι) π := fun _ es fe file =>
  let id := es.files.id fe
  let es := es.assert (decide (0 ≤ id ∧ id < es.files.count))
  let es := if es.set dir file.fd then es.setFd dir file.fd false else es
  let es := if !es.set dir.other file.fd then es.remove fe file.fd else es
  (es, Function.update file.mask dir false)

/-- What the event gets from `nio_select_create`. -/
def host (espipe : Int → Bool) : Host ι (EventSelect ι) π :=
  { espipe, add, del, delReadwrite := none, eventFflush := none }

/-! ## What an operation comes to -/

section Opers

variable {es : EventSelect ι} {S : Set ι} {fe : ι} {file : NioFile π}

omit [DecidableEq ι] in
theorem assert_true (es : EventSelect ι) : es.assert true = es := by
  simp [assert]

omit [DecidableEq ι] in
theorem setFd_set (es : EventSelect ι) (dir : Dir) (fd : Int) (b : Bool) (d : Dir) (n : Int) :
    (es.setFd dir fd b).set d n = if d = dir ∧ n = fd then b else es.set d n := by
  by_cases hd : d = dir
  · subst hd
    simp [setFd, Function.update_apply]
  · simp [setFd, hd]

theorem add_old (hp : es.files.Packs S) (hfe : fe ∈ S) (hset : ∃ d, es.set d file.fd = true)
    (dir : Dir) (oneshot : Bool) :
    add dir oneshot es fe file
      = (es.setFd dir file.fd true, Function.update file.mask dir true) := by
  obtain ⟨h₁, h₂, h₃⟩ := hp.placed fe hfe
  have hin : (es.set dir.other file.fd || es.set dir file.fd) = true := by
    obtain ⟨d, hd⟩ := hset
    rcases dir.eq_or_other d with rfl | rfl
    · simp [hd]
    · simp [hd]
  have hid : decide (0 ≤ es.files.id fe ∧ es.files.id fe < es.files.count) = true := by
    simp [h₁, h₂]
  simp only [add, hin, if_true, hid, h₃, decide_true, assert_true]

theorem add_new (hset : ∀ d, es.set d file.fd = false) (dir : Dir) (oneshot : Bool) :
    add dir oneshot es fe file
      = (({ es with
            files := es.files.push fe
            xset := Function.update es.xset file.fd true
            maxfd := if file.fd > es.maxfd then file.fd else es.maxfd
            fdcount := es.fdcount + 1
            asserted := es.asserted && decide (es.files.count < es.size) } :
              EventSelect ι).setFd dir file.fd true,
          Function.update file.mask dir true) := by
  simp only [add, enter, hset, assert, Bool.or_false, Bool.false_eq_true, if_false]
  rfl

theorem del_eq (hp : es.files.Packs S) (hfe : fe ∈ S) {dir : Dir}
    (hset : es.set dir file.fd = true) (oneshot : Bool) :
    del dir oneshot es fe file
      = (if es.set dir.other file.fd then es.setFd dir file.fd false
          else (es.setFd dir file.fd false).remove fe file.fd,
        Function.update file.mask dir false) := by
  obtain ⟨h₁, h₂, -⟩ := hp.placed fe hfe
  have hin : decide (0 ≤ es.files.id fe ∧ es.files.id fe < es.files.count) = true := by
    simp [h₁, h₂]
  have hother : (es.setFd dir file.fd false).set dir.other file.fd = es.set dir.other file.fd := by
    rw [setFd_set, if_neg fun hc => dir.other_ne hc.1]
  simp only [del, hin, assert_true, hset, if_true, hother]
  cases es.set dir.other file.fd <;> rfl

end Opers

end EventSelect

/-! ## The table and the masks -/

namespace NioEvent

/-- `select_event_wait` before it calls `select`: `maxfd` is found anew when it
is dirty. -/
def scan (ev : NioEvent ι (EventSelect ι) π) : NioEvent ι (EventSelect ι) π :=
  if ev.backend.dirty then
    ev.setBackend fun es =>
      { es with maxfd := (List.range es.files.count.toNat).foldl (fun maxfd (i : Nat) =>
          match es.files.slot i with
          | none => maxfd
          | some fe => if (ev.files fe).fd > maxfd then (ev.files fe).fd else maxfd) (-1) }
  else ev

/-- The table and the sets hold the registered files, whose descriptors are `fd`. -/
structure SelectListed (fd : ι → Int) (ev : NioEvent ι (EventSelect ι) π) : Prop where
  fd_eq : ∀ fe, (ev.files fe).fd = fd fe
  packs : ev.backend.files.Packs ev.registered
  fdcount : ev.backend.fdcount = ev.backend.files.count
  set : ∀ fe dir, ev.backend.set dir (fd fe) = (ev.files fe).mask dir
  xset : ∀ fe, ev.backend.xset (fd fe) = true ↔ fe ∈ ev.registered
  /-- nothing else is in a set -/
  owned : ∀ d, (∃ dir, ev.backend.set dir d = true) ∨ ev.backend.xset d = true →
    ∃ fe, fd fe = d
  maxfd : ∀ fe ∈ ev.registered, fd fe ≤ ev.backend.maxfd

/-- The descriptors fit into the table as well, and no assertion has failed. -/
structure Selected (fd : ι → Int) (ev : NioEvent ι (EventSelect ι) π) : Prop
    extends ev.SelectListed fd where
  fits : ∀ fe, 0 ≤ fd fe ∧ fd fe < ev.backend.size
  asserted : ev.backend.asserted = true

variable {fd : ι → Int}

section Listed

variable {ev ev' : NioEvent ι (EventSelect ι) π}

theorem SelectListed.unasked (h : ev.SelectListed fd) (hu : Unasked ev ev') :
    ev'.SelectListed fd := by
  refine ⟨fun fe => (hu.fd fe).trans (h.fd_eq fe), ?_, ?_, fun fe dir => ?_, fun fe => ?_, ?_, ?_⟩
  · rw [hu.backend, hu.registered]
    exact h.packs
  · rw [hu.backend]
    exact h.fdcount
  · rw [hu.backend, hu.mask]
    exact h.set fe dir
  · rw [hu.backend, hu.registered]
    exact h.xset fe
  · rw [hu.backend]
    exact h.owned
  · rw [hu.backend, hu.registered]
    exact h.maxfd

theorem selectListed_create (oneshot direct : Bool) (setsize size : Int) :
    (create oneshot direct setsize fd (.create size) :
      NioEvent ι (EventSelect ι) π).SelectListed fd := by
  refine ⟨fun _ => rfl, ?_, rfl, fun _ _ => rfl, fun fe => ?_, fun d hd => ?_, fun fe hfe => ?_⟩
  · rw [registered_create]
    exact .nil
  · rw [registered_create]
    simp [create, EventSelect.create]
  · simp [create, EventSelect.create] at hd
  · rw [registered_create] at hfe
    exact absurd hfe (Set.notMem_empty fe)

theorem selected_create (oneshot direct : Bool) (setsize : Int) {size : Int}
    (hfits : ∀ fe, 0 ≤ fd fe ∧ fd fe < size) :
    (create oneshot direct setsize fd (.create size) :
      NioEvent ι (EventSelect ι) π).Selected fd :=
  ⟨selectListed_create oneshot direct setsize size, hfits, rfl⟩

end Listed

/-- The greatest of the values of a list is none below it, nor below the one that
it starts with. -/
theorem le_foldl_greatest {α β : Type} (f : α → Option β) (g : β → Int) (l : List α) (m : Int) :
    m ≤ l.foldl (fun m a => match f a with
      | none => m
      | some b => if g b > m then g b else m) m ∧
    ∀ a ∈ l, ∀ b, f a = some b → g b ≤ l.foldl (fun m a => match f a with
      | none => m
      | some b => if g b > m then g b else m) m := by
  induction l generalizing m with
  | nil => exact ⟨le_refl m, fun a ha => (by cases ha)⟩
  | cons c l ih =>
      obtain ⟨h₁, h₂⟩ := ih (match f c with
        | none => m
        | some b => if g b > m then g b else m)
      refine ⟨le_trans ?_ h₁, fun a ha b hb => ?_⟩
      · split
        · exact le_refl m
        · split <;> omega
      · rcases List.mem_cons.mp ha with rfl | ha
        · refine le_trans ?_ h₁
          rw [hb]
          dsimp only
          split <;> omega
        · exact h₂ a ha b hb

theorem SelectListed.scan {ev : NioEvent ι (EventSelect ι) π} (h : ev.SelectListed fd) :
    ev.scan.SelectListed fd := by
  unfold NioEvent.scan
  split
  · refine ⟨h.fd_eq, h.packs, h.fdcount, h.set, h.xset, h.owned, fun fe hfe => ?_⟩
    obtain ⟨h₁, h₂, h₃⟩ := h.packs.placed fe hfe
    have hmem : (ev.backend.files.id fe).toNat ∈ List.range ev.backend.files.count.toNat := by
      rw [List.mem_range]
      omega
    have hslot : ev.backend.files.slot ((ev.backend.files.id fe).toNat : Int) = some fe := by
      rw [Int.toNat_of_nonneg h₁, h₃]
    rw [← h.fd_eq]
    exact (le_foldl_greatest (fun i : Nat => ev.backend.files.slot i) (fun fe => (ev.files fe).fd)
      (List.range ev.backend.files.count.toNat) (-1)).2 _ hmem fe hslot
  · exact h

theorem scan_backend (ev : NioEvent ι (EventSelect ι) π) :
    ev.scan.backend.size = ev.backend.size ∧ ev.scan.backend.asserted = ev.backend.asserted := by
  unfold NioEvent.scan
  split <;> exact ⟨rfl, rfl⟩

theorem Selected.scan {ev : NioEvent ι (EventSelect ι) π} (h : ev.Selected fd) :
    ev.scan.Selected fd := by
  obtain ⟨hsize, ha⟩ := scan_backend ev
  exact ⟨h.toSelectListed.scan,
    fun e => ⟨(h.fits e).1, (h.fits e).2.trans_eq hsize.symm⟩, ha.trans h.asserted⟩

theorem scan_files (ev : NioEvent ι (EventSelect ι) π) : ev.scan.files = ev.files := by
  unfold scan
  split <;> rfl

theorem scan_direct (ev : NioEvent ι (EventSelect ι) π) : ev.scan.direct = ev.direct := by
  unfold scan
  split <;> rfl

variable [DecidableEq ι]

/-- An operation that changes the interest of a registered file in one set. -/
theorem SelectListed.oper_setFd (hinj : Function.Injective fd)
    {ev : NioEvent ι (EventSelect ι) π} (h : ev.SelectListed fd)
    {kind : OperKind} {op : EventOper ι (EventSelect ι) π} {fe : ι} (hfe : fe ∈ ev.registered)
    {dir : Dir} {b : Bool} (hd : ∃ d, Function.update (ev.files fe).mask dir b d = true)
    (hop : op ev.oneshot ev.backend fe (ev.files fe)
      = (ev.backend.setFd dir (ev.files fe).fd b,
          Function.update (ev.files fe).mask dir b)) : (ev.oper kind op fe).SelectListed fd := by
  have hm : _ = Function.update (ev.files fe).mask dir b := congrArg Prod.snd hop
  have hb : (ev.oper kind op fe).backend = ev.backend.setFd dir (ev.files fe).fd b :=
    congrArg Prod.fst hop
  rw [h.fd_eq] at hb
  have hreg : (ev.oper kind op fe).registered = ev.registered := by
    rw [registered_oper_insert _ hm hd, Set.insert_eq_of_mem hfe]
  refine ⟨fun e => (fd_oper e).trans (h.fd_eq e), ?_, ?_, fun e d => ?_, fun e => ?_,
    fun n hn => ?_, ?_⟩
  · rw [hreg, hb]
    exact h.packs
  · rw [hb]
    exact h.fdcount
  · rw [hb, EventSelect.setFd_set]
    by_cases hc : e = fe
    · subst hc
      rw [mask_oper hm, Function.update_apply, h.set]
      simp
    · rw [if_neg fun hs => hc (hinj hs.2), mask_oper_of_ne hc]
      exact h.set e d
  · rw [hb, hreg]
    exact h.xset e
  · rw [hb] at hn
    rcases hn with ⟨d, hs⟩ | hx
    · rw [EventSelect.setFd_set] at hs
      split at hs
      · rename_i hc
        exact ⟨fe, hc.2.symm⟩
      · exact h.owned n (.inl ⟨d, hs⟩)
    · exact h.owned n (.inr hx)
  · rw [hb, hreg]
    exact h.maxfd

theorem SelectListed.add (hinj : Function.Injective fd) {ev : NioEvent ι (EventSelect ι) π}
    (h : ev.SelectListed fd) (dir : Dir) (fe : ι) :
    (ev.oper (.add dir) (EventSelect.add dir) fe).SelectListed fd := by
  have hd : ∃ d, Function.update (ev.files fe).mask dir true d = true := ⟨dir, by simp⟩
  have hset : ∀ d, ev.backend.set d (ev.files fe).fd = (ev.files fe).mask d := fun d => by
    rw [h.fd_eq]
    exact h.set fe d
  by_cases hfe : fe ∈ ev.registered
  · refine h.oper_setFd hinj hfe hd (EventSelect.add_old h.packs hfe ?_ dir ev.oneshot)
    obtain ⟨d, hd⟩ := hfe
    exact ⟨d, (hset d).trans hd⟩
  · have hmask := notMem_registered.mp hfe
    have hop : EventSelect.add dir ev.oneshot ev.backend fe (ev.files fe) = _ :=
      EventSelect.add_new (fun d => (hset d).trans (congrFun hmask d)) dir ev.oneshot
    have hm : _ = Function.update (ev.files fe).mask dir true := congrArg Prod.snd hop
    have hb := congrArg Prod.fst hop
    change (ev.oper (.add dir) (EventSelect.add dir) fe).backend = _ at hb
    rw [h.fd_eq] at hb
    have hreg := registered_oper_insert (.add dir) hm hd
    refine ⟨fun e => (fd_oper e).trans (h.fd_eq e), ?_, ?_, fun e d => ?_, fun e => ?_,
      fun n hn => ?_, fun e he => ?_⟩
    · rw [hreg, hb]
      exact h.packs.push hfe
    · rw [hb]
      exact congrArg (· + 1) h.fdcount
    · rw [hb, EventSelect.setFd_set]
      by_cases hc : e = fe
      · subst hc
        rw [mask_oper hm, Function.update_apply, h.set]
        simp
      · rw [if_neg fun hs => hc (hinj hs.2), mask_oper_of_ne hc]
        exact h.set e d
    · rw [hb, hreg, Set.mem_insert_iff]
      by_cases hc : e = fe
      · simp [hc, EventSelect.setFd]
      · simp only [EventSelect.setFd, Function.update_of_ne fun hs => hc (hinj hs), hc, false_or]
        exact h.xset e
    · rw [hb] at hn
      by_cases hc : n = fd fe
      · exact ⟨fe, hc.symm⟩
      rcases hn with ⟨d, hs⟩ | hx
      · rw [EventSelect.setFd_set, if_neg fun hs => hc hs.2] at hs
        exact h.owned n (.inl ⟨d, hs⟩)
      · simp only [EventSelect.setFd, Function.update_of_ne hc] at hx
        exact h.owned n (.inr hx)
    · rw [hb]
      simp only [EventSelect.setFd]
      rw [hreg] at he
      rcases Set.mem_insert_iff.mp he with rfl | he
      · split <;> omega
      · have hle := h.maxfd e he
        split <;> omega

/-- A file that is not registered needs a place. -/
theorem SelectListed.add_room {ev : NioEvent ι (EventSelect ι) π} (h : ev.SelectListed fd)
    (dir : Dir) (fe : ι) :
    let es := (ev.oper (.add dir) (EventSelect.add dir) fe).backend
    es.size = ev.backend.size ∧ (es.asserted = true ↔ ev.backend.asserted = true ∧
      (fe ∈ ev.registered ∨ ev.backend.files.count < ev.backend.size)) := by
  intro es
  have hset : ∀ d, ev.backend.set d (ev.files fe).fd = (ev.files fe).mask d := fun d => by
    rw [h.fd_eq]
    exact h.set fe d
  by_cases hfe : fe ∈ ev.registered
  · obtain ⟨d, hd⟩ := hfe
    have hop : EventSelect.add dir ev.oneshot ev.backend fe (ev.files fe) = _ :=
      EventSelect.add_old h.packs ⟨d, hd⟩ ⟨d, (hset d).trans hd⟩ dir ev.oneshot
    have hb : es = _ := congrArg Prod.fst hop
    rw [hb]
    simp [EventSelect.setFd, show fe ∈ ev.registered from ⟨d, hd⟩]
  · have hmask := notMem_registered.mp hfe
    have hop : EventSelect.add dir ev.oneshot ev.backend fe (ev.files fe) = _ :=
      EventSelect.add_new (fun d => (hset d).trans (congrFun hmask d)) dir ev.oneshot
    have hb : es = _ := congrArg Prod.fst hop
    rw [hb]
    simp [EventSelect.setFd, hfe]

theorem SelectListed.del (hinj : Function.Injective fd) {ev : NioEvent ι (EventSelect ι) π}
    (h : ev.SelectListed fd) (dir : Dir) (fe : ι) (hd : (ev.files fe).mask dir = true) :
    (ev.oper (.del dir) (EventSelect.del dir) fe).SelectListed fd := by
  have hfe : fe ∈ ev.registered := ⟨dir, hd⟩
  have hset : ∀ d, ev.backend.set d (ev.files fe).fd = (ev.files fe).mask d := fun d => by
    rw [h.fd_eq]
    exact h.set fe d
  have hop : EventSelect.del dir ev.oneshot ev.backend fe (ev.files fe) = _ :=
    EventSelect.del_eq h.packs hfe ((hset dir).trans hd) ev.oneshot
  rw [hset] at hop
  cases ho : (ev.files fe).mask dir.other with
  | true =>
      rw [ho, if_pos rfl] at hop
      exact h.oper_setFd hinj hfe ((update_false_iff _ dir).mpr ho) hop
  | false =>
      rw [ho, if_neg Bool.false_ne_true] at hop
      have hm : _ = Function.update (ev.files fe).mask dir false := congrArg Prod.snd hop
      have hb := congrArg Prod.fst hop
      change (ev.oper (.del dir) (EventSelect.del dir) fe).backend = _ at hb
      rw [h.fd_eq] at hb
      have hreg := registered_oper_erase (.del dir) hm
        (by rw [update_false_iff, ho]; simp)
      have hs : ∀ d n, (ev.oper (.del dir) (EventSelect.del dir) fe).backend.set d n
          = if d = dir ∧ n = fd fe then false else ev.backend.set d n := by
        intro d n
        rw [hb]
        exact EventSelect.setFd_set _ _ _ _ _ _
      refine ⟨fun e => (fd_oper e).trans (h.fd_eq e), ?_, ?_, fun e d => ?_, fun e => ?_,
        fun n hn => ?_, fun e he => ?_⟩
      · rw [hreg, hb]
        exact h.packs.vacate hfe
      · rw [hb]
        exact (congrArg (· - 1) h.fdcount).trans (Dense.vacate_count _ fe).symm
      · rw [hs]
        by_cases hc : e = fe
        · subst hc
          rw [mask_oper hm, Function.update_apply, h.set]
          simp
        · rw [if_neg fun hs => hc (hinj hs.2), mask_oper_of_ne hc]
          exact h.set e d
      · rw [hb, hreg]
        simp only [EventSelect.remove, Set.mem_sdiff, Set.mem_singleton_iff]
        by_cases hc : e = fe
        · simp [hc]
        · rw [Function.update_of_ne fun hs => hc (hinj hs)]
          simp only [hc, not_false_iff, and_true]
          exact h.xset e
      · rcases hn with ⟨d, hn⟩ | hx
        · rw [hs] at hn
          split at hn
          · cases hn
          · exact h.owned n (.inl ⟨d, hn⟩)
        · rw [hb] at hx
          simp only [EventSelect.remove, Function.update_apply] at hx
          split at hx
          · cases hx
          · exact h.owned n (.inr hx)
      · rw [hreg] at he
        rw [hb]
        exact h.maxfd e he.1

/-- One that is deleted needs nothing. -/
theorem SelectListed.del_room {ev : NioEvent ι (EventSelect ι) π} (h : ev.SelectListed fd)
    (dir : Dir) (fe : ι) (hd : (ev.files fe).mask dir = true) :
    let es := (ev.oper (.del dir) (EventSelect.del dir) fe).backend
    es.size = ev.backend.size ∧ es.asserted = ev.backend.asserted := by
  intro es
  have hset : ev.backend.set dir (ev.files fe).fd = true := by
    rw [h.fd_eq, h.set, hd]
  have hop : EventSelect.del dir ev.oneshot ev.backend fe (ev.files fe) = _ :=
    EventSelect.del_eq h.packs ⟨dir, hd⟩ hset ev.oneshot
  have hb : es = _ := congrArg Prod.fst hop
  rw [hb]
  dsimp only
  split <;> exact ⟨rfl, rfl⟩

/-- **The table and the sets follow the masks** under all that is asked of the
backend. -/
theorem selected_backed (hinj : Function.Injective fd) (espipe : Int → Bool) :
    Backed (EventSelect.host espipe : Host ι (EventSelect ι) π) (Selected fd) where
  unasked := fun h hu => ⟨h.toSelectListed.unasked hu, by rw [hu.backend]; exact h.fits,
    by rw [hu.backend]; exact h.asserted⟩
  add := fun {ev} h dir fe => by
    obtain ⟨hsize, ha⟩ := h.toSelectListed.add_room dir fe
    refine ⟨h.toSelectListed.add hinj dir fe,
      fun e => ⟨(h.fits e).1, (h.fits e).2.trans_eq hsize.symm⟩, ha.mpr ⟨h.asserted, ?_⟩⟩
    by_cases hfe : fe ∈ ev.registered
    · exact .inl hfe
    · exact .inr (h.packs.room hinj h.fits hfe)
  del := fun h dir fe hm => by
    obtain ⟨hsize, ha⟩ := h.toSelectListed.del_room dir fe hm
    exact ⟨h.toSelectListed.del hinj dir fe hm,
      fun e => ⟨(h.fits e).1, (h.fits e).2.trans_eq hsize.symm⟩, ha.trans h.asserted⟩
  delReadwrite := fun _ _ _ hop => nomatch hop
  fflush := fun h => h
  other := fun hd _ _ _ _ => Function.update_of_ne hd _ _

end NioEvent

end Libnio.Event
