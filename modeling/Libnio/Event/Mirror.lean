import Libnio.Event.Requests
import Libnio.Event.Epoll
import Mathlib.Data.Set.Card

/-!
# Event — the table of epoll and the masks

Over a kernel that answers `epoll_ctl` from a table of descriptors, what each
operation of the backend leaves in the table, and that the table and the masks
of the files agree after every run.
-/

namespace Libnio.Event

variable {ι κ π : Type}

/-- A kernel that answers as its table says; `granted k n` may hold of it after
`n` calls that have succeeded. -/
structure Tabulates (ctl : EpollCtl ι κ) (table : κ → Int → Option (EpollInterest ι))
    (granted : κ → Nat → Prop) : Prop where
  answers : ∀ op fd ee k, (ctl op fd ee k).map table = epollTable op fd ee (table k)
  grants : ∀ {op fd ee k k' n}, ctl op fd ee k = some k' → granted k n → granted k' (n + 1)

/-- What the table holds for the file `fe` with this mask. -/
def Listed (fe : ι) (mask : Dir → Bool) : Option (EpollInterest ι) → Prop
  | none => ∀ dir, mask dir = false
  | some ee => (mask .read || mask .write) = true ∧ ee.epollin = mask .read ∧
      ee.epollout = mask .write ∧ ee.ptr = fe

theorem Listed.isSome {fe : ι} {mask : Dir → Bool} {ee : Option (EpollInterest ι)}
    (h : Listed fe mask ee) : ee.isSome = (mask .read || mask .write) := by
  cases ee with
  | none => simp [h .read, h .write]
  | some ee => simpa using h.1.symm

theorem Listed.present {fe : ι} {mask : Dir → Bool} {ee : Option (EpollInterest ι)}
    (h : Listed fe mask ee) (dir : Dir) (hm : mask dir = true) : ee.isSome = true := by
  rw [h.isSome]
  cases dir <;> simp [hm]

/-- One for a descriptor that is in the table. -/
def occupied (ee : Option (EpollInterest ι)) : Int := if ee.isSome then 1 else 0

namespace Tabulates

variable {ctl : EpollCtl ι κ} {table : κ → Int → Option (EpollInterest ι)}
  {granted : κ → Nat → Prop}

theorem answer (ht : Tabulates ctl table granted) {op : EpollOp} {fd : Int}
    {ee : EpollInterest ι} {k : κ} {t : Int → Option (EpollInterest ι)}
    (h : epollTable op fd ee (table k) = some t) :
    ∃ k', ctl op fd ee k = some k' ∧ table k' = t := by
  have ha := ht.answers op fd ee k
  rw [h] at ha
  exact Option.map_eq_some_iff.mp ha

theorem add (ht : Tabulates ctl table granted) {fd : Int} (ee : EpollInterest ι) {k : κ}
    (h : (table k fd).isSome = false) :
    ∃ k', ctl .add fd ee k = some k' ∧ table k' = Function.update (table k) fd (some ee) := by
  rw [Option.isSome_eq_false_iff, Option.isNone_iff_eq_none] at h
  exact ht.answer (epollTable_add h)

theorem mod (ht : Tabulates ctl table granted) {fd : Int} (ee : EpollInterest ι) {k : κ}
    (h : (table k fd).isSome = true) :
    ∃ k', ctl .mod fd ee k = some k' ∧ table k' = Function.update (table k) fd (some ee) := by
  obtain ⟨e, he⟩ := Option.isSome_iff_exists.mp h
  exact ht.answer (epollTable_mod he)

theorem del (ht : Tabulates ctl table granted) {fd : Int} (ee : EpollInterest ι) {k : κ}
    (h : (table k fd).isSome = true) :
    ∃ k', ctl .del fd ee k = some k' ∧ table k' = Function.update (table k) fd none := by
  obtain ⟨e, he⟩ := Option.isSome_iff_exists.mp h
  exact ht.answer (epollTable_del he)

/-- What has been granted is in the table. -/
theorem granted_put (ht : Tabulates ctl table granted) {op : EpollOp} (hop : op ≠ .del) {fd : Int}
    {ee : EpollInterest ι} {k k' : κ} (h : ctl op fd ee k = some k') :
    table k' = Function.update (table k) fd (some ee) := by
  have ha := ht.answers op fd ee k
  rw [h] at ha
  cases op with
  | add =>
      cases hk : table k fd with
      | none => simpa [epollTable, hk] using ha
      | some e => simp [epollTable, hk] at ha
  | mod =>
      cases hk : table k fd with
      | none => simp [epollTable, hk] at ha
      | some e => simpa [epollTable, hk] using ha
  | del => exact absurd rfl hop

theorem granted_del (ht : Tabulates ctl table granted) {fd : Int} {ee : EpollInterest ι} {k k' : κ}
    (h : ctl .del fd ee k = some k') : table k' = Function.update (table k) fd none := by
  have ha := ht.answers .del fd ee k
  rw [h] at ha
  cases hk : table k fd with
  | none => simp [epollTable, hk] at ha
  | some e => simpa [epollTable, hk] using ha

/-- What is refused, but an add, is not there. -/
theorem refused (ht : Tabulates ctl table granted) {op : EpollOp} (hop : op ≠ .add) {fd : Int}
    {ee : EpollInterest ι} {k : κ} (h : ctl op fd ee k = none) : table k fd = none := by
  have ha := ht.answers op fd ee k
  rw [h] at ha
  cases hk : table k fd with
  | none => rfl
  | some e =>
      cases op with
      | add => exact absurd rfl hop
      | mod => simp [epollTable, hk] at ha
      | del => simp [epollTable, hk] at ha

end Tabulates

/-! ## One operation -/

/-- What an operation of the backend leaves: `ee` in the table and `mask` in the
file, after a call of `epoll_ctl` that has succeeded. -/
structure Leaves (ctl : EpollCtl ι κ) (table : κ → Int → Option (EpollInterest ι)) (fd : Int)
    (ep : EventEpoll κ) (ee : Option (EpollInterest ι)) (mask : Dir → Bool)
    (r : EventEpoll κ × (Dir → Bool)) : Prop where
  answered : ∃ op e, ctl op fd e ep.kernel = some r.1.kernel
  table_eq : table r.1.kernel = Function.update (table ep.kernel) fd ee
  fdcount_eq : r.1.fdcount = ep.fdcount + (occupied ee - occupied (table ep.kernel fd))
  mask_eq : r.2 = mask

namespace EventEpoll

variable {ctl : EpollCtl ι κ} {table : κ → Int → Option (EpollInterest ι)}
  {granted : κ → Nat → Prop} {ep : EventEpoll κ} {fe : ι} {file : NioFile π}

/-- `epoll_ctl` with what follows it, for a registration of the descriptor. -/
theorem leaves_put (ht : Tabulates ctl table granted) {op : EpollOp} {n : Int} {fd : Int}
    {ee : EpollInterest ι} {mask mask' : Dir → Bool}
    (h : (op = .mod ∧ n = 0 ∧ (table ep.kernel fd).isSome = true) ∨
      (op = .add ∧ n = 1 ∧ (table ep.kernel fd).isSome = false)) :
    Leaves ctl table fd ep (some ee) mask
      (match ctl op fd ee ep.kernel with
        | some kernel => ({ kernel, fdcount := ep.fdcount + n }, mask)
        | none => (ep, mask')) := by
  rcases h with ⟨rfl, rfl, hs⟩ | ⟨rfl, rfl, hs⟩
  · obtain ⟨k', hk, hk'⟩ := ht.mod ee hs
    rw [hk]
    exact ⟨⟨_, _, hk⟩, hk', by simp [occupied, hs], rfl⟩
  · obtain ⟨k', hk, hk'⟩ := ht.add ee hs
    rw [hk]
    exact ⟨⟨_, _, hk⟩, hk', by simp [occupied, hs], rfl⟩

/-- The same for `EPOLL_CTL_DEL`. -/
theorem leaves_take (ht : Tabulates ctl table granted) {fd : Int} {ee : EpollInterest ι}
    {mask mask' : Dir → Bool} (hs : (table ep.kernel fd).isSome = true) :
    Leaves ctl table fd ep none mask
      (match ctl .del fd ee ep.kernel with
        | some kernel => ({ kernel, fdcount := ep.fdcount + -1 }, mask)
        | none => (ep, mask')) := by
  obtain ⟨k', hk, hk'⟩ := ht.del ee hs
  rw [hk]
  exact ⟨⟨_, _, hk⟩, hk', by simp [occupied, hs], rfl⟩

theorem leaves_addRead (ht : Tabulates ctl table granted) (oneshot : Bool)
    (h : Listed fe file.mask (table ep.kernel file.fd)) :
    Leaves ctl table file.fd ep (some ⟨true, file.mask .write, oneshot, fe⟩)
      (Function.update file.mask .read true) (addRead ctl oneshot ep fe file) := by
  have hs := h.isSome
  unfold addRead
  cases hw : file.mask .write with
  | true => exact leaves_put ht (.inl ⟨rfl, rfl, by rw [hs, hw, Bool.or_true]⟩)
  | false =>
      rw [hw, Bool.or_false] at hs
      cases hr : file.mask .read with
      | true => exact leaves_put ht (.inl ⟨rfl, rfl, by rw [hs, hr]⟩)
      | false => exact leaves_put ht (.inr ⟨rfl, rfl, by rw [hs, hr]⟩)

theorem leaves_addWrite (ht : Tabulates ctl table granted) (oneshot : Bool)
    (h : Listed fe file.mask (table ep.kernel file.fd)) :
    Leaves ctl table file.fd ep (some ⟨file.mask .read, true, false, fe⟩)
      (Function.update file.mask .write true) (addWrite ctl oneshot ep fe file) := by
  have hs := h.isSome
  unfold addWrite
  cases hr : file.mask .read with
  | true => exact leaves_put ht (.inl ⟨rfl, rfl, by rw [hs, hr, Bool.true_or]⟩)
  | false =>
      rw [hr, Bool.false_or] at hs
      cases hw : file.mask .write with
      | true => exact leaves_put ht (.inl ⟨rfl, rfl, by rw [hs, hw]⟩)
      | false => exact leaves_put ht (.inr ⟨rfl, rfl, by rw [hs, hw]⟩)

theorem leaves_delRead (ht : Tabulates ctl table granted) (oneshot : Bool)
    (h : Listed fe file.mask (table ep.kernel file.fd)) (hm : file.mask .read = true) :
    Leaves ctl table file.fd ep
      (if file.mask .write then some ⟨false, true, oneshot, fe⟩ else none)
      (Function.update file.mask .read false) (delRead ctl oneshot ep fe file) := by
  have hs := h.present .read hm
  have hne : Function.update file.mask .read false .write = file.mask .write := by simp
  unfold delRead
  simp only [hne]
  cases hw : file.mask .write with
  | true => exact leaves_put ht (.inl ⟨rfl, rfl, hs⟩)
  | false => exact leaves_take ht hs

theorem leaves_delWrite (ht : Tabulates ctl table granted) (oneshot : Bool)
    (h : Listed fe file.mask (table ep.kernel file.fd)) (hm : file.mask .write = true) :
    Leaves ctl table file.fd ep
      (if file.mask .read then some ⟨true, false, oneshot, fe⟩ else none)
      (Function.update file.mask .write false) (delWrite ctl oneshot ep fe file) := by
  have hs := h.present .write hm
  have hne : Function.update file.mask .write false .read = file.mask .read := by simp
  unfold delWrite
  simp only [hne]
  cases hr : file.mask .read with
  | true => exact leaves_put ht (.inl ⟨rfl, rfl, hs⟩)
  | false => exact leaves_take ht hs

theorem leaves_delReadwrite (ht : Tabulates ctl table granted) (oneshot : Bool)
    (hs : (table ep.kernel file.fd).isSome = true) :
    Leaves ctl table file.fd ep none (fun _ => false) (delReadwrite ctl oneshot ep fe file) :=
  leaves_take ht hs

end EventEpoll

/-! ## The whole table -/

variable [DecidableEq ι]

namespace NioEvent

variable {ctl : EpollCtl ι κ} {table : κ → Int → Option (EpollInterest ι)}
  {granted : κ → Nat → Prop} {fd : ι → Int} {espipe : Int → Bool}

/-- The table against the files, whose descriptors are `fd`: a call of
`epoll_ctl` has been granted for every operation of the backend. -/
structure Mirrors (table : κ → Int → Option (EpollInterest ι)) (granted : κ → Nat → Prop)
    (fd : ι → Int) (ev : NioEvent ι (EventEpoll κ) π) : Prop where
  fd_eq : ∀ fe, (ev.files fe).fd = fd fe
  listed : ∀ fe, Listed fe (ev.files fe).mask (table ev.backend.kernel (fd fe))
  owned : ∀ d, (table ev.backend.kernel d).isSome = true → ∃ fe, fd fe = d
  finite : {d | (table ev.backend.kernel d).isSome = true}.Finite
  fdcount : ev.backend.fdcount = {d | (table ev.backend.kernel d).isSome = true}.ncard
  granted : granted ev.backend.kernel ev.opers.length

omit [DecidableEq ι] in
theorem Mirrors.unasked {ev ev' : NioEvent ι (EventEpoll κ) π} (h : ev.Mirrors table granted fd)
    (hu : Unasked ev ev') : ev'.Mirrors table granted fd := by
  refine ⟨fun fe => (hu.fd fe).trans (h.fd_eq fe), fun fe => ?_, ?_, ?_, ?_, ?_⟩
  · rw [hu.mask, hu.backend]
    exact h.listed fe
  · rw [hu.backend]
    exact h.owned
  · rw [hu.backend]
    exact h.finite
  · rw [hu.backend]
    exact h.fdcount
  · rw [hu.backend, hu.opers]
    exact h.granted

omit [DecidableEq ι] in
/-- Entering or leaving one descriptor moves the number of them by one. -/
theorem ncard_update {t : Int → Option (EpollInterest ι)}
    (hfin : {d | (t d).isSome = true}.Finite) (d : Int) (ee : Option (EpollInterest ι)) :
    {e | (Function.update t d ee e).isSome = true}.Finite ∧
      ({e | (Function.update t d ee e).isSome = true}.ncard : Int)
        = {e | (t e).isSome = true}.ncard + (occupied ee - occupied (t d)) := by
  have hset : ∀ b : Bool, ee.isSome = b →
      {e | (Function.update t d ee e).isSome = true}
        = if b then insert d {e | (t e).isSome = true} else {e | (t e).isSome = true} \ {d} := by
    intro b hb
    ext e
    by_cases he : e = d
    · subst he
      cases b <;> simp [hb]
    · cases b <;> simp [he]
  cases hb : ee.isSome with
  | true =>
      rw [hset true hb, if_pos rfl]
      refine ⟨hfin.insert d, ?_⟩
      cases ht : (t d).isSome with
      | true =>
          have hmem : d ∈ {e | (t e).isSome = true} := ht
          rw [Set.insert_eq_of_mem hmem]
          simp [occupied, hb, ht]
      | false =>
          have hmem : d ∉ {e | (t e).isSome = true} := by simpa using ht
          rw [Set.ncard_insert_of_notMem hmem hfin]
          simp [occupied, hb, ht]
  | false =>
      rw [hset false hb, if_neg Bool.false_ne_true]
      refine ⟨hfin.sdiff, ?_⟩
      cases ht : (t d).isSome with
      | true =>
          have hmem : d ∈ {e | (t e).isSome = true} := ht
          have hcard := Set.ncard_sdiff_singleton_add_one hmem hfin
          simp only [occupied, hb, ht]
          simp only [Bool.false_eq_true, if_true, if_false]
          omega
      | false =>
          have hmem : d ∉ {e | (t e).isSome = true} := by simpa using ht
          rw [Set.sdiff_singleton_eq_self hmem]
          simp [occupied, hb, ht]

/-- An operation of the backend keeps the table and the masks together when what
it leaves in the one is what it leaves in the other. -/
theorem Mirrors.oper (ht : Tabulates ctl table granted) (hinj : Function.Injective fd)
    {ev : NioEvent ι (EventEpoll κ) π} (h : ev.Mirrors table granted fd) {kind : OperKind}
    {op : EventOper ι (EventEpoll κ) π} {fe : ι} {ee : Option (EpollInterest ι)}
    {mask : Dir → Bool}
    (hop : Leaves ctl table (ev.files fe).fd ev.backend ee mask
      (op ev.oneshot ev.backend fe (ev.files fe)))
    (hlist : Listed fe mask ee) : (ev.oper kind op fe).Mirrors table granted fd := by
  obtain ⟨⟨o, e, hk⟩, htab, hcount, hmask⟩ := hop
  rw [h.fd_eq] at htab hcount
  have htab' : table (ev.oper kind op fe).backend.kernel
      = Function.update (table ev.backend.kernel) (fd fe) ee := htab
  obtain ⟨hfin, hcard⟩ := ncard_update h.finite (fd fe) ee
  refine ⟨fun e => ?_, fun e => ?_, fun d hd => ?_, ?_, ?_, ?_⟩
  · rw [oper_files]
    split
    · rename_i he
      rw [he]
      exact h.fd_eq fe
    · exact h.fd_eq e
  · rw [oper_files, htab']
    split
    · rename_i he
      rw [he, Function.update_self, hmask]
      exact hlist
    · rename_i he
      rw [Function.update_of_ne (fun hc => he (hinj hc))]
      exact h.listed e
  · rw [htab', Function.update_apply] at hd
    split at hd
    · rename_i he
      exact ⟨fe, he.symm⟩
    · exact h.owned d hd
  · rw [htab']
    exact hfin
  · rw [htab', hcard, ← h.fdcount]
    exact hcount
  · rw [oper_opers, List.length_append]
    exact ht.grants hk h.granted

/-! ## The calls -/

omit [DecidableEq ι] in
/-- A side that is not deleted stays in the mask. -/
theorem host_del_other {dir d : Dir} (hd : d ≠ dir) (oneshot : Bool) (k : EventEpoll κ) (fe : ι)
    (file : NioFile π) :
    ((EventEpoll.host ctl espipe).del dir oneshot k fe file).2 d = file.mask d := by
  cases dir with
  | read =>
      simp only [EventEpoll.host, EventEpoll.delRead]
      split <;> exact Function.update_of_ne hd _ _
  | write =>
      simp only [EventEpoll.host, EventEpoll.delWrite]
      split <;> exact Function.update_of_ne hd _ _

omit [DecidableEq ι] in
theorem listed_at {ev : NioEvent ι (EventEpoll κ) π} (h : ev.Mirrors table granted fd) (fe : ι) :
    Listed fe (ev.files fe).mask (table ev.backend.kernel (ev.files fe).fd) := by
  rw [h.fd_eq]
  exact h.listed fe

theorem mirrors_oper_add (ht : Tabulates ctl table granted) (hinj : Function.Injective fd)
    {ev : NioEvent ι (EventEpoll κ) π} (h : ev.Mirrors table granted fd) (dir : Dir) (fe : ι) :
    (ev.oper (.add dir) ((EventEpoll.host ctl espipe).add dir) fe).Mirrors table granted fd := by
  cases dir with
  | read =>
      refine h.oper ht hinj (EventEpoll.leaves_addRead ht ev.oneshot (listed_at h fe)) ?_
      exact ⟨by simp, by simp, by simp, rfl⟩
  | write =>
      refine h.oper ht hinj (EventEpoll.leaves_addWrite ht ev.oneshot (listed_at h fe)) ?_
      exact ⟨by simp, by simp, by simp, rfl⟩

theorem mirrors_oper_del (ht : Tabulates ctl table granted) (hinj : Function.Injective fd)
    {ev : NioEvent ι (EventEpoll κ) π} (h : ev.Mirrors table granted fd) (dir : Dir) (fe : ι)
    (hm : (ev.files fe).mask dir = true) :
    (ev.oper (.del dir) ((EventEpoll.host ctl espipe).del dir) fe).Mirrors table granted fd := by
  cases dir with
  | read =>
      refine h.oper ht hinj (EventEpoll.leaves_delRead ht ev.oneshot (listed_at h fe) hm) ?_
      cases hw : (ev.files fe).mask .write with
      | true => exact ⟨by simp [hw], by simp, by simp [hw], rfl⟩
      | false => exact fun dir => by cases dir <;> simp [hw]
  | write =>
      refine h.oper ht hinj (EventEpoll.leaves_delWrite ht ev.oneshot (listed_at h fe) hm) ?_
      cases hr : (ev.files fe).mask .read with
      | true => exact ⟨by simp [hr], by simp [hr], by simp, rfl⟩
      | false => exact fun dir => by cases dir <;> simp [hr]

/-- **The table and the masks stay together** under all that is asked of the
backend. -/
theorem mirrors_backed (ht : Tabulates ctl table granted) (hinj : Function.Injective fd) :
    Backed (EventEpoll.host ctl espipe : Host ι (EventEpoll κ) π)
      (Mirrors table granted fd) where
  unasked := fun h hu => h.unasked hu
  add := fun h dir fe => mirrors_oper_add ht hinj h dir fe
  del := fun h dir fe hm => mirrors_oper_del ht hinj h dir fe hm
  delReadwrite := by
    intro ev h op fe hop hm
    cases hop
    have hl := listed_at h fe
    have hs : (table ev.backend.kernel (ev.files fe).fd).isSome = true := by
      rw [hl.isSome]
      exact hm
    exact h.oper ht hinj (EventEpoll.leaves_delReadwrite ht ev.oneshot hs) fun _ => rfl
  fflush := fun h => h
  other := fun hd oneshot k fe file => host_del_other hd oneshot k fe file

omit [DecidableEq ι] in
theorem mirrors_create (oneshot direct : Bool) (setsize : Int) {k : κ}
    (hk : table k = fun _ => none) (hg : granted k 0) :
    (create oneshot direct setsize fd ⟨k, 0⟩ : NioEvent ι (EventEpoll κ) π).Mirrors table
      granted fd := by
  have hempty : {d | (table k d).isSome = true} = ∅ := by simp [hk]
  refine ⟨fun _ => rfl, fun fe => ?_, fun d hd => ?_, ?_, ?_, hg⟩
  · simp only [create, hk]
    exact fun _ => rfl
  · simp [create, hk] at hd
  · simp only [create, hempty]
    exact Set.finite_empty
  · simp only [create, hempty]
    simp

/-! ## Shared descriptors -/

/-- What an operation on a file may do to the table, whatever stands there. -/
inductive Changes (table : κ → Int → Option (EpollInterest ι)) (fe : ι) (fd : Int)
    (ep : EventEpoll κ) (mask : Dir → Bool) (r : EventEpoll κ × (Dir → Bool)) : Prop
  | refused (hk : table r.1.kernel = table ep.kernel) (hm : ∀ dir, mask dir = true → r.2 dir = true)
  | put {ee : EpollInterest ι} (hptr : ee.ptr = fe) (hm : ∃ dir, r.2 dir = true)
      (hk : table r.1.kernel = Function.update (table ep.kernel) fd (some ee))
  | taken (hk : table r.1.kernel = Function.update (table ep.kernel) fd none)

omit [DecidableEq ι] in
theorem changes_add (ht : Tabulates ctl table granted) (dir : Dir) (oneshot : Bool)
    (ep : EventEpoll κ) (fe : ι) (file : NioFile π) :
    Changes table fe file.fd ep file.mask
      ((EventEpoll.host ctl espipe).add dir oneshot ep fe file) := by
  cases dir with
  | read =>
      simp only [EventEpoll.host, EventEpoll.addRead]
      split
      · rename_i kernel hk
        refine .put rfl ⟨.read, by simp⟩ (ht.granted_put ?_ hk)
        split
        · decide
        · split <;> decide
      · exact .refused rfl fun _ hd => hd
  | write =>
      simp only [EventEpoll.host, EventEpoll.addWrite]
      split
      · rename_i kernel hk
        refine .put rfl ⟨.write, by simp⟩ (ht.granted_put ?_ hk)
        split
        · decide
        · split <;> decide
      · exact .refused rfl fun _ hd => hd

omit [DecidableEq ι] in
theorem changes_take (ht : Tabulates ctl table granted) {fd : Int} {ee : EpollInterest ι} {fe : ι}
    {ep : EventEpoll κ} {mask mask' : Dir → Bool} :
    Changes table fe fd ep mask'
      (match ctl .del fd ee ep.kernel with
        | some kernel => ({ kernel, fdcount := ep.fdcount + -1 }, mask)
        | none => (ep, mask)) := by
  split
  · rename_i kernel hk
    exact .taken (ht.granted_del hk)
  · rename_i hk
    -- there was nothing to delete
    refine .taken ?_
    rw [← ht.refused (by decide) hk, Function.update_eq_self]

omit [DecidableEq ι] in
theorem changes_mod (ht : Tabulates ctl table granted) {fd : Int} (ee : EpollInterest ι) {n : Int}
    {ep : EventEpoll κ} {mask mask' : Dir → Bool} (hm : ∃ dir, mask dir = true) :
    Changes table ee.ptr fd ep mask'
      (match ctl .mod fd ee ep.kernel with
        | some kernel => ({ kernel, fdcount := ep.fdcount + n }, mask)
        | none => (ep, mask)) := by
  split
  · rename_i kernel hk
    exact .put rfl hm (ht.granted_put (by decide) hk)
  · rename_i hk
    refine .taken ?_
    rw [← ht.refused (by decide) hk, Function.update_eq_self]

omit [DecidableEq ι] in
theorem changes_del (ht : Tabulates ctl table granted) (dir : Dir) (oneshot : Bool)
    (ep : EventEpoll κ) (fe : ι) (file : NioFile π) :
    Changes table fe file.fd ep file.mask
      ((EventEpoll.host ctl espipe).del dir oneshot ep fe file) := by
  cases dir with
  | read =>
      simp only [EventEpoll.host, EventEpoll.delRead]
      cases hw : Function.update file.mask .read false .write with
      | true =>
          simp only [if_true]
          exact changes_mod ht ⟨false, true, _, fe⟩ ⟨.write, hw⟩
      | false =>
          simp only [Bool.false_eq_true, if_false]
          exact changes_take ht
  | write =>
      simp only [EventEpoll.host, EventEpoll.delWrite]
      cases hr : Function.update file.mask .write false .read with
      | true =>
          simp only [if_true]
          exact changes_mod ht ⟨true, false, _, fe⟩ ⟨.read, hr⟩
      | false =>
          simp only [Bool.false_eq_true, if_false]
          exact changes_take ht

/-- A registration points to a file of its descriptor with something in its mask.
Two files may have one descriptor, the one having been closed before the other
was opened. -/
structure Shown (table : κ → Int → Option (EpollInterest ι)) (fd : ι → Int)
    (ev : NioEvent ι (EventEpoll κ) π) : Prop where
  fd_eq : ∀ fe, (ev.files fe).fd = fd fe
  ptr : ∀ {d ee}, table ev.backend.kernel d = some ee → fd ee.ptr = d
  masked : ∀ {d ee}, table ev.backend.kernel d = some ee →
    ∃ dir, (ev.files ee.ptr).mask dir = true

omit [DecidableEq ι] in
theorem Mirrors.shown {ev : NioEvent ι (EventEpoll κ) π} (h : ev.Mirrors table granted fd) :
    ev.Shown table fd := by
  have hlisted : ∀ {d ee}, table ev.backend.kernel d = some ee →
      fd ee.ptr = d ∧ ((ev.files ee.ptr).mask .read || (ev.files ee.ptr).mask .write) = true := by
    intro d ee hk
    obtain ⟨fe, rfl⟩ := h.owned d (by rw [hk]; rfl)
    have hl := h.listed fe
    rw [hk] at hl
    obtain ⟨hmask, -, -, rfl⟩ := hl
    exact ⟨rfl, hmask⟩
  refine ⟨h.fd_eq, fun hk => (hlisted hk).1, fun hk => ?_⟩
  rcases Bool.or_eq_true_iff.mp (hlisted hk).2 with hr | hw
  · exact ⟨.read, hr⟩
  · exact ⟨.write, hw⟩

theorem Shown.oper {ev : NioEvent ι (EventEpoll κ) π} (h : ev.Shown table fd) {kind : OperKind}
    {op : EventOper ι (EventEpoll κ) π} {fe : ι}
    (hop : Changes table fe (ev.files fe).fd ev.backend (ev.files fe).mask
      (op ev.oneshot ev.backend fe (ev.files fe))) : (ev.oper kind op fe).Shown table fd := by
  have hfd : ∀ e, ((ev.oper kind op fe).files e).fd = fd e := by
    intro e
    rw [oper_files]
    split
    · rename_i he
      rw [he]
      exact h.fd_eq fe
    · exact h.fd_eq e
  have hmask : ∀ {e}, e ≠ fe → ((ev.oper kind op fe).files e).mask = (ev.files e).mask := by
    intro e he
    rw [oper_files, if_neg he]
  have hself : ((ev.oper kind op fe).files fe).mask
      = (op ev.oneshot ev.backend fe (ev.files fe)).2 := by
    rw [oper_files, if_pos rfl]
  -- what stands at another descriptor is of another file
  have hother : ∀ {d ee}, d ≠ fd fe → table ev.backend.kernel d = some ee → ee.ptr ≠ fe := by
    rintro d ee hd hk rfl
    exact hd (h.ptr hk).symm
  rw [h.fd_eq] at hop
  cases hop with
  | refused hk hm =>
      refine ⟨hfd, fun {d ee} ht => ?_, fun {d ee} ht => ?_⟩
      · exact h.ptr (hk ▸ ht)
      · obtain ⟨dir, hd⟩ := h.masked (hk ▸ ht)
        refine ⟨dir, ?_⟩
        by_cases he : ee.ptr = fe
        · rw [he] at hd ⊢
          rw [hself]
          exact hm dir hd
        · rw [hmask he]
          exact hd
  | put hptr hm hk =>
      rename_i e
      have hput : ∀ {d ee}, table (ev.oper kind op fe).backend.kernel d = some ee →
          d = fd fe ∧ ee.ptr = fe ∨ d ≠ fd fe ∧ table ev.backend.kernel d = some ee := by
        intro d ee ht
        change table (op ev.oneshot ev.backend fe (ev.files fe)).1.kernel d = some ee at ht
        rw [hk, Function.update_apply] at ht
        split at ht
        · rename_i hd
          cases ht
          exact .inl ⟨hd, hptr⟩
        · rename_i hd
          exact .inr ⟨hd, ht⟩
      refine ⟨hfd, fun {d ee} ht => ?_, fun {d ee} ht => ?_⟩
      · rcases hput ht with ⟨rfl, he⟩ | ⟨hd, ht⟩
        · rw [he]
        · exact h.ptr ht
      · rcases hput ht with ⟨rfl, he⟩ | ⟨hd, ht⟩
        · rw [he, hself]
          exact hm
        · rw [hmask (hother hd ht)]
          exact h.masked ht
  | taken hk =>
      have hkept : ∀ {d ee}, table (ev.oper kind op fe).backend.kernel d = some ee →
          d ≠ fd fe ∧ table ev.backend.kernel d = some ee := by
        intro d ee ht
        change table (op ev.oneshot ev.backend fe (ev.files fe)).1.kernel d = some ee at ht
        rw [hk, Function.update_apply] at ht
        split at ht
        · cases ht
        · rename_i hd
          exact ⟨hd, ht⟩
      refine ⟨hfd, fun {d ee} ht => h.ptr (hkept ht).2, fun {d ee} ht => ?_⟩
      obtain ⟨hd, ht⟩ := hkept ht
      rw [hmask (hother hd ht)]
      exact h.masked ht

/-- **Registrations stay with files** that have something in their masks. -/
theorem shown_backed (ht : Tabulates ctl table granted) :
    Backed (EventEpoll.host ctl espipe : Host ι (EventEpoll κ) π) (Shown table fd) where
  unasked := by
    intro ev ev' h hu
    refine ⟨fun fe => (hu.fd fe).trans (h.fd_eq fe), fun {d ee} hk => ?_, fun {d ee} hk => ?_⟩
    · rw [hu.backend] at hk
      exact h.ptr hk
    · rw [hu.backend] at hk
      rw [hu.mask]
      exact h.masked hk
  add := fun h dir fe => h.oper (changes_add ht dir _ _ fe _)
  del := fun h dir fe _ => h.oper (changes_del ht dir _ _ fe _)
  delReadwrite := by
    intro ev h op fe hop hm
    cases hop
    exact h.oper (changes_take ht)
  fflush := fun h => h
  other := fun hd oneshot k fe file => host_del_other hd oneshot k fe file

omit [DecidableEq ι] in
theorem shown_create (oneshot direct : Bool) (setsize : Int) {k : κ} (hk : table k = fun _ => none)
    (fd : ι → Int) :
    (create oneshot direct setsize fd ⟨k, 0⟩ : NioEvent ι (EventEpoll κ) π).Shown table fd := by
  refine ⟨fun _ => rfl, fun {d ee} ht => ?_, fun {d ee} ht => ?_⟩
  · simp [create, hk] at ht
  · simp [create, hk] at ht

end NioEvent

/-! ## Every run -/

/-- A kernel with a table, which counts the calls that succeed. -/
def epollCounted : EpollCtl ι ((Int → Option (EpollInterest ι)) × Nat) := fun op fd ee k =>
  (epollTable op fd ee k.1).map fun table => (table, k.2 + 1)

omit [DecidableEq ι] in
theorem tabulates_epollCounted :
    Tabulates (epollCounted : EpollCtl ι _) Prod.fst fun k n => k.2 = n := by
  refine ⟨fun op fd ee k => ?_, fun {op fd ee k k' n} hk hn => ?_⟩
  · simp [epollCounted, Function.comp_def]
  · obtain ⟨t, -, rfl⟩ := Option.map_eq_some_iff.mp hk
    rw [hn]

namespace Loop

/-- **The epoll backend mirrors the masks.** Whatever is called, from outside or
by the callbacks, and whatever is delivered: each operation of the backend makes
one call of `epoll_ctl`, and as many have succeeded; a descriptor is in the table
if and only if its file is registered for something, with the bits of the mask
and a pointer to that file; and `fdcount` counts the table. -/
theorem epoll_mirrors (oneshot direct : Bool) (setsize : Int) (fd : ι → Int)
    (hfd : Function.Injective fd) (espipe : Int → Bool) (behave : Behaviour ι π)
    (steps : List (Step ι π)) :
    let s := (start oneshot direct setsize fd ⟨(fun _ => none, 0), 0⟩ : Loop ι _ π).run
      (EventEpoll.host epollCounted espipe) behave steps
    let table := s.ev.backend.kernel.1
    s.ev.backend.kernel.2 = s.ev.opers.length ∧
      (∀ fe, (table (fd fe)).isSome = true ↔ ∃ dir, (s.ev.files fe).mask dir = true) ∧
      (∀ fe ee, table (fd fe) = some ee →
        ee.epollin = (s.ev.files fe).mask .read ∧ ee.epollout = (s.ev.files fe).mask .write ∧
          ee.ptr = fe) ∧
      (∀ d, (table d).isSome = true → ∃ fe, fd fe = d) ∧
      {d | (table d).isSome = true}.Finite ∧
      s.ev.backend.fdcount = {d | (table d).isSome = true}.ncard := by
  intro s table
  have hb : NioEvent.Backed (EventEpoll.host epollCounted espipe :
      Host ι (EventEpoll ((Int → Option (EpollInterest ι)) × Nat)) π)
      (NioEvent.Mirrors Prod.fst (fun k n => k.2 = n) fd) :=
    NioEvent.mirrors_backed tabulates_epollCounted hfd
  have hstart : (NioEvent.create oneshot direct setsize fd ⟨(fun _ => none, 0), 0⟩ :
      NioEvent ι (EventEpoll ((Int → Option (EpollInterest ι)) × Nat)) π).Mirrors Prod.fst
        (fun k n => k.2 = n) fd :=
    NioEvent.mirrors_create oneshot direct setsize rfl rfl
  have hrun : s.ev.Mirrors Prod.fst (fun k n => k.2 = n) fd ∧ s.ev.DelsHeld := by
    refine run_induct (P := fun s => s.ev.Mirrors Prod.fst (fun k n => k.2 = n) fd ∧
      s.ev.DelsHeld) (fun s c h => ?_) (fun s _ _ _ h => h) (fun s h => ?_)
      ⟨hstart, NioEvent.delsHeld_create oneshot direct setsize fd _⟩ steps
    · exact hb.apply h.1 h.2 c
    · exact hb.prepare h.1 h.2
  obtain ⟨h, -⟩ := hrun
  refine ⟨h.granted, fun fe => ?_, fun fe ee he => ?_, h.owned, h.finite, h.fdcount⟩
  · rw [(h.listed fe).isSome, Bool.or_eq_true]
    constructor
    · rintro (hr | hw)
      · exact ⟨.read, hr⟩
      · exact ⟨.write, hw⟩
    · rintro ⟨dir, hd⟩
      cases dir with
      | read => exact .inl hd
      | write => exact .inr hd
  · have hl : Listed fe (s.ev.files fe).mask (table (fd fe)) := h.listed fe
    rw [he] at hl
    exact hl.2

/-- One file registered for both sides, and one for nothing any more. -/
theorem epoll_mirrors_two :
    let steps : List (Step Nat Unit) := [.call (.add .read 3 ()), .call (.add .write 3 ()),
      .call (.add .read 4 ()), .wait [], .call (.del .read 4), .wait []]
    let s := (start false false 16 Nat.cast ⟨(fun _ => none, 0), 0⟩ : Loop Nat _ Unit).run
      (EventEpoll.host epollCounted fun _ => true) (fun _ => []) steps
    (s.ev.opers.length = 4 ∧ (s.ev.files 3).mask .write = true ∧
        (s.ev.files 4).mask .read = false) ∧
      s.ev.backend.kernel.2 = s.ev.opers.length ∧
      ((s.ev.backend.kernel.1 (3 : Nat)).isSome = true ↔ ∃ dir, (s.ev.files 3).mask dir = true) ∧
      ((s.ev.backend.kernel.1 (4 : Nat)).isSome = true ↔
        ∃ dir, (s.ev.files 4).mask dir = true) := by
  have h := epoll_mirrors false false 16 (Nat.cast : Nat → Int) Nat.cast_injective
    (fun _ => true) (fun _ => []) [.call (.add .read 3 ()), .call (.add .write 3 ()),
      .call (.add .read 4 ()), .wait [], .call (.del .read 4), .wait []]
  dsimp only at h ⊢
  exact ⟨by decide +kernel, h.1, h.2.1 3, h.2.1 4⟩

end Loop

end Libnio.Event
