import Libnio.Event.PollWait

/-!
# Event — the kqueue backend

`nio_event_kqueue.c`: the changes are collected in an array, which goes to the
kernel when it is full, on a flush and with a wait. The kernel applies them in
order. `fdcount` is moved by the other side of the mask alone, so that a side
that is added once more is counted once more: `kqueue_mirrors_iff`.
-/

namespace Libnio.Event

variable {ι κ π : Type}

/-- `EV_SET(kev, fd, filter, flags, 0, 0, fe)`, with `EV_ADD` or `EV_DELETE`. -/
structure Kevent (ι : Type) where
  ident : Int
  filter : Dir
  add : Bool
  udata : ι

/-- The filters of the kernel: by descriptor and side, with the `udata` of it. -/
abbrev Filters (ι : Type) := Int → Dir → Option ι

/-- One change, in the kernel. -/
def Kevent.apply (filters : Filters ι) (kev : Kevent ι) : Filters ι :=
  Function.update filters kev.ident
    (Function.update (filters kev.ident) kev.filter (if kev.add then some kev.udata else none))

theorem Kevent.apply_eq (filters : Filters ι) (kev : Kevent ι) (d : Int) (dir : Dir) :
    kev.apply filters d dir =
      if d = kev.ident ∧ dir = kev.filter then (if kev.add then some kev.udata else none)
      else filters d dir := by
  by_cases hd : d = kev.ident
  · subst hd
    simp [Kevent.apply, Function.update_apply]
  · simp [Kevent.apply, hd]

/-- `EVENT_KQUEUE` -/
structure EventKqueue (ι : Type) where
  /-- the filters behind `kqfd` -/
  filters : Filters ι
  changes : Nat → Option (Kevent ι)
  setsize : Nat
  nchanges : Nat
  fdcount : Int
  /-- every place of `changes` that was written is below `setsize` -/
  inRange : Bool

namespace EventKqueue

/-- `nio_kqueue_create` -/
def create (size : Int) : EventKqueue ι :=
  { filters := fun _ _ => none, changes := fun _ => none
    setsize := if size ≤ 0 ∨ size > 1024 then 1024 else size.toNat
    nchanges := 0, fdcount := 0, inRange := true }

/-- `changes[0..nchanges)` -/
def pending (ek : EventKqueue ι) : List (Kevent ι) := (List.range ek.nchanges).filterMap ek.changes

/-- What the filters are when the changes have been applied in order. -/
def applied (ek : EventKqueue ι) : Filters ι := ek.pending.foldl Kevent.apply ek.filters

/-- `kevent(ek->kqfd, ek->changes, ek->nchanges, ..)` and `ek->nchanges = 0`, as
`kqueue_fflush` has them and `kqueue_wait` begins with them. -/
def fflush (ek : EventKqueue ι) : EventKqueue ι := { ek with filters := ek.applied, nchanges := 0 }

/-- `kev = &ek->changes[ek->nchanges++]` and `EV_SET(kev, ..)`, after a flush when
there is no place left. -/
def record (ek : EventKqueue ι) (kev : Kevent ι) : EventKqueue ι :=
  let ek := if ek.nchanges ≥ ek.setsize then ek.fflush else ek
  { ek with
    changes := fun i => if i = ek.nchanges then some kev else ek.changes i
    nchanges := ek.nchanges + 1
    inRange := ek.inRange && decide (ek.nchanges < ek.setsize) }

/-- `kqueue_add_read`, `kqueue_add_write` -/
def add (dir : Dir) : EventOper ι (EventKqueue ι) π := fun _ ek fe file =>
  let ek := ek.record { ident := file.fd, filter := dir, add := true, udata := fe }
  ({ ek with fdcount := if !file.mask dir.other then ek.fdcount + 1 else ek.fdcount },
    Function.update file.mask dir true)

/-- `kqueue_del_read`, `kqueue_del_write` -/
def del (dir : Dir) : EventOper ι (EventKqueue ι) π := fun _ ek fe file =>
  let ek := ek.record { ident := file.fd, filter := dir, add := false, udata := fe }
  let mask := Function.update file.mask dir false
  ({ ek with fdcount := if !mask dir.other then ek.fdcount - 1 else ek.fdcount }, mask)

/-- What the event gets from `nio_kqueue_create`. -/
def host (espipe : Int → Bool) : Host ι (EventKqueue ι) π :=
  { espipe, add, del, delReadwrite := none, eventFflush := some fflush }

end EventKqueue

namespace Loop

variable [DecidableEq ι] (host : Host ι (EventKqueue ι) π) (behave : Behaviour ι π)

/-- The body of the loop of `kqueue_wait`: an event of one filter, with its `udata`. -/
def kqueueOne (s : Loop ι (EventKqueue ι) π) (kev : Option ι × Dir) : Loop ι (EventKqueue ι) π :=
  match kev.1 with
  | none => s
  | some fe => s.react host behave true kev.2 fe ((s.ev.files fe).proc kev.2)

/-- `kqueue_wait`, with the events that `kevent` has put into `events`. -/
def kqueueWait (s : Loop ι (EventKqueue ι) π) (events : List (Option ι × Dir)) :
    Loop ι (EventKqueue ι) π :=
  events.foldl (kqueueOne host behave) { s with ev := s.ev.setBackend EventKqueue.fflush }

/-- **A round of `nio_event_wait` with kqueue is turns of the event.** -/
theorem kqueueWait_reaches (s : Loop ι (EventKqueue ι) π) (events : List (Option ι × Dir)) :
    NioEvent.Reaches host (fun _ : Unit => NioEvent.setBackend EventKqueue.fflush) s.ev
      (kqueueWait host behave { s with ev := s.ev.prepare host } events).ev := by
  have hwalk : ∀ (events : List (Option ι × Dir)) (t : Loop ι (EventKqueue ι) π),
      NioEvent.Reaches host (fun _ : Unit => NioEvent.setBackend EventKqueue.fflush) s.ev t.ev →
      NioEvent.Reaches host (fun _ : Unit => NioEvent.setBackend EventKqueue.fflush) s.ev
        (events.foldl (kqueueOne host behave) t).ev := by
    intro events
    induction events with
    | nil => exact fun t h => h
    | cons kev events ih =>
        intro t h
        refine ih _ ?_
        unfold kqueueOne
        split
        · exact h
        · exact react_reaches h _ _ _ _
  exact hwalk events _ (((NioEvent.Reaches.refl s.ev).turn .prepare).turn (.answer ()))

end Loop

namespace EventKqueue

/-! ## The changes -/

/-- A change that is recorded is the last one that is applied. -/
theorem applied_record (ek : EventKqueue ι) (kev : Kevent ι) :
    (ek.record kev).applied = kev.apply ek.applied := by
  have hwrite : ∀ ek : EventKqueue ι,
      applied { ek with
        changes := fun i => if i = ek.nchanges then some kev else ek.changes i
        nchanges := ek.nchanges + 1 } = kev.apply ek.applied := by
    intro ek
    have hpending : (List.range ek.nchanges).filterMap
        (fun i => if i = ek.nchanges then some kev else ek.changes i) = ek.pending := by
      refine List.filterMap_congr fun i hi => ?_
      rw [List.mem_range] at hi
      rw [if_neg (by omega)]
    simp only [applied, pending, List.range_succ, List.filterMap_append]
    rw [hpending]
    simp [pending]
  by_cases hfull : ek.nchanges ≥ ek.setsize
  · simp only [record, if_pos hfull]
    exact hwrite ek.fflush
  · simp only [record, if_neg hfull]
    exact hwrite ek

theorem record_setsize (ek : EventKqueue ι) (kev : Kevent ι) :
    (ek.record kev).setsize = ek.setsize := by
  simp only [record]
  split <;> rfl

theorem record_fdcount (ek : EventKqueue ι) (kev : Kevent ι) :
    (ek.record kev).fdcount = ek.fdcount := by
  simp only [record]
  split <;> rfl

theorem record_inRange {ek : EventKqueue ι} (hs : 0 < ek.setsize) (h : ek.inRange = true)
    (kev : Kevent ι) : (ek.record kev).inRange = true := by
  by_cases hfull : ek.nchanges ≥ ek.setsize
  · simp only [record, if_pos hfull, fflush, h, hs, decide_true, Bool.and_self]
  · have hlt : ek.nchanges < ek.setsize := by omega
    simp only [record, if_neg hfull, h, hlt, decide_true, Bool.and_self]

end EventKqueue

/-- The call adds the only side that its file has already. -/
def OperCall.again (c : OperCall ι) : Bool :=
  match c.kind with
  | .add dir => c.mask dir && !c.mask dir.other
  | .del _ => false
  | .delReadwrite => false

/-! ## The filters and the masks -/

namespace NioEvent

/-- The filters against the files, whose descriptors are `fd`: what is pending makes
them the masks, and `fdcount` is too high by the sides that were added again. -/
structure Filtered (fd : ι → Int) (ev : NioEvent ι (EventKqueue ι) π) : Prop where
  fd_eq : ∀ fe, (ev.files fe).fd = fd fe
  room : 0 < ev.backend.setsize
  inRange : ev.backend.inRange = true
  applied : ∀ fe dir, ev.backend.applied (fd fe) dir
    = if (ev.files fe).mask dir then some fe else none
  finite : ev.registered.Finite
  fdcount : ev.backend.fdcount = ev.registered.ncard + (ev.opers.countP OperCall.again : Int)

variable {fd : ι → Int}

theorem Filtered.unasked {ev ev' : NioEvent ι (EventKqueue ι) π} (h : ev.Filtered fd)
    (hu : Unasked ev ev') : ev'.Filtered fd := by
  refine ⟨fun fe => (hu.fd fe).trans (h.fd_eq fe), ?_, ?_, fun fe dir => ?_, ?_, ?_⟩
  · rw [hu.backend]
    exact h.room
  · rw [hu.backend]
    exact h.inRange
  · rw [hu.backend, hu.mask]
    exact h.applied fe dir
  · rw [hu.registered]
    exact h.finite
  · rw [hu.backend, hu.registered, hu.opers]
    exact h.fdcount

theorem Filtered.fflush {ev : NioEvent ι (EventKqueue ι) π} (h : ev.Filtered fd) :
    (ev.setBackend EventKqueue.fflush).Filtered fd :=
  ⟨h.fd_eq, h.room, h.inRange, h.applied, h.finite, h.fdcount⟩

theorem filtered_create (oneshot direct : Bool) (setsize size : Int) :
    (create oneshot direct setsize fd (.create size) :
      NioEvent ι (EventKqueue ι) π).Filtered fd := by
  refine ⟨fun _ => rfl, ?_, rfl, fun _ _ => rfl, ?_, ?_⟩
  · simp only [create, EventKqueue.create]
    split <;> omega
  · rw [registered_create]
    exact Set.finite_empty
  · rw [registered_create]
    simp [create, EventKqueue.create]

variable [DecidableEq ι]

/-- An operation that records one change. -/
theorem Filtered.oper (hinj : Function.Injective fd) {ev : NioEvent ι (EventKqueue ι) π}
    (h : ev.Filtered fd) {kind : OperKind} {op : EventOper ι (EventKqueue ι) π} {fe : ι}
    (dir : Dir) (b : Bool) {fdcount : Int}
    (hop : op ev.oneshot ev.backend fe (ev.files fe)
      = ({ ev.backend.record ⟨(ev.files fe).fd, dir, b, fe⟩ with fdcount },
          Function.update (ev.files fe).mask dir b))
    (hfin : (ev.oper kind op fe).registered.Finite)
    (hcount : fdcount = (ev.oper kind op fe).registered.ncard +
      ((ev.oper kind op fe).opers.countP OperCall.again : Int)) :
    (ev.oper kind op fe).Filtered fd := by
  have hm : _ = Function.update (ev.files fe).mask dir b := congrArg Prod.snd hop
  have hb : (ev.oper kind op fe).backend
      = { ev.backend.record ⟨(ev.files fe).fd, dir, b, fe⟩ with fdcount } := congrArg Prod.fst hop
  refine ⟨fun e => (fd_oper e).trans (h.fd_eq e), ?_, ?_, fun e d => ?_, hfin, ?_⟩
  · rw [hb]
    change 0 < (ev.backend.record ⟨(ev.files fe).fd, dir, b, fe⟩).setsize
    rw [EventKqueue.record_setsize]
    exact h.room
  · rw [hb]
    exact EventKqueue.record_inRange h.room h.inRange ⟨(ev.files fe).fd, dir, b, fe⟩
  · have happ : (ev.oper kind op fe).backend.applied
        = Kevent.apply ev.backend.applied ⟨(ev.files fe).fd, dir, b, fe⟩ := by
      rw [hb, ← EventKqueue.applied_record]
      rfl
    rw [happ, Kevent.apply_eq, h.fd_eq]
    by_cases he : e = fe
    · subst he
      rw [mask_oper hm, Function.update_apply, h.applied]
      simp only [true_and]
      split <;> rfl
    · rw [if_neg fun hc => he (hinj hc.1), mask_oper_of_ne he]
      exact h.applied e d
  · rw [hb]
    exact hcount

theorem Filtered.add (hinj : Function.Injective fd) {ev : NioEvent ι (EventKqueue ι) π}
    (h : ev.Filtered fd) (dir : Dir) (fe : ι) :
    (ev.oper (.add dir) (EventKqueue.add dir) fe).Filtered fd := by
  have hm : (EventKqueue.add dir ev.oneshot ev.backend fe (ev.files fe)).2
      = Function.update (ev.files fe).mask dir true := rfl
  have hreg := registered_oper_insert (.add dir) hm ⟨dir, by simp⟩
  refine h.oper hinj dir true rfl ?_ ?_
  · rw [hreg]
    exact h.finite.insert fe
  · rw [hreg, oper_opers, List.countP_append, EventKqueue.record_fdcount, h.fdcount,
      List.countP_singleton]
    simp only [OperCall.again]
    -- A second side, the only side once more, or a new file.
    rcases Bool.eq_false_or_eq_true ((ev.files fe).mask dir.other) with ho | ho
    · rw [Set.insert_eq_of_mem (show fe ∈ ev.registered from ⟨_, ho⟩)]
      simp [ho]
    · rcases Bool.eq_false_or_eq_true ((ev.files fe).mask dir) with hd | hd
      · rw [Set.insert_eq_of_mem (show fe ∈ ev.registered from ⟨_, hd⟩)]
        simp only [ho, hd, Bool.not_false, if_true, Bool.and_self]
        omega
      · have hfe : fe ∉ ev.registered := by
          rintro ⟨d, hc⟩
          rcases dir.eq_or_other d with rfl | rfl
          · rw [hd] at hc
            cases hc
          · rw [ho] at hc
            cases hc
        rw [Set.ncard_insert_of_notMem hfe h.finite]
        simp only [ho, hd, Bool.not_false, if_true, Bool.false_and, Bool.false_eq_true, if_false]
        omega

theorem Filtered.del (hinj : Function.Injective fd) {ev : NioEvent ι (EventKqueue ι) π}
    (h : ev.Filtered fd) (dir : Dir) (fe : ι) (hd : (ev.files fe).mask dir = true) :
    (ev.oper (.del dir) (EventKqueue.del dir) fe).Filtered fd := by
  have hm : (EventKqueue.del dir ev.oneshot ev.backend fe (ev.files fe)).2
      = Function.update (ev.files fe).mask dir false := rfl
  have hfe : fe ∈ ev.registered := ⟨dir, hd⟩
  have hother : Function.update (ev.files fe).mask dir false dir.other
      = (ev.files fe).mask dir.other := by simp
  have hopers : ((ev.oper (.del dir) (EventKqueue.del dir) fe).opers.countP OperCall.again)
      = ev.opers.countP OperCall.again := by
    rw [oper_opers, List.countP_append]
    rfl
  cases ho : (ev.files fe).mask dir.other with
  | true =>
      have hreg := registered_oper_insert (.del dir) hm
        ((update_false_iff _ dir).mpr ho)
      rw [Set.insert_eq_of_mem hfe] at hreg
      refine h.oper hinj dir false rfl ?_ ?_
      · rw [hreg]
        exact h.finite
      · rw [hreg, hopers, hother, ho, EventKqueue.record_fdcount]
        exact h.fdcount
  | false =>
      have hreg := registered_oper_erase (.del dir) hm
        (by rw [update_false_iff, ho]; simp)
      refine h.oper hinj dir false rfl ?_ ?_
      · rw [hreg]
        exact h.finite.sdiff
      · have hcard := Set.ncard_sdiff_singleton_add_one hfe h.finite
        rw [hreg, hopers, hother, ho, EventKqueue.record_fdcount, h.fdcount]
        simp only [Bool.not_false, if_true]
        omega

/-- **What is pending makes the filters the masks** under all that is asked of the
backend. -/
theorem filtered_backed (hinj : Function.Injective fd) (espipe : Int → Bool) :
    Backed (EventKqueue.host espipe : Host ι (EventKqueue ι) π) (Filtered fd) where
  unasked := fun h hu => h.unasked hu
  add := fun h dir fe => h.add hinj dir fe
  del := fun h dir fe hm => h.del hinj dir fe hm
  delReadwrite := fun _ _ _ hop => nomatch hop
  fflush := fun h => h.fflush
  other := fun hd _ _ _ _ => Function.update_of_ne hd _ _

/-- **The kqueue backend mirrors the masks exactly if no side is added again.**
Whatever is called, in direct mode or not, and whenever it is prepared, flushed and
waited: no place of `changes` from `setsize` on is written, and what is pending
makes the filters of the kernel the masks of the files; and `fdcount` is the number
of the files with a mask if and only if the backend has never been called to add the
one side that a file had already. -/
theorem kqueue_mirrors_iff (hfd : Function.Injective fd) (oneshot direct : Bool)
    (setsize size : Int) (espipe : Int → Bool) (ts : List (Turn ι π Unit)) :
    let ev := (create oneshot direct setsize fd (.create size) :
      NioEvent ι (EventKqueue ι) π).turns (EventKqueue.host espipe)
        (fun _ => setBackend EventKqueue.fflush) ts
    (ev.backend.inRange = true ∧
      (∀ fe dir, (ev.backend.applied (fd fe) dir).isSome = (ev.files fe).mask dir) ∧
      ev.backend.fdcount = {fe | ∃ dir, (ev.files fe).mask dir = true}.ncard) ↔
    ∀ c ∈ ev.opers, ∀ dir, c.kind = .add dir →
      ¬ (c.mask dir = true ∧ c.mask dir.other = false) := by
  intro ev
  obtain ⟨h, -⟩ : ev.Filtered fd ∧ ev.DelsHeld :=
    (filtered_backed hfd espipe).turns (fun _ h => ⟨h.1.fflush, h.2⟩)
      (filtered_create oneshot direct setsize size) (delsHeld_create _ _ _ _ _) ts
  have hagain : (∀ c ∈ ev.opers, ∀ dir, c.kind = .add dir →
      ¬ (c.mask dir = true ∧ c.mask dir.other = false)) ↔
      ev.opers.countP OperCall.again = 0 := by
    rw [List.countP_eq_zero]
    refine forall₂_congr fun c _ => ?_
    cases hk : c.kind with
    | add dir => simp [OperCall.again, hk]
    | del dir => simp [OperCall.again, hk]
    | delReadwrite => simp [OperCall.again, hk]
  have hcount := h.fdcount
  rw [hagain]
  constructor
  · rintro ⟨-, -, hc⟩
    have hc' : ev.backend.fdcount = (ev.registered.ncard : Int) := hc
    omega
  · intro hz
    refine ⟨h.inRange, fun fe dir => ?_, ?_⟩
    · rw [h.applied]
      cases (ev.files fe).mask dir <;> rfl
    · rw [hz] at hcount
      exact hcount.trans (by simp [registered])

/-- With `NIO_EVENT_ONESHOT` one file is added for reading twice, and counted twice. -/
theorem kqueue_not_mirrors :
    let ev := (create true true 16 (fun _ => 3) (.create 16) :
      NioEvent Unit (EventKqueue Unit) Unit).turns (EventKqueue.host fun _ => true)
        (fun _ : Unit => setBackend EventKqueue.fflush)
        [.call (.add .read () ()), .call (.add .read () ())]
    ev.backend.fdcount = 2 ∧
      ¬ (ev.backend.inRange = true ∧
        (∀ fe dir, (ev.backend.applied ((fun _ => 3) fe) dir).isSome = (ev.files fe).mask dir) ∧
        ev.backend.fdcount = {fe | ∃ dir, (ev.files fe).mask dir = true}.ncard) := by
  intro ev
  have hcount : ev.backend.fdcount = 2 := by decide +kernel
  refine ⟨hcount, fun h => ?_⟩
  have hle := Set.ncard_le_one_of_subsingleton {fe : Unit | ∃ dir, (ev.files fe).mask dir = true}
  have hc := h.2.2
  rw [hcount] at hc
  omega

/-- Two files, one of which leaves again. -/
theorem kqueue_mirrors_two :
    let fd : Fin 2 → Int := fun fe => 3 + fe.val
    let ts : List (Turn (Fin 2) Unit Unit) := [.call (.add .read 0 ()), .call (.add .write 1 ()),
      .prepare, .answer (), .call (.delReadwrite 0)]
    let ev := (create false false 16 fd (.create 16) :
      NioEvent (Fin 2) (EventKqueue (Fin 2)) Unit).turns (EventKqueue.host fun _ => true)
        (fun _ => setBackend EventKqueue.fflush) ts
    ev.backend.fdcount = 1 ∧
      ((ev.backend.inRange = true ∧
        (∀ fe dir, (ev.backend.applied (fd fe) dir).isSome = (ev.files fe).mask dir) ∧
        ev.backend.fdcount = {fe | ∃ dir, (ev.files fe).mask dir = true}.ncard) ↔
      ∀ c ∈ ev.opers, ∀ dir, c.kind = .add dir →
        ¬ (c.mask dir = true ∧ c.mask dir.other = false)) := by
  intro fd ts ev
  have hfd : Function.Injective fd := by
    intro a b h
    have h' : (3 : Int) + a.val = 3 + b.val := h
    omega
  exact ⟨by decide +kernel, kqueue_mirrors_iff hfd false false 16 16 (fun _ => true) ts⟩

end NioEvent

end Libnio.Event
