import Libnio.Event.Clear
import Libnio.Event.Kernel

/-!
# Event — what arms a registration again

One file over a kernel that disarms, as far as it is only added: whether its
registration is armed is a matter of the adds that the event has taken and of
the events that have been reported of it since.
-/

namespace Libnio.Event

variable {ι κ π : Type}

/-! ## One descriptor -/

@[simp] theorem EpollItem.spend_spend (item : EpollItem ι) : item.spend.spend = item.spend := rfl

/-- What is left of a registration when a round is reported. -/
theorem epollWait_item (ready : List (Int × Ready)) (k : EpollSet ι) (d : Int) :
    (epollWait ready k).2 d = (k d).map fun item =>
      if ready.any fun x => decide (x.1 = d) && item.fires x.2 then item.spend else item := by
  induction ready generalizing k with
  | nil => simp [epollWait]
  | cons x ready ih =>
      obtain ⟨fd, r⟩ := x
      show (epollWait ready (epollTake fd r k).2).2 d = _
      rw [ih]
      by_cases hd : d = fd
      · subst hd
        cases hk : k d with
        | none => simp [epollTake, hk]
        | some item =>
            cases hf : item.fires r with
            | true =>
                simp only [epollTake, hk, hf, if_true, Function.update_self, Option.map_some,
                  EpollItem.spend_spend, ite_self, List.any_cons, decide_true, Bool.and_self,
                  Bool.true_or]
            | false =>
                simp only [epollTake, hk, hf, Bool.false_eq_true, if_false, Option.map_some,
                  List.any_cons, Bool.and_false, Bool.false_or]
      · rw [epollTake_other hd]
        simp only [List.any_cons, decide_eq_false (Ne.symm hd), Bool.false_and, Bool.false_or]

/-- An operation of the backend leaves the other descriptors alone. -/
def EventOper.Local (op : EventOper ι (EventEpoll (EpollSet ι)) π) : Prop :=
  ∀ oneshot ep fe file d, d ≠ file.fd → (op oneshot ep fe file).1.kernel d = ep.kernel d

theorem epollCtl_other {op : EpollOp} {fd d : Int} (hd : d ≠ fd) {ee : EpollInterest ι}
    {k k' : EpollSet ι} (h : epollCtl op fd ee k = some k') : k' d = k d := by
  cases op <;> cases hk : k fd <;> simp only [epollCtl, hk, reduceCtorEq, Option.some.injEq] at h
  all_goals
    rw [← h]
    exact Function.update_of_ne hd _ _

theorem epollCtl_self {op : EpollOp} {fd : Int} {ee : EpollInterest ι} {k k' : EpollSet ι}
    (h : epollCtl op fd ee k = some k') : k' fd = none ∨ k' fd = some ⟨ee, true⟩ := by
  cases op <;> cases hk : k fd <;> simp only [epollCtl, hk, reduceCtorEq, Option.some.injEq] at h
  all_goals
    rw [← h, Function.update_self]
    simp

namespace EventEpoll

variable (espipe : Int → Bool)

theorem local_add (dir : Dir) :
    ((host epollCtl espipe : Host ι _ π).add dir).Local := by
  intro oneshot ep fe file d hd
  cases dir
  all_goals
    simp only [host, addRead, addWrite]
    split
    · rename_i hk
      exact epollCtl_other hd hk
    · rfl

theorem local_del (dir : Dir) :
    ((host epollCtl espipe : Host ι _ π).del dir).Local := by
  intro oneshot ep fe file d hd
  cases dir
  all_goals
    simp only [host, delRead, delWrite]
    split
    · rename_i hk
      exact epollCtl_other hd hk
    · rfl

theorem local_delReadwrite :
    (delReadwrite epollCtl : EventOper ι (EventEpoll (EpollSet ι)) π).Local := by
  intro oneshot ep fe file d hd
  simp only [delReadwrite]
  split
  · rename_i hk
    exact epollCtl_other hd hk
  · rfl

end EventEpoll

/-- What an add leaves in the kernel is armed. -/
theorem Leaves.item {fd : Int} {ep : EventEpoll (EpollSet ι)} {ee : EpollInterest ι}
    {mask : Dir → Bool} {r : EventEpoll (EpollSet ι) × (Dir → Bool)}
    (h : Leaves epollCtl EpollSet.table fd ep (some ee) mask r) :
    r.1.kernel fd = some ⟨ee, true⟩ := by
  obtain ⟨op, e, hk⟩ := h.answered
  have htable := congrFun h.table_eq fd
  rw [Function.update_self, EpollSet.table] at htable
  rcases epollCtl_self hk with hnone | hsome
  · rw [hnone] at htable
    cases htable
  · rw [hsome] at htable ⊢
    cases htable
    rfl

/-! ## What goes on beside a file -/

variable [DecidableEq ι]

namespace NioEvent

variable {espipe : Int → Bool} {e fe : ι} {ev ev' ev'' : NioEvent ι (EventEpoll (EpollSet ι)) π}

/-- Neither the file nor its registration has changed. -/
structure Undisturbed (e : ι) (ev ev' : NioEvent ι (EventEpoll (EpollSet ι)) π) : Prop
    extends Untouched e ev ev' where
  oneshot : ev'.oneshot = ev.oneshot
  direct : ev'.direct = ev.direct
  fd : ∀ f, (ev'.files f).fd = (ev.files f).fd
  item : ev'.backend.kernel (ev.files e).fd = ev.backend.kernel (ev.files e).fd

namespace Undisturbed

theorem refl (ev : NioEvent ι (EventEpoll (EpollSet ι)) π) : Undisturbed e ev ev :=
  ⟨.refl ev, rfl, rfl, fun _ => rfl, rfl⟩

theorem trans (h : Undisturbed e ev ev') (h' : Undisturbed e ev' ev'') : Undisturbed e ev ev'' := by
  refine ⟨h.toUntouched.trans h'.toUntouched, h'.oneshot.trans h.oneshot,
    h'.direct.trans h.direct, fun f => (h'.fd f).trans (h.fd f), ?_⟩
  have hitem := h'.item
  rw [h.fd] at hitem
  exact hitem.trans h.item

theorem modify (he : e ≠ fe) (ev : NioEvent ι (EventEpoll (EpollSet ι)) π)
    {f : NioFile π → NioFile π} (hf : ∀ file, (f file).fd = file.fd) :
    Undisturbed e ev (ev.modify fe f) := by
  refine ⟨.modify he ev f, rfl, rfl, fun g => ?_, rfl⟩
  rw [modify_files]
  split
  · rename_i hg
    rw [hg, hf]
  · rfl

theorem enqueue (he : e ≠ fe) (ev : NioEvent ι (EventEpoll (EpollSet ι)) π) :
    Undisturbed e ev (ev.enqueue fe) := by
  refine ⟨.enqueue he ev, ?_, enqueue_direct ev fe, fun g => by rw [enqueue_files], ?_⟩
  · unfold NioEvent.enqueue
    split <;> rfl
  · unfold NioEvent.enqueue
    split <;> rfl

theorem detach (he : e ≠ fe) (ev : NioEvent ι (EventEpoll (EpollSet ι)) π) :
    Undisturbed e ev { ev with ring := ev.ring.detach fe } :=
  ⟨.detach he ev, rfl, rfl, fun _ => rfl, rfl⟩

theorem oper {op : EventOper ι (EventEpoll (EpollSet ι)) π} (hop : op.Local)
    (hfd : (ev.files e).fd ≠ (ev.files fe).fd) (kind : OperKind) :
    Undisturbed e ev (ev.oper kind op fe) := by
  have he : e ≠ fe := fun h => hfd (by rw [h])
  exact ⟨.oper he ev kind op, rfl, rfl, (keeps_oper ev kind op fe).fd,
    hop ev.oneshot ev.backend fe (ev.files fe) _ hfd⟩

/-- The descriptors are as far apart as before. -/
theorem apart (h : Undisturbed e ev ev') (hfd : (ev.files e).fd ≠ (ev.files fe).fd) :
    (ev'.files e).fd ≠ (ev'.files fe).fd := by
  rw [h.fd, h.fd]
  exact hfd

/-- One more operation of the backend, on another descriptor. -/
theorem then_oper (h : Undisturbed e ev ev') {op : EventOper ι (EventEpoll (EpollSet ι)) π}
    (hop : op.Local) (hfd : (ev.files e).fd ≠ (ev.files fe).fd) (kind : OperKind) :
    Undisturbed e ev (ev'.oper kind op fe) :=
  h.trans (.oper hop (h.apart hfd) kind)

end Undisturbed

section Other

variable (espipe)

/-- **A call on another descriptor** leaves the registration alone. -/
theorem apply_undisturbed (ev : NioEvent ι (EventEpoll (EpollSet ι)) π) {c : Call ι π}
    (hfd : (ev.files e).fd ≠ (ev.files c.file).fd) :
    Undisturbed e ev (ev.apply (EventEpoll.host epollCtl espipe) c) := by
  have he : e ≠ c.file := fun h => hfd (by rw [← h])
  cases c with
  | add dir fe proc =>
      change e ≠ fe at he
      change _ ≠ (ev.files fe).fd at hfd
      show Undisturbed e ev (ev.add (EventEpoll.host epollCtl espipe) dir fe proc).2
      have hdel : Undisturbed e ev (ev.modify fe (·.setOperDel dir false)) :=
        .modify he ev fun _ => rfl
      have htype : ∀ type, Undisturbed e ev
          ((ev.modify fe (·.setOperDel dir false)).modify fe (·.setType type)) := fun type =>
        hdel.trans (.modify he _ fun _ => rfl)
      unfold NioEvent.add
      split
      · exact .refl ev
      split
      · exact .refl ev
      dsimp only
      split
      · split
        · exact htype .nosock
        · refine Undisturbed.trans ?_ (.modify he _ fun _ => rfl)
          refine Undisturbed.trans ?_ (.modify he _ fun _ => rfl)
          split
          · exact (htype .sock).then_oper (EventEpoll.local_add espipe dir) hfd (.add dir)
          · exact (htype .sock).trans (.enqueue he _)
      · exact hdel.trans (.modify he _ fun _ => rfl)
  | del dir fe =>
      change e ≠ fe at he
      change _ ≠ (ev.files fe).fd at hfd
      show Undisturbed e ev (ev.del (EventEpoll.host epollCtl espipe) dir fe)
      have hadd : Undisturbed e ev (ev.modify fe (·.setOperAdd dir false)) :=
        .modify he ev fun _ => rfl
      unfold NioEvent.del
      refine Undisturbed.trans ?_ (.modify he _ fun _ => rfl)
      split
      · split
        · exact hadd.then_oper (EventEpoll.local_del espipe dir) hfd (.del dir)
        · exact (hadd.trans (.enqueue he _)).trans (.modify he _ fun _ => rfl)
      · exact hadd
  | delReadwrite fe =>
      change e ≠ fe at he
      change _ ≠ (ev.files fe).fd at hfd
      have hmasked : Undisturbed e ev (ev.delMasked (EventEpoll.host epollCtl espipe) fe) := by
        show Undisturbed e ev (if _ then ev.oper .delReadwrite _ fe else ev)
        split
        · exact .oper EventEpoll.local_delReadwrite hfd .delReadwrite
        · exact .refl ev
      show Undisturbed e ev (ev.delReadwrite (EventEpoll.host epollCtl espipe) fe)
      unfold NioEvent.delReadwrite
      show Undisturbed e ev (NioEvent.modify _ fe (·.clearOper))
      refine Undisturbed.trans ?_ (.modify he _ fun _ => rfl)
      split
      · exact hmasked.trans (.detach he _)
      · exact hmasked

/-- Preparing another file does. -/
theorem prepareOne_undisturbed (ev : NioEvent ι (EventEpoll (EpollSet ι)) π)
    (hfd : (ev.files e).fd ≠ (ev.files fe).fd) :
    Undisturbed e ev (ev.prepareOne (EventEpoll.host epollCtl espipe) fe) := by
  have he : e ≠ fe := fun h => hfd (by rw [h])
  have hpending : ∀ {v : NioEvent ι (EventEpoll (EpollSet ι)) π} {kind : OperKind}
      {op : EventOper ι (EventEpoll (EpollSet ι)) π} (bit : NioFile π → Bool), op.Local →
      Undisturbed e ev v → Undisturbed e ev (v.pending kind op bit fe) := by
    intro v kind op bit hop hv
    unfold NioEvent.pending
    split
    · exact hv.then_oper hop hfd kind
    · exact hv
  unfold NioEvent.prepareOne
  refine Undisturbed.trans (Undisturbed.trans ?_ (.detach he _)) (.modify he _ fun _ => rfl)
  exact hpending _ (EventEpoll.local_add espipe .write)
    (hpending _ (EventEpoll.local_add espipe .read)
      (hpending _ (EventEpoll.local_del espipe .write)
        (hpending _ (EventEpoll.local_del espipe .read) (.refl ev))))

end Other

/-! ## A file that is only added -/

/-- An event of the file is reported, of a registration with `EPOLLONESHOT`. -/
def disarms (ev : NioEvent ι (EventEpoll (EpollSet ι)) π) (fe : ι) (ready : List (Int × Ready)) :
    Bool :=
  match ev.backend.kernel (ev.files fe).fd with
  | none => false
  | some item =>
      item.interest.oneshot &&
        ready.any fun x => decide (x.1 = (ev.files fe).fd) && item.fires x.2

/-- The registration of the file reports that it is writable. -/
def armedOut (ev : NioEvent ι (EventEpoll (EpollSet ι)) π) (fe : ι) : Bool :=
  match ev.backend.kernel (ev.files fe).fd with
  | none => false
  | some item => item.armed && item.interest.epollout && decide (item.interest.ptr = fe)

/-- Where a file stands that has been added for writing if `asked`, and of which
an event has been reported that disarms it since it was last added if `spent`. -/
structure Stands (fe : ι) (asked spent : Bool) (ev : NioEvent ι (EventEpoll (EpollSet ι)) π) :
    Prop where
  dels : ∀ dir, (ev.files fe).operDel dir = false
  waits : ev.ring.linked fe = true →
    ev.direct = false ∧ spent = false ∧ ∃ dir, (ev.files fe).operAdd dir = true
  pending : ev.direct = false → ∀ dir, (ev.files fe).operAdd dir = true →
    ev.ring.linked fe = true
  asked_eq : asked
    = ((ev.files fe).mask .write || (ev.ring.linked fe && (ev.files fe).operAdd .write))
  oneshot : spent = true → ev.oneshot = true
  item : ∀ item ∈ ev.backend.kernel (ev.files fe).fd,
    (item.interest.oneshot = true → ev.oneshot = true) ∧
      (ev.ring.linked fe = false → item.armed = !spent)

variable {asked spent : Bool}

theorem Undisturbed.stands (h : Undisturbed fe ev ev') (hs : ev.Stands fe asked spent) :
    ev'.Stands fe asked spent := by
  have hitem := h.item
  rw [← h.fd fe] at hitem
  refine ⟨?_, ?_, ?_, ?_, ?_, ?_⟩
  · rw [h.files]
    exact hs.dels
  · rw [h.files, h.linked, h.direct]
    exact hs.waits
  · rw [h.files, h.linked, h.direct]
    exact hs.pending
  · rw [h.files, h.linked]
    exact hs.asked_eq
  · rw [h.oneshot]
    exact hs.oneshot
  · rw [hitem, h.fd, h.linked, h.oneshot]
    exact hs.item

theorem stands_create (oneshot direct : Bool) (setsize : Int) (fd : ι → Int)
    (fe : ι) : (create oneshot direct setsize fd ⟨fun _ => none, 0⟩ :
      NioEvent ι (EventEpoll (EpollSet ι)) π).Stands fe false false where
  dels _ := rfl
  waits h := by cases h
  pending _ _ h := by cases h
  asked_eq := rfl
  oneshot h := by cases h
  item _ h := by cases h

/-! ## An add of the file -/

/-- What is neither of the mask nor pending does not matter. -/
theorem Stands.modify (hs : ev.Stands fe asked spent) {f : NioFile π → NioFile π}
    (hfd : ∀ file, (f file).fd = file.fd) (hmask : ∀ file, (f file).mask = file.mask)
    (hadd : ∀ file, (f file).operAdd = file.operAdd)
    (hdel : ∀ file dir, file.operDel dir = false → (f file).operDel dir = false) :
    (ev.modify fe f).Stands fe asked spent := by
  have hfile : (ev.modify fe f).files fe = f (ev.files fe) := by rw [modify_files, if_pos rfl]
  refine ⟨?_, ?_, ?_, ?_, hs.oneshot, ?_⟩
  · rw [hfile]
    exact fun dir => hdel _ dir (hs.dels dir)
  · rw [hfile, hadd]
    exact hs.waits
  · rw [hfile, hadd]
    exact hs.pending
  · rw [hfile, hadd, hmask]
    exact hs.asked_eq
  · rw [hfile, hfd]
    exact hs.item

variable {fd : ι → Int}

variable (espipe) in
/-- **An add arms the registration**, in which `EPOLLONESHOT` stands in that mode
only. -/
theorem armed_oper_add (hm : ev.Mirrors EpollSet.table (fun _ _ => True) fd) (dir : Dir) (fe : ι) :
    ∃ ee : EpollInterest ι,
      (ev.oper (.add dir) ((EventEpoll.host epollCtl espipe).add dir) fe).backend.kernel
          (ev.files fe).fd = some ⟨ee, true⟩ ∧
        (ee.oneshot = true → ev.oneshot = true) ∧
        ((ev.oper (.add dir) ((EventEpoll.host epollCtl espipe).add dir) fe).files fe).mask
          = Function.update (ev.files fe).mask dir true := by
  have hl := listed_at hm fe
  cases dir with
  | read =>
      have hleaves := EventEpoll.leaves_addRead tabulates_epollCtl ev.oneshot hl
      refine ⟨_, hleaves.item, fun h => h, ?_⟩
      rw [oper_files, if_pos rfl]
      exact hleaves.mask_eq
  | write =>
      have hleaves := EventEpoll.leaves_addWrite tabulates_epollCtl ev.oneshot hl
      refine ⟨_, hleaves.item, fun h => (by cases h), ?_⟩
      rw [oper_files, if_pos rfl]
      exact hleaves.mask_eq

theorem update_write (mask : Dir → Bool) (dir : Dir) :
    Function.update mask dir true .write = (mask .write || decide (dir = .write)) := by
  cases dir with
  | read => simp
  | write => simp

/-- The backend adds a side of a file that is not in the ring. -/
theorem Stands.oper (hm : ev.Mirrors EpollSet.table (fun _ _ => True) fd)
    (hs : ev.Stands fe asked spent) (hl : ev.ring.linked fe = false) (dir : Dir) :
    (ev.oper (.add dir) ((EventEpoll.host epollCtl espipe).add dir) fe).Stands fe
      (asked || decide (dir = .write)) false := by
  obtain ⟨ee, hitem, hone, hmask⟩ := armed_oper_add espipe hm dir fe
  have hfile := oper_files ev fe (.add dir) ((EventEpoll.host epollCtl espipe).add dir) fe
  rw [if_pos rfl] at hfile
  refine ⟨?_, ?_, ?_, ?_, fun h => (by cases h), ?_⟩
  · rw [hfile]
    exact hs.dels
  · intro h
    change ev.ring.linked fe = true at h
    rw [hl] at h
    cases h
  · rw [hfile]
    exact hs.pending
  · rw [hmask, update_write]
    show _ = (_ || (ev.ring.linked fe && _))
    rw [hs.asked_eq, hl, Bool.false_and, Bool.false_and, Bool.or_false, Bool.or_false]
  · intro item hi
    rw [(keeps_oper ev _ _ fe).fd, hitem] at hi
    cases hi
    exact ⟨hone, fun _ => rfl⟩

theorem Stands.unlinked (hs : ev.Stands fe asked spent) (hd : ev.direct = true) :
    ev.ring.linked fe = false := by
  by_contra hl
  rw [(hs.waits (by simpa using hl)).1] at hd
  cases hd

/-- In direct mode a bit of `oper` says nothing. -/
theorem Stands.raise (hs : ev.Stands fe asked spent) (hd : ev.direct = true) (dir : Dir) :
    (ev.modify fe (·.setOperAdd dir true)).Stands fe asked spent := by
  have hl := hs.unlinked hd
  have hfile : (ev.modify fe (·.setOperAdd dir true)).files fe
      = (ev.files fe).setOperAdd dir true := by rw [modify_files, if_pos rfl]
  refine ⟨?_, fun h => ?_, fun h => ?_, ?_, hs.oneshot, ?_⟩
  · rw [hfile]
    exact hs.dels
  · change ev.ring.linked fe = true at h
    rw [hl] at h
    cases h
  · change ev.direct = false at h
    rw [hd] at h
    cases h
  · rw [hfile]
    show _ = ((ev.files fe).mask .write || (ev.ring.linked fe && _))
    rw [hs.asked_eq, hl, Bool.false_and, Bool.false_and]
  · rw [hfile]
    exact hs.item

/-- A side of the file is queued to be added. -/
theorem Stands.queue (hs : ev.Stands fe asked spent) (hd : ev.direct = false) (dir : Dir) :
    ((ev.enqueue fe).modify fe (·.setOperAdd dir true)).Stands fe
      (asked || decide (dir = .write)) false := by
  have hfile : ((ev.enqueue fe).modify fe (·.setOperAdd dir true)).files fe
      = (ev.files fe).setOperAdd dir true := by
    rw [modify_files, if_pos rfl, enqueue_files]
  have hlinked : ((ev.enqueue fe).modify fe (·.setOperAdd dir true)).ring.linked fe = true := by
    simp
  have hadd : ∀ d, ((ev.files fe).setOperAdd dir true).operAdd d
      = Function.update (ev.files fe).operAdd dir true d := fun _ => rfl
  have hsame : ∀ v : NioEvent ι (EventEpoll (EpollSet ι)) π, v = ev.enqueue fe →
      v.direct = ev.direct ∧ v.oneshot = ev.oneshot ∧ v.backend = ev.backend := by
    rintro v rfl
    unfold enqueue
    split <;> exact ⟨rfl, rfl, rfl⟩
  obtain ⟨hdirect, hone, hbackend⟩ := hsame _ rfl
  refine ⟨?_, fun _ => ⟨hdirect.trans hd, rfl, dir, ?_⟩, fun _ _ _ => hlinked, ?_,
    fun h => (by cases h), ?_⟩
  · rw [hfile]
    exact hs.dels
  · rw [hfile, hadd, Function.update_self]
  · rw [hfile, hlinked, hadd, update_write, hs.asked_eq, Bool.true_and]
    show _ = ((ev.files fe).mask .write || _)
    -- out of the ring nothing was pending
    cases hl : ev.ring.linked fe with
    | true => rw [Bool.true_and, Bool.or_assoc]
    | false =>
        have hnone : (ev.files fe).operAdd .write = false := by
          by_contra hc
          rw [hs.pending hd .write (by simpa using hc)] at hl
          cases hl
        rw [hnone, Bool.and_self, Bool.or_false, Bool.false_or]
  · intro item hi
    rw [hfile] at hi
    change item ∈ (ev.enqueue fe).backend.kernel (ev.files fe).fd at hi
    rw [hbackend] at hi
    refine ⟨fun h => hone.trans ((hs.item item hi).1 h), fun h => ?_⟩
    rw [hlinked] at h
    cases h

/-- A deletion that waits is withdrawn. -/
theorem Stands.setOperDel (hs : ev.Stands fe asked spent) (dir : Dir) :
    (ev.modify fe (·.setOperDel dir false)).Stands fe asked spent := by
  refine hs.modify (fun _ => rfl) (fun _ => rfl) (fun _ => rfl) ?_
  intro file d hd
  show Function.update file.operDel dir false d = false
  rw [Function.update_apply]
  split
  · rfl
  · exact hd

/-- **The event takes the file.** -/
theorem Stands.add (hm : ev.Mirrors EpollSet.table (fun _ _ => True) fd)
    (hok : TypesOk (EventEpoll.host epollCtl espipe) ev) (hs : ev.Stands fe asked spent)
    (ha : ev.accepts (EventEpoll.host epollCtl espipe) fe = true) (dir : Dir) (p : π) :
    (ev.add (EventEpoll.host epollCtl espipe) dir fe p).2.Stands fe
      (asked || decide (dir = .write)) false := by
  have hdel := hs.setOperDel dir
  have hmdel := hm.unasked (unasked_setOperDel ev fe dir false)
  rw [add_accepted hok ha]
  dsimp only
  generalize ev.modify fe (·.setOperDel dir false) = v at hdel hmdel
  refine Stands.modify ?_ (fun _ => rfl) (fun _ => rfl) (fun _ => rfl) fun _ _ h => h
  split
  · have htype : (v.modify fe (·.setType .sock)).Stands fe asked spent :=
      hdel.modify (fun _ => rfl) (fun _ => rfl) (fun _ => rfl) fun _ _ h => h
    have hmtype := hmdel.unasked (unasked_setType v fe .sock)
    unfold arm
    dsimp only
    generalize v.modify fe (·.setType .sock) = u at htype hmtype
    split
    · rename_i hdirect
      exact (htype.oper hmtype (htype.unlinked hdirect) dir).raise hdirect dir
    · rename_i hdirect
      exact htype.queue (by simpa using hdirect) dir
  · rename_i hno
    rw [Bool.or_eq_true, not_or, Bool.not_eq_true', Bool.not_eq_false, Bool.not_eq_true] at hno
    have hspent : spent = false := by
      by_contra hc
      rw [hdel.oneshot (by simpa using hc)] at hno
      cases hno.2
    have hasked : (asked || decide (dir = .write)) = asked := by
      cases dir with
      | read => simp
      | write => rw [hdel.asked_eq, hno.1]; rfl
    rw [hasked]
    rw [hspent] at hdel
    exact hdel

/-- **The event does not take it.** -/
theorem Stands.refused (hok : TypesOk (EventEpoll.host epollCtl espipe) ev)
    (hs : ev.Stands fe asked spent)
    (ha : ev.accepts (EventEpoll.host epollCtl espipe) fe = false) (dir : Dir) (p : π) :
    (ev.add (EventEpoll.host epollCtl espipe) dir fe p).2.Stands fe asked spent := by
  rcases (add_refused hok ha dir p).2 with heq | ⟨-, -, heq⟩
  · rw [heq]
    exact hs
  · rw [heq]
    exact (hs.setOperDel dir).modify (fun _ => rfl) (fun _ => rfl) (fun _ => rfl) fun _ _ h => h

/-! ## Prepare -/

variable (espipe) in
/-- One side of the file is handed to the backend if it waits. -/
theorem pending_add (hinj : Function.Injective fd)
    (hm : ev.Mirrors EpollSet.table (fun _ _ => True) fd) (dir : Dir) (fe : ι) :
    let u := ev.pending (.add dir) ((EventEpoll.host epollCtl espipe).add dir) (·.operAdd dir) fe
    u.Mirrors EpollSet.table (fun _ _ => True) fd ∧ u.ring = ev.ring ∧ u.oneshot = ev.oneshot ∧
      (u.files fe).fd = (ev.files fe).fd ∧ (u.files fe).operAdd = (ev.files fe).operAdd ∧
      (u.files fe).mask .write = ((ev.files fe).mask .write ||
        (decide (dir = .write) && (ev.files fe).operAdd .write)) ∧
      if (ev.files fe).operAdd dir = true then
        ∃ ee : EpollInterest ι, u.backend.kernel (ev.files fe).fd = some ⟨ee, true⟩ ∧
          (ee.oneshot = true → ev.oneshot = true)
      else u.backend = ev.backend := by
  intro u
  by_cases hb : (ev.files fe).operAdd dir = true
  · have hu : u = ev.oper (.add dir) ((EventEpoll.host epollCtl espipe).add dir) fe := if_pos hb
    obtain ⟨ee, hitem, hone, hmask⟩ := armed_oper_add espipe hm dir fe
    rw [if_pos hb, hu]
    refine ⟨mirrors_oper_add tabulates_epollCtl hinj hm dir fe, rfl, rfl,
      (keeps_oper ev _ _ fe).fd fe, ?_, ?_, ee, hitem, hone⟩
    · rw [oper_files, if_pos rfl]
    · rw [hmask, update_write]
      cases dir with
      | read => simp
      | write => simp [hb]
  · have hu : u = ev := if_neg hb
    rw [if_neg hb, hu]
    refine ⟨hm, rfl, rfl, rfl, rfl, ?_, rfl⟩
    cases dir with
    | read => simp
    | write => simp [hb]

/-- **The file is prepared.** What waits is handed to the backend, and the
registration is armed. -/
theorem Stands.prepareOne (hinj : Function.Injective fd)
    (hm : ev.Mirrors EpollSet.table (fun _ _ => True) fd) (hn : ev.ring.entries.Nodup)
    (hs : ev.Stands fe asked spent) (hl : ev.ring.linked fe = true) :
    (ev.prepareOne (EventEpoll.host epollCtl espipe) fe).Stands fe asked spent := by
  obtain ⟨-, rfl, d, hd⟩ := hs.waits hl
  -- there is nothing to delete
  have hdel : ∀ dir, ev.pending (.del dir) ((EventEpoll.host epollCtl espipe).del dir)
      (·.operDel dir) fe = ev := fun dir => if_neg (by simp [hs.dels dir])
  unfold NioEvent.prepareOne
  dsimp only
  rw [hdel, hdel]
  have hread := pending_add espipe hinj hm .read fe
  have hwrite := pending_add espipe hinj hread.1 .write fe
  generalize ev.pending (.add .read) ((EventEpoll.host epollCtl espipe).add .read)
    (·.operAdd .read) fe = v at hread hwrite ⊢
  generalize v.pending (.add .write) ((EventEpoll.host epollCtl espipe).add .write)
    (·.operAdd .write) fe = u at hwrite ⊢
  obtain ⟨-, hring₁, hone₁, hfd₁, hadd₁, hmask₁, hitem₁⟩ := hread
  obtain ⟨-, hring₂, hone₂, hfd₂, hadd₂, hmask₂, hitem₂⟩ := hwrite
  have hlinked : (u.ring.detach fe).linked fe = false := by
    rw [hring₂, hring₁, NioRing.linked_detach hn]
    simp
  have hfile : (({ u with ring := u.ring.detach fe } : NioEvent ι _ π).modify fe
      (·.clearOper)).files fe = (u.files fe).clearOper := by rw [modify_files, if_pos rfl]
  -- one of the two sides was waiting
  have hitem : ∃ ee : EpollInterest ι, u.backend.kernel (u.files fe).fd = some ⟨ee, true⟩ ∧
      (ee.oneshot = true → u.oneshot = true) := by
    rw [hadd₁] at hitem₂
    rw [hfd₂, hone₂, hone₁]
    cases hw : (ev.files fe).operAdd .write with
    | true =>
        rw [if_pos hw, hone₁] at hitem₂
        exact hitem₂
    | false =>
        have hr : (ev.files fe).operAdd .read = true := by
          cases d with
          | read => exact hd
          | write =>
              rw [hw] at hd
              cases hd
        rw [if_neg (by simp [hw])] at hitem₂
        rw [if_pos hr] at hitem₁
        rw [hitem₂, hfd₁]
        exact hitem₁
  refine ⟨?_, fun h => ?_, fun _ dir h => ?_, ?_, fun h => (by cases h), ?_⟩
  · rw [hfile]
    exact fun _ => rfl
  · change (u.ring.detach fe).linked fe = true at h
    rw [hlinked] at h
    cases h
  · rw [hfile] at h
    cases h
  · rw [hfile]
    show _ = ((u.files fe).mask .write || ((u.ring.detach fe).linked fe && false))
    rw [hmask₂, hmask₁, hadd₁, hs.asked_eq, hl, Bool.and_false]
    simp
  · intro item hi
    obtain ⟨ee, hee, hone⟩ := hitem
    rw [hfile] at hi
    change u.backend.kernel (u.files fe).fd = some item at hi
    rw [hee] at hi
    cases hi
    exact ⟨hone, fun _ => rfl⟩

/-- Every file that waits is taken out of the ring. -/
theorem prepareLoop_ring {κ : Type} (host : Host ι κ π) (n : Nat) (ev : NioEvent ι κ π)
    (h : ev.ring.entries.length ≤ n) : (prepareLoop host n ev).ring.entries = [] := by
  induction n generalizing ev with
  | zero => exact List.length_eq_zero_iff.mp (Nat.le_zero.mp h)
  | succ n ih =>
      rw [prepareLoop]
      split
      · rename_i hf
        exact List.head?_eq_none_iff.mp hf
      · rename_i f hf
        refine ih _ ?_
        have hmem : f ∈ ev.ring.entries := List.mem_of_mem_head? hf
        rw [prepareOne_ring]
        show (ev.ring.entries.erase f).length ≤ n
        rw [List.length_erase_of_mem hmem]
        omega

/-- **`nio_event_prepare`.** -/
theorem Stands.prepare (hinj : Function.Injective fd)
    (hm : ev.Mirrors EpollSet.table (fun _ _ => True) fd) (hdels : ev.DelsHeld)
    (hn : ev.ring.entries.Nodup) (hs : ev.Stands fe asked spent) :
    (ev.prepare (EventEpoll.host epollCtl espipe)).Stands fe asked spent := by
  have hb : Backed (EventEpoll.host epollCtl espipe : Host ι (EventEpoll (EpollSet ι)) π)
      (Mirrors EpollSet.table (fun _ _ => True) fd) := mirrors_backed tabulates_epollCtl hinj
  have hloop : ∀ (n : Nat) (v : NioEvent ι (EventEpoll (EpollSet ι)) π),
      v.Mirrors EpollSet.table (fun _ _ => True) fd → v.DelsHeld → v.ring.entries.Nodup →
      v.Stands fe asked spent →
      (prepareLoop (EventEpoll.host epollCtl espipe) n v).Stands fe asked spent := by
    intro n
    induction n with
    | zero => exact fun v _ _ _ h => h
    | succ n ih =>
        intro v hm hdels hn hs
        rw [prepareLoop]
        split
        · exact hs
        · rename_i f hf
          obtain ⟨hm', hdels'⟩ := hb.prepareOne hm hdels f
          refine ih _ hm' hdels' ?_ ?_
          · rw [prepareOne_ring]
            exact NioRing.nodup_detach hn f
          · by_cases he : fe = f
            · subst he
              refine hs.prepareOne hinj hm hn ?_
              exact NioRing.linked_iff.mpr (List.mem_of_mem_head? hf)
            · refine Undisturbed.stands (prepareOne_undisturbed espipe v ?_) hs
              rw [hm.fd_eq, hm.fd_eq]
              exact fun h => he (hinj h)
  have hend := hloop ev.ring.entries.length ev hm hdels hn hs
  have hring : (prepareLoop (EventEpoll.host epollCtl espipe) ev.ring.entries.length ev).ring
      = .init := by
    have hnil := prepareLoop_ring (EventEpoll.host epollCtl espipe) _ ev le_rfl
    cases hr : (prepareLoop (EventEpoll.host epollCtl espipe) ev.ring.entries.length ev).ring
    rw [hr] at hnil
    rw [NioRing.init, ← hnil]
  unfold NioEvent.prepare
  rw [← hring]
  exact hend

/-! ## What is reported -/

/-- **`epoll_wait`**, with nothing waiting for the next round. -/
theorem Stands.epollWait (hs : ev.Stands fe asked spent) (hl : ev.ring.linked fe = false)
    (ready : List (Int × Ready)) :
    NioEvent.Stands fe asked (spent || ev.disarms fe ready)
      { ev with backend :=
        { ev.backend with kernel := (Event.epollWait ready ev.backend.kernel).2 } } := by
  refine ⟨hs.dels, fun h => ?_, hs.pending, hs.asked_eq, fun h => ?_, fun item hi => ?_⟩
  · change ev.ring.linked fe = true at h
    rw [hl] at h
    cases h
  · rcases Bool.or_eq_true_iff.mp h with h | h
    · exact hs.oneshot h
    · unfold disarms at h
      split at h
      · cases h
      · rename_i item hk
        exact (hs.item item hk).1 (Bool.and_eq_true_iff.mp h).1
  · change (Event.epollWait ready ev.backend.kernel).2 (ev.files fe).fd = some item at hi
    rw [epollWait_item] at hi
    obtain ⟨old, hk, hi⟩ := Option.map_eq_some_iff.mp hi
    obtain ⟨hone, harmed⟩ := hs.item old hk
    have harmed := harmed hl
    have hdisarms : ev.disarms fe ready = (old.interest.oneshot &&
        ready.any fun x => decide (x.1 = (ev.files fe).fd) && old.fires x.2) := by
      unfold disarms
      rw [hk]
    split at hi
    · rename_i hany
      subst hi
      refine ⟨hone, fun _ => ?_⟩
      rw [hdisarms, hany, Bool.and_true]
      -- what is reported was armed
      obtain ⟨x, -, hx⟩ := List.any_eq_true.mp hany
      have hold : old.armed = true := by
        have hfires := (Bool.and_eq_true_iff.mp hx).2
        rw [EpollItem.fires, Bool.and_eq_true] at hfires
        exact hfires.1
      rw [hold] at harmed
      have hspent : spent = false := by simpa using harmed.symm
      rw [hspent, Bool.false_or]
      rfl
    · rename_i hany
      subst hi
      refine ⟨hone, fun _ => ?_⟩
      rw [Bool.not_eq_true] at hany
      rw [hdisarms, hany, Bool.and_false, Bool.or_false]
      exact harmed

/-- **What is armed for writing**, with nothing waiting to be prepared: what has
been added for it and has not been spent since. -/
theorem Stands.armedOut_iff (hm : ev.Mirrors EpollSet.table (fun _ _ => True) fd)
    (hs : ev.Stands fe asked spent) (hl : ev.ring.linked fe = false) :
    ev.armedOut fe = true ↔ asked = true ∧ spent = false := by
  have hmask : asked = (ev.files fe).mask .write := by
    rw [hs.asked_eq, hl, Bool.false_and, Bool.or_false]
  have hlisted := listed_at hm fe
  unfold armedOut
  cases hk : ev.backend.kernel (ev.files fe).fd with
  | none =>
      simp only [EpollSet.table, hk, Option.map_none] at hlisted
      rw [hmask, hlisted .write]
      simp
  | some item =>
      simp only [EpollSet.table, hk, Option.map_some] at hlisted
      obtain ⟨-, -, hout, hptr⟩ := hlisted
      have harmed := (hs.item item hk).2 hl
      rw [hmask, ← hout]
      simp [harmed, hptr, and_comm]

/-! ## The event of a file that is only added -/

/-- What a run keeps of an event with such a file, whose `w_proc` is `proc` when it
has been added for writing. -/
structure OnlyAdded (fd : ι → Int) (espipe : Int → Bool) (proc : π) (fe : ι) (asked spent : Bool)
    (ev : NioEvent ι (EventEpoll (EpollSet ι)) π) : Prop where
  mirrors : ev.Mirrors EpollSet.table (fun _ _ => True) fd
  dels : ev.DelsHeld
  typesOk : TypesOk (EventEpoll.host epollCtl espipe) ev
  ringed : ev.Ringed
  stands : ev.Stands fe asked spent
  proc_eq : (ev.files fe).proc .write = if asked then some proc else none

theorem onlyAdded_create (oneshot direct : Bool) (setsize : Int) (fd : ι → Int)
    (espipe : Int → Bool) (proc : π) (fe : ι) :
    (create oneshot direct setsize fd ⟨fun _ => none, 0⟩ :
      NioEvent ι (EventEpoll (EpollSet ι)) π).OnlyAdded fd espipe proc fe false false where
  mirrors := mirrors_create oneshot direct setsize rfl trivial
  dels := delsHeld_create oneshot direct setsize fd _
  typesOk := typesOk_create _ oneshot direct setsize fd _
  ringed := ringed_create oneshot direct setsize fd _
  stands := stands_create oneshot direct setsize fd fe
  proc_eq := rfl

namespace OnlyAdded

variable {proc : π}

/-- A call of another file. -/
theorem other (hinj : Function.Injective fd) (h : ev.OnlyAdded fd espipe proc fe asked spent)
    {c : Call ι π} (hc : c.file ≠ fe) :
    (ev.apply (EventEpoll.host epollCtl espipe) c).OnlyAdded fd espipe proc fe asked spent := by
  obtain ⟨hm, hd⟩ := (mirrors_backed tabulates_epollCtl hinj).apply h.mirrors h.dels c
  have hfd : (ev.files fe).fd ≠ (ev.files c.file).fd := by
    rw [h.mirrors.fd_eq, h.mirrors.fd_eq]
    exact fun he => hc (hinj he).symm
  have hsame := apply_undisturbed espipe ev hfd
  refine ⟨hm, hd, typesOk_apply h.typesOk c, h.ringed.apply h.typesOk c, hsame.stands h.stands, ?_⟩
  rw [hsame.files]
  exact h.proc_eq

/-- An add of the file that the event takes. -/
theorem add (hinj : Function.Injective fd) (h : ev.OnlyAdded fd espipe proc fe asked spent)
    (ha : ev.accepts (EventEpoll.host epollCtl espipe) fe = true) {dir : Dir} {p : π}
    (hp : dir = .write → p = proc) :
    (ev.apply (EventEpoll.host epollCtl espipe) (.add dir fe p)).OnlyAdded fd espipe proc fe
      (asked || decide (dir = .write)) false := by
  obtain ⟨hm, hd⟩ := (mirrors_backed tabulates_epollCtl hinj).apply h.mirrors h.dels
    (.add dir fe p)
  refine ⟨hm, hd, typesOk_apply h.typesOk _, h.ringed.apply h.typesOk _,
    h.stands.add h.mirrors h.typesOk ha dir p, ?_⟩
  show ((ev.add (EventEpoll.host epollCtl espipe) dir fe p).2.files fe).proc .write = _
  rw [(add_keeps _ h.typesOk ha dir p).proc, modify_files, if_pos rfl]
  show Function.update (ev.files fe).proc dir (some p) .write = _
  cases dir with
  | read => simpa using h.proc_eq
  | write => simp [hp rfl]

/-- One that it does not take. -/
theorem refused (hinj : Function.Injective fd) (h : ev.OnlyAdded fd espipe proc fe asked spent)
    (ha : ev.accepts (EventEpoll.host epollCtl espipe) fe = false) (dir : Dir) (p : π) :
    (ev.apply (EventEpoll.host epollCtl espipe) (.add dir fe p)).OnlyAdded fd espipe proc fe asked
      spent := by
  obtain ⟨hm, hd⟩ := (mirrors_backed tabulates_epollCtl hinj).apply h.mirrors h.dels
    (.add dir fe p)
  refine ⟨hm, hd, typesOk_apply h.typesOk _, h.ringed.apply h.typesOk _,
    h.stands.refused h.typesOk ha dir p, ?_⟩
  show ((ev.add (EventEpoll.host epollCtl espipe) dir fe p).2.files fe).proc .write = _
  rw [(refused_keeps _ h.typesOk ha dir p).proc]
  exact h.proc_eq

theorem prepare (hinj : Function.Injective fd) (h : ev.OnlyAdded fd espipe proc fe asked spent) :
    (ev.prepare (EventEpoll.host epollCtl espipe)).OnlyAdded fd espipe proc fe asked spent := by
  obtain ⟨hm, hd⟩ := (mirrors_backed tabulates_epollCtl hinj).prepare h.mirrors h.dels
  refine ⟨hm, hd, typesOk_prepare h.typesOk, ringed_prepare ev,
    h.stands.prepare hinj h.mirrors h.dels h.ringed.nodup, ?_⟩
  rw [(prepare_keeps _ ev).proc]
  exact h.proc_eq

theorem epollWait (h : ev.OnlyAdded fd espipe proc fe asked spent)
    (hl : ev.ring.linked fe = false) (ready : List (Int × Ready)) :
    NioEvent.OnlyAdded fd espipe proc fe asked (spent || ev.disarms fe ready)
      { ev with backend :=
        { ev.backend with kernel := (Event.epollWait ready ev.backend.kernel).2 } } :=
  ⟨h.mirrors.epollWait ready, h.dels, h.typesOk, ⟨h.ringed.nodup, h.ringed.sock⟩,
    h.stands.epollWait hl ready, h.proc_eq⟩

end OnlyAdded

end NioEvent

end Libnio.Event
