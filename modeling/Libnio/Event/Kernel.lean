import Libnio.Event.Mirror

/-!
# Event — a kernel that disarms

What an epoll descriptor of the kernel holds for each file, and `epoll_wait`: an
event of a registration with `EPOLLONESHOT` disarms it, and `EPOLL_CTL_MOD` arms
it again.
-/

namespace Libnio.Event

variable {ι κ π : Type}

/-- A registration, and whether it still reports events. -/
structure EpollItem (ι : Type) where
  interest : EpollInterest ι
  armed : Bool

abbrev EpollSet (ι : Type) := Int → Option (EpollItem ι)

/-- The registrations alone. -/
def EpollSet.table (k : EpollSet ι) : Int → Option (EpollInterest ι) := fun fd =>
  (k fd).map EpollItem.interest

/-- `epoll_ctl` of such a kernel. -/
def epollCtl : EpollCtl ι (EpollSet ι) := fun op fd ee k =>
  match op, k fd with
  | .add, none => some (Function.update k fd (some ⟨ee, true⟩))
  | .mod, some _ => some (Function.update k fd (some ⟨ee, true⟩))
  | .del, some _ => some (Function.update k fd none)
  | _, _ => none

/-- What a descriptor is ready for. -/
structure Ready where
  epollin : Bool
  epollout : Bool
  epollerr : Bool
  epollhup : Bool

/-- What the kernel finds ready in one round, each descriptor once, in any order. -/
structure Readiness where
  ready : List (Int × Ready)
  nodup : (ready.map Prod.fst).Nodup

/-- Errors and hang-ups are reported whether they were asked for or not. -/
def EpollItem.revents (item : EpollItem ι) (r : Ready) : EpollEvent ι :=
  { epollin := r.epollin && item.interest.epollin
    epollout := r.epollout && item.interest.epollout
    epollerr := r.epollerr
    epollhup := r.epollhup
    ptr := some item.interest.ptr }

/-- There is something to report. -/
def EpollItem.fires (item : EpollItem ι) (r : Ready) : Bool :=
  item.armed && ((item.revents r).hits .read || (item.revents r).hits .write)

/-- A registration after an event of it. -/
def EpollItem.spend (item : EpollItem ι) : EpollItem ι :=
  { item with armed := !item.interest.oneshot }

/-- One ready descriptor. -/
def epollTake (fd : Int) (r : Ready) (k : EpollSet ι) : Option (EpollEvent ι) × EpollSet ι :=
  match k fd with
  | none => (none, k)
  | some item =>
      if item.fires r then (some (item.revents r), Function.update k fd (some item.spend))
      else (none, k)

/-- `epoll_wait` -/
def epollWait : List (Int × Ready) → EpollSet ι → List (EpollEvent ι) × EpollSet ι
  | [], k => ([], k)
  | (fd, r) :: rest, k =>
      let (ee, k) := epollTake fd r k
      let (batch, k) := epollWait rest k
      (ee.toList ++ batch, k)

theorem tabulates_epollCtl :
    Tabulates (epollCtl : EpollCtl ι (EpollSet ι)) EpollSet.table fun _ _ => True := by
  refine ⟨fun op fd ee k => ?_, fun {_ _ _ _ _ _} _ _ => trivial⟩
  have hput : ∀ item : Option (EpollItem ι), EpollSet.table (Function.update k fd item)
      = Function.update k.table fd (item.map EpollItem.interest) := by
    intro item
    funext d
    simp only [EpollSet.table, Function.update_apply]
    split <;> rfl
  have hfd : k.table fd = (k fd).map EpollItem.interest := rfl
  cases hk : k fd with
  | none => cases op <;> simp [epollCtl, epollTable, hk, hfd, hput]
  | some item => cases op <;> simp [epollCtl, epollTable, hk, hfd, hput]

/-! ## What is reported -/

theorem epollTake_table (fd : Int) (r : Ready) (k : EpollSet ι) :
    (epollTake fd r k).2.table = k.table := by
  unfold epollTake
  split
  · rfl
  · rename_i item hk
    split
    · funext d
      simp only [EpollSet.table, Function.update_apply]
      split
      · rename_i hd
        rw [hd, hk]
        rfl
      · rfl
    · rfl

/-- What is reported leaves the registrations as they are. -/
theorem epollWait_table (ready : List (Int × Ready)) (k : EpollSet ι) :
    (epollWait ready k).2.table = k.table := by
  induction ready generalizing k with
  | nil => rfl
  | cons r ready ih => exact (ih _).trans (epollTake_table r.1 r.2 k)

theorem epollTake_other {fd d : Int} (hd : d ≠ fd) (r : Ready) (k : EpollSet ι) :
    (epollTake fd r k).2 d = k d := by
  unfold epollTake
  split
  · rfl
  · split
    · exact Function.update_of_ne hd _ _
    · rfl

/-- An event that is reported is one of an armed registration of a descriptor
that is ready. -/
theorem mem_epollWait {ready : List (Int × Ready)} (hn : (ready.map Prod.fst).Nodup)
    {k : EpollSet ι} {ee : EpollEvent ι} (h : ee ∈ (epollWait ready k).1) :
    ∃ fd r item, (fd, r) ∈ ready ∧ k fd = some item ∧ item.fires r = true ∧
      ee = item.revents r := by
  induction ready generalizing k with
  | nil => cases h
  | cons x ready ih =>
      obtain ⟨fd, r⟩ := x
      rw [List.map_cons, List.nodup_cons] at hn
      rw [epollWait, List.mem_append] at h
      rcases h with h | h
      · rw [Option.mem_toList, epollTake] at h
        split at h
        · cases h
        · rename_i item hk
          split at h
          · rename_i hf
            exact ⟨fd, r, item, List.mem_cons_self, hk, hf, (Option.some.inj h).symm⟩
          · cases h
      · obtain ⟨d, r', item, hmem, hk, hf, he⟩ := ih hn.2 h
        have hd : d ≠ fd := by
          rintro rfl
          exact hn.1 (List.mem_map.mpr ⟨_, hmem, rfl⟩)
        rw [epollTake_other hd] at hk
        exact ⟨d, r', item, List.mem_cons_of_mem _ hmem, hk, hf, he⟩

namespace NioEvent.Mirrors

variable {fd : ι → Int} {ev : NioEvent ι (EventEpoll (EpollSet ι)) π}

/-- `epoll_wait` leaves the table as it is. -/
theorem epollWait (h : ev.Mirrors EpollSet.table (fun _ _ => True) fd)
    (ready : List (Int × Ready)) :
    NioEvent.Mirrors EpollSet.table (fun _ _ => True) fd
      { ev with backend :=
        { ev.backend with kernel := (Event.epollWait ready ev.backend.kernel).2 } } := by
  have ht := epollWait_table ready ev.backend.kernel
  refine ⟨h.fd_eq, fun fe => ?_, ?_, ?_, ?_, trivial⟩
  · rw [ht]
    exact h.listed fe
  · rw [ht]
    exact h.owned
  · rw [ht]
    exact h.finite
  · rw [ht]
    exact h.fdcount

end NioEvent.Mirrors

namespace NioEvent.Shown

variable {fd : ι → Int} {ev : NioEvent ι (EventEpoll (EpollSet ι)) π}

theorem epollWait (h : ev.Shown EpollSet.table fd) (ready : List (Int × Ready)) :
    NioEvent.Shown EpollSet.table fd
      { ev with backend :=
        { ev.backend with kernel := (Event.epollWait ready ev.backend.kernel).2 } } := by
  have ht := epollWait_table ready ev.backend.kernel
  refine ⟨h.fd_eq, fun {d ee} hk => ?_, fun {d ee} hk => ?_⟩
  · rw [ht] at hk
    exact h.ptr hk
  · rw [ht] at hk
    exact h.masked hk

/-- A registration points to the file of its descriptor. -/
theorem item_ptr (h : ev.Shown EpollSet.table fd) {d : Int} {item : EpollItem ι}
    (hk : ev.backend.kernel d = some item) : fd item.interest.ptr = d := by
  have ht : EpollSet.table ev.backend.kernel d = some item.interest := by
    rw [EpollSet.table, hk]
    rfl
  exact h.ptr ht

/-- What is reported belongs to a file with something in its mask. -/
theorem reported (h : ev.Shown EpollSet.table fd) {ready : List (Int × Ready)}
    (hn : (ready.map Prod.fst).Nodup) {ee : EpollEvent ι}
    (he : ee ∈ (Event.epollWait ready ev.backend.kernel).1) :
    ∃ fe dir, ee.ptr = some fe ∧ (ev.files fe).mask dir = true := by
  obtain ⟨d, r, item, -, hk, -, rfl⟩ := mem_epollWait hn he
  have ht : EpollSet.table ev.backend.kernel d = some item.interest := by
    rw [EpollSet.table, hk]
    rfl
  obtain ⟨dir, hmask⟩ := h.masked ht
  exact ⟨item.interest.ptr, dir, rfl, hmask⟩

end NioEvent.Shown

/-! ## The loop over this kernel -/

/-- A step of a program over a kernel that reports what is ready. -/
inductive PollStep (ι π : Type) where
  | call (c : Call ι π)
  | wait (ready : Readiness)

variable [DecidableEq ι]

namespace Loop

variable (host : Host ι (EventEpoll (EpollSet ι)) π) (behave : Behaviour ι π)

/-- Before the callbacks of a round: what is pending is prepared. -/
def prepare (s : Loop ι κ π) (host : Host ι κ π) : Loop ι κ π :=
  { s with ev := s.ev.prepare host }

/-- `epoll_wait(ep->epfd, ep->events, ..)` -/
def fetch (s : Loop ι (EventEpoll (EpollSet ι)) π) (ready : Readiness) :
    List (EpollEvent ι) × Loop ι (EventEpoll (EpollSet ι)) π :=
  let (batch, kernel) := epollWait ready.ready s.ev.backend.kernel
  (batch, { s with ev := { s.ev with backend := { s.ev.backend with kernel } } })

/-- `nio_event_wait` -/
def poll (s : Loop ι (EventEpoll (EpollSet ι)) π) (ready : Readiness) :
    Loop ι (EventEpoll (EpollSet ι)) π :=
  let (batch, s) := (s.prepare host).fetch ready
  s.eventWait host behave batch

def pollStep (s : Loop ι (EventEpoll (EpollSet ι)) π) :
    PollStep ι π → Loop ι (EventEpoll (EpollSet ι)) π
  | .call c => s.call host c
  | .wait ready => s.poll host behave ready

def pollRun (s : Loop ι (EventEpoll (EpollSet ι)) π) (steps : List (PollStep ι π)) :
    Loop ι (EventEpoll (EpollSet ι)) π :=
  steps.foldl (pollStep host behave) s

variable {host behave} {fd : ι → Int} {espipe : Int → Bool}

/-- The table and the masks agree. -/
def Mirrored (fd : ι → Int) (s : Loop ι (EventEpoll (EpollSet ι)) π) : Prop :=
  s.ev.Mirrors EpollSet.table (fun _ _ => True) fd ∧ s.ev.DelsHeld

theorem Mirrored.call (hinj : Function.Injective fd)
    {s : Loop ι (EventEpoll (EpollSet ι)) π} (h : s.Mirrored fd) (c : Call ι π) :
    (s.call (EventEpoll.host epollCtl espipe) c).Mirrored fd :=
  (NioEvent.mirrors_backed tabulates_epollCtl hinj).apply h.1 h.2 c

theorem Mirrored.prepare (hinj : Function.Injective fd)
    {s : Loop ι (EventEpoll (EpollSet ι)) π} (h : s.Mirrored fd) :
    (s.prepare (EventEpoll.host epollCtl espipe)).Mirrored fd :=
  (NioEvent.mirrors_backed tabulates_epollCtl hinj).prepare h.1 h.2

omit [DecidableEq ι] in
theorem Mirrored.fetch {s : Loop ι (EventEpoll (EpollSet ι)) π} (h : s.Mirrored fd)
    (ready : Readiness) : (s.fetch ready).2.Mirrored fd :=
  ⟨h.1.epollWait ready.ready, h.2⟩

theorem Mirrored.poll (hinj : Function.Injective fd)
    {s : Loop ι (EventEpoll (EpollSet ι)) π} (h : s.Mirrored fd) (ready : Readiness) :
    (s.poll (EventEpoll.host epollCtl espipe) behave ready).Mirrored fd :=
  eventWait_induct (P := Mirrored fd) (fun _ c hs => hs.call hinj c) (fun _ _ _ _ hs => hs)
    ((h.prepare hinj).fetch ready) _

theorem Mirrored.step (hinj : Function.Injective fd)
    {s : Loop ι (EventEpoll (EpollSet ι)) π} (h : s.Mirrored fd) (st : PollStep ι π) :
    (s.pollStep (EventEpoll.host epollCtl espipe) behave st).Mirrored fd := by
  cases st with
  | call c => exact h.call hinj c
  | wait ready => exact h.poll hinj ready

omit [DecidableEq ι] in
theorem mirrored_start (oneshot direct : Bool) (setsize : Int) (fd : ι → Int) :
    (start oneshot direct setsize fd ⟨fun _ => none, 0⟩ :
      Loop ι (EventEpoll (EpollSet ι)) π).Mirrored fd :=
  ⟨NioEvent.mirrors_create oneshot direct setsize rfl trivial,
    NioEvent.delsHeld_create oneshot direct setsize fd _⟩

omit [DecidableEq ι] in
theorem Mirrored.ptr {s : Loop ι (EventEpoll (EpollSet ι)) π} (h : s.Mirrored fd) {d : Int}
    {item : EpollItem ι} (hk : s.ev.backend.kernel d = some item) :
    fd item.interest.ptr = d :=
  h.1.shown.item_ptr hk

end Loop

end Libnio.Event
