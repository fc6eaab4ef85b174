import Libnio.Event.Turns
import Libnio.Slots.Dense

/-!
# Event — the poll backend

The operations of `nio_event_poll.c`. The pair for reading and the pair for
writing are the same on either side. `files`, `count` and the `id` of every file
are one table; `pfds` goes with it place by place, and before its first place
lies memory of something else.
-/

namespace Libnio.Event

open Slots

variable {ι π : Type}

/-- `revents` of a `struct pollfd`: `POLLIN`, `POLLOUT`, `POLLERR`, `POLLHUP`, `POLLNVAL`. -/
structure Revents where
  pollin : Bool
  pollout : Bool
  pollerr : Bool
  pollhup : Bool
  pollnval : Bool
deriving DecidableEq

def Revents.zero : Revents := ⟨false, false, false, false, false⟩

/-- `revents & (POLLIN | EVENT_ERR)`, `revents & (POLLOUT | EVENT_ERR)` -/
def Revents.hits (r : Revents) : Dir → Bool
  | .read => r.pollin || r.pollerr || r.pollhup || r.pollnval
  | .write => r.pollout || r.pollerr || r.pollhup || r.pollnval

@[simp] theorem Revents.hits_zero (dir : Dir) : Revents.zero.hits dir = false := by
  cases dir <;> rfl

/-- `struct pollfd`, with `POLLIN` and `POLLOUT` of `events` by side. -/
structure Pollfd where
  fd : Int
  events : Dir → Bool
  revents : Revents

/-- `fd = -1`, `events = 0`, `revents = 0` -/
def Pollfd.unused : Pollfd := ⟨-1, fun _ => false, .zero⟩

/-- `EVENT_POLL` -/
structure EventPoll (ι : Type) where
  files : Dense ι
  size : Int
  pfds : Int → Pollfd
  fdcount : Int
  /-- no assertion has failed -/
  asserted : Bool

namespace EventPoll

/-- `nio_poll_create`, with what lies in front of `pfds`. -/
def create (size : Int) (memory : Int → Pollfd) : EventPoll ι :=
  { files := .empty, size
    pfds := fun i => if 0 ≤ i then ⟨0, fun _ => false, .zero⟩ else memory i
    fdcount := 0, asserted := true }

def assert (ep : EventPoll ι) (b : Bool) : EventPoll ι := { ep with asserted := ep.asserted && b }

/-- `pfd->events |= POLLIN`, `pfd->events &= ~POLLIN` and so on, of the place `i`. -/
def setEvents (ep : EventPoll ι) (i : Int) (dir : Dir) (b : Bool) : EventPoll ι :=
  let pfd := ep.pfds i
  { ep with pfds :=
      Function.update ep.pfds i { pfd with events := Function.update pfd.events dir b } }

/-- `poll` writes what it found into the places in use. -/
def report (revents : Int → Revents) (ep : EventPoll ι) : EventPoll ι :=
  { ep with pfds := fun i =>
      if 0 ≤ i ∧ i < ep.files.count then { ep.pfds i with revents := revents i } else ep.pfds i }

variable [DecidableEq ι]

/-- `fe->id = ep->count++` of a file that has no place. -/
def place (ep : EventPoll ι) (fe : ι) : EventPoll ι :=
  if ep.files.id fe = -1 then
    let ep := ep.assert (decide (ep.files.count < ep.size))
    { ep with files :=
        { ep.files with
          id := Function.update ep.files.id fe ep.files.count, count := ep.files.count + 1 } }
  else ep

/-- The entry of a file, which is new when it has no interest yet. -/
def enter (ep : EventPoll ι) (fe : ι) (fd : Int) : EventPoll ι :=
  let id := ep.files.id fe
  if (ep.pfds id).events .read || (ep.pfds id).events .write then
    ep.assert (decide (ep.files.slot id = some fe))
  else
    { ep with
      pfds := Function.update ep.pfds id ⟨fd, fun _ => false, .zero⟩
      files := { ep.files with slot := Function.update ep.files.slot id (some fe) }
      fdcount := ep.fdcount + 1 }

/-- `poll_add_read`, `poll_add_write` -/
def add (dir : Dir) : EventOper ι (EventPoll ι) π := fun _ ep fe file =>
  let ep := (ep.place fe).enter fe file.fd
  (ep.setEvents (ep.files.id fe) dir true, Function.update file.mask dir true)

/-- A file leaves: the last entry goes to its place, and the last place is unused. -/
def remove (ep : EventPoll ι) (fe : ι) : EventPoll ι :=
  let id := ep.files.id fe
  let last := ep.files.count - 1
  let pfds := if id < last then Function.update ep.pfds id (ep.pfds last) else ep.pfds
  { ep with
    files := ep.files.vacate fe
    pfds := Function.update pfds last .unused
    fdcount := ep.fdcount - 1 }

/-- `poll_del_read`, `poll_del_write` -/
def del (dir : Dir) : EventOper ι (EventPoll ι) π := fun _ ep fe file =>
  let id := ep.files.id fe
  let ep := ep.assert (decide (0 ≤ id ∧ id < ep.files.count))
  let ep := if (ep.pfds id).events dir then ep.setEvents id dir false else ep
  let ep := if !(ep.pfds id).events dir.other then ep.remove fe else ep
  (ep, Function.update file.mask dir false)

/-- What the event gets from `nio_poll_create`. -/
def host (espipe : Int → Bool) : Host ι (EventPoll ι) π :=
  { espipe, add, del, delReadwrite := none, eventFflush := none }

/-! ## What the fields become -/

section Fields

variable (ep : EventPoll ι) (i : Int) (dir : Dir) (b : Bool)

omit [DecidableEq ι] in
@[simp] theorem setEvents_files : (ep.setEvents i dir b).files = ep.files := rfl

omit [DecidableEq ι] in
@[simp] theorem setEvents_size : (ep.setEvents i dir b).size = ep.size := rfl

omit [DecidableEq ι] in
@[simp] theorem setEvents_fdcount : (ep.setEvents i dir b).fdcount = ep.fdcount := rfl

omit [DecidableEq ι] in
@[simp] theorem setEvents_asserted : (ep.setEvents i dir b).asserted = ep.asserted := rfl

omit [DecidableEq ι] in
theorem setEvents_pfds (j : Int) :
    (ep.setEvents i dir b).pfds j =
      if j = i then { ep.pfds i with events := Function.update (ep.pfds i).events dir b }
      else ep.pfds j := by
  simp [setEvents, Function.update_apply]

end Fields

/-! ## What an operation comes to -/

section Opers

variable {ep : EventPoll ι} {S : Set ι} {fe : ι} {file : NioFile π}

omit [DecidableEq ι] in
theorem assert_true (ep : EventPoll ι) : ep.assert true = ep := by
  simp [assert]

/-- A file that has an entry keeps it. -/
theorem add_old (hp : ep.files.Packs S) (hfe : fe ∈ S)
    (he : ∃ d, (ep.pfds (ep.files.id fe)).events d = true) (dir : Dir) (oneshot : Bool) :
    add dir oneshot ep fe file
      = (ep.setEvents (ep.files.id fe) dir true, Function.update file.mask dir true) := by
  obtain ⟨h₁, h₂, h₃⟩ := hp.placed fe hfe
  have hplace : ep.place fe = ep := by
    rw [place, if_neg (by omega)]
  have hev : ((ep.pfds (ep.files.id fe)).events .read ||
      (ep.pfds (ep.files.id fe)).events .write) = true := by
    obtain ⟨d, hd⟩ := he
    cases d <;> simp [hd]
  have henter : ep.enter fe file.fd = ep := by
    simp only [enter, hev, if_true, h₃, decide_true, assert_true]
  rw [add, hplace, henter]

/-- Another one gets the next place, and there has to be one. -/
theorem add_new (hp : ep.files.Packs S) (hfe : fe ∉ S)
    (hfree : (ep.pfds ep.files.count).events = fun _ => false) (dir : Dir) (oneshot : Bool) :
    add dir oneshot ep fe file
      = ({ ep with
            files := ep.files.push fe
            pfds := Function.update ep.pfds ep.files.count
              ⟨file.fd, Function.update (fun _ => false) dir true, .zero⟩
            fdcount := ep.fdcount + 1
            asserted := ep.asserted && decide (ep.files.count < ep.size) },
          Function.update file.mask dir true) := by
  have hid := hp.absent fe hfe
  simp only [add, place, enter, if_pos hid, assert, Function.update_self, hfree, Bool.or_false,
    Bool.false_eq_true, if_false, setEvents, Function.update_idem, Dense.push]

/-- The entry goes with the last interest. -/
theorem setEvents_remove (hp : ep.files.Packs S) (hfe : fe ∈ S) (dir : Dir) (b : Bool) :
    (ep.setEvents (ep.files.id fe) dir b).remove fe = ep.remove fe := by
  obtain ⟨-, h₂, -⟩ := hp.placed fe hfe
  by_cases hl : ep.files.id fe < ep.files.count - 1
  · simp only [remove, setEvents, if_pos hl, Function.update_idem,
      Function.update_of_ne (show ep.files.count - 1 ≠ ep.files.id fe by omega)]
  · have he : ep.files.id fe = ep.files.count - 1 := by omega
    simp only [remove, setEvents, he, lt_irrefl, if_false, Function.update_idem]

theorem del_eq (hp : ep.files.Packs S) (hfe : fe ∈ S) {dir : Dir}
    (he : (ep.pfds (ep.files.id fe)).events dir = true) (oneshot : Bool) :
    del dir oneshot ep fe file
      = (if (ep.pfds (ep.files.id fe)).events dir.other then
            ep.setEvents (ep.files.id fe) dir false
          else ep.remove fe, Function.update file.mask dir false) := by
  obtain ⟨h₁, h₂, -⟩ := hp.placed fe hfe
  have hin : decide (0 ≤ ep.files.id fe ∧ ep.files.id fe < ep.files.count) = true := by
    simp [h₁, h₂]
  have hother : ((ep.setEvents (ep.files.id fe) dir false).pfds (ep.files.id fe)).events dir.other
      = (ep.pfds (ep.files.id fe)).events dir.other := by
    simp [setEvents_pfds]
  simp only [del, hin, assert_true, he, if_true, hother]
  cases (ep.pfds (ep.files.id fe)).events dir.other with
  | true => rfl
  | false => simp only [Bool.not_false, if_true, Bool.false_eq_true, if_false,
      setEvents_remove hp hfe]

/-- The entry of another file is the same, wherever it goes. -/
theorem remove_pfds (hp : ep.files.Packs S) (hfe : fe ∈ S) {e : ι} (he : e ∈ S) (hne : e ≠ fe) :
    (ep.remove fe).pfds ((ep.remove fe).files.id e) = ep.pfds (ep.files.id e) := by
  obtain ⟨-, h₂, -⟩ := hp.placed fe hfe
  obtain ⟨-, h₄, -⟩ := hp.placed e he
  have hid : ep.files.id e ≠ ep.files.id fe := fun hc => hne (hp.id_inj he hfe hc)
  have hid' : (ep.remove fe).files.id e
      = if ep.files.id e = ep.files.count - 1 then ep.files.id fe else ep.files.id e :=
    hp.vacate_id hfe he hne
  rw [hid']
  simp only [remove]
  by_cases hl : ep.files.id e = ep.files.count - 1
  · have hlt : ep.files.id fe < ep.files.count - 1 := by omega
    rw [if_pos hl, if_pos hlt, Function.update_of_ne (by omega), Function.update_self, hl]
  · rw [if_neg hl, Function.update_of_ne hl]
    split
    · rw [Function.update_of_ne hid]
    · rfl

omit [DecidableEq ι] in
/-- What stands from the new count on. -/
theorem setEvents_free (hp : ep.files.Packs S) (hfe : fe ∈ S) (dir : Dir) (b : Bool) {i : Int}
    (hi : ep.files.count ≤ i) : (ep.setEvents (ep.files.id fe) dir b).pfds i = ep.pfds i := by
  obtain ⟨-, h₂, -⟩ := hp.placed fe hfe
  rw [setEvents_pfds, if_neg (by omega)]

end Opers

end EventPoll

/-! ## The table and the masks -/

variable [DecidableEq ι]

namespace NioEvent

/-- The table lists the registered files, whose descriptors are `fd`; what is left
in `revents` of an entry in use meets `R`. -/
structure PollListed (fd : ι → Int) (R : ι → Revents → Prop)
    (ev : NioEvent ι (EventPoll ι) π) : Prop where
  fd_eq : ∀ fe, (ev.files fe).fd = fd fe
  packs : ev.backend.files.Packs ev.registered
  fdcount : ev.backend.fdcount = ev.backend.files.count
  /-- the entry of a registered file -/
  entry : ∀ fe ∈ ev.registered,
    (ev.backend.pfds (ev.backend.files.id fe)).fd = fd fe ∧
      (ev.backend.pfds (ev.backend.files.id fe)).events = (ev.files fe).mask ∧
      R fe (ev.backend.pfds (ev.backend.files.id fe)).revents
  /-- the places that are not in use -/
  free : ∀ i, ev.backend.files.count ≤ i →
    (ev.backend.pfds i).events = (fun _ => false) ∧ (ev.backend.pfds i).revents = .zero

/-- The descriptors fit into the table as well, and no assertion has failed. -/
structure Polled (fd : ι → Int) (R : ι → Revents → Prop) (ev : NioEvent ι (EventPoll ι) π) :
    Prop extends ev.PollListed fd R where
  fits : ∀ fe, 0 ≤ fd fe ∧ fd fe < ev.backend.size
  asserted : ev.backend.asserted = true

variable {fd : ι → Int} {R : ι → Revents → Prop}

section Listed

omit [DecidableEq ι]

variable {ev ev' : NioEvent ι (EventPoll ι) π}

theorem PollListed.unasked (h : ev.PollListed fd R) (hu : Unasked ev ev') :
    ev'.PollListed fd R := by
  refine ⟨fun fe => (hu.fd fe).trans (h.fd_eq fe), ?_, ?_, fun fe hfe => ?_, ?_⟩
  · rw [hu.backend, hu.registered]
    exact h.packs
  · rw [hu.backend]
    exact h.fdcount
  · rw [hu.registered] at hfe
    rw [hu.backend, hu.mask]
    exact h.entry fe hfe
  · rw [hu.backend]
    exact h.free

theorem pollListed_create (oneshot direct : Bool) (setsize size : Int)
    (memory : Int → Pollfd) :
    (create oneshot direct setsize fd (.create size memory) :
      NioEvent ι (EventPoll ι) π).PollListed fd R := by
  refine ⟨fun _ => rfl, ?_, rfl, fun fe hfe => ?_, fun i hi => ?_⟩
  · rw [registered_create]
    exact .nil
  · rw [registered_create] at hfe
    exact absurd hfe (Set.notMem_empty fe)
  · have h0 : (0 : Int) ≤ i := hi
    simp [create, EventPoll.create, if_pos h0]

theorem polled_create (oneshot direct : Bool) (setsize : Int) {size : Int}
    (memory : Int → Pollfd) (hfits : ∀ fe, 0 ≤ fd fe ∧ fd fe < size) :
    (create oneshot direct setsize fd (.create size memory) :
      NioEvent ι (EventPoll ι) π).Polled fd R :=
  ⟨pollListed_create oneshot direct setsize size memory, hfits, rfl⟩

/-- What `poll` writes stays in the places in use. -/
theorem PollListed.report (h : ev.PollListed fd R) {R' : ι → Revents → Prop}
    (revents : Int → Revents)
    (hr : ∀ fe ∈ ev.registered, R' fe (revents (ev.backend.files.id fe))) :
    (ev.setBackend (EventPoll.report revents)).PollListed fd R' := by
  refine ⟨h.fd_eq, h.packs, h.fdcount, fun fe hfe => ?_, fun i hi => ?_⟩
  · obtain ⟨hfd, hev, -⟩ := h.entry fe hfe
    obtain ⟨h₁, h₂, -⟩ := h.packs.placed fe hfe
    simp only [setBackend, EventPoll.report, if_pos (And.intro h₁ h₂)]
    exact ⟨hfd, hev, hr fe hfe⟩
  · have hn : ¬ (0 ≤ i ∧ i < ev.backend.files.count) := by
      have : ev.backend.files.count ≤ i := hi
      omega
    simp only [setBackend, EventPoll.report, if_neg hn]
    exact h.free i hi

theorem Polled.report (h : ev.Polled fd R) {R' : ι → Revents → Prop} (revents : Int → Revents)
    (hr : ∀ fe ∈ ev.registered, R' fe (revents (ev.backend.files.id fe))) :
    (ev.setBackend (EventPoll.report revents)).Polled fd R' :=
  ⟨h.toPollListed.report revents hr, h.fits, h.asserted⟩

theorem PollListed.interest (h : ev.PollListed fd R) {fe : ι} (hfe : fe ∈ ev.registered) :
    ∃ d, (ev.backend.pfds (ev.backend.files.id fe)).events d = true := by
  rw [(h.entry fe hfe).2.1]
  exact hfe

end Listed

/-- An operation that changes the entry of a registered file in place. -/
theorem PollListed.oper_setEvents {ev : NioEvent ι (EventPoll ι) π} (h : ev.PollListed fd R)
    {kind : OperKind} {op : EventOper ι (EventPoll ι) π} {fe : ι} (hfe : fe ∈ ev.registered)
    {dir : Dir} {b : Bool} (hd : ∃ d, Function.update (ev.files fe).mask dir b d = true)
    (hop : op ev.oneshot ev.backend fe (ev.files fe)
      = (ev.backend.setEvents (ev.backend.files.id fe) dir b,
          Function.update (ev.files fe).mask dir b)) : (ev.oper kind op fe).PollListed fd R := by
  have hm := congrArg Prod.snd hop
  have hb : (ev.oper kind op fe).backend
      = ev.backend.setEvents (ev.backend.files.id fe) dir b := congrArg Prod.fst hop
  have hreg : (ev.oper kind op fe).registered = ev.registered := by
    rw [registered_oper_insert _ hm hd, Set.insert_eq_of_mem hfe]
  refine ⟨fun e => (fd_oper e).trans (h.fd_eq e), ?_, ?_, fun e he => ?_, fun i hi => ?_⟩
  · rw [hreg, hb]
    exact h.packs
  · rw [hb]
    exact h.fdcount
  · rw [hreg] at he
    obtain ⟨hfd, hev, hrv⟩ := h.entry e he
    rw [hb, EventPoll.setEvents_files, EventPoll.setEvents_pfds]
    by_cases hc : e = fe
    · subst hc
      rw [if_pos rfl, mask_oper hm, ← hev]
      exact ⟨hfd, rfl, hrv⟩
    · rw [if_neg fun hi => hc (h.packs.id_inj he hfe hi), mask_oper_of_ne hc]
      exact ⟨hfd, hev, hrv⟩
  · rw [hb] at hi ⊢
    rw [EventPoll.setEvents_free h.packs hfe dir b hi]
    exact h.free i hi

theorem PollListed.add (h : ∀ fe, R fe .zero) {ev : NioEvent ι (EventPoll ι) π}
    (hp : ev.PollListed fd R) (dir : Dir) (fe : ι) :
    (ev.oper (.add dir) (EventPoll.add dir) fe).PollListed fd R := by
  have hd : ∃ d, Function.update (ev.files fe).mask dir true d = true := ⟨dir, by simp⟩
  by_cases hfe : fe ∈ ev.registered
  · exact hp.oper_setEvents hfe hd
      (EventPoll.add_old hp.packs hfe (hp.interest hfe) dir ev.oneshot)
  · have hmask := notMem_registered.mp hfe
    have hop : EventPoll.add dir ev.oneshot ev.backend fe (ev.files fe) = _ :=
      EventPoll.add_new hp.packs hfe (hp.free _ (le_refl _)).1 dir ev.oneshot
    have hm := congrArg Prod.snd hop
    have hb := congrArg Prod.fst hop
    change (ev.oper (.add dir) (EventPoll.add dir) fe).backend = _ at hb
    have hreg := registered_oper_insert (.add dir) hm hd
    refine ⟨fun e => (fd_oper e).trans (hp.fd_eq e), ?_, ?_, fun e he => ?_, fun i hi => ?_⟩
    · rw [hreg, hb]
      exact hp.packs.push hfe
    · rw [hb]
      exact congrArg (· + 1) hp.fdcount
    · rw [hb]
      dsimp only [Dense.push]
      by_cases hc : e = fe
      · subst hc
        rw [Function.update_self, Function.update_self, mask_oper hm, hmask]
        exact ⟨hp.fd_eq e, rfl, h e⟩
      · rw [hreg] at he
        have he' := Set.mem_of_mem_insert_of_ne he hc
        have hlt := (hp.packs.placed e he').2.1
        rw [Function.update_of_ne hc, Function.update_of_ne (by omega), mask_oper_of_ne hc]
        exact hp.entry e he'
    · rw [hb] at hi ⊢
      dsimp only [Dense.push] at hi ⊢
      rw [Function.update_of_ne (by omega)]
      exact hp.free i (by omega)

/-- A file that is not registered needs a place. -/
theorem PollListed.add_room {ev : NioEvent ι (EventPoll ι) π} (h : ev.PollListed fd R)
    (dir : Dir) (fe : ι) :
    let ep := (ev.oper (.add dir) (EventPoll.add dir) fe).backend
    ep.size = ev.backend.size ∧ (ep.asserted = true ↔ ev.backend.asserted = true ∧
      (fe ∈ ev.registered ∨ ev.backend.files.count < ev.backend.size)) := by
  intro ep
  by_cases hfe : fe ∈ ev.registered
  · have hop : EventPoll.add dir ev.oneshot ev.backend fe (ev.files fe) = _ :=
      EventPoll.add_old h.packs hfe (h.interest hfe) dir ev.oneshot
    have hb : ep = _ := congrArg Prod.fst hop
    rw [hb]
    simp [hfe]
  · have hop : EventPoll.add dir ev.oneshot ev.backend fe (ev.files fe) = _ :=
      EventPoll.add_new h.packs hfe (h.free _ (le_refl _)).1 dir ev.oneshot
    have hb : ep = _ := congrArg Prod.fst hop
    rw [hb]
    simp [hfe]

theorem PollListed.del {ev : NioEvent ι (EventPoll ι) π} (h : ev.PollListed fd R) (dir : Dir)
    (fe : ι) (hd : (ev.files fe).mask dir = true) :
    (ev.oper (.del dir) (EventPoll.del dir) fe).PollListed fd R := by
  have hfe : fe ∈ ev.registered := ⟨dir, hd⟩
  have hev := (h.entry fe hfe).2.1
  have hop : EventPoll.del dir ev.oneshot ev.backend fe (ev.files fe) = _ :=
    EventPoll.del_eq h.packs hfe (by rw [hev, hd]) ev.oneshot
  rw [hev] at hop
  cases ho : (ev.files fe).mask dir.other with
  | true =>
      rw [ho, if_pos rfl] at hop
      exact h.oper_setEvents hfe ((update_false_iff _ dir).mpr ho) hop
  | false =>
      rw [ho, if_neg Bool.false_ne_true] at hop
      have hm := congrArg Prod.snd hop
      have hb := congrArg Prod.fst hop
      change (ev.oper (.del dir) (EventPoll.del dir) fe).backend = _ at hb
      have hreg := registered_oper_erase (.del dir) hm
        (by rw [update_false_iff, ho]; simp)
      refine ⟨fun e => (fd_oper e).trans (h.fd_eq e), ?_, ?_, fun e he => ?_, fun i hi => ?_⟩
      · rw [hreg, hb]
        exact h.packs.vacate hfe
      · rw [hb]
        exact (congrArg (· - 1) h.fdcount).trans (Dense.vacate_count _ fe).symm
      · rw [hreg] at he
        rw [hb]
        dsimp only
        rw [EventPoll.remove_pfds h.packs hfe he.1 he.2, mask_oper_of_ne he.2]
        exact h.entry e he.1
      · have hid := (h.packs.placed fe hfe).2.1
        rw [hb] at hi ⊢
        simp only [EventPoll.remove, Dense.vacate_count] at hi ⊢
        by_cases hl : i = ev.backend.files.count - 1
        · rw [hl, Function.update_self]
          exact ⟨rfl, rfl⟩
        · rw [Function.update_of_ne hl]
          have hfree := h.free i (by omega)
          split
          · rw [Function.update_of_ne (by omega)]
            exact hfree
          · exact hfree

/-- One that is deleted needs nothing. -/
theorem PollListed.del_room {ev : NioEvent ι (EventPoll ι) π} (h : ev.PollListed fd R)
    (dir : Dir) (fe : ι) (hd : (ev.files fe).mask dir = true) :
    let ep := (ev.oper (.del dir) (EventPoll.del dir) fe).backend
    ep.size = ev.backend.size ∧ ep.asserted = ev.backend.asserted := by
  intro ep
  have hfe : fe ∈ ev.registered := ⟨dir, hd⟩
  have hop : EventPoll.del dir ev.oneshot ev.backend fe (ev.files fe) = _ :=
    EventPoll.del_eq h.packs hfe (by rw [(h.entry fe hfe).2.1, hd]) ev.oneshot
  have hb : ep = _ := congrArg Prod.fst hop
  rw [hb]
  dsimp only
  split <;> exact ⟨rfl, rfl⟩

/-- **The table follows the masks** under all that is asked of the backend. -/
theorem polled_backed (hR : ∀ fe, R fe .zero) (hinj : Function.Injective fd)
    (espipe : Int → Bool) :
    Backed (EventPoll.host espipe : Host ι (EventPoll ι) π) (Polled fd R) where
  unasked := fun h hu => ⟨h.toPollListed.unasked hu, by rw [hu.backend]; exact h.fits,
    by rw [hu.backend]; exact h.asserted⟩
  add := fun {ev} h dir fe => by
    obtain ⟨hsize, ha⟩ := h.toPollListed.add_room dir fe
    refine ⟨h.toPollListed.add hR dir fe,
      fun e => ⟨(h.fits e).1, (h.fits e).2.trans_eq hsize.symm⟩, ha.mpr ⟨h.asserted, ?_⟩⟩
    by_cases hfe : fe ∈ ev.registered
    · exact .inl hfe
    · exact .inr (h.packs.room hinj h.fits hfe)
  del := fun h dir fe hm => by
    obtain ⟨hsize, ha⟩ := h.toPollListed.del_room dir fe hm
    exact ⟨h.toPollListed.del dir fe hm,
      fun e => ⟨(h.fits e).1, (h.fits e).2.trans_eq hsize.symm⟩, ha.trans h.asserted⟩
  delReadwrite := fun _ _ _ hop => nomatch hop
  fflush := fun h => h
  other := fun hd _ _ _ _ => Function.update_of_ne hd _ _

end NioEvent

end Libnio.Event
