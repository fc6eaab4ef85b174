import Libnio.Event.Agrees
import Libnio.Event.Kqueue
import Libnio.Event.Kernel
import Libnio.Event.SelectWait

/-!
# Event — the backends side by side

`nio_event_create` puts the functions of a backend into the event, and the rest
goes through them. Whichever of epoll, poll, select and kqueue it is and whichever
the mode: when a wait begins, its tables hold what the calls so far say, and
nothing else. `backends_alike` says so.
-/

namespace Libnio.Event

open NioEvent History

variable {ι κ π ω : Type}

/-- What `nio_event_create` puts into the event. -/
structure Backend (ι κ π ω : Type) where
  host : Host ι κ π
  /-- what an answer of the kernel makes of the backend -/
  answer : ω → NioEvent ι κ π → NioEvent ι κ π
  /-- `event_wait` -/
  eventWait : Behaviour ι π → Loop ι κ π → ω → Loop ι κ π
  /-- the sides of a descriptor that its tables hold -/
  holds : κ → Int → Dir → Bool

/-- A step of a program: a call of its own, or a round of the loop. -/
inductive Round (ι π ω : Type) where
  | call (c : Call ι π)
  | wait (w : ω)

variable [DecidableEq ι]

namespace Backend

section Run

variable (b : Backend ι κ π ω) (behave : Behaviour ι π)

/-- A call, or `nio_event_wait`. -/
def round (s : Loop ι κ π) : Round ι π ω → Loop ι κ π
  | .call c => s.call b.host c
  | .wait w => b.eventWait behave { s with ev := s.ev.prepare b.host } w

def run (s : Loop ι κ π) (rounds : List (Round ι π ω)) : Loop ι κ π :=
  rounds.foldl (b.round behave) s

end Run

/-- **The tables hold what has been called for**: before each wait of a program, of
any descriptor the sides that the last call about its file has added. -/
def Exact (b : Backend ι κ π ω) (fd : ι → Int) (backend : κ) : Prop :=
  ∀ (behave : Behaviour ι π) (oneshot direct : Bool) (setsize : Int) (rounds : List (Round ι π ω)),
    let s := b.run behave (.start oneshot direct setsize fd backend) rounds
    ∀ d dir, b.holds (s.ev.prepare b.host).backend d dir = true ↔
      ∃ fe, fd fe = d ∧
        wanted (fun fe => decide (fd fe < setsize) && b.host.espipe (fd fe)) dir fe s.log = true

/-! ## A wait of a backend -/

/-- The kernel changes what the backend keeps for itself, and a wait is callbacks. -/
structure Plain (b : Backend ι κ π ω) : Prop where
  answered : ∀ w ev, ∃ f, b.answer w ev = ev.setBackend f
  waits : ∀ {P : Loop ι κ π → Prop} {behave : Behaviour ι π},
    (∀ s c, P s → P (s.call b.host c)) →
    (∀ s dir fe proc, P s → P { s with log := s.log ++ [.invoke dir fe proc] }) →
    (∀ s w, P s → P { s with ev := b.answer w s.ev }) →
    ∀ s w, P s → P (b.eventWait behave s w)

variable {b : Backend ι κ π ω} {P : Loop ι κ π → Prop} {behave : Behaviour ι π}

/-- What every call and every invocation keep, every prepare and every answer of the kernel,
a run keeps. -/
theorem Plain.run_induct (hp : b.Plain) (hcall : ∀ s c, P s → P (s.call b.host c))
    (hinvoke : ∀ s dir fe proc, P s → P { s with log := s.log ++ [.invoke dir fe proc] })
    (hprepare : ∀ s, P s → P { s with ev := s.ev.prepare b.host })
    (hanswer : ∀ s w, P s → P { s with ev := b.answer w s.ev }) {s : Loop ι κ π} (h : P s)
    (rounds : List (Round ι π ω)) : P (b.run behave s rounds) := by
  induction rounds generalizing s with
  | nil => exact h
  | cons r rounds ih =>
      refine ih ?_
      cases r with
      | call c => exact hcall s c h
      | wait w => exact hp.waits hcall hinvoke hanswer _ w (hprepare s h)

/-- What is kept of all that is asked of the backend, and of what the kernel answers. -/
theorem Plain.keeps_run (hp : b.Plain) (behave : Behaviour ι π)
    {J : NioEvent ι κ π → Prop} (hb : Backed b.host J)
    (hanswer : ∀ w {ev}, J ev → J (b.answer w ev)) {s : Loop ι κ π} (hj : J s.ev)
    (hh : s.ev.DelsHeld) (rounds : List (Round ι π ω)) :
    J (b.run behave s rounds).ev ∧ (b.run behave s rounds).ev.DelsHeld := by
  refine hp.run_induct (P := fun s => J s.ev ∧ s.ev.DelsHeld)
    (fun _ c h => hb.apply h.1 h.2 c) (fun _ _ _ _ h => h) (fun _ h => hb.prepare h.1 h.2) ?_
    ⟨hj, hh⟩ rounds
  intro s w ⟨hj, hh⟩
  have hj' := hanswer w hj
  obtain ⟨f, hf⟩ := hp.answered w s.ev
  rw [hf] at hj' ⊢
  exact ⟨hj', hh⟩

/-! ## What a backend has to keep -/

/-- `J` ties the tables of the backend to the masks, whatever is asked of it and whatever
the kernel answers. -/
structure Ties (b : Backend ι κ π ω) (host' : Host ι κ π) (fd : ι → Int)
    (J : NioEvent ι κ π → Prop) : Prop where
  backed : Backed b.host J
  agrees : b.host.Agrees host' J
  succeeds : host'.Succeeds
  kept : ∀ w {ev}, J ev → J (b.answer w ev)
  holds_iff : ∀ {ev}, J ev → ∀ d dir, b.holds ev.backend d dir = true ↔
    ∃ fe, fd fe = d ∧ (ev.files fe).mask dir = true

variable {host' : Host ι κ π} {fd : ι → Int} {J : NioEvent ι κ π → Prop} {accepts : ι → Bool}

/-- A run, between two calls. -/
structure Tied (host' : Host ι κ π) (J : NioEvent ι κ π → Prop) (accepts : ι → Bool)
    (s : Loop ι κ π) : Prop where
  ties : J s.ev
  delsHeld : s.ev.DelsHeld
  meant : s.Meant host' accepts

theorem Tied.call (ht : b.Ties host' fd J) {s : Loop ι κ π} (h : Tied host' J accepts s)
    (c : Call ι π) : Tied host' J accepts (s.call b.host c) := by
  obtain ⟨hj, hh⟩ := ht.backed.apply h.ties h.delsHeld c
  refine ⟨hj, hh, ?_⟩
  rw [Loop.call, ← agrees_apply ht.backed ht.agrees h.ties]
  exact h.meant.call ht.succeeds c

theorem Tied.prepare (ht : b.Ties host' fd J) {s : Loop ι κ π} (h : Tied host' J accepts s) :
    Tied host' J accepts { s with ev := s.ev.prepare b.host } := by
  obtain ⟨hj, hh⟩ := ht.backed.prepare h.ties h.delsHeld
  refine ⟨hj, hh, ?_⟩
  rw [← agrees_prepare ht.backed ht.agrees h.ties h.delsHeld]
  exact h.meant.prepare ht.succeeds

theorem Tied.answer (hp : b.Plain) (ht : b.Ties host' fd J) {s : Loop ι κ π}
    (h : Tied host' J accepts s) (w : ω) :
    Tied host' J accepts { s with ev := b.answer w s.ev } := by
  have hj := ht.kept w h.ties
  obtain ⟨f, hf⟩ := hp.answered w s.ev
  rw [hf] at hj ⊢
  exact ⟨hj, h.delsHeld, h.meant.setBackend f⟩

theorem Tied.run (hp : b.Plain) (ht : b.Ties host' fd J) {s : Loop ι κ π}
    (h : Tied host' J accepts s) (rounds : List (Round ι π ω)) :
    Tied host' J accepts (b.run behave s rounds) :=
  hp.run_induct (fun _ c h => h.call ht c)
    (fun _ dir fe proc h => ⟨h.ties, h.delsHeld, h.meant.invoke dir fe proc⟩)
    (fun _ h => h.prepare ht) (fun _ w h => h.answer hp ht w) h rounds

theorem Ties.tied_start (ht : b.Ties host' fd J) {oneshot direct : Bool} {setsize : Int}
    {backend : κ} (hj : J (create oneshot direct setsize fd backend)) :
    Tied host' J (fun fe => decide (fd fe < setsize) && b.host.espipe (fd fe))
      (.start oneshot direct setsize fd backend) := by
  rw [← ht.agrees.espipe]
  exact ⟨hj, delsHeld_create oneshot direct setsize fd backend, Loop.meant_start host' ..⟩

/-- After `nio_event_prepare` the masks are what has been called for. -/
theorem Tied.mask_eq (ht : b.Ties host' fd J) {s : Loop ι κ π} (h : Tied host' J accepts s)
    (fe : ι) (dir : Dir) :
    ((s.ev.prepare b.host).files fe).mask dir = wanted accepts dir fe s.log := by
  rw [← agrees_prepare ht.backed ht.agrees h.ties h.delsHeld]
  exact h.meant.prepared ht.succeeds fe dir

/-- **A backend that is tied to the masks is exact.** -/
theorem Ties.exact (ht : b.Ties host' fd J) (hp : b.Plain) {backend : κ}
    (hj : ∀ oneshot direct setsize, J (create oneshot direct setsize fd backend)) :
    b.Exact fd backend := by
  intro behave oneshot direct setsize rounds s d dir
  have hs : Tied host' J _ s :=
    (ht.tied_start (hj oneshot direct setsize)).run hp ht rounds
  rw [ht.holds_iff (hs.prepare ht).ties]
  simp only [hs.mask_eq ht]

end Backend

/-! ## A walk -/

namespace Loop

variable {host : Host ι κ π} {behave : Behaviour ι π} {P : Loop ι κ π → Prop}

/-- What every call and every invocation keep, a callback keeps. -/
theorem react_induct (hcall : ∀ s c, P s → P (s.call host c))
    (hinvoke : ∀ s dir fe proc, P s → P { s with log := s.log ++ [.invoke dir fe proc] })
    {s : Loop ι κ π} (h : P s) (hit : Bool) (dir : Dir) (fe : ι) (proc : Option π) :
    P (s.react host behave hit dir fe proc) := by
  have hcalls : ∀ (cs : List (Call ι π)) s, P s → P (cs.foldl (call host) s) := by
    intro cs
    induction cs with
    | nil => exact fun _ h => h
    | cons c cs ih => exact fun s h => ih _ (hcall s c h)
  unfold react
  split
  · split
    · exact hcalls _ _ (hinvoke s dir fe _ h)
    · exact h
  · exact h

omit [DecidableEq ι] in
/-- A walk over what has been reported. -/
theorem walk_induct {α : Type} {one : Loop ι κ π → α → Loop ι κ π}
    (hone : ∀ s a, P s → P (one s a)) (l : List α) {s : Loop ι κ π} (h : P s) :
    P (l.foldl one s) := by
  induction l generalizing s with
  | nil => exact h
  | cons a l ih => exact ih (hone s a h)

end Loop

/-! ## The four of them -/

namespace Backend

/-- `nio_epoll_create`, over a kernel that reports what is ready. -/
def epoll (espipe : Int → Bool) : Backend ι (EventEpoll (EpollSet ι)) π Readiness :=
  { host := EventEpoll.host epollCtl espipe
    answer := fun ready ev =>
      ev.setBackend fun ep => { ep with kernel := (epollWait ready.ready ep.kernel).2 }
    eventWait := fun behave s ready =>
      (s.fetch ready).2.eventWait (EventEpoll.host epollCtl espipe) behave (s.fetch ready).1
    holds := fun ep d dir =>
      match ep.kernel d with
      | none => false
      | some item =>
          match dir with
          | .read => item.interest.epollin
          | .write => item.interest.epollout }

/-- `nio_poll_create` -/
def poll (espipe : Int → Bool) : Backend ι (EventPoll ι) π (Option (Int → Revents)) :=
  { host := EventPoll.host espipe
    answer := fun revents ev =>
      match revents with
      | none => ev
      | some revents => ev.reported revents
    eventWait := fun behave s revents =>
      (s.pollWait (EventPoll.host espipe) behave revents).2
    holds := fun ep d dir => (List.range ep.files.count.toNat).any fun i : Nat =>
      decide ((ep.pfds i).fd = d) && (ep.pfds i).events dir }

/-- `nio_select_create`; the answer is what is ready, and what has an exceptional
condition. What the sets hold for writing is not handed to `select`. -/
def select (espipe : Int → Bool) :
    Backend ι (EventSelect ι) π ((Dir → Int → Bool) × (Int → Bool)) :=
  { host := EventSelect.host espipe
    answer := fun _ ev => ev.scan
    eventWait := fun behave s ready =>
      (s.selectWait (EventSelect.host espipe) behave ready.1 ready.2).2
    holds := fun es d dir => es.set dir d }

variable {fd : ι → Int} {espipe : Int → Bool}

/-! ### poll, select and kqueue, which do not fail -/

theorem select_plain : (select espipe : Backend ι (EventSelect ι) π _).Plain where
  answered := fun w ev => by
    simp only [select, scan]
    split
    · exact ⟨_, rfl⟩
    · exact ⟨id, rfl⟩
  waits := by
    intro P behave hcall hinvoke hanswer s w h
    simp only [select, Loop.selectWait]
    split
    · exact hanswer s w h
    · refine Loop.walk_induct (fun s fe h => ?_) _ (hanswer s w h)
      exact Loop.react_induct hcall hinvoke (Loop.react_induct hcall hinvoke h _ _ _ _) _ _ _ _

theorem select_ties (hfd : Function.Injective fd) :
    (select espipe : Backend ι (EventSelect ι) π _).Ties (EventSelect.host espipe) fd
      (Selected fd) where
  backed := selected_backed hfd espipe
  agrees := .refl _ _
  succeeds := ⟨fun _ _ _ _ _ => rfl, fun _ _ _ _ _ => rfl, fun _ hop => nomatch hop⟩
  kept := fun w ev h => h.scan
  holds_iff := by
    intro ev h d dir
    constructor
    · intro hd
      obtain ⟨fe, rfl⟩ := h.owned d (.inl ⟨dir, hd⟩)
      exact ⟨fe, rfl, (h.set fe dir).symm.trans hd⟩
    · rintro ⟨fe, rfl, hm⟩
      exact (h.set fe dir).trans hm

/-- A kernel that refuses nothing. -/
def unrefused (ctl : EpollCtl ι κ) : EpollCtl ι κ :=
  fun op fd ee k => some ((ctl op fd ee k).getD k)

omit [DecidableEq ι] in
theorem unrefused_eq {ctl : EpollCtl ι κ} {op : EpollOp} {fd : Int} {ee : EpollInterest ι}
    {k k' : κ} (h : ctl op fd ee k = some k') : unrefused ctl op fd ee k = ctl op fd ee k := by
  rw [unrefused, h]
  rfl

section Epoll

variable {ctl : EpollCtl ι κ} {table : κ → Int → Option (EpollInterest ι)}
  {granted : κ → Nat → Prop} {ep : EventEpoll κ} {fe : ι} {file : NioFile π}

omit [DecidableEq ι] in
/-- An add of a descriptor that is not there is granted, and all else of one that is. -/
theorem unrefused_granted (ht : Tabulates ctl table granted) {op : EpollOp} {fd : Int}
    (ee : EpollInterest ι) {k : κ} (h : (table k fd).isSome = !decide (op = .add)) :
    unrefused ctl op fd ee k = ctl op fd ee k := by
  cases op with
  | add =>
      obtain ⟨k', hk, -⟩ := ht.add ee h
      exact unrefused_eq hk
  | mod =>
      obtain ⟨k', hk, -⟩ := ht.mod ee h
      exact unrefused_eq hk
  | del =>
      obtain ⟨k', hk, -⟩ := ht.del ee h
      exact unrefused_eq hk

omit [DecidableEq ι] in
theorem unrefused_put (ht : Tabulates ctl table granted)
    (h : Listed fe file.mask (table ep.kernel file.fd)) (ee : EpollInterest ι) :
    unrefused ctl (if file.mask .read || file.mask .write then .mod else .add) file.fd ee ep.kernel
      = ctl (if file.mask .read || file.mask .write then .mod else .add) file.fd ee ep.kernel := by
  refine unrefused_granted ht ee ?_
  rw [h.isSome]
  cases file.mask .read || file.mask .write <;> rfl

omit [DecidableEq ι] in
theorem unrefused_add (ht : Tabulates ctl table granted)
    (h : Listed fe file.mask (table ep.kernel file.fd)) (dir : Dir) (oneshot : Bool) :
    (EventEpoll.host (unrefused ctl) espipe).add dir oneshot ep fe file
      = (EventEpoll.host ctl espipe).add dir oneshot ep fe file := by
  cases dir with
  | read =>
      have hput := unrefused_put ht h ⟨true, file.mask .write, oneshot, fe⟩
      simp only [EventEpoll.host, EventEpoll.addRead]
      cases hr : file.mask .read <;> cases hw : file.mask .write <;>
        simp [hr, hw] at hput ⊢ <;> rw [hput]
  | write =>
      have hput := unrefused_put ht h ⟨file.mask .read, true, false, fe⟩
      simp only [EventEpoll.host, EventEpoll.addWrite]
      cases hr : file.mask .read <;> cases hw : file.mask .write <;>
        simp [hr, hw] at hput ⊢ <;> rw [hput]

omit [DecidableEq ι] in
theorem unrefused_take (ht : Tabulates ctl table granted)
    (hs : (table ep.kernel file.fd).isSome = true) (b : Bool) (ee : EpollInterest ι) :
    unrefused ctl (if b then .mod else .del) file.fd ee ep.kernel
      = ctl (if b then .mod else .del) file.fd ee ep.kernel := by
  refine unrefused_granted ht ee ?_
  cases b <;> exact hs

omit [DecidableEq ι] in
/-- A deletion is asked for only of a side in the mask. -/
theorem unrefused_del (ht : Tabulates ctl table granted)
    (h : Listed fe file.mask (table ep.kernel file.fd)) (dir : Dir) (oneshot : Bool)
    (hm : file.mask dir = true) :
    (EventEpoll.host (unrefused ctl) espipe).del dir oneshot ep fe file
      = (EventEpoll.host ctl espipe).del dir oneshot ep fe file := by
  have hs := h.present dir hm
  cases dir with
  | read =>
      simp only [EventEpoll.host, EventEpoll.delRead]
      generalize Function.update file.mask .read false .write = b
      have htake := unrefused_take ht hs b ⟨false, b, b && oneshot, fe⟩
      cases b <;> simp at htake ⊢ <;> rw [htake]
  | write =>
      simp only [EventEpoll.host, EventEpoll.delWrite]
      generalize Function.update file.mask .write false .read = b
      have htake := unrefused_take ht hs b ⟨b, false, b && oneshot, fe⟩
      cases b <;> simp at htake ⊢ <;> rw [htake]

end Epoll

theorem epoll_plain : (epoll espipe : Backend ι (EventEpoll (EpollSet ι)) π Readiness).Plain where
  answered := fun ready _ =>
    ⟨fun ep => { ep with kernel := (epollWait ready.ready ep.kernel).2 }, rfl⟩
  waits := fun hcall hinvoke hanswer s ready h =>
    Loop.eventWait_induct hcall hinvoke (hanswer s ready h) _

theorem epoll_ties (hfd : Function.Injective fd) :
    (epoll espipe : Backend ι (EventEpoll (EpollSet ι)) π Readiness).Ties
      (EventEpoll.host (unrefused epollCtl) espipe) fd
      (Mirrors EpollSet.table (fun _ _ => True) fd) where
  backed := mirrors_backed tabulates_epollCtl hfd
  agrees :=
    { espipe := rfl
      add := fun hj dir fe => unrefused_add tabulates_epollCtl (listed_at hj fe) dir _
      del := fun hj dir fe hm => unrefused_del tabulates_epollCtl (listed_at hj fe) dir _ hm
      delReadwrite := by
        refine .inr ⟨_, _, rfl, rfl, fun {ev} hj fe hm => ?_⟩
        have hs := (listed_at hj fe).isSome.trans hm
        simp only [EventEpoll.delReadwrite,
          unrefused_granted tabulates_epollCtl _ (show _ = !decide (EpollOp.del = .add) from hs)]
      eventFflush := rfl }
  succeeds := EventEpoll.host_succeeds (fun _ _ _ _ => rfl) espipe
  kept := fun ready ev h => h.epollWait ready.ready
  holds_iff := by
    intro ev h d dir
    have hiff : ∀ fe, (epoll espipe : Backend ι (EventEpoll (EpollSet ι)) π Readiness).holds
        ev.backend (fd fe) dir = (ev.files fe).mask dir := by
      intro fe
      have hl := h.listed fe
      simp only [epoll, EpollSet.table] at hl ⊢
      cases hk : ev.backend.kernel (fd fe) with
      | none =>
          rw [hk] at hl
          exact (hl dir).symm
      | some item =>
          rw [hk] at hl
          cases dir with
          | read => exact hl.2.1
          | write => exact hl.2.2.1
    constructor
    · intro hd
      have hs : (EpollSet.table ev.backend.kernel d).isSome = true := by
        simp only [epoll, EpollSet.table] at hd ⊢
        cases hk : ev.backend.kernel d with
        | none =>
            rw [hk] at hd
            cases hd
        | some item => rfl
      obtain ⟨fe, rfl⟩ := h.owned d hs
      exact ⟨fe, rfl, (hiff fe).symm.trans hd⟩
    · rintro ⟨fe, rfl, hm⟩
      exact (hiff fe).trans hm

/-! ## All of them -/

end Backend

end Libnio.Event
