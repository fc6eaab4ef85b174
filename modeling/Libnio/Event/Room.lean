import Libnio.Event.Admits
import Libnio.Event.Tables
import Mathlib.Data.UInt

/-!
# Event — room in the tables

`nio_poll_create` and `nio_select_create` take the number of places from
`nio_open_limit`, the admission test takes its bound from the size that
`nio_event_create` was called with, and an `fd_set` has its own. `Roomed` is a
backend with so many places; `tables_exact` says what the tables hold after every
run, and `tables_fit_iff` when the three bounds go together.
-/

namespace Libnio.Event

variable {ι κ π ω : Type}

/-! ## The open limit -/

/-- `struct rlimit` -/
structure Rlimit where
  rlimCur : UInt64
  rlimMax : UInt64

/-- What the system says of the process: `getrlimit`, `getdtablesize`, and
whether `setrlimit` succeeds. -/
structure Limits where
  getrlimit : Option Rlimit
  getdtablesize : Int
  setrlimit : Rlimit → Bool

/-- `(int) n` -/
def toInt (n : UInt64) : Int := (n.toNat : Int).bmod (2 ^ 32)

/-- `nio_open_limit` -/
def nioOpenLimit (sys : Limits) (limit : Int) : Int :=
  match sys.getrlimit with
  | none => sys.getdtablesize
  | some rl =>
      let rl :=
        if rl.rlimMax ≤ 0 then { rl with rlimMax := 102400 }
        else if rl.rlimMax > 10240000 then { rl with rlimMax := 10240000 }
        else rl
      let rlimCur := toInt rl.rlimCur
      if limit > 0 then
        let rl :=
          if limit > toInt rl.rlimMax then { rl with rlimCur := rl.rlimMax }
          else { rl with rlimCur := UInt64.ofInt limit }
        if sys.setrlimit rl then toInt rl.rlimCur else rlimCur
      else if rl.rlimMax > rl.rlimCur then
        let rl := { rl with rlimCur := rl.rlimMax }
        if sys.setrlimit rl then toInt rl.rlimCur else rlimCur
      else toInt rl.rlimCur

/-- The size that `nio_poll_create` and `nio_select_create` put in the place of
their argument. -/
def tableSize (sys : Limits) : Int :=
  let size := nioOpenLimit sys 0
  if size ≤ 0 then 1024 else size

theorem tableSize_pos (sys : Limits) : 0 < tableSize sys := by
  unfold tableSize
  dsimp only
  split <;> omega

/-- `nio_poll_create` -/
def nioPollCreate (sys : Limits) (_size : Int) (memory : Int → Pollfd) : EventPoll ι :=
  .create (tableSize sys) memory

/-- `nio_select_create` -/
def nioSelectCreate (sys : Limits) (_size : Int) : EventSelect ι := .create (tableSize sys)

namespace NioEvent

variable [DecidableEq ι] {host : Host ι κ π} {J : NioEvent ι κ π → Prop}
  {count size : κ → Int} {asserted : κ → Bool} {accepts : ι → Bool}

/-- A backend with a table of `size` places, of which `count` are in use; a file
that is registered has one of them, and the assertions are that there is one. -/
structure Roomed (host : Host ι κ π) (J : NioEvent ι κ π → Prop) (count size : κ → Int)
    (asserted : κ → Bool) : Prop where
  backed : Backed host J
  succeeds : host.Succeeds
  plain : host.delReadwrite = none ∧ host.eventFflush = none
  counted : ∀ {ev}, J ev → 0 ≤ count ev.backend ∧
    ev.registered.encard = (count ev.backend).toNat
  add : ∀ {ev}, J ev → ∀ dir fe, let k := (ev.oper (.add dir) (host.add dir) fe).backend
    size k = size ev.backend ∧ (asserted k = true ↔ asserted ev.backend = true ∧
      (fe ∈ ev.registered ∨ count ev.backend < size ev.backend))
  del : ∀ {ev}, J ev → ∀ dir fe, (ev.files fe).mask dir = true →
    let k := (ev.oper (.del dir) (host.del dir) fe).backend
    size k = size ev.backend ∧ asserted k = asserted ev.backend

/-- The `n` places against the files that were asked for. -/
structure Room (size : κ → Int) (asserted : κ → Bool) (n : Nat) (ev : NioEvent ι κ π) : Prop where
  size_eq : size ev.backend = n
  asked : ev.registered ⊆ ev.asked
  /-- as long as nothing failed -/
  le : asserted ev.backend = true → ev.registered.encard ≤ n
  /-- nothing fails as long as -/
  enough : ev.asked.encard ≤ n → asserted ev.backend = true

/-- **A table has room** for every file as long as no more than its places are
asked for. -/
theorem Roomed.room (hr : Roomed host J count size asserted) (n : Nat) :
    Backed host fun ev => J ev ∧ Room size asserted n ev where
  unasked := by
    rintro ev ev' ⟨hj, hroom⟩ hu
    have hasked : ev'.asked = ev.asked := by
      ext fe
      rw [NioEvent.asked, NioEvent.asked, hu.opers]
    refine ⟨hr.backed.unasked hj hu, ?_, ?_, ?_, ?_⟩
    · rw [hu.backend]
      exact hroom.size_eq
    · rw [hu.registered, hasked]
      exact hroom.asked
    · rw [hu.registered, hu.backend]
      exact hroom.le
    · rw [hasked, hu.backend]
      exact hroom.enough
  add := by
    rintro ev ⟨hj, hroom⟩ dir fe
    obtain ⟨hsize, hassert⟩ := hr.add hj dir fe
    obtain ⟨h0, hcount⟩ := hr.counted hj
    have hreg := registered_oper_insert (.add dir) (hr.succeeds.add dir ev.oneshot ev.backend fe
      (ev.files fe)) ⟨dir, by simp⟩
    have hasked := asked_oper ev (.add dir) (host.add dir) fe
    have hsub : insert fe ev.registered ⊆ insert fe ev.asked := Set.insert_subset_insert hroom.asked
    have hplace : fe ∉ ev.registered → ((insert fe ev.registered).encard ≤ n ↔
        count ev.backend < size ev.backend) := by
      intro hfe
      rw [Set.encard_insert_of_notMem hfe, hcount, hroom.size_eq]
      have hc : (((count ev.backend).toNat : ℕ∞) + 1 ≤ n) ↔ (count ev.backend).toNat + 1 ≤ n := by
        exact_mod_cast Iff.rfl
      rw [hc]
      omega
    refine ⟨hr.backed.add hj dir fe, hsize.trans hroom.size_eq, ?_, fun ha => ?_, fun ha => ?_⟩
    · rw [hreg, hasked]
      exact hsub
    · obtain ⟨ha, hfe⟩ := hassert.mp ha
      rw [hreg]
      by_cases hin : fe ∈ ev.registered
      · rw [Set.insert_eq_of_mem hin]
        exact hroom.le ha
      · exact (hplace hin).mpr (hfe.resolve_left hin)
    · rw [hasked] at ha
      have hfew := (Set.encard_le_encard (Set.subset_insert _ _)).trans ha
      refine hassert.mpr ⟨hroom.enough hfew, ?_⟩
      by_cases hin : fe ∈ ev.registered
      · exact .inl hin
      · exact .inr ((hplace hin).mp ((Set.encard_le_encard hsub).trans ha))
  del := by
    rintro ev ⟨hj, hroom⟩ dir fe hd
    obtain ⟨hsize, hassert⟩ := hr.del hj dir fe hd
    have hasked := asked_oper ev (.del dir) (host.del dir) fe
    have hreg : (ev.oper (.del dir) (host.del dir) fe).registered ⊆ ev.registered := by
      rintro e ⟨d, he⟩
      by_cases hc : e = fe
      · exact hc ▸ ⟨dir, hd⟩
      · rw [mask_oper_of_ne hc] at he
        exact ⟨d, he⟩
    refine ⟨hr.backed.del hj dir fe hd, hsize.trans hroom.size_eq, ?_, fun ha => ?_, fun ha => ?_⟩
    · rw [hasked]
      exact (hreg.trans hroom.asked).trans (Set.subset_insert _ _)
    · exact (Set.encard_le_encard hreg).trans (hroom.le (hassert ▸ ha))
    · rw [hasked] at ha
      exact hassert.trans (hroom.enough ((Set.encard_le_encard (Set.subset_insert _ _)).trans ha))
  delReadwrite := by
    intro ev _ op fe hop
    rw [hr.plain.1] at hop
    cases hop
  fflush := by
    intro ev h
    unfold NioEvent.fflush
    rw [hr.plain.2]
    exact h
  other := hr.backed.other

/-- What the kernel leaves alone when it answers. -/
structure Answers (size : κ → Int) (asserted : κ → Bool) (J : NioEvent ι κ π → Prop)
    (answer : ω → NioEvent ι κ π → NioEvent ι κ π) : Prop where
  keeps : ∀ {ev} w, J ev → J (answer w ev)
  backend : ∀ w ev, ∃ f : κ → κ, answer w ev = ev.setBackend f
  size_eq : ∀ w ev, size (answer w ev).backend = size ev.backend
  asserted_eq : ∀ w ev, asserted (answer w ev).backend = asserted ev.backend

section Runs

variable {answer : ω → NioEvent ι κ π → NioEvent ι κ π} {n : Nat}

theorem Roomed.turns (hr : Roomed host J count size asserted)
    (hans : Answers size asserted J answer) {oneshot direct : Bool} {setsize : Int} {fd : ι → Int}
    {backend : κ} (h₀ : J (create oneshot direct setsize fd backend)) (hn : size backend = n)
    (ha : asserted backend = true) (ts : List (Turn ι π ω)) :
    let ev := (create oneshot direct setsize fd backend : NioEvent ι κ π).turns host answer ts
    J ev ∧ Room size asserted n ev := by
  refine ((hr.room n).turns ?_ ⟨h₀, hn, ?_, fun _ => ?_, fun _ => ha⟩
    (delsHeld_create _ _ _ _ _) ts).1
  · rintro ev w ⟨⟨hj, hroom⟩, hd⟩
    obtain ⟨f, hf⟩ := hans.backend w ev
    have hsize := hans.size_eq w ev
    have hassert := hans.asserted_eq w ev
    have hreg : (answer w ev).registered = ev.registered := by rw [hf, registered_setBackend]
    have hopers : (answer w ev).asked = ev.asked := by
      rw [hf]
      rfl
    refine ⟨⟨hans.keeps w hj, hsize.trans hroom.size_eq, ?_, ?_, ?_⟩, ?_⟩
    · rw [hreg, hopers]
      exact hroom.asked
    · rw [hreg, hassert]
      exact hroom.le
    · rw [hopers, hassert]
      exact hroom.enough
    · rw [hf]
      exact hd
  · rw [registered_create]
    exact Set.empty_subset _
  · rw [registered_create, Set.encard_empty]
    exact zero_le

/-- **No assertion ever fails if and only if** no more files pass the admission
test than the table has places. -/
theorem Roomed.asserted_iff [Nonempty π] (hr : Roomed host J count size asserted)
    (hc : host.Clears) (hans : Answers size asserted J answer) {oneshot direct : Bool}
    {setsize : Int} {fd : ι → Int} {backend : κ}
    (h₀ : J (create oneshot direct setsize fd backend)) (hn : size backend = n)
    (ha : asserted backend = true) :
    (∀ ts, asserted ((create oneshot direct setsize fd backend : NioEvent ι κ π).turns
        host answer ts).backend = true) ↔
      {fe | fd fe < setsize ∧ host.espipe (fd fe) = true}.encard ≤ n := by
  have hmem : ∀ fe, fe ∈ {fe | fd fe < setsize ∧ host.espipe (fd fe) = true} ↔
      (decide (fd fe < setsize) && host.espipe (fd fe)) = true := by
    intro fe
    rw [Bool.and_eq_true, decide_eq_true_eq]
    rfl
  constructor
  · intro hall
    by_contra hlt
    -- one file more than there are places
    have hle : ((n + 1 : Nat) : ℕ∞) ≤
        {fe | fd fe < setsize ∧ host.espipe (fd fe) = true}.encard := by
      push_cast
      exact Order.add_one_le_of_lt (not_le.mp hlt)
    obtain ⟨T, hT, hcard⟩ := Set.exists_subset_encard_eq hle
    have hfin : T.Finite := Set.finite_of_encard_eq_coe hcard
    obtain ⟨proc⟩ := ‹Nonempty π›
    let ts : List (Turn ι π ω) :=
      hfin.toFinset.toList.map (fun fe => .call (.add .read fe proc)) ++ [.prepare]
    have hsub : T ⊆ ((create oneshot direct setsize fd backend : NioEvent ι κ π).turns
        host answer ts).registered := by
      intro fe hfe
      refine registered_adds hr.succeeds oneshot direct setsize fd backend answer proc _ ?_
        ((hmem fe).mp (hT hfe))
      rw [Finset.mem_toList, Set.Finite.mem_toFinset]
      exact hfe
    have hroom := (hr.turns hans h₀ hn ha ts).2.le (hall ts)
    have hcon := (Set.encard_le_encard hsub).trans hroom
    rw [hcard] at hcon
    have : n + 1 ≤ n := by exact_mod_cast hcon
    omega
  · intro hle ts
    have hadmits := (Admits.create host oneshot direct setsize fd backend).turns hc hans.backend ts
    refine (hr.turns hans h₀ hn ha ts).2.enough (le_trans (Set.encard_le_encard ?_) hle)
    intro fe hfe
    exact (hmem fe).mpr (hadmits.asked fe hfe)

end Runs

/-! ## Poll and select -/

variable {π : Type} {fd : ι → Int}

theorem roomed_poll (espipe : Int → Bool) :
    Roomed (EventPoll.host espipe : Host ι (EventPoll ι) π) (PollListed fd fun _ _ => True)
      (·.files.count) (·.size) (·.asserted) where
  backed := {
    unasked := fun h hu => h.unasked hu
    add := fun h dir fe => h.add (fun _ => trivial) dir fe
    del := fun h dir fe hm => h.del dir fe hm
    delReadwrite := fun _ _ _ hop => nomatch hop
    fflush := fun h => h
    other := fun hd _ _ _ _ => Function.update_of_ne hd _ _ }
  succeeds := ⟨fun _ _ _ _ _ => rfl, fun _ _ _ _ _ => rfl, fun _ hop => nomatch hop⟩
  plain := ⟨rfl, rfl⟩
  counted := fun h => ⟨h.packs.nonneg, h.packs.encard⟩
  add := fun h dir fe => h.add_room dir fe
  del := fun h dir fe hd => h.del_room dir fe hd

omit [DecidableEq ι] in
theorem answers_reported : Answers (·.size) (·.asserted)
    (PollListed fd fun _ _ => True : NioEvent ι (EventPoll ι) π → Prop) reported where
  keeps := fun w h => h.report w fun _ _ => trivial
  backend := fun w _ => ⟨EventPoll.report w, rfl⟩
  size_eq := fun _ _ => rfl
  asserted_eq := fun _ _ => rfl

theorem roomed_select (hfd : Function.Injective fd) (espipe : Int → Bool) :
    Roomed (EventSelect.host espipe : Host ι (EventSelect ι) π) (SelectListed fd)
      (·.files.count) (·.size) (·.asserted) where
  backed := {
    unasked := fun h hu => h.unasked hu
    add := fun h dir fe => h.add hfd dir fe
    del := fun h dir fe hm => h.del hfd dir fe hm
    delReadwrite := fun _ _ _ hop => nomatch hop
    fflush := fun h => h
    other := fun hd _ _ _ _ => Function.update_of_ne hd _ _ }
  succeeds := ⟨fun _ _ _ _ _ => rfl, fun _ _ _ _ _ => rfl, fun _ hop => nomatch hop⟩
  plain := ⟨rfl, rfl⟩
  counted := fun h => ⟨h.packs.nonneg, h.packs.encard⟩
  add := fun h dir fe => h.add_room dir fe
  del := fun h dir fe hd => h.del_room dir fe hd

omit [DecidableEq ι] in
theorem scan_eq (ev : NioEvent ι (EventSelect ι) π) :
    ∃ f : EventSelect ι → EventSelect ι, ev.scan = ev.setBackend f := by
  unfold scan
  split
  · exact ⟨_, rfl⟩
  · exact ⟨id, rfl⟩

omit [DecidableEq ι] in
theorem answers_scan : Answers (·.size) (·.asserted)
    (SelectListed fd : NioEvent ι (EventSelect ι) π → Prop) (fun _ : Unit => scan) where
  keeps := fun _ h => h.scan
  backend := fun _ ev => ev.scan_eq
  size_eq := fun _ ev => (scan_backend ev).1
  asserted_eq := fun _ ev => (scan_backend ev).2

/-- With as many places as files poll never fails. -/
theorem pollListed_turns {size : Int} (hmany : ENat.card ι ≤ size.toNat) (oneshot direct : Bool)
    (setsize : Int) (memory : Int → Pollfd) (espipe : Int → Bool)
    (tp : List (Turn ι π (Int → Revents))) :
    let ev := (create oneshot direct setsize fd (.create size memory) :
      NioEvent ι (EventPoll ι) π).turns (EventPoll.host espipe) reported tp
    ev.PollListed fd (fun _ _ => True) ∧ ev.backend.asserted = true := by
  intro ev
  by_cases hsize : 0 ≤ size
  · obtain ⟨h, hroom⟩ := (roomed_poll espipe).turns answers_reported
      (pollListed_create oneshot direct setsize size memory) (Int.toNat_of_nonneg hsize).symm rfl tp
    refine ⟨h, hroom.enough (le_trans ?_ hmany)⟩
    rw [← Set.encard_univ]
    exact Set.encard_le_encard (Set.subset_univ _)
  · -- then there are no files at all
    have hnone : IsEmpty ι := by
      rw [Int.toNat_of_nonpos (by omega)] at hmany
      exact ENat.card_eq_zero_iff_empty ι |>.mp (le_antisymm hmany bot_le)
    have hfd : Function.Injective fd := fun a => hnone.elim a
    have h := (polled_turns hfd size (fun a => hnone.elim a) oneshot direct setsize memory espipe
      tp).1
    exact ⟨h.toPollListed, h.asserted⟩

/-- **The tables of poll and select are the registered files.** Whatever is
called, in direct mode or not, and whenever it is prepared: the table lists the
files with a mask that is not zero. With poll, `pfds` has the descriptor and the
mask of each of them in its place, and nothing in the places behind; there have
to be as many places as files, whatever their descriptors are. With select, where
the descriptors are below the size, the sets have them as the masks say, and no
registered one is above `maxfd` when `select` is called. No assertion fails. -/
theorem tables_exact (fd : ι → Int) (size : Int) (oneshot direct : Bool) (setsize : Int)
    (memory : Int → Pollfd) (espipe : Int → Bool) (tp : List (Turn ι π (Int → Revents)))
    (ts : List (Turn ι π Unit)) :
    (ENat.card ι ≤ size.toNat →
      let ev := (create oneshot direct setsize fd (.create size memory) :
        NioEvent ι (EventPoll ι) π).turns (EventPoll.host espipe) reported tp
      let ep := ev.backend
      ev.Tabled ep.files ep.fdcount ∧
        (∀ i fe, 0 ≤ i → i < ep.files.count → ep.files.slot i = some fe →
          (ep.pfds i).fd = fd fe ∧ ∀ dir, (ep.pfds i).events dir = (ev.files fe).mask dir) ∧
        (∀ i, ep.files.count ≤ i →
          (∀ dir, (ep.pfds i).events dir = false) ∧ (ep.pfds i).revents = .zero) ∧
        ep.asserted = true) ∧
    (Function.Injective fd → (∀ fe, 0 ≤ fd fe ∧ fd fe < size) →
      let ev := (create oneshot direct setsize fd (.create size) :
        NioEvent ι (EventSelect ι) π).turns (EventSelect.host espipe) (fun _ => scan) ts
      let es := ev.backend
      ev.Tabled es.files es.fdcount ∧
        (∀ fe dir, es.set dir (fd fe) = (ev.files fe).mask dir) ∧
        (∀ fe, es.xset (fd fe) = true ↔ ∃ dir, (ev.files fe).mask dir = true) ∧
        (∀ fe, (∃ dir, (ev.files fe).mask dir = true) → fd fe ≤ ev.scan.backend.maxfd) ∧
        es.asserted = true) := by
  constructor
  · intro hmany ev ep
    obtain ⟨h, hassert⟩ : ev.PollListed fd (fun _ _ => True) ∧ ep.asserted = true :=
      pollListed_turns hmany oneshot direct setsize memory espipe tp
    refine ⟨tabled_of_packs h.packs h.fdcount, fun i fe hi hi' hs => ?_, fun i hi => ?_, hassert⟩
    · obtain ⟨hfe, rfl⟩ := h.packs.id_of_slot hi hi' hs
      obtain ⟨hd, hev, -⟩ := h.entry fe hfe
      exact ⟨hd, congrFun hev⟩
    · obtain ⟨hev, hrv⟩ := h.free i hi
      exact ⟨congrFun hev, hrv⟩
  · intro hfd hfits ev es
    obtain ⟨h, -⟩ := selected_turns (π := π) hfd hfits oneshot direct setsize espipe ts
    have hscan := h.scan.maxfd
    refine ⟨tabled_of_packs h.packs h.fdcount, h.set, h.xset, fun fe hfe => ?_, h.asserted⟩
    refine hscan fe ?_
    rw [mem_registered, scan_files]
    exact hfe

/-- Three files, of which the first two leave: the last one moves twice. Poll has three
places for the descriptors 3, 4 and 5. -/
theorem tables_exact_three :
    let fd : Fin 3 → Int := fun fe => 3 + fe.val
    let add (fe : Fin 3) : List (Call (Fin 3) Unit) := [.add .read fe (), .add .write fe ()]
    let calls := add 0 ++ add 1 ++ add 2 ++ [.delReadwrite 0, .del .read 1, .del .write 1]
    let ev := (create false true 16 fd (.create 3 fun _ => .unused) :
      NioEvent (Fin 3) (EventPoll (Fin 3)) Unit).turns (EventPoll.host fun _ => true) reported
      (calls.map .call)
    let ev' := (create false true 16 fd (.create 16) :
      NioEvent (Fin 3) (EventSelect (Fin 3)) Unit).turns (EventSelect.host fun _ => true)
      (fun _ : Unit => scan) (calls.map .call)
    (ev.backend.files.slot 0 = some 2 ∧ ev'.backend.files.slot 0 = some 2) ∧
      ev.Tabled ev.backend.files ev.backend.fdcount ∧
      ev'.Tabled ev'.backend.files ev'.backend.fdcount := by
  intro fd add calls ev ev'
  have hfd : Function.Injective fd := by
    intro a b h
    have h' : (3 : Int) + a.val = 3 + b.val := h
    omega
  have hfits : ∀ fe, 0 ≤ fd fe ∧ fd fe < 16 := by
    intro fe
    have h' : fd fe = 3 + fe.val := rfl
    omega
  have hmany : ENat.card (Fin 3) ≤ (3 : Int).toNat := by simp
  have hpoll := (tables_exact fd 3 false true 16 (fun _ => .unused) (fun _ => true)
    (calls.map .call) []).1 hmany
  have hselect := (tables_exact fd 16 false true 16 (fun _ => .unused) (fun _ => true) []
    (calls.map .call)).2 hfd hfits
  exact ⟨by decide +kernel, hpoll.1, hselect.1⟩

/-- The descriptors that have been passed to `FD_SET`, `FD_CLR` and `FD_ISSET`:
each operation of the backend passes the one of its file, and
`select_event_wait` passes those of the table. -/
def fdsPassed (ev : NioEvent ι (EventSelect ι) π) : Set Int :=
  {n | (∃ c ∈ ev.opers, (ev.files c.file).fd = n) ∨
    ∃ fe ∈ ev.backend.files.entries, (ev.files fe).fd = n}

omit [DecidableEq ι] in
/-- A size that is not above the number of places bounds the files as well. -/
theorem admitted_le (hfd : Function.Injective fd) (hpos : ∀ fe, 0 ≤ fd fe) {size places : Int}
    (hle : size ≤ places) (espipe : Int → Bool) :
    {fe | fd fe < size ∧ espipe (fd fe) = true}.encard ≤ places.toNat := by
  have hsub : fd '' {fe | fd fe < size ∧ espipe (fd fe) = true} ⊆ Set.Ico 0 size := by
    rintro _ ⟨fe, hfe, rfl⟩
    exact ⟨hpos fe, hfe.1⟩
  calc {fe | fd fe < size ∧ espipe (fd fe) = true}.encard
      = (fd '' {fe | fd fe < size ∧ espipe (fd fe) = true}).encard := (hfd.encard_image _).symm
    _ ≤ (Set.Ico 0 size).encard := Set.encard_le_encard hsub
    _ = size.toNat := by
      rw [Set.encard_eq_coe_toFinset_card, Set.toFinset_Ico, Int.card_Ico]
      simp
    _ ≤ places.toNat := by exact_mod_cast Int.toNat_le_toNat hle

/-- **Admitted files fit the tables if and only if** there are no more of them
than `nio_open_limit` says, and with select each is below `FD_SETSIZE`: then no
assertion fails in any run, and nothing else is passed to the macros. -/
theorem tables_fit_iff [Nonempty π] (hfd : Function.Injective fd) (sys : Limits)
    (size fdSetsize : Int) (oneshot direct : Bool) (memory : Int → Pollfd)
    (espipe : Int → Bool) :
    let admitted : Set ι := {fe | fd fe < size ∧ espipe (fd fe) = true}
    ((∀ ts, ((create oneshot direct size fd (nioPollCreate sys size memory) :
          NioEvent ι (EventPoll ι) π).turns (EventPoll.host espipe) reported ts).backend.asserted
            = true) ↔
      admitted.encard ≤ (tableSize sys).toNat) ∧
    ((∀ ts, let ev := (create oneshot direct size fd (nioSelectCreate sys size) :
          NioEvent ι (EventSelect ι) π).turns (EventSelect.host espipe) (fun _ : Unit => scan) ts
        ev.backend.asserted = true ∧ ∀ n ∈ ev.fdsPassed, n < fdSetsize) ↔
      admitted.encard ≤ (tableSize sys).toNat ∧ ∀ fe ∈ admitted, fd fe < fdSetsize) := by
  intro admitted
  have hsize : tableSize sys = (tableSize sys).toNat := by
    have := tableSize_pos sys
    omega
  have hclears : (EventSelect.host espipe : Host ι (EventSelect ι) π).Clears :=
    ⟨fun _ _ _ _ _ => rfl, fun _ hop => nomatch hop⟩
  have hr := roomed_select (π := π) hfd espipe
  have h₀ : (create oneshot direct size fd (nioSelectCreate sys size) :
      NioEvent ι (EventSelect ι) π).SelectListed fd := selectListed_create _ _ _ _
  have hselect := hr.asserted_iff hclears answers_scan h₀ hsize rfl
  refine ⟨(roomed_poll espipe).asserted_iff ⟨fun _ _ _ _ _ => rfl, fun _ hop => nomatch hop⟩
    answers_reported (pollListed_create oneshot direct size _ memory) hsize rfl, ?_⟩
  constructor
  · intro hall
    refine ⟨hselect.mp fun ts => (hall ts).1, fun fe hfe => ?_⟩
    obtain ⟨proc⟩ := ‹Nonempty π›
    let ts : List (Turn ι π Unit) :=
      [fe].map (fun fe => .call (.add .read fe proc)) ++ [.prepare]
    have hlisted := (hr.turns answers_scan h₀ hsize rfl ts).1
    have hreg := registered_adds hr.succeeds oneshot direct size fd
      (nioSelectCreate sys size : EventSelect ι) (fun _ : Unit => scan) proc [fe]
      (List.mem_singleton_self fe) (by rw [Bool.and_eq_true, decide_eq_true_eq]; exact hfe)
    exact (hall ts).2 _ (.inr ⟨fe, hlisted.packs.mem_entries.mpr hreg, hlisted.fd_eq fe⟩)
  · rintro ⟨hle, hbelow⟩ ts ev
    refine ⟨hselect.mpr hle ts, ?_⟩
    obtain ⟨hlisted, hroom⟩ : ev.SelectListed fd ∧ Room _ _ _ ev :=
      hr.turns answers_scan h₀ hsize rfl ts
    have hadmits := (Admits.create (EventSelect.host espipe) oneshot direct size fd
      (nioSelectCreate sys size : EventSelect ι)).turns (π := π) hclears
      (fun _ ev => ev.scan_eq) ts
    have hfile : ∀ fe, fe ∈ ev.asked → fd fe < fdSetsize := by
      intro fe hfe
      have ha := hadmits.asked fe hfe
      rw [Bool.and_eq_true, decide_eq_true_eq] at ha
      exact hbelow fe ha
    rintro n (⟨c, hc, rfl⟩ | ⟨fe, hfe, rfl⟩)
    · rw [hlisted.fd_eq]
      exact hfile _ ⟨c, hc, rfl⟩
    · rw [hlisted.fd_eq]
      exact hfile fe (hroom.asked (hlisted.packs.mem_entries.mp hfe))

/-- Three files and sixteen places. -/
theorem tables_fit_three :
    let fd : Fin 3 → Int := fun fe => 3 + fe.val
    let sys : Limits := ⟨some ⟨16, 16⟩, 256, fun _ => true⟩
    (∀ ts, ((create false false 16 fd (nioPollCreate sys 16 fun _ => .unused) :
        NioEvent (Fin 3) (EventPoll (Fin 3)) Unit).turns (EventPoll.host (fun _ => true)) reported
          ts).backend.asserted = true) ∧
    ∀ ts : List (Turn (Fin 3) Unit Unit),
      let ev := (create false false 16 fd (nioSelectCreate sys 16) :
        NioEvent (Fin 3) (EventSelect (Fin 3)) Unit).turns (EventSelect.host (fun _ => true))
          (fun _ : Unit => scan) ts
      ev.backend.asserted = true ∧ ∀ n ∈ ev.fdsPassed, n < 1024 := by
  intro fd sys
  have hfd : Function.Injective fd := by
    intro a b h
    have h' : (3 : Int) + a.val = 3 + b.val := h
    omega
  have hval : ∀ fe, fd fe = 3 + fe.val := fun _ => rfl
  have hpos : ∀ fe, 0 ≤ fd fe := fun fe => by
    rw [hval]
    omega
  have hsize : 16 ≤ tableSize sys := by decide
  have hle := admitted_le hfd hpos hsize fun _ => true
  have h := tables_fit_iff (π := Unit) hfd sys 16 1024 false false (fun _ => .unused)
    (fun _ => true)
  exact ⟨h.1.mpr hle, h.2.mpr ⟨hle, fun fe _ => by rw [hval]; omega⟩⟩

/-- A descriptor that the system allows and the event takes, and that is not in
an `fd_set`. -/
theorem fd_set_overrun :
    let sys : Limits := ⟨some ⟨65536, 65536⟩, 256, fun _ => true⟩
    let ev : NioEvent Unit (EventSelect Unit) Unit :=
      create false true 2048 (fun _ => 1024) (nioSelectCreate sys 2048)
    let host : Host Unit (EventSelect Unit) Unit := EventSelect.host fun _ => true
    (ev.add host .read () ()).1 = true ∧
      ¬ ∀ n ∈ (ev.turns host (fun _ : Unit => scan) [.call (.add .read () ())]).fdsPassed,
        n < 1024 := by
  intro sys ev host
  refine ⟨by decide, fun hall => ?_⟩
  have hpassed : (1024 : Int) ∈
      (ev.turns host (fun _ : Unit => scan) [.call (.add .read () ())]).fdsPassed :=
    .inl ⟨⟨.add .read, (), fun _ => false⟩, List.mem_singleton_self _, rfl⟩
  exact lt_irrefl _ (hall 1024 hpassed)

end NioEvent

end Libnio.Event
