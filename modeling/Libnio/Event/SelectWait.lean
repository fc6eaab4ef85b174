import Libnio.Event.PollWait

/-!
# Event — the waits of select and poll

`select_event_wait`, and what it calls against what `poll_wait` calls when the
same descriptors are ready. The set for writing is not handed to `select`, so that
it comes back as it was: `dispatch_alike_iff` says when that makes no difference.
-/

namespace Libnio.Event

open NioEvent

variable {ι κ π : Type}

/-- A callback, not a call. -/
def Act.isInvoke : Act ι π → Bool
  | .invoke _ _ _ => true
  | .call _ => false

/-- A set that has been handed to `select`: of the descriptors below `nfds` those
that are ready. -/
def selectSet (nfds : Int) (ready set : Int → Bool) (d : Int) : Bool :=
  decide (0 ≤ d ∧ d < nfds) && set d && ready d

/-- The descriptors in a set. -/
def selectCount (nfds : Int) (set : Int → Bool) : Nat :=
  (List.range nfds.toNat).countP fun d : Nat => set d

/-- `poll` reports the requested conditions that hold, of each entry. -/
def EventPoll.conditions (ready : Dir → Int → Bool) (ep : EventPoll ι) (i : Int) : Revents :=
  { pollin := (ep.pfds i).events .read && ready .read (ep.pfds i).fd
    pollout := (ep.pfds i).events .write && ready .write (ep.pfds i).fd
    pollerr := false, pollhup := false, pollnval := false }

/-- `es->files[0..count)`, appended one by one to `es->ready` -/
def EventSelect.ready (es : EventSelect ι) : List ι := es.files.entries

variable [DecidableEq ι]

namespace Loop

section Wait

variable (host : Host ι (EventSelect ι) π) (behave : Behaviour ι π)

/-- The body of the loop of `select_event_wait`, with the sets that `select` was
called with; a descriptor in `xset` goes by the interest of the moment. -/
def selectOne (rset wset xset : Int → Bool) (s : Loop ι (EventSelect ι) π) (fe : ι) :
    Loop ι (EventSelect ι) π :=
  let fd := (s.ev.files fe).fd
  let rProc := (s.ev.files fe).proc .read
  let wProc := (s.ev.files fe).proc .write
  let s := s.react host behave (if xset fd then s.ev.backend.set .read fd else rset fd) .read fe
    rProc
  s.react host behave (if xset fd then s.ev.backend.set .write fd else wset fd) .write fe wProc

/-- `select_event_wait`, when `select` finds these descriptors ready, and these with
an exceptional condition. -/
def selectWait (s : Loop ι (EventSelect ι) π) (ready : Dir → Int → Bool) (except : Int → Bool) :
    Nat × Loop ι (EventSelect ι) π :=
  let (rset, wset, xset) := (s.ev.backend.set .read, s.ev.backend.set .write, s.ev.backend.xset)
  let s := { s with ev := s.ev.scan }
  let nfds := s.ev.backend.maxfd + 1
  let rset := selectSet nfds (ready .read) rset
  -- `0` stands for the set of writing in the call, and the copy of it is not changed.
  let xset := selectSet nfds except xset
  let n := selectCount nfds rset + selectCount nfds xset
  if n = 0 then (0, s)
  else (n, s.ev.backend.ready.foldl (selectOne host behave rset wset xset) s)

end Wait

/-- **A round of `nio_event_wait` with select is turns of the event.** -/
theorem selectWait_reaches (host : Host ι (EventSelect ι) π) (behave : Behaviour ι π)
    (s : Loop ι (EventSelect ι) π) (ready : Dir → Int → Bool) (except : Int → Bool) :
    Reaches host (fun _ : Unit => scan) s.ev
      (selectWait host behave { s with ev := s.ev.prepare host } ready except).2.ev := by
  have hscan : Reaches host (fun _ : Unit => scan) s.ev (s.ev.prepare host).scan :=
    ((Reaches.refl s.ev).turn .prepare).turn (.answer ())
  have hwalk : ∀ (rset wset xset : Int → Bool) (fes : List ι) (t : Loop ι (EventSelect ι) π),
      Reaches host (fun _ : Unit => scan) s.ev t.ev →
      Reaches host (fun _ : Unit => scan) s.ev
        (fes.foldl (selectOne host behave rset wset xset) t).ev := by
    intro rset wset xset fes
    induction fes with
    | nil => exact fun t h => h
    | cons fe fes ih =>
        intro t h
        exact ih _ (react_reaches (react_reaches h _ _ _ _) _ _ _ _)
  simp only [selectWait]
  split
  · exact hscan
  · exact hwalk _ _ _ _ _ hscan

/-! ## Callbacks that leave the event as it is -/

/-- The callbacks that have been called from the first loop to the second. -/
def invoked (s s' : Loop ι κ π) : List (Act ι π) := (s.since s').filter Act.isInvoke

/-- What is called of a file whose sides are hit as `hit` says. -/
def due (hit : Dir → Bool) (proc : Dir → Option π) (fe : ι) : List (Act ι π) :=
  (if hit .read then (proc .read).toList.map (.invoke .read fe) else []) ++
    (if hit .write then (proc .write).toList.map (.invoke .write fe) else [])

omit [DecidableEq ι] in
theorem mem_due {hit : Dir → Bool} {proc : Dir → Option π} {fe e : ι} {dir : Dir} {p : π} :
    .invoke dir e p ∈ due hit proc fe ↔ e = fe ∧ hit dir = true ∧ proc dir = some p := by
  have hside : ∀ d : Dir, .invoke dir e p ∈
      (if hit d then (proc d).toList.map (.invoke d fe : π → Act ι π) else []) ↔
        d = dir ∧ e = fe ∧ hit d = true ∧ proc d = some p := by
    intro d
    cases hh : hit d with
    | false => simp
    | true =>
        simp only [if_true, List.mem_map, Option.mem_toList, Act.invoke.injEq,
          true_and]
        constructor
        · rintro ⟨q, hq, rfl, rfl, rfl⟩
          exact ⟨rfl, rfl, hq⟩
        · rintro ⟨rfl, rfl, hq⟩
          exact ⟨p, hq, rfl, rfl, rfl⟩
  rw [due, List.mem_append, hside, hside]
  cases dir <;> simp

omit [DecidableEq ι] in
theorem nodup_due (hit : Dir → Bool) (proc : Dir → Option π) (fe : ι) :
    (due hit proc fe).Nodup := by
  have hside : ∀ d : Dir,
      (if hit d then (proc d).toList.map (.invoke d fe : π → Act ι π) else []).Nodup := by
    intro d
    split
    · cases proc d <;> simp
    · exact List.nodup_nil
  refine List.nodup_append'.mpr ⟨hside .read, hside .write, fun a ha hb => ?_⟩
  split at ha
  · split at hb
    · obtain ⟨p, -, rfl⟩ := List.mem_map.mp ha
      obtain ⟨q, -, hq⟩ := List.mem_map.mp hb
      cases hq
    · cases hb
  · cases ha

/-- No call of a callback changes the event. -/
def Inert (host : Host ι κ π) (behave : Behaviour ι π) (ev : NioEvent ι κ π) : Prop :=
  ∀ log, ∀ c ∈ behave log, ev.apply host c = ev

variable {host : Host ι κ π} {behave : Behaviour ι π}

theorem react_inert (s : Loop ι κ π) (hi : Inert host behave s.ev) (hit : Bool) (dir : Dir)
    (fe : ι) (proc : Option π) :
    (s.react host behave hit dir fe proc).ev = s.ev ∧
      ∃ acts, (s.react host behave hit dir fe proc).log = s.log ++ acts ∧
        acts.filter Act.isInvoke = if hit then proc.toList.map (.invoke dir fe) else [] := by
  have hcalls : ∀ (cs : List (Call ι π)) (s : Loop ι κ π), (∀ c ∈ cs, s.ev.apply host c = s.ev) →
      (cs.foldl (call host) s).ev = s.ev := by
    intro cs
    induction cs with
    | nil => exact fun s _ => rfl
    | cons c cs ih =>
        intro s h
        have hc : (s.call host c).ev = s.ev := h c List.mem_cons_self
        rw [List.foldl_cons, ih _ fun d hd => ?_, hc]
        rw [hc]
        exact h d (List.mem_cons_of_mem _ hd)
  cases proc with
  | none => exact ⟨rfl, [], (List.append_nil _).symm, by simp⟩
  | some proc =>
      cases hit with
      | false => exact ⟨rfl, [], (List.append_nil _).symm, by simp⟩
      | true =>
          refine ⟨hcalls _ { s with log := s.log ++ [.invoke dir fe proc] } (hi _),
            .invoke dir fe proc :: (behave (s.log ++ [.invoke dir fe proc])).map .call, ?_, ?_⟩
          · simp only [react, if_true, invoke, calls_log, List.append_assoc, List.singleton_append]
          · rw [List.filter_cons_of_pos rfl]
            have hnone : ∀ cs : List (Call ι π),
                (cs.map .call).filter (Act.isInvoke : Act ι π → Bool) = [] := by
              intro cs
              induction cs with
              | nil => rfl
              | cons c cs ih => exact ih
            rw [hnone]
            rfl

omit [DecidableEq ι] in
/-- A walk in which no callback changes the event: what is called is what each
turn finds at the start. -/
theorem invoked_walk {ev : NioEvent ι κ π} (s : Loop ι κ π) (one : Loop ι κ π → ι → Loop ι κ π)
    (calls : ι → List (Act ι π)) (fes : List ι)
    (hone : ∀ s, s.ev = ev → ∀ fe ∈ fes, (one s fe).ev = ev ∧
      ∃ acts, (one s fe).log = s.log ++ acts ∧ acts.filter Act.isInvoke = calls fe)
    (hs : s.ev = ev) :
    (∃ acts, (fes.foldl one s).log = s.log ++ acts) ∧
      s.invoked (fes.foldl one s) = fes.flatMap calls := by
  induction fes generalizing s with
  | nil => exact ⟨⟨[], (List.append_nil _).symm⟩, by simp [invoked, since]⟩
  | cons fe fes ih =>
      obtain ⟨hev, acts, hlog, hacts⟩ := hone s hs fe List.mem_cons_self
      obtain ⟨⟨rest, hrest⟩, hih⟩ := ih (one s fe)
        (fun s hs f hf => hone s hs f (List.mem_cons_of_mem _ hf)) hev
      have hall : (fes.foldl one (one s fe)).log = s.log ++ (acts ++ rest) := by
        rw [hrest, hlog, List.append_assoc]
      refine ⟨⟨_, hall⟩, ?_⟩
      rw [invoked, since, hrest, List.drop_left] at hih
      rw [List.foldl_cons, invoked, since, hall, List.drop_left, List.filter_append, hacts, hih,
        List.flatMap_cons]

/-- Both sides of a file, of an event that stays as it is. -/
theorem turn_inert {ev : NioEvent ι κ π} (hi : Inert host behave ev) {s : Loop ι κ π}
    (hs : s.ev = ev) (hit : Dir → Bool) (proc : Dir → Option π) (fe : ι) :
    let s₁ := s.react host behave (hit .read) .read fe (proc .read)
    let s₂ := s₁.react host behave (hit .write) .write fe (proc .write)
    s₁.ev = ev ∧ s₂.ev = ev ∧
      ∃ acts, s₂.log = s.log ++ acts ∧ acts.filter Act.isInvoke = due hit proc fe := by
  intro s₁ s₂
  obtain ⟨h₁, a₁, hl₁, hf₁⟩ :=
      react_inert s (by rw [hs]; exact hi) (hit .read) .read fe (proc .read)
  have he₁ : s₁.ev = ev := h₁.trans hs
  obtain ⟨h₂, a₂, hl₂, hf₂⟩ :=
      react_inert s₁ (by rw [he₁]; exact hi) (hit .write) .write fe (proc .write)
  refine ⟨he₁, h₂.trans he₁, a₁ ++ a₂, ?_, ?_⟩
  · rw [← List.append_assoc, ← hl₁]
    exact hl₂
  · rw [List.filter_append, hf₁, hf₂]
    rfl

/-! ## What each of them calls -/

/-- Side `dir` of `fe` is asked for and ready. -/
def wants (ev : NioEvent ι κ π) (ready : Dir → Int → Bool) (fe : ι) (dir : Dir) : Bool :=
  (ev.files fe).mask dir && ready dir (ev.files fe).fd

omit [DecidableEq ι] in
theorem wants_mask {ev : NioEvent ι κ π} {ready : Dir → Int → Bool} {fe : ι} {dir : Dir}
    (h : wants ev ready fe dir = true) : (ev.files fe).mask dir = true := by
  rw [wants, Bool.and_eq_true] at h
  exact h.1

variable {fd : ι → Int} {R : ι → Revents → Prop}

omit [DecidableEq ι] in
theorem conditions_hits {ev : NioEvent ι (EventPoll ι) π} (h : ev.Polled fd R)
    (ready : Dir → Int → Bool) {fe : ι} (hfe : fe ∈ ev.registered) (dir : Dir) :
    (ev.backend.conditions ready (ev.backend.files.id fe)).hits dir = wants ev ready fe dir := by
  obtain ⟨hfd, hev, -⟩ := h.entry fe hfe
  rw [EventPoll.conditions, hfd, hev, wants, h.fd_eq]
  cases dir <;> simp [Revents.hits]

omit [DecidableEq ι] in
/-- `poll` answers nothing exactly if nothing that is asked for is ready. -/
theorem answered_eq_zero {ev : NioEvent ι (EventPoll ι) π} (h : ev.Polled fd R)
    (ready : Dir → Int → Bool) :
    ev.backend.answered (ev.backend.conditions ready) = 0 ↔
      ¬ ∃ fe dir, wants ev ready fe dir = true := by
  rw [EventPoll.answered, List.countP_eq_zero]
  constructor
  · rintro hz ⟨fe, dir, hw⟩
    have hfe : fe ∈ ev.registered := ⟨dir, by rw [wants, Bool.and_eq_true] at hw; exact hw.1⟩
    obtain ⟨h₁, h₂, -⟩ := h.packs.placed fe hfe
    have hn := hz (ev.backend.files.id fe).toNat (List.mem_range.mpr (by omega))
    rw [Int.toNat_of_nonneg h₁] at hn
    have hr : ev.backend.conditions ready (ev.backend.files.id fe) = .zero := by simpa using hn
    rw [← conditions_hits h ready hfe, hr, Revents.hits_zero] at hw
    cases hw
  · intro hz i hi
    rw [List.mem_range] at hi
    obtain ⟨fe, hfe, -, hid⟩ := h.packs.filled i (by omega) (by omega)
    have hside : ∀ dir, (ev.backend.conditions ready i).hits dir = false := by
      intro dir
      rw [← hid, conditions_hits h ready hfe]
      by_contra hc
      exact hz ⟨fe, dir, by simpa using hc⟩
    have hr := hside .read
    have hw := hside .write
    simp only [EventPoll.conditions, Revents.hits, Bool.or_false] at hr hw
    simp [EventPoll.conditions, hr, hw, Revents.zero]

/-- What `poll_wait` calls. -/
theorem pollWait_invoked {host : Host ι (EventPoll ι) π} {behave : Behaviour ι π}
    {s : Loop ι (EventPoll ι) π}
    (h : s.ev.Polled fd R) (ready : Dir → Int → Bool)
    (hi : Inert host behave (s.ev.reported (s.ev.backend.conditions ready))) :
    s.invoked (s.pollWait host behave (some (s.ev.backend.conditions ready))).2
      = s.ev.backend.ready.flatMap fun fe => due (wants s.ev ready fe) (s.ev.files fe).proc fe := by
  let s₀ : Loop ι (EventPoll ι) π :=
    { s with ev := s.ev.reported (s.ev.backend.conditions ready) }
  have hwalk := invoked_walk s₀ (pollOne host behave)
    (fun fe => due (wants s.ev ready fe) (s.ev.files fe).proc fe)
    (s.pollReady (s.ev.backend.conditions ready)) (fun t ht fe hfe => ?_) rfl
  · refine hwalk.2.trans ?_
    unfold pollReady
    split
    · rename_i hz
      rw [answered_eq_zero h] at hz
      refine (List.flatMap_eq_nil_iff.mpr fun fe _ => ?_).symm
      have hnone : ∀ dir, wants s.ev ready fe dir = false := by
        intro dir
        by_contra hc
        exact hz ⟨fe, dir, by simpa using hc⟩
      simp [due, hnone]
    · rfl
  · have hreg : fe ∈ s.ev.registered := by
      unfold pollReady at hfe
      split at hfe
      · cases hfe
      · exact h.packs.mem_entries.mp hfe
    obtain ⟨h₁, h₂, -⟩ := h.packs.placed fe hreg
    have hhits : ∀ (u : Loop ι (EventPoll ι) π) dir,
        u.ev = s.ev.reported (s.ev.backend.conditions ready) →
        u.pollHits (s.ev.backend.files.id fe) dir = wants s.ev ready fe dir := by
      intro u dir hu
      rw [pollHits, hu, NioEvent.reported, setBackend_backend, EventPoll.report]
      simp only [if_pos (And.intro h₁ h₂)]
      exact conditions_hits h ready hreg dir
    have hid : t.ev.backend.files.id fe = s.ev.backend.files.id fe := by
      rw [ht]
      rfl
    have hproc : (t.ev.files fe).proc = (s.ev.files fe).proc := by
      rw [ht]
      rfl
    have hturn := turn_inert hi ht (wants s.ev ready fe) (s.ev.files fe).proc fe
    obtain ⟨he₁, he₂, hacts⟩ := hturn
    have hread : t.pollRead host behave fe
        = t.react host behave (wants s.ev ready fe .read) .read fe
            ((s.ev.files fe).proc .read) := by
      rw [pollRead, hid, hproc, hhits t .read ht]
    have hone : t.pollOne host behave fe
        = (t.react host behave (wants s.ev ready fe .read) .read fe
            ((s.ev.files fe).proc .read)).react host behave (wants s.ev ready fe .write) .write fe
              ((s.ev.files fe).proc .write) := by
      rw [pollOne, hread, hid, hproc, hhits _ .write he₁]
    rw [hone]
    exact ⟨he₂, hacts⟩

section Select

variable {host : Host ι (EventSelect ι) π} {s : Loop ι (EventSelect ι) π}

omit [DecidableEq ι] in
/-- What `select` is handed for reading comes back with what is asked for and ready. -/
theorem selectSet_read {ev : NioEvent ι (EventSelect ι) π} (h : ev.Selected fd)
    (ready : Dir → Int → Bool) (fe : ι) :
    selectSet (ev.scan.backend.maxfd + 1) (ready .read) (ev.backend.set .read) (fd fe)
      = wants ev ready fe .read := by
  rw [selectSet, h.set, wants, h.fd_eq]
  cases hm : (ev.files fe).mask .read with
  | false => simp
  | true =>
      have hreg : fe ∈ ev.scan.registered := by
        rw [mem_registered, scan_files]
        exact ⟨.read, hm⟩
      have hmax := h.scan.maxfd fe hreg
      have hfits := (h.fits fe).1
      have hin : decide (0 ≤ fd fe ∧ fd fe < ev.scan.backend.maxfd + 1) = true := by
        rw [decide_eq_true_eq]
        omega
      rw [hin, Bool.true_and]

omit [DecidableEq ι] in
/-- Without exceptional conditions `select` counts what is there to read. -/
theorem selectCount_eq_zero {ev : NioEvent ι (EventSelect ι) π} (h : ev.Selected fd)
    (ready : Dir → Int → Bool) :
    selectCount (ev.scan.backend.maxfd + 1)
        (selectSet (ev.scan.backend.maxfd + 1) (ready .read) (ev.backend.set .read)) +
      selectCount (ev.scan.backend.maxfd + 1)
        (selectSet (ev.scan.backend.maxfd + 1) (fun _ => false) ev.backend.xset) = 0 ↔
      ¬ ∃ fe, wants ev ready fe .read = true := by
  have hx : selectCount (ev.scan.backend.maxfd + 1)
      (selectSet (ev.scan.backend.maxfd + 1) (fun _ => false) ev.backend.xset) = 0 := by
    rw [selectCount, List.countP_eq_zero]
    intro d _
    simp [selectSet]
  rw [hx, Nat.add_zero, selectCount, List.countP_eq_zero]
  constructor
  · rintro hz ⟨fe, hw⟩
    have hset := selectSet_read h ready fe
    rw [hw] at hset
    have hin : 0 ≤ fd fe ∧ fd fe < ev.scan.backend.maxfd + 1 := by
      rw [selectSet, Bool.and_eq_true, Bool.and_eq_true, decide_eq_true_eq] at hset
      exact hset.1.1
    refine hz (fd fe).toNat (List.mem_range.mpr (by omega)) ?_
    rw [Int.toNat_of_nonneg hin.1]
    exact hset
  · intro hz d _ hd
    have hset : ev.backend.set .read (d : Int) = true := by
      rw [selectSet, Bool.and_eq_true, Bool.and_eq_true] at hd
      exact hd.1.2
    obtain ⟨fe, hfe⟩ := h.owned d (.inl ⟨.read, hset⟩)
    rw [← hfe, selectSet_read h] at hd
    exact hz ⟨fe, hd⟩

variable (host behave) in
/-- Nothing is called when there is nothing to read. -/
theorem selectWait_idle (h : s.ev.Selected fd) {ready : Dir → Int → Bool}
    (hn : ¬ ∃ fe, wants s.ev ready fe .read = true) :
    (s.selectWait host behave ready fun _ => false).1 = 0 ∧
      s.invoked (s.selectWait host behave ready fun _ => false).2 = [] := by
  have hz := (selectCount_eq_zero h ready).mpr hn
  simp only [selectWait, if_pos hz]
  exact ⟨trivial, by simp [invoked, since]⟩

/-- The sides of a file that are called once `select` has returned: reading where it is
asked for and ready, writing where it is asked for. -/
def marked (ev : NioEvent ι κ π) (ready : Dir → Int → Bool) (fe : ι) : Dir → Bool
  | .read => wants ev ready fe .read
  | .write => (ev.files fe).mask .write

omit [DecidableEq ι] in
theorem marked_mask {ev : NioEvent ι κ π} {ready : Dir → Int → Bool} {fe : ι} {dir : Dir}
    (h : marked ev ready fe dir = true) : (ev.files fe).mask dir = true := by
  cases dir with
  | read => exact wants_mask h
  | write => exact h

/-- When there is, writing is called for whatever asks for it. -/
theorem selectWait_invoked (h : s.ev.Selected fd) {ready : Dir → Int → Bool}
    (hi : Inert host behave s.ev.scan) (hr : ∃ fe, wants s.ev ready fe .read = true) :
    (s.selectWait host behave ready fun _ => false).1 ≠ 0 ∧
      s.invoked (s.selectWait host behave ready fun _ => false).2
        = s.ev.backend.ready.flatMap fun fe =>
          due (marked s.ev ready fe) (s.ev.files fe).proc fe := by
  have hz := fun hc => (selectCount_eq_zero h ready).mp hc hr
  simp only [selectWait, if_neg hz]
  refine ⟨hz, ?_⟩
  have hready : s.ev.scan.backend.ready = s.ev.backend.ready := by
    unfold NioEvent.scan
    split <;> rfl
  rw [hready]
  refine (invoked_walk { s with ev := s.ev.scan } _ _ _
    (fun t ht fe _ => ?_) rfl).2
  have hfd : (t.ev.files fe).fd = fd fe := by rw [ht, scan_files, h.fd_eq]
  have hproc : (t.ev.files fe).proc = (s.ev.files fe).proc := by rw [ht, scan_files]
  have hx : selectSet (s.ev.scan.backend.maxfd + 1) (fun _ => false) s.ev.backend.xset (fd fe)
      = false := by simp [selectSet]
  obtain ⟨-, he₂, hacts⟩ := turn_inert hi ht (marked s.ev ready fe) (s.ev.files fe).proc fe
  simp only [selectOne, hfd, hproc, hx, Bool.false_eq_true, if_false, selectSet_read h, h.set]
  exact ⟨he₂, hacts⟩

end Select

/-! ## One against the other -/

section Table

variable {t : Slots.Dense ι} {S : Set ι} {hit : ι → Dir → Bool} {proc : ι → Dir → Option π}

omit [DecidableEq ι] in
theorem mem_flatMap_due (ht : t.Packs S) {dir : Dir} {fe : ι} {p : π} :
    .invoke dir fe p ∈ t.entries.flatMap (fun fe => due (hit fe) (proc fe) fe) ↔
      fe ∈ S ∧ hit fe dir = true ∧ proc fe dir = some p := by
  rw [List.mem_flatMap]
  constructor
  · rintro ⟨f, hf, hm⟩
    obtain ⟨rfl, h⟩ := mem_due.mp hm
    exact ⟨ht.mem_entries.mp hf, h⟩
  · rintro ⟨hfe, h⟩
    exact ⟨fe, ht.mem_entries.mpr hfe, mem_due.mpr ⟨rfl, h⟩⟩

omit [DecidableEq ι] in
theorem call_notMem_due (hit : Dir → Bool) (proc : Dir → Option π) (fe : ι) (c : Call ι π) :
    .call c ∉ due hit proc fe := by
  intro h
  rw [due, List.mem_append] at h
  rcases h with h | h
  · split at h
    · obtain ⟨p, -, hp⟩ := List.mem_map.mp h
      cases hp
    · cases h
  · split at h
    · obtain ⟨p, -, hp⟩ := List.mem_map.mp h
      cases hp
    · cases h

omit [DecidableEq ι] in
/-- No file is called twice for the same side. -/
theorem nodup_flatMap_due (ht : t.Packs S) :
    (t.entries.flatMap fun fe => due (hit fe) (proc fe) fe).Nodup := by
  refine List.nodup_flatMap.mpr ⟨fun fe _ => nodup_due _ _ fe, ?_⟩
  refine ht.nodup_entries.imp fun {e f} hef a he hf => ?_
  cases a with
  | call c => exact call_notMem_due _ _ _ c he
  | invoke dir g p => exact hef ((mem_due.mp he).1.symm.trans (mem_due.mp hf).1)

end Table

/-- The two waits, of which `np` and `ns` are what they return and `ip` and `is` the
callbacks they call: the same, and those of the files that want them; and both
return zero without a call exactly if there is none. -/
structure Alike (want : ι → Dir → Bool) (proc : ι → Dir → Option π) (np ns : Nat)
    (ip is : List (Act ι π)) : Prop where
  same : is.Perm ip
  poll : ∀ dir fe p, .invoke dir fe p ∈ ip ↔ want fe dir = true ∧ proc fe dir = some p
  select : ∀ dir fe p, .invoke dir fe p ∈ is ↔ want fe dir = true ∧ proc fe dir = some p
  idle : ((np = 0 ∧ ip = []) ∧ ns = 0 ∧ is = []) ↔ ¬ ∃ fe dir, want fe dir = true

section Waits

variable {hostP : Host ι (EventPoll ι) π} {hostS : Host ι (EventSelect ι) π}
  {behaveP behaveS : Behaviour ι π} {sp : Loop ι (EventPoll ι) π} {ss : Loop ι (EventSelect ι) π}
  {ready : Dir → Int → Bool}

/-- What `poll_wait` calls. -/
theorem mem_pollWait (hp : sp.ev.Polled fd R)
    (hi : Inert hostP behaveP (sp.ev.reported (sp.ev.backend.conditions ready))) (dir : Dir)
    (fe : ι) (p : π) :
    .invoke dir fe p ∈ sp.invoked
        (sp.pollWait hostP behaveP (some (sp.ev.backend.conditions ready))).2 ↔
      wants sp.ev ready fe dir = true ∧ (sp.ev.files fe).proc dir = some p := by
  rw [pollWait_invoked hp ready hi, EventPoll.ready, mem_flatMap_due hp.packs]
  exact ⟨fun h => h.2, fun h => ⟨⟨dir, wants_mask h.1⟩, h⟩⟩

/-- What `select_event_wait` calls, when there is something to read. -/
theorem mem_selectWait (hs : ss.ev.Selected fd) (hi : Inert hostS behaveS ss.ev.scan)
    (hr : ∃ fe, wants ss.ev ready fe .read = true) (dir : Dir) (fe : ι) (p : π) :
    .invoke dir fe p ∈ ss.invoked (ss.selectWait hostS behaveS ready fun _ => false).2 ↔
      marked ss.ev ready fe dir = true ∧ (ss.ev.files fe).proc dir = some p := by
  rw [(selectWait_invoked hs hi hr).2, EventSelect.ready, mem_flatMap_due hs.packs]
  exact ⟨fun h => h.2, fun h => ⟨⟨dir, marked_mask h.1⟩, h⟩⟩

/-- The same files are registered with both, each with a callback for what it asks for. -/
structure Twins (sp : Loop ι (EventPoll ι) π) (ss : Loop ι (EventSelect ι) π) : Prop where
  mask : ∀ fe, (ss.ev.files fe).mask = (sp.ev.files fe).mask
  proc : ∀ fe, (ss.ev.files fe).proc = (sp.ev.files fe).proc
  held : ∀ fe dir, (sp.ev.files fe).mask dir = true → (sp.ev.files fe).proc dir ≠ none

omit [DecidableEq ι] in
theorem Twins.wants_eq (ht : Twins sp ss) (hp : sp.ev.Polled fd R) (hs : ss.ev.Selected fd)
    (fe : ι) (dir : Dir) : wants ss.ev ready fe dir = wants sp.ev ready fe dir := by
  rw [wants, wants, ht.mask, hs.fd_eq, hp.fd_eq]

omit [DecidableEq ι] in
theorem wants_iff (hp : sp.ev.Polled fd R) (fe : ι) (dir : Dir) :
    wants sp.ev ready fe dir = true ↔
      (sp.ev.files fe).mask dir = true ∧ ready dir (fd fe) = true := by
  rw [wants, Bool.and_eq_true, hp.fd_eq]

/-- **With something to read** `select` returns, and writing goes by the masks. -/
theorem alike_of_reading (hp : sp.ev.Polled fd R) (hs : ss.ev.Selected fd) (ht : Twins sp ss)
    (hip : Inert hostP behaveP (sp.ev.reported (sp.ev.backend.conditions ready)))
    (his : Inert hostS behaveS ss.ev.scan) (hr : ∃ fe, wants ss.ev ready fe .read = true) :
    let rp := sp.pollWait hostP behaveP (some (sp.ev.backend.conditions ready))
    let rs := ss.selectWait hostS behaveS ready fun _ => false
    Alike (wants sp.ev ready) (fun fe => (sp.ev.files fe).proc) rp.1 rs.1
        (sp.invoked rp.2) (ss.invoked rs.2) ↔
      ∀ fe, (sp.ev.files fe).mask .write = true → ready .write (fd fe) = true := by
  intro rp rs
  have hmemP := mem_pollWait hp hip
  have hmemS := mem_selectWait hs his hr
  constructor
  · intro h fe hm
    obtain ⟨p, hpr⟩ := Option.ne_none_iff_exists'.mp (ht.held fe .write hm)
    have hmarked : marked ss.ev ready fe .write = true := by
      rw [marked, ht.mask, hm]
    have hcalled := (h.select .write fe p).mp
      ((hmemS .write fe p).mpr ⟨hmarked, (congrFun (ht.proc fe) .write).trans hpr⟩)
    exact ((wants_iff hp fe .write).mp hcalled.1).2
  · intro h
    have hmarked : ∀ fe dir, marked ss.ev ready fe dir = wants sp.ev ready fe dir := by
      intro fe dir
      cases dir with
      | read => exact ht.wants_eq hp hs fe .read
      | write =>
          rw [marked, ht.mask, Bool.eq_iff_iff, wants_iff hp]
          exact ⟨fun hm => ⟨hm, h fe hm⟩, fun hw => hw.1⟩
    have hmemS' : ∀ dir fe p, .invoke dir fe p ∈ ss.invoked rs.2 ↔
        wants sp.ev ready fe dir = true ∧ (sp.ev.files fe).proc dir = some p := by
      intro dir fe p
      rw [hmemS, hmarked, ht.proc]
    have hidle : ∃ fe dir, wants sp.ev ready fe dir = true := by
      obtain ⟨e, he⟩ := hr
      exact ⟨e, .read, (ht.wants_eq hp hs e .read).symm.trans he⟩
    refine ⟨(List.perm_ext_iff_of_nodup ?_ ?_).mpr fun a => ?_, hmemP, hmemS',
      fun hz => absurd hz.2.1 (selectWait_invoked hs his hr).1, fun hn => absurd hidle hn⟩
    · rw [(selectWait_invoked hs his hr).2]
      exact nodup_flatMap_due hs.packs
    · rw [pollWait_invoked hp ready hip]
      exact nodup_flatMap_due hp.packs
    · cases a with
      | invoke dir fe p => rw [hmemS', hmemP]
      | call c =>
          rw [invoked, invoked, List.mem_filter, List.mem_filter]
          simp [Act.isInvoke]

/-- **With nothing to read** `select` returns zero, and nothing is called. -/
theorem alike_of_idle (hp : sp.ev.Polled fd R) (hs : ss.ev.Selected fd) (ht : Twins sp ss)
    (hip : Inert hostP behaveP (sp.ev.reported (sp.ev.backend.conditions ready)))
    (hr : ¬ ∃ fe, wants ss.ev ready fe .read = true) :
    let rp := sp.pollWait hostP behaveP (some (sp.ev.backend.conditions ready))
    let rs := ss.selectWait hostS behaveS ready fun _ => false
    Alike (wants sp.ev ready) (fun fe => (sp.ev.files fe).proc) rp.1 rs.1
        (sp.invoked rp.2) (ss.invoked rs.2) ↔
      ∀ fe, (sp.ev.files fe).mask .write = true → ¬ ready .write (fd fe) = true := by
  intro rp rs
  have hmemP := mem_pollWait hp hip
  obtain ⟨hns, hinS⟩ := selectWait_idle behaveS hostS hs hr
  constructor
  · intro h fe hm hready
    obtain ⟨p, hpr⟩ := Option.ne_none_iff_exists'.mp (ht.held fe .write hm)
    have hcalled := (h.select .write fe p).mpr ⟨(wants_iff hp fe .write).mpr ⟨hm, hready⟩, hpr⟩
    rw [hinS] at hcalled
    cases hcalled
  · intro h
    have hnone : ¬ ∃ fe dir, wants sp.ev ready fe dir = true := by
      rintro ⟨fe, dir, hw⟩
      cases dir with
      | read => exact hr ⟨fe, (ht.wants_eq hp hs fe .read).trans hw⟩
      | write =>
          obtain ⟨hm, hready⟩ := (wants_iff hp fe .write).mp hw
          exact h fe hm hready
    have hinP : sp.invoked rp.2 = [] := by
      rw [pollWait_invoked hp ready hip, List.flatMap_eq_nil_iff]
      intro fe _
      have hno : ∀ dir, wants sp.ev ready fe dir = false := by
        intro dir
        by_contra hc
        exact hnone ⟨fe, dir, by simpa using hc⟩
      simp [due, hno]
    refine ⟨by rw [hinS, hinP], hmemP, fun dir fe p => ?_, fun _ => hnone,
      fun _ => ⟨⟨(answered_eq_zero hp ready).mpr hnone, hinP⟩, hns, hinS⟩⟩
    rw [hinS]
    exact ⟨fun hc => absurd hc List.not_mem_nil, fun hc => absurd ⟨fe, dir, hc.1⟩ hnone⟩

end Waits

/-- **Select and poll dispatch alike exactly if writing follows reading.** With the
same files registered and the same descriptors ready, both waits call the same
callbacks if and only if each descriptor registered for writing is ready for it
just when some descriptor registered for reading is ready. -/
theorem dispatch_alike_iff {hostP : Host ι (EventPoll ι) π} {hostS : Host ι (EventSelect ι) π}
    {behaveP behaveS : Behaviour ι π} {sp : Loop ι (EventPoll ι) π}
    {ss : Loop ι (EventSelect ι) π} (hp : sp.ev.Polled fd R) (hs : ss.ev.Selected fd)
    (hmask : ∀ fe, (ss.ev.files fe).mask = (sp.ev.files fe).mask)
    (hproc : ∀ fe, (ss.ev.files fe).proc = (sp.ev.files fe).proc)
    (hmatch : ∀ fe dir, (sp.ev.files fe).mask dir = true → (sp.ev.files fe).proc dir ≠ none)
    (ready : Dir → Int → Bool)
    (hip : Inert hostP behaveP (sp.ev.reported (sp.ev.backend.conditions ready)))
    (his : Inert hostS behaveS ss.ev.scan) :
    let rp := sp.pollWait hostP behaveP (some (sp.ev.backend.conditions ready))
    let rs := ss.selectWait hostS behaveS ready fun _ => false
    Alike (wants sp.ev ready) (fun fe => (sp.ev.files fe).proc) rp.1 rs.1
        (sp.invoked rp.2) (ss.invoked rs.2) ↔
      ∀ fe, (sp.ev.files fe).mask .write = true →
        (ready .write (fd fe) = true ↔
          ∃ e, (sp.ev.files e).mask .read = true ∧ ready .read (fd e) = true) := by
  intro rp rs
  have ht : Twins sp ss := ⟨hmask, hproc, hmatch⟩
  have hread : (∃ fe, wants ss.ev ready fe .read = true) ↔
      ∃ e, (sp.ev.files e).mask .read = true ∧ ready .read (fd e) = true :=
    exists_congr fun fe => by rw [ht.wants_eq hp hs, wants_iff hp]
  by_cases hr : ∃ fe, wants ss.ev ready fe .read = true
  · refine (alike_of_reading hp hs ht hip his hr).trans ?_
    simp only [hread.mp hr, iff_true]
  · refine (alike_of_idle hp hs ht hip hr).trans ?_
    simp only [mt hread.mpr hr, iff_false]

/-- One file, at the descriptor 3, that is registered for writing only. -/
def onePolled : Loop Unit (EventPoll Unit) Unit :=
  { ev := (create false true 16 (fun _ => 3) (.create 16 fun _ => .unused)).turns
      (EventPoll.host fun _ => true) reported [.call (.add .write () ())]
    log := [] }

def oneSelected : Loop Unit (EventSelect Unit) Unit :=
  { ev := (create false true 16 (fun _ => 3) (.create 16)).turns
      (EventSelect.host fun _ => true) (fun _ : Unit => scan) [.call (.add .write () ())]
    log := [] }

/-- The descriptor is writable: `poll_wait` calls for writing, and `select` waits. -/
theorem dispatch_not_alike :
    let ready : Dir → Int → Bool := fun dir d => decide (dir = .write ∧ d = 3)
    let rp := onePolled.pollWait (EventPoll.host fun _ => true) (fun _ => [])
      (some (onePolled.ev.backend.conditions ready))
    let rs := oneSelected.selectWait (EventSelect.host fun _ => true) (fun _ => []) ready
      fun _ => false
    (rp.1 = 1 ∧ onePolled.invoked rp.2 = [.invoke .write () ()]) ∧
      (rs.1 = 0 ∧ oneSelected.invoked rs.2 = []) ∧
      ¬ Alike (wants onePolled.ev ready) (fun fe => (onePolled.ev.files fe).proc) rp.1 rs.1
        (onePolled.invoked rp.2) (oneSelected.invoked rs.2) := by
  intro ready rp rs
  have hp : rp.1 = 1 ∧ onePolled.invoked rp.2 = [.invoke .write () ()] := by decide +kernel
  have hs : rs.1 = 0 ∧ oneSelected.invoked rs.2 = [] := by decide +kernel
  refine ⟨hp, hs, fun h => ?_⟩
  have hsame := h.same
  rw [hp.2, hs.2] at hsame
  exact absurd hsame.length_eq (by simp)

/-- Three files at the descriptors 3, 4 and 5, for both sides, reading and writing. -/
def threeCalls : List (Call (Fin 3) Unit) :=
  [.add .read 0 (), .add .write 0 (), .add .read 1 (), .add .write 2 ()]

def threePolled : Loop (Fin 3) (EventPoll (Fin 3)) Unit :=
  { ev := (create false true 16 (fun fe => 3 + fe.val) (.create 16 fun _ => .unused)).turns
      (EventPoll.host fun _ => true) reported (threeCalls.map .call)
    log := [] }

def threeSelected : Loop (Fin 3) (EventSelect (Fin 3)) Unit :=
  { ev := (create false true 16 (fun fe => 3 + fe.val) (.create 16)).turns
      (EventSelect.host fun _ => true) (fun _ : Unit => scan) (threeCalls.map .call)
    log := [] }

/-- With something to read and both writers ready they are alike; with one of the two
not ready they are not. -/
theorem dispatch_alike_three :
    let poll ready := threePolled.pollWait (EventPoll.host fun _ => true) (fun _ => [])
      (some (threePolled.ev.backend.conditions ready))
    let select ready := threeSelected.selectWait (EventSelect.host fun _ => true) (fun _ => [])
      ready fun _ => false
    let alike ready := Alike (wants threePolled.ev ready) (fun fe => (threePolled.ev.files fe).proc)
      (poll ready).1 (select ready).1 (threePolled.invoked (poll ready).2)
      (threeSelected.invoked (select ready).2)
    let ready : Dir → Int → Bool := fun dir d => d ≠ 4 || dir = .write
    let unready : Dir → Int → Bool := fun _ d => d = 3
    (threePolled.invoked (poll ready).2
        = [.invoke .read 0 (), .invoke .write 0 (), .invoke .write 2 ()] ∧ alike ready) ∧
      threePolled.invoked (poll unready).2 = [.invoke .read 0 (), .invoke .write 0 ()] ∧
      ¬ alike unready := by
  intro poll select alike ready unready
  have hfd : Function.Injective fun fe : Fin 3 => (3 : Int) + fe.val := by
    intro x y h
    have h' : (3 : Int) + x.val = 3 + y.val := h
    omega
  have hfits : ∀ fe : Fin 3, (0 : Int) ≤ 3 + fe.val ∧ (3 : Int) + fe.val < 16 := by
    intro fe
    omega
  have hiff := fun ready => dispatch_alike_iff
    (polled_turns hfd 16 hfits false true 16 (fun _ => .unused) (fun _ => true)
      (threeCalls.map .call)).1
    (selected_turns hfd hfits false true 16 (fun _ => true) (threeCalls.map .call)).1
    (show ∀ fe, (threeSelected.ev.files fe).mask = (threePolled.ev.files fe).mask from
      fun fe => funext fun dir => by cases dir <;> revert fe <;> decide +kernel)
    (fun fe => funext fun dir => by cases dir <;> revert fe <;> decide +kernel)
    (fun fe dir => by cases dir <;> revert fe <;> decide +kernel) ready
    (show Inert (EventPoll.host fun _ => true) (fun _ => []) _ from fun _ _ hc => nomatch hc)
    (show Inert (EventSelect.host fun _ => true) (fun _ => []) _ from fun _ _ hc => nomatch hc)
  exact ⟨⟨by decide +kernel, (hiff ready).mpr (by decide +kernel)⟩, by decide +kernel,
    fun h => absurd ((hiff unready).mp h) (by decide +kernel)⟩

end Loop

end Libnio.Event
