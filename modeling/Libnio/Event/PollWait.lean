import Libnio.Event.Tables
import Libnio.Event.Loop

/-!
# Event — the wait of the poll backend

`poll_wait`: a snapshot of the files is walked while the callbacks change the
table. A file that has left the table when its turn comes has no place to look
at, and the place of one that leaves in its own turn may be another one's when it
is looked at again: `pollWait_sound_iff` says when neither happens.
-/

namespace Libnio.Event

open NioEvent

variable {ι κ π : Type} [DecidableEq ι]

namespace Loop

section Defs

variable (host : Host ι κ π) (behave : Behaviour ι π)

/-- `if (.. && r_proc) r_proc(ev, fe);`, of either side. -/
def react (hit : Bool) (dir : Dir) (fe : ι) (proc : Option π) (s : Loop ι κ π) : Loop ι κ π :=
  match proc with
  | some proc => if hit then s.invoke host behave dir fe proc else s
  | none => s

end Defs

/-- What has happened from the first loop to the second. -/
def since (s s' : Loop ι κ π) : List (Act ι π) := s'.log.drop s.log.length

variable {host : Host ι κ π} {behave : Behaviour ι π}

theorem calls_log (s : Loop ι κ π) (cs : List (Call ι π)) :
    (cs.foldl (call host) s).log = s.log ++ cs.map .call := by
  induction cs generalizing s with
  | nil => exact (List.append_nil _).symm
  | cons c cs ih =>
      rw [List.foldl_cons, ih, Loop.call, List.map_cons, List.append_assoc]
      rfl

variable (host behave) in
/-- A callback is logged when it is called, and nothing but its calls after it. -/
theorem react_log (s : Loop ι κ π) (hit : Bool) (dir : Dir) (fe : ι) (proc : Option π) :
    ∃ acts, (s.react host behave hit dir fe proc).log = s.log ++ acts ∧
      ∀ d e p, .invoke d e p ∈ acts ↔ hit = true ∧ proc = some p ∧ d = dir ∧ e = fe := by
  cases proc with
  | none => exact ⟨[], (List.append_nil _).symm, fun d e p => by simp⟩
  | some proc =>
      cases hit with
      | false => exact ⟨[], (List.append_nil _).symm, fun d e p => by simp⟩
      | true =>
          refine ⟨.invoke dir fe proc :: (behave (s.log ++ [.invoke dir fe proc])).map .call, ?_,
            fun d e p => ?_⟩
          · simp only [react, if_true, invoke, calls_log, List.append_assoc, List.singleton_append]
          · simp only [List.mem_cons, List.mem_map, reduceCtorEq, and_false, exists_false, or_false,
              true_and, Act.invoke.injEq, Option.some.injEq]
            constructor
            · rintro ⟨rfl, rfl, rfl⟩
              exact ⟨rfl, rfl, rfl⟩
            · rintro ⟨rfl, rfl, rfl⟩
              exact ⟨rfl, rfl, rfl⟩

/-- What every call keeps, and every note in the log, a callback keeps. -/
theorem react_keeps {P : Loop ι κ π → Prop} (hcall : ∀ s c, P s → P (s.call host c))
    (hlog : ∀ s a, P s → P { s with log := s.log ++ [a] }) {s : Loop ι κ π} (h : P s) (hit : Bool)
    (dir : Dir) (fe : ι) (proc : Option π) : P (s.react host behave hit dir fe proc) := by
  have hcalls : ∀ (cs : List (Call ι π)) s, P s → P (cs.foldl (call host) s) := by
    intro cs
    induction cs with
    | nil => exact fun s h => h
    | cons c cs ih => exact fun s h => ih _ (hcall s c h)
  unfold react
  split
  · split
    · exact hcalls _ _ (hlog s _ h)
    · exact h
  · exact h

/-- A callback is so many calls. -/
theorem react_reaches {ω : Type} {answer : ω → NioEvent ι κ π → NioEvent ι κ π}
    {ev : NioEvent ι κ π} {s : Loop ι κ π} (h : Reaches host answer ev s.ev) (hit : Bool)
    (dir : Dir) (fe : ι) (proc : Option π) :
    Reaches host answer ev (s.react host behave hit dir fe proc).ev :=
  react_keeps (P := fun s => Reaches host answer ev s.ev) (fun _ c h => h.turn (.call c))
    (fun _ _ h => h) h hit dir fe proc

end Loop

/-- `ep->files[0..count)`, appended one by one to `ep->ready` -/
def EventPoll.ready (ep : EventPoll ι) : List ι := ep.files.entries

/-- `n` of `n = poll(ep->pfds, ep->count, timeout)`: the entries with something in
`revents`. -/
def EventPoll.answered (revents : Int → Revents) (ep : EventPoll ι) : Nat :=
  (List.range ep.files.count.toNat).countP fun i : Nat => decide (revents i ≠ .zero)

namespace Loop

section Wait

variable (host : Host ι (EventPoll ι) π) (behave : Behaviour ι π)

/-- `pfd->revents` of `pfd = &ep->pfds[fe->id]` against `POLLIN` or `POLLOUT`. -/
def pollHits (s : Loop ι (EventPoll ι) π) (id : Int) (dir : Dir) : Bool :=
  (s.ev.backend.pfds id).revents.hits dir

/-- The first half of the body of the loop of `poll_wait`. -/
def pollRead (s : Loop ι (EventPoll ι) π) (fe : ι) : Loop ι (EventPoll ι) π :=
  s.react host behave (s.pollHits (s.ev.backend.files.id fe) .read) .read fe
    ((s.ev.files fe).proc .read)

/-- The body of the loop of `poll_wait`: `pfd` and both procs are read before the
first of them is called. -/
def pollOne (s : Loop ι (EventPoll ι) π) (fe : ι) : Loop ι (EventPoll ι) π :=
  let id := s.ev.backend.files.id fe
  let wProc := (s.ev.files fe).proc .write
  let s := s.pollRead host behave fe
  s.react host behave (s.pollHits id .write) .write fe wProc

/-- The files that the loop of `poll_wait` goes through. -/
def pollReady (s : Loop ι (EventPoll ι) π) (revents : Int → Revents) : List ι :=
  if s.ev.backend.answered revents = 0 then [] else s.ev.backend.ready

/-- `poll_wait`, with what `poll` answers: `EINTR`, or `revents`. -/
def pollWait (s : Loop ι (EventPoll ι) π) :
    Option (Int → Revents) → Nat × Loop ι (EventPoll ι) π
  | none => (0, s)
  | some revents =>
      (s.ev.backend.answered revents,
        (s.pollReady revents).foldl (pollOne host behave)
          { s with ev := s.ev.reported revents })

end Wait

/-- **A round of `nio_event_wait` with poll is turns of the event.** -/
theorem pollWait_reaches (host : Host ι (EventPoll ι) π) (behave : Behaviour ι π)
    (s : Loop ι (EventPoll ι) π) (answer : Option (Int → Revents)) :
    Reaches host reported s.ev
      (pollWait host behave { s with ev := s.ev.prepare host } answer).2.ev := by
  have hprepare : Reaches host reported s.ev (s.ev.prepare host) :=
    (Reaches.refl s.ev).turn (ω := Int → Revents) .prepare
  cases answer with
  | none => exact hprepare
  | some revents =>
      have hwalk : ∀ (fes : List ι) (t : Loop ι (EventPoll ι) π),
          Reaches host reported s.ev t.ev →
          Reaches host reported s.ev (fes.foldl (pollOne host behave) t).ev := by
        intro fes
        induction fes with
        | nil => exact fun t h => h
        | cons fe fes ih =>
            intro t h
            exact ih _ (react_reaches (react_reaches h _ _ _ _) _ _ _ _)
      exact hwalk _ { s with ev := (s.ev.prepare host).reported revents }
        (hprepare.turn (.answer revents))

variable {espipe : Int → Bool} {behave : Behaviour ι π} {fd : ι → Int}
  {R : ι → Revents → Prop}

/-- The table and the masks agree. -/
def PollTabled (fd : ι → Int) (R : ι → Revents → Prop) (s : Loop ι (EventPoll ι) π) : Prop :=
  s.ev.Polled fd R ∧ s.ev.DelsHeld

theorem PollTabled.react (hR : ∀ fe, R fe .zero) (hinj : Function.Injective fd)
    {s : Loop ι (EventPoll ι) π} (h : s.PollTabled fd R) (hit : Bool) (dir : Dir) (fe : ι)
    (proc : Option π) :
    (s.react (EventPoll.host espipe) behave hit dir fe proc).PollTabled fd R :=
  react_keeps (P := PollTabled fd R)
    (fun _ c h => (polled_backed hR hinj espipe).apply h.1 h.2 c) (fun _ _ h => h) h hit dir fe proc

theorem PollTabled.pollOne (hR : ∀ fe, R fe .zero) (hinj : Function.Injective fd)
    {s : Loop ι (EventPoll ι) π} (h : s.PollTabled fd R) (fe : ι) :
    (s.pollOne (EventPoll.host espipe) behave fe).PollTabled fd R :=
  (h.react hR hinj _ _ _ _).react hR hinj _ _ _ _

omit [DecidableEq ι] in
theorem PollTabled.reported {s : Loop ι (EventPoll ι) π} (h : s.PollTabled fd R)
    {R' : ι → Revents → Prop} (revents : Int → Revents)
    (hr : ∀ fe ∈ s.ev.registered, R' fe (revents (s.ev.backend.files.id fe))) :
    PollTabled fd R' { s with ev := s.ev.reported revents } :=
  ⟨h.1.report revents hr, h.2⟩

/-! ## One file -/

/-- When the turn of `fe` comes: it is still registered, and when its own read
callback gives its place to another file with something to write, that is no
matter: `fe` has no write callback, or was reported for writing as well. -/
def PollStays (host : Host ι (EventPoll ι) π) (behave : Behaviour ι π) (r : Revents)
    (s : Loop ι (EventPoll ι) π) (fe : ι) : Prop :=
  (∃ dir, (s.ev.files fe).mask dir = true) ∧
    ∀ e, e ≠ fe → (s.pollRead host behave fe).ev.backend.files.id e = s.ev.backend.files.id fe →
      (s.pollRead host behave fe).pollHits (s.ev.backend.files.id fe) .write = true →
      (s.ev.files fe).proc .write ≠ none → r.hits .write = true

/-- The turn of `fe` looks at a place in the table, and calls its procs as was
reported of it. -/
def PollOwn (host : Host ι (EventPoll ι) π) (behave : Behaviour ι π) (r : Revents)
    (s : Loop ι (EventPoll ι) π) (fe : ι) : Prop :=
  (0 ≤ s.ev.backend.files.id fe ∧ s.ev.backend.files.id fe < s.ev.backend.files.count) ∧
    ∀ dir e proc, .invoke dir e proc ∈ s.since (s.pollOne host behave fe) →
      e = fe ∧ r.hits dir = true

/-- The callbacks of one turn. -/
theorem mem_since_pollOne (host : Host ι (EventPoll ι) π) (s : Loop ι (EventPoll ι) π) (fe : ι)
    (dir : Dir) (e : ι) (proc : π) :
    .invoke dir e proc ∈ s.since (s.pollOne host behave fe) ↔
      e = fe ∧
        ((dir = .read ∧ s.pollHits (s.ev.backend.files.id fe) .read = true ∧
            (s.ev.files fe).proc .read = some proc) ∨
          (dir = .write ∧
            (s.pollRead host behave fe).pollHits (s.ev.backend.files.id fe) .write = true ∧
            (s.ev.files fe).proc .write = some proc)) := by
  obtain ⟨a₁, h₁, hm₁⟩ := react_log host behave s
    (s.pollHits (s.ev.backend.files.id fe) .read) .read fe ((s.ev.files fe).proc .read)
  obtain ⟨a₂, h₂, hm₂⟩ := react_log host behave (s.pollRead host behave fe)
    ((s.pollRead host behave fe).pollHits (s.ev.backend.files.id fe) .write) .write fe
    ((s.ev.files fe).proc .write)
  have hlog : (s.pollOne host behave fe).log = s.log ++ (a₁ ++ a₂) := by
    rw [← List.append_assoc, ← h₁]
    exact h₂
  rw [since, hlog, List.drop_left, List.mem_append, hm₁, hm₂]
  constructor
  · rintro (⟨hh, hp, rfl, rfl⟩ | ⟨hh, hp, rfl, rfl⟩)
    · exact ⟨rfl, .inl ⟨rfl, hh, hp⟩⟩
    · exact ⟨rfl, .inr ⟨rfl, hh, hp⟩⟩
  · rintro ⟨rfl, ⟨rfl, hh, hp⟩ | ⟨rfl, hh, hp⟩⟩
    · exact .inl ⟨hh, hp, rfl, rfl⟩
    · exact .inr ⟨hh, hp, rfl, rfl⟩

/-- What is left in an entry in use was reported of its file, or nothing. -/
def Left (reported : ι → Revents) (fe : ι) (r : Revents) : Prop :=
  r = reported fe ∨ r = .zero

omit [DecidableEq ι] in
theorem Left.hits {reported : ι → Revents} {fe : ι} {r : Revents} (h : Left reported fe r)
    {dir : Dir} (hh : r.hits dir = true) : (reported fe).hits dir = true := by
  rcases h with rfl | rfl
  · exact hh
  · rw [Revents.hits_zero] at hh
    cases hh

theorem pollOwn_iff (hinj : Function.Injective fd) {reported : ι → Revents}
    {s : Loop ι (EventPoll ι) π} (h : s.PollTabled fd (Left reported)) (fe : ι) :
    PollOwn (EventPoll.host espipe) behave (reported fe) s fe ↔
      PollStays (EventPoll.host espipe) behave (reported fe) s fe := by
  have hpk := h.1.packs
  constructor
  · rintro ⟨⟨hid, -⟩, hown⟩
    refine ⟨hpk.id_nonneg.mp hid, fun e _ _ hh hproc => ?_⟩
    obtain ⟨proc, hp⟩ := Option.ne_none_iff_exists'.mp hproc
    exact (hown .write fe proc
      ((mem_since_pollOne _ s fe .write fe proc).mpr ⟨rfl, .inr ⟨rfl, hh, hp⟩⟩)).2
  · rintro ⟨hfe, hstay⟩
    obtain ⟨hid, hlt, -⟩ := hpk.placed fe hfe
    refine ⟨⟨hid, hlt⟩, fun dir e proc hm => ?_⟩
    obtain ⟨rfl, ⟨rfl, hh, -⟩ | ⟨rfl, hh, hp⟩⟩ := (mem_since_pollOne _ s fe dir e proc).mp hm
    · exact ⟨rfl, Left.hits (h.1.entry e hfe).2.2 hh⟩
    · refine ⟨rfl, ?_⟩
      -- What stands in the place of the file when the read callback is through.
      have h' : (s.pollRead (EventPoll.host espipe) behave e).PollTabled fd (Left reported) :=
        h.react (fun _ => .inr rfl) hinj _ _ _ _
      by_cases hc : (s.pollRead (EventPoll.host espipe) behave e).ev.backend.files.count
          ≤ s.ev.backend.files.id e
      · rw [pollHits, (h'.1.free _ hc).2, Revents.hits_zero] at hh
        cases hh
      · obtain ⟨g, hg, -, hgid⟩ := h'.1.packs.filled _ hid (not_le.mp hc)
        by_cases hge : g = e
        · subst hge
          have hent := (h'.1.entry g hg).2.2
          rw [hgid] at hent
          exact hent.hits hh
        · exact hstay g hge hgid hh (by rw [hp]; simp)

/-! ## The whole wait -/

variable (behave) in
/-- The log of a turn goes on from where it was. -/
theorem pollOne_log (host : Host ι (EventPoll ι) π) (s : Loop ι (EventPoll ι) π) (fe : ι) :
    (s.pollOne host behave fe).log = s.log ++ s.since (s.pollOne host behave fe) := by
  obtain ⟨a₁, h₁, -⟩ := react_log host behave s
    (s.pollHits (s.ev.backend.files.id fe) .read) .read fe ((s.ev.files fe).proc .read)
  obtain ⟨a₂, h₂, -⟩ := react_log host behave (s.pollRead host behave fe)
    ((s.pollRead host behave fe).pollHits (s.ev.backend.files.id fe) .write) .write fe
    ((s.ev.files fe).proc .write)
  have hlog : (s.pollOne host behave fe).log = s.log ++ (a₁ ++ a₂) := by
    rw [← List.append_assoc, ← h₁]
    exact h₂
  rw [since, hlog, List.drop_left]

/-- What happens in a walk happens in one of its turns. -/
theorem mem_since_foldl (host : Host ι (EventPoll ι) π) (s : Loop ι (EventPoll ι) π)
    (fes : List ι) :
    s.log <+: (fes.foldl (pollOne host behave) s).log ∧
      ∀ a, a ∈ s.since (fes.foldl (pollOne host behave) s) ↔
        ∃ pre fe post, fes = pre ++ fe :: post ∧
          a ∈ (pre.foldl (pollOne host behave) s).since
            ((pre.foldl (pollOne host behave) s).pollOne host behave fe) := by
  induction fes generalizing s with
  | nil =>
      refine ⟨List.prefix_rfl, fun a => ?_⟩
      simp [since]
  | cons f fes ih =>
      obtain ⟨⟨b, hb⟩, hih⟩ := ih (s.pollOne host behave f)
      have hlog := pollOne_log behave host s f
      have hrest : (s.pollOne host behave f).since
          (fes.foldl (pollOne host behave) (s.pollOne host behave f)) = b := by
        rw [since, ← hb, List.drop_left]
      have hall : (fes.foldl (pollOne host behave) (s.pollOne host behave f)).log
          = s.log ++ (s.since (s.pollOne host behave f) ++ b) := by
        rw [← hb, ← List.append_assoc, ← hlog]
      refine ⟨⟨_, hall.symm⟩, fun a => ?_⟩
      rw [List.foldl_cons, since, hall, List.drop_left, List.mem_append, ← hrest, hih]
      constructor
      · rintro (ha | ⟨pre, fe, post, rfl, ha⟩)
        · exact ⟨[], f, fes, rfl, ha⟩
        · exact ⟨f :: pre, fe, post, rfl, ha⟩
      · rintro ⟨pre, fe, post, hl, ha⟩
        cases pre with
        | nil =>
            obtain ⟨rfl, rfl⟩ := List.cons.inj hl
            exact .inl ha
        | cons g pre =>
            obtain ⟨rfl, rfl⟩ := List.cons.inj hl
            exact .inr ⟨pre, fe, post, rfl, ha⟩

theorem PollTabled.walk (hR : ∀ fe, R fe .zero) (hinj : Function.Injective fd)
    {s : Loop ι (EventPoll ι) π} (h : s.PollTabled fd R) (fes : List ι) :
    (fes.foldl (Loop.pollOne (EventPoll.host espipe) behave) s).PollTabled fd R := by
  induction fes generalizing s with
  | nil => exact h
  | cons fe fes ih => exact ih (h.pollOne hR hinj fe)

/-- **A wait goes by each file's own result exactly if every file stays.** The
place that each turn of `poll_wait` looks at is one of the table, and every
callback is called with its condition reported of that very file, if and only if
each file is still registered when its turn comes and none loses its place in its
own turn to another one that is ready for writing as it is not. -/
theorem pollWait_own_iff (hinj : Function.Injective fd) {s : Loop ι (EventPoll ι) π}
    (h : s.PollTabled fd fun _ _ => True) (revents : Int → Revents) :
    let host : Host ι (EventPoll ι) π := EventPoll.host espipe
    let reported fe := revents (s.ev.backend.files.id fe)
    let before (pre : List ι) :=
      pre.foldl (pollOne host behave) { s with ev := s.ev.reported revents }
    ((∀ pre fe post, s.pollReady revents = pre ++ fe :: post →
        0 ≤ (before pre).ev.backend.files.id fe ∧
          (before pre).ev.backend.files.id fe < (before pre).ev.backend.files.count) ∧
      ∀ dir fe proc, .invoke dir fe proc ∈ s.since (s.pollWait host behave (some revents)).2 →
        (reported fe).hits dir = true) ↔
    ∀ pre fe post, s.pollReady revents = pre ++ fe :: post →
      PollStays host behave (reported fe) (before pre) fe := by
  intro host reported before
  have h₀ : PollTabled fd (Left reported) { s with ev := s.ev.reported revents } :=
    h.reported revents fun fe _ => .inl rfl
  have hbefore : ∀ pre, (before pre).PollTabled fd (Left reported) := fun pre =>
    h₀.walk (fun _ => .inr rfl) hinj pre
  have hsince : ∀ a, a ∈ s.since (s.pollWait host behave (some revents)).2 ↔ _ :=
    (mem_since_foldl host { s with ev := s.ev.reported revents } (s.pollReady revents)).2
  constructor
  · rintro ⟨hid, hown⟩ pre fe post hl
    refine (pollOwn_iff hinj (hbefore pre) fe).mp ⟨hid pre fe post hl, fun dir e proc hm => ?_⟩
    have he := ((mem_since_pollOne host (before pre) fe dir e proc).mp hm).1
    subst he
    exact ⟨rfl, hown dir e proc ((hsince _).mpr ⟨pre, e, post, hl, hm⟩)⟩
  · intro hstay
    have hown :=
        fun pre fe post hl => (pollOwn_iff hinj (hbefore pre) fe).mpr (hstay pre fe post hl)
    refine ⟨fun pre fe post hl => (hown pre fe post hl).1, fun dir fe proc hm => ?_⟩
    obtain ⟨pre, f, post, hl, ha⟩ := (hsince _).mp hm
    obtain ⟨rfl, hh⟩ := (hown pre f post hl).2 dir fe proc ha
    exact hh

/-- Two files registered for reading, at the descriptors 3 and 4. -/
def twoReaders : Loop (Fin 2) (EventPoll (Fin 2)) Unit :=
  { ev := (create false true 16 (fun fe : Fin 2 => 3 + fe.val) (.create 16 fun _ => .unused)).turns
      (EventPoll.host fun _ => true) reported [.call (.add .read 0 ()), .call (.add .read 1 ())]
    log := [] }

theorem twoReaders_tabled :
    Function.Injective (fun fe : Fin 2 => (3 + fe.val : Int)) ∧
      twoReaders.PollTabled (fun fe : Fin 2 => (3 + fe.val : Int)) fun _ _ => True := by
  have hfd : Function.Injective (fun fe : Fin 2 => (3 + fe.val : Int)) := by
    intro a b h
    have h' : (3 : Int) + a.val = 3 + b.val := h
    omega
  refine ⟨hfd, polled_turns hfd 16 (fun fe => ?_) false true 16 (fun _ => .unused)
    (fun _ => true) [.call (.add .read 0 ()), .call (.add .read 1 ())]⟩
  constructor <;> omega

/-- Both are readable, and the first one's callback deletes the second one: the
place of the second is looked for at -1. -/
theorem pollWait_not_own :
    let host : Host (Fin 2) (EventPoll (Fin 2)) Unit := EventPoll.host fun _ => true
    let behave : Behaviour (Fin 2) Unit := fun _ => [.delReadwrite 1]
    let s := twoReaders
    let revents : Int → Revents := fun _ => ⟨true, false, false, false, false⟩
    let before (pre : List (Fin 2)) :=
      pre.foldl (pollOne host behave) { s with ev := s.ev.reported revents }
    s.pollReady revents = [0, 1] ∧ (before [0]).ev.backend.files.id 1 = -1 ∧
      ¬ ((∀ pre fe post, s.pollReady revents = pre ++ fe :: post →
          0 ≤ (before pre).ev.backend.files.id fe ∧
            (before pre).ev.backend.files.id fe < (before pre).ev.backend.files.count) ∧
        ∀ dir fe proc, .invoke dir fe proc ∈ s.since (s.pollWait host behave (some revents)).2 →
          (revents (s.ev.backend.files.id fe)).hits dir = true) := by
  intro host behave s revents before
  have hready : s.pollReady revents = [0, 1] := by decide +kernel
  have hid : (before [0]).ev.backend.files.id 1 = -1 := by decide +kernel
  refine ⟨hready, hid, fun hc => ?_⟩
  have := (hc.1 [0] 1 [] hready).1
  rw [hid] at this
  omega

/-- With callbacks that do nothing every file stays. -/
theorem pollWait_own_two :
    let host : Host (Fin 2) (EventPoll (Fin 2)) Unit := EventPoll.host fun _ => true
    let s := twoReaders
    let revents : Int → Revents := fun _ => ⟨true, false, false, false, false⟩
    let before (pre : List (Fin 2)) :=
      pre.foldl (pollOne host fun _ => []) { s with ev := s.ev.reported revents }
    ((∀ pre fe post, s.pollReady revents = pre ++ fe :: post →
        0 ≤ (before pre).ev.backend.files.id fe ∧
          (before pre).ev.backend.files.id fe < (before pre).ev.backend.files.count) ∧
      ∀ dir fe proc, .invoke dir fe proc ∈ s.since
          (s.pollWait host (fun _ => []) (some revents)).2 →
        (revents (s.ev.backend.files.id fe)).hits dir = true) ↔
    ∀ pre fe post, s.pollReady revents = pre ++ fe :: post →
      PollStays host (fun _ => []) (revents (s.ev.backend.files.id fe)) (before pre) fe :=
  pollWait_own_iff twoReaders_tabled.1 twoReaders_tabled.2 fun _ =>
      ⟨true, false, false, false, false⟩

end Loop

end Libnio.Event
