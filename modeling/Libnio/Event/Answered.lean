import Libnio.Event.Backends
import Libnio.Event.OneShot
import Libnio.Event.Rearm

/-!
# Event — what is reported is answered

From the calls of a program through the table of epoll and the kernel to its
callbacks: a wait calls each side of a file once at most, only what was asked for
and is ready, and all of that, unless a callback of what was reported before it
deletes it.
-/

namespace Libnio.Event

open NioEvent

variable {ι κ π : Type} [DecidableEq ι]

/-! ## A batch -/

namespace History

variable {accepts : ι → Bool} {behave : Behaviour ι π} {log : List (Act ι π)}

theorem countP_calls (dir : Dir) (fe : ι) (cs : List (Call ι π)) :
    (cs.map Act.call).countP (invokes dir fe) = 0 := by
  rw [List.countP_eq_zero]
  intro a ha
  obtain ⟨c, -, rfl⟩ := List.mem_map.mp ha
  simp [invokes]

/-- One side of an event. -/
theorem dispatch_acts (behave : Behaviour ι π) (ee : EpollEvent ι) (d : Dir) (f : ι)
    (proc : Option π) (log : List (Act ι π)) :
    ∃ acts, dispatch behave ee d f proc log = log ++ acts ∧ ∀ dir fe,
      acts.countP (invokes dir fe)
        = if (f = fe ∧ d = dir) ∧ ee.hits d = true ∧ proc.isSome = true then 1 else 0 := by
  cases proc with
  | none => exact ⟨[], (List.append_nil _).symm, fun dir fe => by simp⟩
  | some proc =>
      cases hh : ee.hits d with
      | false =>
          refine ⟨[], ?_, fun dir fe => by simp⟩
          simp [dispatch, hh]
      | true =>
          refine ⟨.invoke d f proc :: (behave (log ++ [.invoke d f proc])).map .call, ?_,
            fun dir fe => ?_⟩
          · simp [dispatch, hh]
          · rw [List.countP_cons, countP_calls]
            simp [invokes]

/-- An event: both procs are those at its turn. -/
theorem entry_acts (behave : Behaviour ι π) {ee : EpollEvent ι} {f : ι} (hp : ee.ptr = some f)
    (log : List (Act ι π)) :
    ∃ acts, entry accepts behave log ee = log ++ acts ∧ ∀ dir fe,
      acts.countP (invokes dir fe)
        = if f = fe ∧ ee.hits dir = true ∧ (held accepts dir f log).isSome = true then 1
          else 0 := by
  obtain ⟨a, ha, hca⟩ := dispatch_acts behave ee .read f (held accepts .read f log) log
  obtain ⟨b, hb, hcb⟩ := dispatch_acts behave ee .write f (held accepts .write f log) (log ++ a)
  refine ⟨a ++ b, ?_, fun dir fe => ?_⟩
  · simp only [entry, hp, ha, hb, List.append_assoc]
  · rw [List.countP_append, hca, hcb]
    cases dir <;> simp

/-- What is in place stays there until it is deleted. -/
theorem held_of_acts {dir : Dir} {fe : ι} {acts : List (Act ι π)}
    (h : held accepts dir fe log ≠ none) (hdel : .call (.del dir fe) ∉ acts) :
    held accepts dir fe (log ++ acts) ≠ none := by
  induction acts generalizing log with
  | nil => rwa [List.append_nil]
  | cons a acts ih =>
      rw [← List.singleton_append, ← List.append_assoc]
      refine ih ?_ fun hc => hdel (List.mem_cons_of_mem _ hc)
      rw [held, List.foldl_append, ← held]
      cases a with
      | invoke d f proc => exact h
      | call c =>
          cases c with
          | add d f proc =>
              rw [List.foldl_cons, List.foldl_nil, heldStep]
              split
              · exact Option.some_ne_none proc
              · exact h
          | del d f =>
              rw [List.foldl_cons, List.foldl_nil, heldStep, if_neg]
              · exact h
              · rintro ⟨rfl, rfl⟩
                exact hdel List.mem_cons_self
          | delReadwrite f => exact h

/-- A side that is asked for has a proc. -/
theorem held_of_wanted {dir : Dir} {fe : ι} (h : wanted accepts dir fe log = true) :
    held accepts dir fe log ≠ none := by
  induction log using List.reverseRecOn with
  | nil => cases h
  | append_singleton log a ih =>
      rw [wanted_snoc] at h
      rw [held, List.foldl_append, ← held, List.foldl_cons, List.foldl_nil]
      cases a with
      | invoke d f proc => exact ih h
      | call c =>
          cases c with
          | add d f proc =>
              rw [wantedStep] at h
              rw [heldStep]
              split
              · exact Option.some_ne_none proc
              · rename_i hc
                rw [if_neg hc] at h
                exact ih h
          | del d f =>
              rw [wantedStep] at h
              rw [heldStep]
              split
              · rename_i hc
                rw [if_pos hc] at h
                cases h
              · rename_i hc
                rw [if_neg hc] at h
                exact ih h
          | delReadwrite f =>
              rw [wantedStep] at h
              split at h
              · cases h
              · exact ih h

/-- What a batch makes happen after `log`. -/
structure Serves (batch : List (EpollEvent ι)) (acts : List (Act ι π)) : Prop where
  once : ∀ dir fe, acts.countP (invokes dir fe) ≤ 1
  reported : ∀ dir fe, 0 < acts.countP (invokes dir fe) →
    ∃ ee ∈ batch, ee.ptr = some fe ∧ ee.hits dir = true

theorem Serves.countP_eq_zero {batch : List (EpollEvent ι)} {acts : List (Act ι π)}
    (h : Serves batch acts) {fe : ι} (hfe : ∀ ee ∈ batch, ee.ptr ≠ some fe) (dir : Dir) :
    acts.countP (invokes dir fe) = 0 := by
  by_contra hc
  obtain ⟨ee, he, hp, -⟩ := h.reported dir fe (Nat.pos_of_ne_zero hc)
  exact hfe ee he hp

/-- **A batch in which each file comes once** is served. -/
theorem wait_serves (accepts : ι → Bool) (behave : Behaviour ι π) {batch : List (EpollEvent ι)}
    (hn : (batch.map EpollEvent.ptr).Nodup) (hptr : ∀ ee ∈ batch, ∃ fe, ee.ptr = some fe)
    (log : List (Act ι π)) :
    ∃ acts, wait accepts behave log batch = log ++ acts ∧ Serves batch acts := by
  induction batch generalizing log with
  | nil =>
      refine ⟨[], (List.append_nil _).symm, fun _ _ => Nat.zero_le 1, fun _ _ hc => ?_⟩
      cases hc
  | cons ee batch ih =>
      obtain ⟨f, hf⟩ := hptr ee List.mem_cons_self
      rw [List.map_cons, List.nodup_cons] at hn
      obtain ⟨a, ha, hca⟩ := @entry_acts _ _ _ accepts behave ee f hf log
      obtain ⟨b, hb, hs⟩ := ih hn.2 (fun e he => hptr e (List.mem_cons_of_mem _ he)) (log ++ a)
      -- the rest of the batch is about other files
      have hother : ∀ e ∈ batch, e.ptr ≠ some f := by
        intro e he hc
        exact hn.1 (List.mem_map.mpr ⟨e, he, hc.trans hf.symm⟩)
      have hcount : ∀ dir fe, (a ++ b).countP (invokes dir fe)
          = if f = fe then (if ee.hits dir = true ∧ (held accepts dir f log).isSome = true
            then 1 else 0) else b.countP (invokes dir fe) := by
        intro dir fe
        rw [List.countP_append, hca]
        by_cases hfe : f = fe
        · subst hfe
          simp [hs.countP_eq_zero hother]
        · simp [hfe]
      refine ⟨a ++ b, ?_, fun dir fe => ?_, fun dir fe h => ?_⟩
      · rw [wait, List.foldl_cons, ha, ← List.append_assoc, ← hb]
        rfl
      · rw [hcount]
        split
        · split
          · exact Nat.le_refl 1
          · exact Nat.zero_le 1
        · exact hs.once dir fe
      · rw [hcount] at h
        split at h
        · rename_i hfe
          split at h
          · rename_i hc
            exact ⟨ee, List.mem_cons_self, hfe ▸ hf, hc.1⟩
          · cases h
        · obtain ⟨e, he, hp, hh⟩ := hs.reported dir fe h
          exact ⟨e, List.mem_cons_of_mem _ he, hp, hh⟩

/-- **A file has its turn** behind what was reported before it: its procs are called if
they are in place then. -/
theorem wait_answers (accepts : ι → Bool) (behave : Behaviour ι π)
    {pre post : List (EpollEvent ι)} {ee : EpollEvent ι} {fe : ι}
    (hn : ((pre ++ ee :: post).map EpollEvent.ptr).Nodup)
    (hptr : ∀ e ∈ pre ++ ee :: post, ∃ f, e.ptr = some f) (hp : ee.ptr = some fe)
    (log : List (Act ι π)) :
    ∃ before after, wait accepts behave log pre = log ++ before ∧
      wait accepts behave log (pre ++ ee :: post) = log ++ (before ++ after) ∧
      (∀ dir, before.countP (invokes dir fe) = 0) ∧
      ∀ dir, ee.hits dir = true → held accepts dir fe log ≠ none →
        (before ++ after).countP (invokes dir fe) = 1 ∨ .call (.del dir fe) ∈ before := by
  rw [List.map_append, List.map_cons, List.nodup_append] at hn
  obtain ⟨hnpre, hnpost, hapart⟩ := hn
  have hother : ∀ e ∈ pre, e.ptr ≠ some fe := fun e he hc =>
    hapart e.ptr (List.mem_map_of_mem he) _ List.mem_cons_self (hc.trans hp.symm)
  obtain ⟨before, hbefore, hs⟩ :=
    wait_serves accepts behave hnpre (fun e he => hptr e (List.mem_append_left _ he)) log
  obtain ⟨turn, hturn, hcount⟩ := @entry_acts _ _ _ accepts behave ee fe hp (log ++ before)
  obtain ⟨rest, hrest, hsrest⟩ := wait_serves accepts behave (List.nodup_cons.mp hnpost).2
    (fun e he => hptr e (List.mem_append_right _ (List.mem_cons_of_mem _ he)))
    (log ++ before ++ turn)
  have hnone := hs.countP_eq_zero hother
  have hlater : ∀ e ∈ post, e.ptr ≠ some fe := fun e he hc =>
    (List.nodup_cons.mp hnpost).1 (List.mem_map.mpr ⟨e, he, hc.trans hp.symm⟩)
  refine ⟨before, turn ++ rest, hbefore, ?_, hnone, fun dir hh hheld => ?_⟩
  · have hsplit : wait accepts behave log (pre ++ ee :: post)
        = wait accepts behave (entry accepts behave (wait accepts behave log pre) ee) post :=
      List.foldl_append
    rw [hsplit, hbefore, hturn, hrest]
    simp only [List.append_assoc]
  · by_cases hdel : .call (.del dir fe) ∈ before
    · exact .inr hdel
    · have hstill := held_of_acts hheld hdel
      left
      rw [List.countP_append, List.countP_append, hnone, hsrest.countP_eq_zero hlater, hcount,
        if_pos ⟨rfl, hh, Option.isSome_iff_ne_none.mpr hstill⟩]

end History

/-! ## A round of the kernel -/

/-- `EPOLLIN`, `EPOLLOUT` -/
def Ready.side (r : Ready) : Dir → Bool
  | .read => r.epollin
  | .write => r.epollout

/-- What is reported of a side: that it is ready, if it was asked for, and an error in
any case. -/
def Ready.hits (r : Ready) (asked : Dir → Bool) (dir : Dir) : Bool :=
  (r.side dir && asked dir) || r.epollerr || r.epollhup

omit [DecidableEq ι] in
theorem EpollItem.hits_revents (item : EpollItem ι) (r : Ready) (dir : Dir) :
    (item.revents r).hits dir = r.hits item.interest.covers dir := by
  cases dir <;> rfl

omit [DecidableEq ι] in
/-- Round after round in the same list of reports. -/
theorem epollWait_append (xs ys : List (Int × Ready)) (k : EpollSet ι) :
    (epollWait (xs ++ ys) k).1 = (epollWait xs k).1 ++ (epollWait ys (epollWait xs k).2).1 := by
  induction xs generalizing k with
  | nil => rfl
  | cons x xs ih =>
      rw [List.cons_append, epollWait, epollWait, List.append_assoc]
      exact congrArg _ (ih _)

omit [DecidableEq ι] in
theorem epollWait_other {xs : List (Int × Ready)} {d : Int} (hd : d ∉ xs.map Prod.fst)
    (k : EpollSet ι) : (epollWait xs k).2 d = k d := by
  induction xs generalizing k with
  | nil => rfl
  | cons x xs ih =>
      obtain ⟨hx, hxs⟩ := not_or.mp fun h => hd (List.mem_cons.mpr h)
      exact (ih hxs _).trans (epollTake_other hx x.2 k)

omit [DecidableEq ι] in
/-- What is ready and armed is reported, behind what comes before it in the list. -/
theorem epollWait_of_fires {pre post : List (Int × Ready)} {d : Int} {r : Ready}
    (hn : ((pre ++ (d, r) :: post).map Prod.fst).Nodup) {k : EpollSet ι} {item : EpollItem ι}
    (hk : k d = some item) (hf : item.fires r = true) :
    ∃ rest, (epollWait (pre ++ (d, r) :: post) k).1
      = (epollWait pre k).1 ++ item.revents r :: rest := by
  have hd : d ∉ pre.map Prod.fst := by
    rw [List.map_append, List.map_cons, List.nodup_append] at hn
    exact fun hc => hn.2.2 d hc d List.mem_cons_self rfl
  have hkd := (epollWait_other hd k).trans hk
  rw [epollWait_append, epollWait, epollTake, hkd]
  simp only [hf, if_true]
  exact ⟨_, rfl⟩

/-! ## Without one-shot -/

namespace NioEvent

/-- Every registration is armed, and stays so. -/
structure Repeats (ev : NioEvent ι (EventEpoll (EpollSet ι)) π) : Prop where
  oneshot : ev.oneshot = false
  item : ∀ d item, ev.backend.kernel d = some item →
    item.armed = true ∧ item.interest.oneshot = false

variable {espipe : Int → Bool}

omit [DecidableEq ι] in
theorem repeats_ctl {op : EpollOp} {fd : Int} {ee : EpollInterest ι} {k k' : EpollSet ι}
    (h : epollCtl op fd ee k = some k') (ho : ee.oneshot = false)
    (hk : ∀ d item, k d = some item → item.armed = true ∧ item.interest.oneshot = false) :
    ∀ d item, k' d = some item → item.armed = true ∧ item.interest.oneshot = false := by
  intro d item hd
  by_cases hfd : d = fd
  · subst hfd
    rcases epollCtl_self h with hnone | hsome
    · rw [hnone] at hd
      cases hd
    · rw [hsome] at hd
      cases hd
      exact ⟨rfl, ho⟩
  · rw [epollCtl_other hfd h] at hd
    exact hk d item hd

theorem repeats_backed :
    Backed (EventEpoll.host epollCtl espipe : Host ι (EventEpoll (EpollSet ι)) π) Repeats where
  unasked := by
    intro ev ev' h hu
    refine ⟨hu.oneshot.trans h.oneshot, ?_⟩
    rw [hu.backend]
    exact h.item
  add := by
    intro ev h dir fe
    refine ⟨h.oneshot, ?_⟩
    cases dir
    all_goals
      simp only [oper, EventEpoll.host, EventEpoll.addRead, EventEpoll.addWrite]
      split
      · rename_i hk
        exact repeats_ctl hk (by first | exact h.oneshot | rfl) h.item
      · exact h.item
  del := by
    intro ev h dir fe hm
    refine ⟨h.oneshot, ?_⟩
    cases dir
    all_goals
      simp only [oper, EventEpoll.host, EventEpoll.delRead, EventEpoll.delWrite]
      split
      · rename_i hk
        exact repeats_ctl hk (by simp [h.oneshot]) h.item
      · exact h.item
  delReadwrite := by
    intro ev h op fe hop hm
    cases hop
    refine ⟨h.oneshot, ?_⟩
    simp only [oper, EventEpoll.delReadwrite]
    split
    · rename_i hk
      exact repeats_ctl hk rfl h.item
    · exact h.item
  fflush := fun h => h
  other := fun hd oneshot k fe file => host_del_other hd oneshot k fe file

omit [DecidableEq ι] in
theorem Repeats.epollWait {ev : NioEvent ι (EventEpoll (EpollSet ι)) π} (h : ev.Repeats)
    (ready : List (Int × Ready)) :
    (ev.setBackend fun ep =>
      { ep with kernel := (Event.epollWait ready ep.kernel).2 }).Repeats := by
  refine ⟨h.oneshot, fun d item hd => ?_⟩
  have hd : (Event.epollWait ready ev.backend.kernel).2 d = some item := hd
  rw [epollWait_item] at hd
  obtain ⟨item', hk, rfl⟩ := Option.map_eq_some_iff.mp hd
  obtain ⟨ha, ho⟩ := h.item d item' hk
  split
  · exact ⟨by simp [EpollItem.spend, ho], ho⟩
  · exact ⟨ha, ho⟩

variable {fd : ι → Int}

omit [DecidableEq ι] in
/-- A registration is of a file, and asks for its mask. -/
theorem Mirrors.asks {ev : NioEvent ι (EventEpoll (EpollSet ι)) π}
    (h : ev.Mirrors EpollSet.table (fun _ _ => True) fd) {d : Int} {item : EpollItem ι}
    (hk : ev.backend.kernel d = some item) :
    fd item.interest.ptr = d ∧ item.interest.covers = (ev.files item.interest.ptr).mask := by
  have ht : EpollSet.table ev.backend.kernel d = some item.interest := by
    rw [EpollSet.table, hk]
    rfl
  obtain ⟨fe, rfl⟩ := h.owned d (by rw [ht]; rfl)
  have hl := h.listed fe
  rw [ht] at hl
  obtain ⟨-, hin, hout, hptr⟩ := hl
  subst hptr
  refine ⟨rfl, funext fun dir => ?_⟩
  cases dir with
  | read => exact hin
  | write => exact hout

omit [DecidableEq ι] in
/-- What is in a mask is registered. -/
theorem Mirrors.registered {ev : NioEvent ι (EventEpoll (EpollSet ι)) π}
    (h : ev.Mirrors EpollSet.table (fun _ _ => True) fd) {fe : ι} {dir : Dir}
    (hm : (ev.files fe).mask dir = true) :
    ∃ item, ev.backend.kernel (fd fe) = some item ∧ item.interest.ptr = fe := by
  have hs := (h.listed fe).present dir hm
  have hl := h.listed fe
  rw [EpollSet.table] at hs hl
  cases hk : ev.backend.kernel (fd fe) with
  | none =>
      rw [hk] at hs
      cases hs
  | some item =>
      rw [hk] at hl
      exact ⟨item, rfl, hl.2.2.2⟩

omit [DecidableEq ι] in
/-- What is in a batch is ready, and its file has something in its mask. -/
theorem Mirrors.of_reported {ev : NioEvent ι (EventEpoll (EpollSet ι)) π}
    (h : ev.Mirrors EpollSet.table (fun _ _ => True) fd) (ready : Readiness) {ee : EpollEvent ι}
    (he : ee ∈ (Event.epollWait ready.ready ev.backend.kernel).1) {fe : ι}
    (hp : ee.ptr = some fe) {dir : Dir} (hh : ee.hits dir = true) :
    ∃ r, (fd fe, r) ∈ ready.ready ∧ r.hits (ev.files fe).mask dir = true ∧
      ∃ d, (ev.files fe).mask d = true := by
  obtain ⟨d, r, item, hmem, hk, -, rfl⟩ := mem_epollWait ready.nodup he
  obtain rfl : item.interest.ptr = fe := Option.some.inj hp
  obtain ⟨hfd, hcov⟩ := h.asks hk
  rw [EpollItem.hits_revents, hcov] at hh
  obtain ⟨fe', d', hp', hm⟩ := h.shown.reported ready.nodup he
  obtain rfl : item.interest.ptr = fe' := Option.some.inj hp'
  exact ⟨r, hfd ▸ hmem, hh, d', hm⟩

omit [DecidableEq ι] in
/-- What is ready and in a mask is in the batch, behind what is reported before it. -/
theorem Repeats.reports {ev : NioEvent ι (EventEpoll (EpollSet ι)) π} (hr : ev.Repeats)
    (h : ev.Mirrors EpollSet.table (fun _ _ => True) fd) {pre post : List (Int × Ready)}
    {fe : ι} {dir : Dir} {r : Ready} (hn : ((pre ++ (fd fe, r) :: post).map Prod.fst).Nodup)
    (hm : (ev.files fe).mask dir = true) (hh : r.hits (ev.files fe).mask dir = true) :
    ∃ ee rest, (Event.epollWait (pre ++ (fd fe, r) :: post) ev.backend.kernel).1
        = (Event.epollWait pre ev.backend.kernel).1 ++ ee :: rest ∧
      ee.ptr = some fe ∧ ee.hits dir = true := by
  obtain ⟨item, hk, rfl⟩ := h.registered hm
  have hrev : (item.revents r).hits dir = true := by
    rw [EpollItem.hits_revents, (h.asks hk).2]
    exact hh
  have hf : item.fires r = true := by
    rw [EpollItem.fires, (hr.item _ _ hk).1]
    cases dir with
    | read => rw [hrev, Bool.true_or, Bool.true_and]
    | write => rw [hrev, Bool.or_true, Bool.true_and]
  obtain ⟨rest, hwait⟩ := epollWait_of_fires hn hk hf
  exact ⟨_, rest, hwait, rfl, hrev⟩

end NioEvent

/-! ## A wait -/

namespace Backend

open History NioEvent

variable {fd : ι → Int}

/-- The procs of a run are those of its history. -/
theorem follows_run (espipe : Int → Bool) (behave : Behaviour ι π) (oneshot direct : Bool)
    (setsize : Int) (rounds : List (Round ι π Readiness)) :
    ((epoll espipe).run behave (.start oneshot direct setsize fd ⟨fun _ => none, 0⟩)
      rounds).Follows (EventEpoll.host epollCtl espipe)
        fun fe => decide (fd fe < setsize) && espipe (fd fe) :=
  epoll_plain.run_induct (P := fun s => s.Follows _ _) (fun _ c h => h.call c)
    (fun _ dir fe proc h => h.invoke dir fe proc) (fun _ h => h.prepare)
    (fun _ ready h => h.fetch ready) (Loop.follows_start ..) rounds

omit [DecidableEq ι] in
theorem repeats_create (direct : Bool) (setsize : Int) :
    (create false direct setsize fd ⟨fun _ => none, 0⟩ :
      NioEvent ι (EventEpoll (EpollSet ι)) π).Repeats :=
  ⟨rfl, fun _ _ h => nomatch h⟩

/-- Without one-shot a registration stays armed, whatever is called and reported. -/
theorem repeats_run (espipe : Int → Bool) (behave : Behaviour ι π) (direct : Bool) (setsize : Int)
    (rounds : List (Round ι π Readiness)) :
    Repeats (((epoll espipe).run behave (.start false direct setsize fd ⟨fun _ => none, 0⟩)
      rounds).ev.prepare (EventEpoll.host epollCtl espipe)) := by
  have hp : (epoll espipe : Backend ι _ π Readiness).Plain := epoll_plain
  obtain ⟨hr, hh⟩ := hp.keeps_run behave repeats_backed
    (fun ready _ h => h.epollWait ready.ready)
    (s := .start false direct setsize fd ⟨fun _ => none, 0⟩)
    (repeats_create direct setsize) (delsHeld_create false direct setsize fd _) rounds
  exact (repeats_backed.prepare hr hh).1

/-- **What is reported is answered.** From whatever state a run has come to, a wait calls
the callback of a side once at most, and only if its descriptor is ready for it, or in
error, and something of its file is asked for by the calls up to then. If the event is
not one-shot, it calls that of every side that is asked for and reported, except where
the side is deleted before its turn: by the callbacks of the reports before its own,
which do what they would do if no others had come. -/
theorem reports_answered (hfd : Function.Injective fd) (espipe : Int → Bool)
    (behave : Behaviour ι π) (oneshot direct : Bool) (setsize : Int)
    (rounds : List (Round ι π Readiness)) (ready : Readiness) :
    let b : Backend ι _ π Readiness := epoll espipe
    let s := b.run behave (.start oneshot direct setsize fd ⟨fun _ => none, 0⟩) rounds
    let asked fe dir := wanted (fun fe => decide (fd fe < setsize) && espipe (fd fe)) dir fe s.log
    ∃ acts, (b.round behave s (.wait ready)).log = s.log ++ acts ∧ ∀ fe dir,
      acts.countP (invokes dir fe) ≤ 1 ∧
      (0 < acts.countP (invokes dir fe) →
        ∃ r, (fd fe, r) ∈ ready.ready ∧ r.hits (asked fe) dir = true ∧ ∃ d, asked fe d = true) ∧
      (oneshot = false → asked fe dir = true → ∀ (earlier : Readiness) r later,
        ready.ready = earlier.ready ++ (fd fe, r) :: later → r.hits (asked fe) dir = true →
          ∃ before after, (b.round behave s (.wait earlier)).log = s.log ++ before ∧
            acts = before ++ after ∧ (∀ d, before.countP (invokes d fe) = 0) ∧
            (acts.countP (invokes dir fe) = 1 ∨ .call (.del dir fe) ∈ before)) := by
  intro b s asked
  have hj : (create oneshot direct setsize fd ⟨fun _ => none, 0⟩ : NioEvent ι _ π).Mirrors
      EpollSet.table (fun _ _ => True) fd := mirrors_create oneshot direct setsize rfl trivial
  have hs : Tied _ _ _ s := ((epoll_ties hfd).tied_start hj).run epoll_plain (epoll_ties hfd) rounds
  have hm := (hs.prepare (epoll_ties hfd)).ties
  have hmask : ∀ fe, ((s.ev.prepare b.host).files fe).mask = asked fe := fun fe =>
    funext fun dir => hs.mask_eq (epoll_ties hfd) fe dir
  have hf : s.Follows _ _ := follows_run espipe behave oneshot direct setsize rounds
  have hptr : ∀ ee ∈ (Event.epollWait ready.ready (s.ev.prepare b.host).backend.kernel).1,
      ∃ fe, ee.ptr = some fe := by
    intro ee he
    obtain ⟨fe, -, hp, -⟩ := hm.shown.reported ready.nodup he
    exact ⟨fe, hp⟩
  have hnodup : ((Event.epollWait ready.ready (s.ev.prepare b.host).backend.kernel).1.map
      EpollEvent.ptr).Nodup := nodup_epollWait ready.nodup fun d item hk => (hm.asks hk).1
  obtain ⟨acts, hlog, hserves⟩ := wait_serves
    (fun fe => decide (fd fe < setsize) && espipe (fd fe)) behave hnodup hptr s.log
  refine ⟨acts, ((hf.poll ready).2).trans hlog, fun fe dir => ⟨hserves.once dir fe, ?_, ?_⟩⟩
  · intro hc
    obtain ⟨ee, he, hp, hh⟩ := hserves.reported dir fe hc
    have hr := hm.of_reported ready he hp hh
    rwa [hmask] at hr
  · rintro rfl hasked earlier r later hready hh
    have hn := ready.nodup
    rw [hready] at hn hnodup hptr hlog
    rw [← hmask] at hasked hh
    have hrepeats : (s.ev.prepare b.host).Repeats :=
      repeats_run espipe behave direct setsize rounds
    obtain ⟨ee, rest, hbatch, hp, hhit⟩ := hrepeats.reports hm hn hasked hh
    rw [hmask] at hasked
    rw [hbatch] at hnodup hptr hlog
    obtain ⟨before, after, hbefore, hall, hnone, hturn⟩ :=
      wait_answers (fun fe => decide (fd fe < setsize) && espipe (fd fe)) behave hnodup hptr hp
        s.log
    obtain rfl : acts = before ++ after := List.append_cancel_left (hlog.symm.trans hall)
    exact ⟨before, after, ((hf.poll earlier).2).trans hbefore, rfl, hnone,
      hturn dir hhit (held_of_wanted hasked)⟩

/-- Of three files that are ready the first deletes the second, before its turn, and the
third deletes itself. -/
theorem reports_answered_three :
    let fd : Fin 3 → Int := fun fe => 3 + fe.val
    let behave : Behaviour (Fin 3) Unit := fun log =>
      if .invoke .read 2 () ∈ log then [.del .read 2] else [.del .read 1]
    let b : Backend (Fin 3) _ Unit Readiness := epoll fun _ => true
    let s := b.run behave (.start false false 16 fd ⟨fun _ => none, 0⟩)
      [.call (.add .read 0 ()), .call (.add .read 1 ()), .call (.add .read 2 ())]
    let acts := [.invoke .read 0 (), .call (.del .read 1), .invoke .read 2 (),
      .call (.del .read 2)]
    (b.round behave s (.wait
        ⟨[(3, .only .read), (4, .only .read), (5, .only .read)], by decide⟩)).log = s.log ++ acts ∧
      acts.countP (invokes .read 2) = 1 ∧
      ∃ before after, acts = before ++ after ∧ .call (.del .read 1) ∈ before ∧
        ∀ d, before.countP (invokes d 1) = 0 := by
  intro fd behave b s acts
  have hfd : Function.Injective fd := by
    intro x y h
    have h' : (3 : Int) + x.val = 3 + y.val := h
    omega
  obtain ⟨acts', hlog, h⟩ := reports_answered hfd (fun _ => true) behave false false 16
    [.call (.add .read 0 ()), .call (.add .read 1 ()), .call (.add .read 2 ())]
    ⟨[(3, .only .read), (4, .only .read), (5, .only .read)], by decide⟩
  have hacts : (b.round behave s (.wait
      ⟨[(3, .only .read), (4, .only .read), (5, .only .read)], by decide⟩)).log
        = s.log ++ acts := by
    decide +kernel
  obtain rfl : acts' = acts := List.append_cancel_left (hlog.symm.trans hacts)
  obtain ⟨before, after, hbefore, heq, -, hturn⟩ := (h 2 .read).2.2 rfl (by decide +kernel)
    ⟨[(3, .only .read), (4, .only .read)], by decide⟩ (.only .read) [] rfl rfl
  have hearlier : (b.round behave s (.wait ⟨[(3, .only .read), (4, .only .read)], by decide⟩)).log
      = s.log ++ [.invoke .read 0 (), .call (.del .read 1)] := by
    decide +kernel
  obtain rfl : before = [.invoke .read 0 (), .call (.del .read 1)] :=
    List.append_cancel_left (hbefore.symm.trans hearlier)
  obtain ⟨before₁, after₁, -, heq₁, hnone₁, hturn₁⟩ := (h 1 .read).2.2 rfl (by decide +kernel)
    ⟨[(3, .only .read)], by decide⟩ (.only .read) [(5, .only .read)] rfl rfl
  exact ⟨hacts, hturn.resolve_right (by simp), before₁, after₁, heq₁,
    hturn₁.resolve_left (by decide), hnone₁⟩

end Backend

end Libnio.Event
