import Libnio.Event.Kernel
import Libnio.Event.History

/-!
# Event — one shot

How often a callback is called between two registrations of its side, when the
kernel disarms what carries `EPOLLONESHOT`. Both sides of a file share one
registration, which every add and every delete of either side writes and arms
as a whole, and the one of adding for writing does not ask for
`EPOLLONESHOT`: `one_shot` says what it takes.
-/

namespace Libnio.Event

variable {ι κ π : Type} [DecidableEq ι]

namespace History

/-- What one act makes of whether side `dir` of `fe` has been called. -/
def calledStep (dir : Dir) (fe : ι) (called : Bool) : Act ι π → Bool
  | .call (.add d f _) => if f = fe ∧ d = dir then false else called
  | .call (.del _ _) => called
  | .call (.delReadwrite _) => called
  | .invoke d f _ => if f = fe ∧ d = dir then true else called

/-- Side `dir` of `fe` has been called since it was last added. -/
def called (dir : Dir) (fe : ι) (log : List (Act ι π)) : Bool :=
  log.foldl (calledStep dir fe) false

/-- No side is called twice between two calls that add it. -/
def OneShot (log : List (Act ι π)) : Prop :=
  ∀ pre dir fe proc post, log = pre ++ .invoke dir fe proc :: post → called dir fe pre = false

theorem oneShot_iff_everyInvoke {log : List (Act ι π)} :
    OneShot log ↔ EveryInvoke (fun dir fe pre => called dir fe pre = false) log :=
  Iff.rfl

theorem called_snoc (dir : Dir) (fe : ι) (log : List (Act ι π)) (a : Act ι π) :
    called dir fe (log ++ [a]) = calledStep dir fe (called dir fe log) a := by
  rw [called, List.foldl_append]
  rfl

/-- The callback of side `dir` of `fe` is invoked. -/
def invokes (dir : Dir) (fe : ι) : Act ι π → Bool
  | .invoke d f _ => decide (f = fe ∧ d = dir)
  | .call _ => false

/-- **At most one call.** Wherever a run is looked at, between two calls that add
a side there is at most one invocation of its callback. -/
theorem OneShot.countP_le {log pre mid post : List (Act ι π)} (h : OneShot log)
    (hl : log = pre ++ mid ++ post) (dir : Dir) (fe : ι)
    (hadd : ∀ proc, .call (.add dir fe proc) ∉ mid) :
    mid.countP (invokes dir fe) ≤ 1 := by
  -- After the first invocation the side stays called up to the end of `mid`.
  have hstay : ∀ (mid pre post : List (Act ι π)), log = pre ++ mid ++ post →
      (∀ proc, .call (.add dir fe proc) ∉ mid) → called dir fe pre = true →
      mid.countP (invokes dir fe) = 0 := by
    intro mid
    induction mid with
    | nil => exact fun _ _ _ _ _ => rfl
    | cons a mid ih =>
        intro pre post hl hadd hc
        have hl' : log = (pre ++ [a]) ++ mid ++ post := by simp [hl]
        have hadd' : ∀ proc, .call (.add dir fe proc) ∉ mid := fun proc hm =>
          hadd proc (List.mem_cons_of_mem _ hm)
        have hc' : called dir fe (pre ++ [a]) = true := by
          rw [called_snoc, hc]
          cases a with
          | invoke d f proc =>
              rw [calledStep]
              split <;> rfl
          | call c =>
              cases c with
              | add d f proc =>
                  rw [calledStep, if_neg]
                  rintro ⟨rfl, rfl⟩
                  exact hadd proc List.mem_cons_self
              | del d f => rfl
              | delReadwrite f => rfl
        have hrest := ih (pre ++ [a]) post hl' hadd' hc'
        cases a with
        | invoke d f proc =>
            by_cases hs : f = fe ∧ d = dir
            · obtain ⟨rfl, rfl⟩ := hs
              have := h pre d f proc (mid ++ post) (by simp [hl])
              rw [hc] at this
              cases this
            · simpa [List.countP_cons, invokes, hs] using hrest
        | call c => simpa [List.countP_cons, invokes] using hrest
  induction mid generalizing pre with
  | nil => simp
  | cons a mid ih =>
      have hl' : log = (pre ++ [a]) ++ mid ++ post := by simp [hl]
      have hadd' : ∀ proc, .call (.add dir fe proc) ∉ mid := fun proc hm =>
        hadd proc (List.mem_cons_of_mem _ hm)
      cases a with
      | invoke d f proc =>
          by_cases hs : f = fe ∧ d = dir
          · have hc : called dir fe (pre ++ [.invoke d f proc]) = true := by
              rw [called_snoc, calledStep, if_pos hs]
            have := hstay mid _ post hl' hadd' hc
            rw [List.countP_cons, this]
            split <;> omega
          · have := ih hl' hadd'
            simpa [List.countP_cons, invokes, hs] using this
      | call c =>
          have := ih hl' hadd'
          simpa [List.countP_cons, invokes] using this

/-! ## A batch -/

/-- What is in place for `fe` has not been called. -/
def Unspent (accepts : ι → Bool) (log : List (Act ι π)) (fe : ι) : Prop :=
  ∀ dir, held accepts dir fe log ≠ none → called dir fe log = false

variable {accepts : ι → Bool} {behave : Behaviour ι π}

theorem called_call {dir : Dir} {fe : ι} {log : List (Act ι π)} (c : Call ι π)
    (h : called dir fe log = false) : called dir fe (log ++ [.call c]) = false := by
  rw [called_snoc, h]
  cases c with
  | add d f proc =>
      rw [calledStep]
      split <;> rfl
  | del d f => rfl
  | delReadwrite f => rfl

theorem called_calls {dir : Dir} {fe : ι} {log : List (Act ι π)} (cs : List (Call ι π))
    (h : called dir fe log = false) : called dir fe (log ++ cs.map .call) = false := by
  induction cs generalizing log with
  | nil => rwa [List.map_nil, List.append_nil]
  | cons c cs ih =>
      rw [List.map_cons, ← List.singleton_append, ← List.append_assoc]
      exact ih (called_call c h)

theorem called_dispatch {dir d : Dir} {fe f : ι} {log : List (Act ι π)} (ee : EpollEvent ι)
    (proc : Option π) (hne : ¬ (f = fe ∧ d = dir)) (h : called dir fe log = false) :
    called dir fe (dispatch behave ee d f proc log) = false := by
  unfold dispatch
  split
  · split
    · refine called_calls _ ?_
      rw [called_snoc, calledStep, if_neg hne, h]
    · exact h
  · exact h

theorem Unspent.call {log : List (Act ι π)} {fe : ι} (h : Unspent accepts log fe)
    (c : Call ι π) : Unspent accepts (log ++ [.call c]) fe := by
  intro dir hheld
  cases hc : called dir fe log with
  | false => exact called_call c hc
  | true =>
      -- Nothing is held of this side, so that only adding it puts a callback in place.
      have hnone : held accepts dir fe log = none := by
        by_contra hn
        rw [h dir hn] at hc
        cases hc
      rw [held, List.foldl_append, List.foldl_cons, List.foldl_nil, ← held, hnone] at hheld
      rw [called_snoc, hc]
      cases c with
      | add d f proc =>
          rw [heldStep] at hheld
          rw [calledStep]
          by_cases hs : f = fe ∧ d = dir
          · rw [if_pos hs]
          · rw [if_neg (fun hc => hs ⟨hc.1, hc.2.1⟩)] at hheld
            exact absurd rfl hheld
      | del d f =>
          rw [heldStep] at hheld
          split at hheld <;> exact absurd rfl hheld
      | delReadwrite f => exact absurd rfl hheld

theorem Unspent.calls {log : List (Act ι π)} {fe : ι} (h : Unspent accepts log fe)
    (cs : List (Call ι π)) : Unspent accepts (log ++ cs.map .call) fe := by
  induction cs generalizing log with
  | nil => rwa [List.map_nil, List.append_nil]
  | cons c cs ih =>
      rw [List.map_cons, ← List.singleton_append, ← List.append_assoc]
      exact ih (h.call c)

theorem Unspent.dispatch {log : List (Act ι π)} {fe f : ι} (h : Unspent accepts log fe)
    (hne : f ≠ fe) (ee : EpollEvent ι) (d : Dir) (proc : Option π) :
    Unspent accepts (dispatch behave ee d f proc log) fe := by
  unfold History.dispatch
  split
  · rename_i p
    split
    · refine Unspent.calls (fun dir hheld => ?_) _
      rw [called_snoc, calledStep, if_neg (fun hc => hne hc.1)]
      exact h dir (by rwa [held, List.foldl_append] at hheld)
    · exact h
  · exact h

/-- An event of a file whose callbacks have not been called. -/
theorem oneShot_entry {log : List (Act ι π)} {ee : EpollEvent ι} {fe : ι} (h : OneShot log)
    (hp : ee.ptr = some fe) (hu : Unspent accepts log fe) :
    OneShot (entry accepts behave log ee) := by
  rw [oneShot_iff_everyInvoke, everyInvoke_entry hp]
  refine ⟨h, fun _ hr => hu .read hr, fun _ hw => ?_⟩
  exact called_dispatch ee _ (by simp) (hu .write hw)

theorem Unspent.entry {log : List (Act ι π)} {ee : EpollEvent ι} {fe f : ι}
    (h : Unspent accepts log fe) (hp : ee.ptr = some f) (hne : f ≠ fe) :
    Unspent accepts (entry accepts behave log ee) fe := by
  simp only [History.entry, hp]
  exact (h.dispatch hne ee .read _).dispatch hne ee .write _

/-- A batch in which each file comes once. -/
theorem oneShot_wait {log : List (Act ι π)} {batch : List (EpollEvent ι)} (h : OneShot log)
    (hn : (batch.map EpollEvent.ptr).Nodup)
    (hu : ∀ ee ∈ batch, ∃ fe, ee.ptr = some fe ∧ Unspent accepts log fe) :
    OneShot (wait accepts behave log batch) := by
  rw [wait]
  induction batch generalizing log with
  | nil => exact h
  | cons ee batch ih =>
      obtain ⟨f, hp, hf⟩ := hu ee List.mem_cons_self
      rw [List.map_cons, List.nodup_cons] at hn
      refine ih (oneShot_entry h hp hf) hn.2 fun e he => ?_
      obtain ⟨fe, hpe, hfe⟩ := hu e (List.mem_cons_of_mem _ he)
      refine ⟨fe, hpe, hfe.entry hp fun hc => ?_⟩
      exact hn.1 (List.mem_map.mpr ⟨e, he, by rw [hpe, hp, hc]⟩)

end History

/-! ## The kernel's part -/

def EpollInterest.covers (interest : EpollInterest ι) : Dir → Bool
  | .read => interest.epollin
  | .write => interest.epollout

/-- Ready for one side only. -/
def Ready.only (dir : Dir) : Ready :=
  { epollin := dir = .read, epollout := dir = .write, epollerr := false, epollhup := false }

omit [DecidableEq ι] in
/-- What is reported in one round comes from different files. -/
theorem nodup_epollWait {fd : ι → Int} {ready : List (Int × Ready)}
    (hn : (ready.map Prod.fst).Nodup) {k : EpollSet ι}
    (hk : ∀ d item, k d = some item → fd item.interest.ptr = d) :
    ((epollWait ready k).1.map EpollEvent.ptr).Nodup := by
  induction ready generalizing k with
  | nil => exact List.nodup_nil
  | cons x ready ih =>
      obtain ⟨d, r⟩ := x
      have hn' := List.nodup_cons.mp hn
      have hk' : ∀ e item, (epollTake d r k).2 e = some item → fd item.interest.ptr = e := by
        intro e item he
        have ht := congrFun (epollTake_table d r k) e
        rw [EpollSet.table, EpollSet.table, he] at ht
        obtain ⟨item', hi, heq⟩ := Option.map_eq_some_iff.mp ht.symm
        rw [← heq]
        exact hk e item' hi
      have hrest := ih hn'.2 hk'
      rw [epollWait, List.map_append, List.nodup_append]
      refine ⟨?_, hrest, ?_⟩
      · cases (epollTake d r k).1 <;> simp
      · rintro p hp q hq rfl
        obtain ⟨e, he, rfl⟩ := List.mem_map.mp hp
        obtain ⟨e', he', hpq⟩ := List.mem_map.mp hq
        obtain ⟨d', r', item', hmem, hitem', -, rfl⟩ := mem_epollWait hn'.2 he'
        have hd' := hk' d' item' hitem'
        have hd : fd item'.interest.ptr = d := by
          rw [Option.mem_toList, epollTake] at he
          split at he
          · cases he
          · rename_i item hi
            split at he
            · cases he
              have hptr : item'.interest.ptr = item.interest.ptr := Option.some.inj hpq
              rw [hptr]
              exact hk d item hi
            · cases he
        exact hn'.1 (List.mem_map.mpr ⟨_, hmem, hd'.symm.trans hd⟩)

namespace Loop

open History

variable {fd : ι → Int} {espipe : Int → Bool} {behave : Behaviour ι π} {accepts : ι → Bool}

/-- No registration that is armed belongs to a callback that has been called
since its side was last added. -/
def Fresh (s : Loop ι (EventEpoll (EpollSet ι)) π) : Prop :=
  ∀ d item, s.ev.backend.kernel d = some item → item.armed = true → ∀ dir,
    (s.ev.files item.interest.ptr).proc dir ≠ none → called dir item.interest.ptr s.log = false

/-- The loop finds it that way whenever it enters `epoll_wait`. -/
def AllFresh (host : Host ι (EventEpoll (EpollSet ι)) π) (behave : Behaviour ι π) :
    Loop ι (EventEpoll (EpollSet ι)) π → List (PollStep ι π) → Prop
  | _, [] => True
  | s, .call c :: steps => AllFresh host behave (s.call host c) steps
  | s, .wait ready :: steps =>
      Fresh (s.prepare host) ∧ AllFresh host behave (s.poll host behave ready) steps

theorem Follows.fetch {host : Host ι (EventEpoll (EpollSet ι)) π}
    {s : Loop ι (EventEpoll (EpollSet ι)) π} (h : s.Follows host accepts)
    (ready : Readiness) : (s.fetch ready).2.Follows host accepts :=
  ⟨h.typesOk, h.accepts_eq, h.proc_eq⟩

theorem Follows.prepare {host : Host ι κ π} {s : Loop ι κ π} (h : s.Follows host accepts) :
    (s.prepare host).Follows host accepts :=
  h.keeps (NioEvent.prepare_keeps host s.ev) (NioEvent.typesOk_prepare h.typesOk)

theorem Follows.poll {host : Host ι (EventEpoll (EpollSet ι)) π}
    {s : Loop ι (EventEpoll (EpollSet ι)) π} (h : s.Follows host accepts) (ready : Readiness) :
    (s.poll host behave ready).Follows host accepts ∧
      (s.poll host behave ready).log
        = History.wait accepts behave s.log ((s.prepare host).fetch ready).1 :=
  (h.prepare.fetch ready).eventWait behave _

/-- A round from a fresh state. -/
theorem oneShot_poll {s : Loop ι (EventEpoll (EpollSet ι)) π}
    (hinj : Function.Injective fd) (hm : s.Mirrored fd)
    (hf : s.Follows (EventEpoll.host epollCtl espipe) accepts) (h : OneShot s.log)
    (hfresh : Fresh (s.prepare (EventEpoll.host epollCtl espipe))) (ready : Readiness) :
    OneShot (s.poll (EventEpoll.host epollCtl espipe) behave ready).log := by
  have hmp : (s.prepare (EventEpoll.host epollCtl espipe)).Mirrored fd := hm.prepare hinj
  rw [(hf.poll ready).2]
  refine oneShot_wait h (nodup_epollWait ready.nodup fun d item => hmp.ptr) fun ee he => ?_
  obtain ⟨d, r, item, -, hk, hfires, rfl⟩ := mem_epollWait ready.nodup he
  rw [EpollItem.fires, Bool.and_eq_true] at hfires
  refine ⟨item.interest.ptr, rfl, fun dir hheld => ?_⟩
  exact hfresh d item hk hfires.1 dir (by rwa [hf.prepare.proc_eq])

/-- The kernel may report a side that is armed and has been called. -/
theorem not_oneShot_poll {s : Loop ι (EventEpoll (EpollSet ι)) π}
    (hf : s.Follows (EventEpoll.host epollCtl espipe) accepts) {d : Int} {item : EpollItem ι}
    {dir : Dir}
    (hk : (s.prepare (EventEpoll.host epollCtl espipe)).ev.backend.kernel d = some item)
    (ha : item.armed = true) (hcov : item.interest.covers dir = true)
    (hproc : (s.ev.files item.interest.ptr).proc dir ≠ none)
    (hc : called dir item.interest.ptr s.log = true) :
    ∃ ready, ¬ OneShot (s.poll (EventEpoll.host epollCtl espipe) behave ready).log := by
  refine ⟨⟨[(d, .only dir)], by simp⟩, fun h => ?_⟩
  rw [(hf.poll _).2] at h
  have hhits : ∀ e, (item.revents (.only dir)).hits e = decide (e = dir) := by
    intro e
    cases dir <;> cases e <;> simp_all [EpollItem.revents, Ready.only, EpollEvent.hits,
      EpollInterest.covers]
  have hbatch : ((s.prepare (EventEpoll.host epollCtl espipe)).fetch
      ⟨[(d, .only dir)], by simp⟩).1 = [item.revents (.only dir)] := by
    have hfires : item.fires (.only dir) = true := by
      rw [EpollItem.fires, ha, hhits, hhits]
      cases dir <;> rfl
    simp only [Loop.fetch, epollWait, epollTake, hk, hfires, if_true]
    rfl
  rw [hf.proc_eq] at hproc
  rw [hbatch, History.wait, List.foldl_cons, List.foldl_nil] at h
  rw [oneShot_iff_everyInvoke, everyInvoke_entry rfl] at h
  obtain ⟨-, hr, hw⟩ := h
  cases dir with
  | read =>
      have := hr (hhits .read) hproc
      rw [hc] at this
      cases this
  | write =>
      have hskip : History.dispatch behave (item.revents (.only .write)) .read item.interest.ptr
          (held accepts .read item.interest.ptr s.log) s.log = s.log := by
        unfold History.dispatch
        split
        · rw [if_neg]
          rw [hhits]
          simp
        · rfl
      have := hw (hhits .write) hproc
      rw [hskip, hc] at this
      cases this

theorem oneShot_pollRun {s : Loop ι (EventEpoll (EpollSet ι)) π}
    (hinj : Function.Injective fd) (hm : s.Mirrored fd)
    (hf : s.Follows (EventEpoll.host epollCtl espipe) accepts) (h : OneShot s.log)
    {steps : List (PollStep ι π)}
    (hfresh : AllFresh (EventEpoll.host epollCtl espipe) behave s steps) :
    OneShot (s.pollRun (EventEpoll.host epollCtl espipe) behave steps).log := by
  induction steps generalizing s with
  | nil => exact h
  | cons st steps ih =>
      cases st with
      | call c => exact ih (hm.call hinj c) (hf.call c) (everyInvoke_call.mpr h) hfresh
      | wait ready =>
          exact ih (hm.poll hinj ready) (hf.poll ready).1
            (oneShot_poll hinj hm hf h hfresh.1 ready) hfresh.2

theorem Follows.pollRun {host : Host ι (EventEpoll (EpollSet ι)) π}
    {s : Loop ι (EventEpoll (EpollSet ι)) π} (h : s.Follows host accepts)
    (steps : List (PollStep ι π)) : (s.pollRun host behave steps).Follows host accepts := by
  induction steps generalizing s with
  | nil => exact h
  | cons st steps ih =>
      cases st with
      | call c => exact ih (h.call c)
      | wait ready => exact ih (h.poll ready).1

/-- **One shot means one call** in a run that enters `epoll_wait` only when no
callback that has been called is armed again; and once it does so otherwise, the
kernel may report the side, which then is called twice. -/
theorem one_shot (direct : Bool) (setsize : Int) (fd : ι → Int) (hfd : Function.Injective fd)
    (espipe : Int → Bool) (behave : Behaviour ι π) (steps : List (PollStep ι π)) :
    let host := EventEpoll.host epollCtl espipe
    let first : Loop ι _ π := start true direct setsize fd ⟨fun _ => none, 0⟩
    let s := first.pollRun host behave steps
    (AllFresh host behave first steps → OneShot s.log) ∧
      ∀ d item dir, (s.prepare host).ev.backend.kernel d = some item → item.armed = true →
        item.interest.covers dir = true → (s.ev.files item.interest.ptr).proc dir ≠ none →
        called dir item.interest.ptr s.log = true →
        ∃ ready, ¬ OneShot (s.poll host behave ready).log := by
  intro host first s
  have hf := follows_start (π := π) host true direct setsize fd ⟨fun _ => none, 0⟩
  have hm := mirrored_start (π := π) true direct setsize fd
  constructor
  · exact oneShot_pollRun hfd hm hf everyInvoke_nil
  · intro d item dir hk ha hcov hproc hc
    exact not_oneShot_poll (hf.pollRun steps) hk ha hcov hproc hc

/-- A file that is only read, and added again by its callback. -/
theorem one_shot_reading :
    OneShot ((start true false 16 (fun _ => 3) ⟨fun _ => none, 0⟩ : Loop Unit _ Unit).pollRun
      (EventEpoll.host epollCtl fun _ => true) (fun _ => [.add .read () ()])
      [.call (.add .read () ()), .wait ⟨[(3, .only .read)], by simp⟩,
        .wait ⟨[(3, .only .read)], by simp⟩]).log := by
  refine (one_shot false 16 (fun _ : Unit => 3) (fun _ _ _ => rfl) (fun _ => true)
    (fun _ => [.add .read () ()]) [.call (.add .read () ()), .wait ⟨[(3, .only .read)], by simp⟩,
      .wait ⟨[(3, .only .read)], by simp⟩]).1 ⟨?_, ?_, trivial⟩
  · intro d item _ _ dir _
    cases dir <;> rfl
  · intro d item _ _ dir _
    generalize item.interest.ptr = fe
    cases fe
    cases dir <;> decide +kernel

/-- A file that is added for writing once and is writable in two rounds. -/
theorem writable_twice :
    ¬ ∀ (behave : Behaviour Unit Unit) (steps : List (PollStep Unit Unit)),
      OneShot ((start true false 16 (fun _ => 3) ⟨fun _ => none, 0⟩ : Loop Unit _ Unit).pollRun
        (EventEpoll.host epollCtl fun _ => true) behave steps).log := by
  intro h
  have hs := h (fun _ => []) [.call (.add .write () ()), .wait ⟨[(3, .only .write)], by simp⟩,
    .wait ⟨[(3, .only .write)], by simp⟩]
  have hcalled := hs [.call (.add .write () ()), .invoke .write () ()] .write () () []
    (by decide +kernel)
  revert hcalled
  decide

end Loop

end Libnio.Event
