import Libnio.Event.OneShot
import Libnio.Socket.Dangling
import Libnio.Socket.Files

/-!
# Socket — what epoll reports to the loop

The event of a run over the epoll backend, with the kernel behind it: the events
of a batch belong to different files, each of which is registered when they are
fetched; and a file of which nothing is registered stays so as long as no call
is made on its object.
-/

namespace Libnio.Socket

open Event (Dir)

namespace World

variable {γ ρ υ κ : Type}

/-- The events that `wait` has still to go through. -/
def events (w : World γ ρ υ κ) : List (Event.EpollEvent (File γ ρ)) :=
  match w.phase with
  | .dispatch batch _ => batch
  | _ => []

/-- The `w_proc` that is yet to be called for the event `wait` is at. -/
def later (w : World γ ρ υ κ) : Option (File γ ρ × Callback) :=
  match w.phase with
  | .dispatch _ later => later
  | _ => none

/-- Each file comes once in the events of a round. -/
structure EachFileOnce (w : World γ ρ υ κ) : Prop where
  nodup : (w.events.map Event.EpollEvent.ptr).Nodup
  past : ∀ x ∈ w.later, some x.1 ∉ w.events.map Event.EpollEvent.ptr

/-- Outside of the loop over the events there are none. -/
theorem EachFileOnce.of_none {w : World γ ρ υ κ} (he : w.events = []) : w.EachFileOnce := by
  refine ⟨?_, ?_⟩
  · rw [he]
    exact List.nodup_nil
  · intro x _
    rw [he]
    exact List.not_mem_nil

variable [DecidableEq γ] [DecidableEq ρ] [DecidableEq υ] {sys : Sys γ ρ κ} {w w' : World γ ρ υ κ}

theorem Updates.phase_eq {o : Owner γ ρ} {ks : List Kind} (hd : Updates sys (Within o ks) w w') :
    w'.phase = w.phase :=
  hd.keeps (P := fun v => v.phase = w.phase) (fun v d _ hv => (update_phase sys v d).trans hv) rfl

theorem perform_phase (hown : w.Owned) {c : Call γ ρ υ} {r : Int × (Int × Nat) × World γ ρ υ κ}
    (h : w.perform sys c = some r) : r.2.2.phase = w.phase :=
  (perform_updates hown h).keeps (P := fun v => v.phase = w.phase)
    (fun v d _ hv => (update_phase sys v d).trans hv) rfl

/-- How a step leaves the events that are still to come: as they are, with one of
them taken up and its `w_proc` kept, with that called, in another part of the
loop, or fetched. -/
inductive Passes (sys : Sys γ ρ κ) (w : World γ ρ υ κ) (l : Label γ ρ υ) (w' : World γ ρ υ κ) : Prop
  | same (hl : w'.later = w.later) (he : w'.events = w.events)
  | taken {ee : Event.EpollEvent (File γ ρ)} (he : w.events = ee :: w'.events)
      (hl : w.Captured ee w'.later)
  | called (hl : w'.later = none) (he : w'.events = w.events)
  | over_ (hl : w'.later = none) (he : w'.events = [])
  | fetched {answer : Answer} (hl : l = .next answer) (hw : w' = w.fetch sys answer)

theorem passes (hown : w.Owned) {l : Label γ ρ υ} (hs : w.step sys l = some w') :
    Passes sys w l w' := by
  have hown' : ∀ phase, (w.setPhase phase).Owned := fun _ => ⟨hown.client, hown.proc⟩
  -- a world by its phase
  have hlater : ∀ {v : World γ ρ υ κ} {phase : Phase γ ρ υ}, v.phase = phase →
      v.later = (w.setPhase phase).later ∧ v.events = (w.setPhase phase).events := by
    rintro v phase rfl
    exact ⟨rfl, rfl⟩
  have hover : ∀ {phase : Phase γ ρ υ}, (w.setPhase phase).later = none →
      (w.setPhase phase).events = [] → w'.phase = phase → Passes sys w l w' := by
    intro phase hl he hp
    exact .over_ ((hlater hp).1.trans hl) ((hlater hp).2.trans he)
  have htaken : ∀ {ee : Event.EpollEvent (File γ ρ)} {batch : List (Event.EpollEvent (File γ ρ))}
      {later : Option (File γ ρ × Callback)}, w.phase = .dispatch (ee :: batch) none →
      w.Captured ee later → w'.phase = .dispatch batch later → Passes sys w l w' := by
    intro ee batch later hp hl hp'
    obtain ⟨hl', he'⟩ := hlater hp'
    have hevents : w.events = ee :: w'.events := by
      rw [(hlater hp).2, he']
      rfl
    have hcaptured : w.Captured ee w'.later := by
      rw [hl']
      exact hl
    exact .taken hevents hcaptured
  cases stepped hs with
  | call hm hp =>
      obtain ⟨hl, he⟩ := hlater (perform_phase hown hp)
      exact .same hl he
  | ret hr => exact .same rfl rfl
  | wait hr hp => exact hover rfl rfl rfl
  | next hr hm =>
      cases hm with
      | procClose hp hi =>
          rename_i i p
          have hd : Updates sys _ _ ((w.setPhase (.procsFree (i + 1))).procClose p) :=
            procClose_updates p
          exact hover rfl rfl hd.phase_eq
      | procsDone hp hi => exact hover rfl rfl rfl
      | close hp hi =>
          rename_i i c
          have hd : Updates sys _ _ ((w.setPhase (.clientsFree (i + 1))).close c) := close_updates c
          exact hover rfl rfl hd.phase_eq
      | clientsDone hp hi => exact hover rfl rfl rfl
      | fetch hp => exact .fetched rfl rfl
      | skip hp hl => exact htaken hp hl rfl
      | read hp hl hptr hhit hproc hc => exact htaken hp hl (callback_updates (hown' _) hc).phase_eq
      | write hp hc =>
          obtain ⟨hl, he⟩ := hlater (callback_updates (hown' _) hc).phase_eq
          refine .called hl ?_
          rw [he, (hlater hp).2]
          rfl
      | trigger hp =>
          unfold triggerTimers
          split
          · exact .over_ rfl rfl
          · exact .over_ rfl rfl
      | clearFlag hp => exact hover rfl rfl rfl
      | fire hp =>
          rename_i t batch
          cases t with
          | client c dir =>
              have hd : Updates sys _ _ (w.fire (.client c dir) batch) := onTimer_updates c dir
              exact hover rfl rfl hd.phase_eq
          | user u => exact .over_ rfl rfl
      | done hp => exact hover rfl rfl rfl

/-! ## An event that is left alone -/

/-- **What no call adds to.** What every call of the event but an add of this
file keeps is kept by every step that is not a call on the object of the file. -/
theorem step_event {J : Event.NioEvent (File γ ρ) κ Callback → Prop} {fe : File γ ρ}
    (happly : ∀ ev e, (∀ dir proc, e ≠ .add dir fe proc) → J ev → J (ev.apply sys.host e))
    (hprepare : ∀ ev, J ev → J (ev.prepare sys.host))
    (hfetch : ∀ ev ready, J ev → J { ev with backend := (sys.epollWait ready ev.backend).2 })
    (hown : w.Owned) {l : Label γ ρ υ} (hno : ∀ c, l = .call c → c.owner ≠ some fe.1)
    (hs : w.step sys l = some w') (h : J w.ev) : J w'.ev := by
  have hloop : LoopKept (υ := υ) sys fun v => J v.ev := by
    refine ⟨?_, fun _ _ h => h, fun _ _ h => h, fun v ready h => hfetch v.ev ready h,
      fun _ _ h => h, fun _ h => h, fun _ h => h, fun _ h => h⟩
    intro v o d _ hkind hv
    rw [update_ev]
    cases hc : d.evCall with
    | none => exact hv
    | some e =>
        refine happly v.ev e ?_ hv
        rintro dir proc rfl
        -- the loop adds nothing
        cases d <;> cases hc
        simp [Update.kind, loopKinds] at hkind
  cases stepped hs with
  | call hm hp =>
      rename_i c r
      refine perform_keeps hown hp (P := fun v => J v.ev) ?_ (fun _ _ _ _ hv => hv) h
      intro v o d ho hq hv
      rw [update_ev]
      cases hc : d.evCall with
      | none => exact hv
      | some e =>
          refine happly v.ev e ?_ hv
          rintro dir proc rfl
          have hfile : fe.1 = o := hq.1.file hc
          exact hno c rfl (by rw [ho, hfile])
  | ret hr => exact h
  | wait hr hp => exact hprepare w.ev h
  | next hr hm => exact hloop.move hown hm h

/-- **A file that is registered for nothing** stays so without a call on its object. -/
theorem clear_step (hclears : sys.host.Clears) (hok : w.ev.TypesOk sys.host) (hring : w.ev.Ringed)
    (hown : w.Owned) {fe : File γ ρ} {l : Label γ ρ υ}
    (hno : ∀ c, l = .call c → c.owner ≠ some fe.1) (hs : w.step sys l = some w')
    (h : w.ev.Clear fe) : w'.ev.Clear fe := by
  refine (step_event (J := fun ev => (ev.TypesOk sys.host ∧ ev.Ringed) ∧ ev.Clear fe) ?_ ?_ ?_
    hown hno hs ⟨⟨hok, hring⟩, h⟩).2
  · rintro ev e hadd ⟨⟨hok, hring⟩, hc⟩
    refine ⟨⟨Event.NioEvent.typesOk_apply hok e, hring.apply hok e⟩, ?_⟩
    refine hc.apply hclears hok hring e ?_
    intro dir proc he
    exact absurd he (hadd dir proc)
  · rintro ev ⟨⟨hok, hring⟩, hc⟩
    exact ⟨⟨Event.NioEvent.typesOk_prepare hok, Event.NioEvent.ringed_prepare ev⟩, hc.prepare⟩
  · rintro ev ready ⟨⟨hok, hring⟩, hc⟩
    exact ⟨⟨hok, hring.nodup, hring.sock⟩, hc.unlinked, hc.idle⟩

/-- A side of a file without a callback gets none. -/
theorem proc_step (hown : w.Owned) {fe : File γ ρ} {dir : Dir} {l : Label γ ρ υ}
    (hno : ∀ c, l = .call c → c.owner ≠ some fe.1) (hs : w.step sys l = some w')
    (h : (w.ev.files fe).proc dir = none) : (w'.ev.files fe).proc dir = none := by
  refine step_event (J := fun ev => (ev.files fe).proc dir = none) ?_ ?_ (fun _ _ h => h)
    hown hno hs h
  · intro ev e hadd hnone
    rcases Event.NioEvent.apply_proc sys.host ev e fe dir with heq | hgone | ⟨proc, rfl, -⟩
    · exact heq.trans hnone
    · exact hgone
    · exact absurd rfl (hadd dir proc)
  · intro ev hnone
    rw [(Event.NioEvent.prepare_keeps sys.host ev).proc]
    exact hnone

/-! ## A run over epoll -/

section Epoll

variable {espipe : Int → Bool} {fd : File γ ρ → Int}
  {w w' : World γ ρ υ (Event.EventEpoll (Event.EpollSet (File γ ρ)))}

/-- What every run over epoll keeps. -/
structure Polled (fd : File γ ρ → Int) (espipe : Int → Bool)
    (w : World γ ρ υ (Event.EventEpoll (Event.EpollSet (File γ ρ)))) : Prop where
  owned : w.Owned
  callbacksFit : w.CallbacksFit
  typesOk : w.ev.TypesOk (Sys.epoll (γ := γ) (ρ := ρ) espipe).host
  ringed : w.ev.Ringed
  shown : w.ev.Shown Event.EpollSet.table fd
  dels : w.ev.DelsHeld
  spread : w.EachFileOnce

/-- The readiness that `epoll_wait` is answered with names each descriptor once. -/
def Once (l : Label γ ρ υ) : Prop :=
  ∀ answer, l = .next answer → (answer.ready.map Prod.fst).Nodup

instance : DecidablePred (Once (γ := γ) (ρ := ρ) (υ := υ))
  | .next answer =>
      decidable_of_iff (answer.ready.map Prod.fst).Nodup
        ⟨fun h _ he => by cases he; exact h, fun h => h answer rfl⟩
  | .call _ | .ret | .wait => .isTrue fun _ he => nomatch he

theorem kept_ringed (sys : Sys γ ρ κ) :
    Kept (υ := υ) sys fun w => w.ev.TypesOk sys.host ∧ w.ev.Ringed :=
  kept_ev (P := fun ev => ev.TypesOk sys.host ∧ ev.Ringed)
    (fun _ c h => ⟨Event.NioEvent.typesOk_apply h.1 c, h.2.apply h.1 c⟩)
    (fun ev h => ⟨Event.NioEvent.typesOk_prepare h.1, Event.NioEvent.ringed_prepare ev⟩)
    fun _ _ h => ⟨h.1, h.2.nodup, h.2.sock⟩

theorem kept_shown (espipe : Int → Bool) (fd : File γ ρ → Int) :
    Kept (υ := υ) (Sys.epoll espipe) fun w =>
      w.ev.Shown Event.EpollSet.table fd ∧ w.ev.DelsHeld :=
  kept_ev (P := fun ev => ev.Shown Event.EpollSet.table fd ∧ ev.DelsHeld)
    (fun _ c h => (Event.NioEvent.shown_backed Event.tabulates_epollCtl).apply h.1 h.2 c)
    (fun _ h => (Event.NioEvent.shown_backed Event.tabulates_epollCtl).prepare h.1 h.2)
    fun _ ready h => ⟨h.1.epollWait ready, h.2⟩

/-- **A step** leaves each file once in what is still to come. -/
theorem EachFileOnce.step (h : w.EachFileOnce)
    (hshown : w.ev.Shown Event.EpollSet.table fd) (hown : w.Owned)
    {l : Label γ ρ υ} (honce : Once l) (hs : w.step (Sys.epoll espipe) l = some w') :
    w'.EachFileOnce := by
  have hnone : ∀ {P : File γ ρ × Callback → Prop}, w'.later = none → ∀ x ∈ w'.later, P x := by
    intro P hl x hx
    rw [hl] at hx
    cases hx
  cases passes hown hs with
  | same hl he =>
      refine ⟨?_, ?_⟩
      · rw [he]
        exact h.nodup
      · rw [he, hl]
        exact h.past
  | taken he hl =>
      have hnodup := h.nodup
      rw [he, List.map_cons, List.nodup_cons] at hnodup
      refine ⟨hnodup.2, ?_⟩
      intro x hx
      rw [← (hl x hx).1]
      exact hnodup.1
  | called hl he =>
      refine ⟨?_, hnone hl⟩
      rw [he]
      exact h.nodup
  | over_ hl he => exact .of_none he
  | fetched hl hw =>
      subst hw
      refine ⟨?_, hnone rfl⟩
      exact Event.nodup_epollWait (honce _ hl) fun _ _ hk => hshown.item_ptr hk

/-- **One step.** -/
theorem Polled.step (h : w.Polled fd espipe) {l : Label γ ρ υ}
    (honce : Once l) (hs : w.step (Sys.epoll espipe) l = some w') : w'.Polled fd espipe := by
  obtain ⟨htypes, hringed⟩ := (kept_ringed (Sys.epoll espipe)).step h.owned hs ⟨h.typesOk, h.ringed⟩
  obtain ⟨hshown, hdels⟩ := (kept_shown espipe fd).step h.owned hs ⟨h.shown, h.dels⟩
  exact ⟨(kept_owned _).step h.owned hs h.owned, h.callbacksFit.step h.owned hs, htypes, hringed,
    hshown, hdels, h.spread.step h.shown h.owned honce hs⟩

omit [DecidableEq υ] in
theorem polled_start (setup : Setup γ ρ) (oneshot direct : Bool) (setsize : Int)
    (fd : File γ ρ → Int) (espipe : Int → Bool) (sec nsec : Int) :
    Polled (υ := υ) fd espipe
      (World.start setup oneshot direct setsize fd ⟨fun _ => none, 0⟩ sec nsec) where
  owned := owned_start ..
  callbacksFit := callbacksFit_start setup oneshot direct setsize fd _ sec nsec
  typesOk := Event.NioEvent.typesOk_create _ oneshot direct setsize fd _
  ringed := Event.NioEvent.ringed_create ..
  shown := Event.NioEvent.shown_create oneshot direct setsize rfl fd
  dels := Event.NioEvent.delsHeld_create oneshot direct setsize fd _
  spread := .of_none rfl

omit [DecidableEq υ] in
/-- **What is fetched is registered.** -/
theorem Polled.fetched (h : w.Polled fd espipe) {answer : Answer}
    (hn : (answer.ready.map Prod.fst).Nodup) {ee : Event.EpollEvent (File γ ρ)}
    (he : ee ∈ (w.fetch (Sys.epoll espipe) answer).events) :
    ∃ fe dir, ee.ptr = some fe ∧ (w.ev.files fe).mask dir = true :=
  h.shown.reported hn he

end Epoll

end World

end Libnio.Socket
