import Libnio.Socket.Allocated
import Libnio.Socket.Closing

/-!
# Socket — silence behind `close_await`

What may still call a handler of a socket when `close_await` takes its file out
of the event: the rest of a batch, a `w_proc` that is kept, the timers of the
round, and what an earlier connect has left behind. Where nothing of that is on
its way the socket hears of its close only.
-/

namespace Libnio.Socket

open Event (Dir)

/-- A handler of the socket is entered, `on_close` aside. -/
def Act.reaches {γ ρ υ : Type} [DecidableEq γ] (c : γ) : Act γ ρ υ → Bool
  | .enter (.client c' h _ _) => c' = c && h ≠ .onClose
  | _ => false

namespace World

variable {γ ρ υ κ : Type}

/-- How often a handler of the socket has been called, `on_close` aside. -/
def reached [DecidableEq γ] (w : World γ ρ υ κ) (c : γ) : Nat := w.log.countP (Act.reaches c)

/-- `trigger_timers` calls the timer in this round. -/
def DueNow (w : World γ ρ υ κ) (t : TimerName γ υ) : Prop :=
  match w.phase with
  | .dispatch _ _ => ∃ e ∈ w.timers.timers, e.2 = t ∧ e.1 ≤ w.timers.stamp
  | .timers batch _ => t ∈ batch
  | _ => False

variable [DecidableEq γ] [DecidableEq ρ] [DecidableEq υ]

/-- No callback of the socket is on its way: neither by the events of this round,
nor by the timers of it, nor by an entry of `timers_` that its socket does not
know of. -/
structure Uncalled (w : World γ ρ υ κ) (c : γ) : Prop where
  events : ∀ ee ∈ w.events, ∀ fe ∈ ee.ptr, fe.1 = .client c → ∀ dir, ee.hits dir = true →
    (w.ev.files fe).proc dir = none
  later : ∀ x ∈ w.later, x.1.1 ≠ .client c
  notDue : ∀ dir, ¬ w.DueNow (.client c dir)
  flagsRight : w.FlagsRight c

/-- What `close_await` should find: in addition, no file of an earlier connect is
registered. -/
structure CloseFinds (w : World γ ρ υ κ) (c : γ) : Prop extends Uncalled w c where
  files : ∀ n < w.allocated (.client c),
    (w.clients c).fe = some (.client c, n) ∨ w.ev.Clear (.client c, n)

/-- What a run keeps behind it: no file of the socket is registered, and its
timers are disarmed before the next `epoll_wait`. -/
structure AfterClose (w : World γ ρ υ κ) (c : γ) : Prop extends Uncalled w c where
  clear : ∀ n, w.ev.Clear (.client c, n)
  over_ : c ∈ w.pendingClients ∧ w.phase ≠ .poll ∨
    ∀ dir, ((w.clients c).timer dir).waiting = false

section Decide

instance {p : Dir → Prop} [DecidablePred p] : Decidable (∀ dir, p dir) :=
  decidable_of_iff (p .read ∧ p .write)
    ⟨fun h dir => match dir with | .read => h.1 | .write => h.2, fun h => ⟨h _, h _⟩⟩

instance (ev : Event.NioEvent (File γ ρ) κ Callback) (fe : File γ ρ) : Decidable (ev.Clear fe) :=
  decidable_of_iff (ev.ring.linked fe = false ∧ ∀ dir, (ev.files fe).mask dir = false ∧
      (ev.files fe).operAdd dir = false ∧ (ev.files fe).operDel dir = false)
    ⟨fun h => ⟨h.1, h.2⟩, fun h => ⟨h.unlinked, h.idle⟩⟩

instance (ev : Timer.Timers (TimerName γ υ)) (batch : List (TimerName γ υ)) (t : TimerName γ υ)
    (waiting : Bool) : Decidable (Timer.Armed ev batch t waiting) :=
  decidable_of_iff ((∀ e ∈ ev.timers, e.2 = t → e.1 = ev.expire t) ∧ _)
    ⟨fun h => ⟨h.1, h.2⟩, fun h => ⟨h.key, h.once⟩⟩

instance (w : World γ ρ υ κ) (t : TimerName γ υ) : Decidable (w.DueNow t) :=
  match h : w.phase with
  | .dispatch _ _ => decidable_of_iff (∃ e ∈ w.timers.timers, e.2 = t ∧ e.1 ≤ w.timers.stamp)
      (by rw [DueNow, h])
  | .timers batch _ => decidable_of_iff (t ∈ batch) (by rw [DueNow, h])
  | .idle | .procsFree _ | .clientsFree _ | .poll => .isFalse (by rw [DueNow, h]; exact id)

instance (w : World γ ρ υ κ) (c : γ) : Decidable (w.FlagsRight c) :=
  inferInstanceAs (Decidable (∀ dir, Timer.Armed w.timers w.batch (.client c dir) _))

instance (w : World γ ρ υ κ) (c : γ) : Decidable (w.Uncalled c) :=
  decidable_of_iff ((∀ ee ∈ w.events, ∀ fe ∈ ee.ptr, fe.1 = .client c → ∀ dir,
      ee.hits dir = true → (w.ev.files fe).proc dir = none) ∧
      (∀ x ∈ w.later, x.1.1 ≠ .client c) ∧ (∀ dir, ¬ w.DueNow (.client c dir)) ∧ w.FlagsRight c)
    ⟨fun h => ⟨h.1, h.2.1, h.2.2.1, h.2.2.2⟩, fun h => ⟨h.events, h.later, h.notDue, h.flagsRight⟩⟩

instance (w : World γ ρ υ κ) (c : γ) : Decidable (w.CloseFinds c) :=
  decidable_of_iff (w.Uncalled c ∧ ∀ n < w.allocated (.client c),
      (w.clients c).fe = some (.client c, n) ∨ w.ev.Clear (.client c, n))
    ⟨fun h => ⟨h.1, h.2⟩, fun h => ⟨h.toUncalled, h.files⟩⟩

end Decide

variable {sys : Sys γ ρ κ} {w w' w'' : World γ ρ υ κ} {c : γ}

/-! ## What goes on beside the socket -/

/-- Nothing has been done to the socket, its timers and its handlers. -/
structure SocketKept (c : γ) (w w' : World γ ρ υ κ) : Prop where
  waiting : ∀ dir, ((w'.clients c).timer dir).waiting = ((w.clients c).timer dir).waiting
  entries : ∀ e ∈ w'.timers.timers, ∀ dir, e.2 = .client c dir → e ∈ w.timers.timers
  stamp : w'.timers.stamp = w.timers.stamp
  phase : w'.phase = w.phase
  queued : w.clientsFree <+: w'.clientsFree
  reached : w'.reached c = w.reached c

namespace SocketKept

omit [DecidableEq ρ] [DecidableEq υ] in
theorem refl (c : γ) (w : World γ ρ υ κ) : SocketKept c w w :=
  ⟨fun _ => rfl, fun _ he _ _ => he, rfl, rfl, List.prefix_rfl, rfl⟩

omit [DecidableEq ρ] [DecidableEq υ] in
theorem trans (h : SocketKept c w w') (h' : SocketKept c w' w'') : SocketKept c w w'' :=
  ⟨fun dir => (h'.waiting dir).trans (h.waiting dir),
    fun e he dir hdir => h.entries e (h'.entries e he dir hdir) dir hdir,
    h'.stamp.trans h.stamp, h'.phase.trans h.phase, h.queued.trans h'.queued,
    h'.reached.trans h.reached⟩

omit [DecidableEq ρ] [DecidableEq υ] in
theorem of_log (acts : List (Act γ ρ υ)) (hl : w'.log = w.log ++ acts)
    (ha : acts.countP (Act.reaches c) = 0) : w'.reached c = w.reached c := by
  unfold World.reached
  rw [hl, List.countP_append, ha, Nat.add_zero]

omit [DecidableEq ρ] [DecidableEq υ] in
theorem logged (w : World γ ρ υ κ) {a : Act γ ρ υ} (ha : a.reaches c = false) :
    SocketKept c w (w.logged a) := by
  refine ⟨fun _ => rfl, fun _ he _ _ => he, rfl, rfl, List.prefix_rfl, ?_⟩
  exact of_log [a] rfl (by simp [ha])

omit [DecidableEq ρ] in
/-- A timer that is not one of the socket. -/
theorem setTimers (w : World γ ρ υ κ) {call : Timer.Call (TimerName γ υ)}
    (hcall : ∀ dir, call.timer ≠ .client c dir) :
    SocketKept c w (w.setTimers (w.timers.apply call)) := by
  have hadd : ∀ {ev : Timer.Timers (TimerName γ υ)} {t : TimerName γ υ} {ms : Int},
      (∀ dir, t ≠ .client c dir) → ∀ e ∈ (ev.addTimer t ms).timers, ∀ dir, e.2 = .client c dir →
        e ∈ ev.timers := by
    intro ev t ms ht e he dir hdir
    rcases Timer.Timers.mem_addTimer.mp he with rfl | he
    · exact absurd hdir (ht dir)
    · exact he
  refine ⟨fun _ => rfl, ?_, ?_, rfl, List.prefix_rfl, rfl⟩
  · intro e he dir hdir
    cases call with
    | addTimer t ms => exact hadd hcall e he dir hdir
    | delTimer t => exact Timer.Timers.mem_delTimer he
    | resetTimer t ms => exact Timer.Timers.mem_delTimer (hadd hcall e he dir hdir)
  · cases call <;> rfl

omit [DecidableEq ρ] [DecidableEq υ] in
theorem setClient (w : World γ ρ υ κ) (c' : γ) {f : ClientSocket γ ρ → ClientSocket γ ρ}
    (hf : c = c' → ∀ cli dir, ((f cli).timer dir).waiting = (cli.timer dir).waiting) :
    SocketKept c w (w.setClient c' f) := by
  refine ⟨?_, fun _ he _ _ => he, rfl, rfl, List.prefix_rfl, rfl⟩
  intro dir
  show ((Function.update w.clients c' (f (w.clients c')) c).timer dir).waiting = _
  rcases eq_or_ne c c' with rfl | hne
  · rw [Function.update_self, hf rfl]
  · rw [Function.update_of_ne hne]

/-- An update of another object. -/
theorem update (sys : Sys γ ρ κ) (w : World γ ρ υ κ) {d : Update γ ρ υ} {o : Owner γ ρ}
    (hfor : d.For o) (ho : o ≠ .client c) : SocketKept c w (w.update sys d) := by
  have hne : ∀ {c' : γ}, Owner.client c' = o → c = c' → False := by
    rintro c' hc rfl
    exact ho hc.symm
  have hset : ∀ (v : World γ ρ υ κ) {c' : γ} (f : ClientSocket γ ρ → ClientSocket γ ρ),
      Owner.client c' = o → SocketKept c v (v.setClient c' f) := fun v c' f hc =>
    setClient v c' fun he => (hne hc he).elim
  have htimer : ∀ (v : World γ ρ υ κ) (call : Timer.Call (TimerName γ υ)) {c' : γ} {dir : Dir},
      Owner.client c' = o → call.timer = .client c' dir →
      SocketKept c v (v.setTimers (v.timers.apply call)) := by
    intro v call c' dir hc hcall
    refine setTimers v ?_
    rw [hcall]
    rintro d ⟨⟩
    exact hne hc rfl
  cases d with
  | add dir fe proc => exact ⟨fun _ => rfl, fun _ he _ _ => he, rfl, rfl, List.prefix_rfl, rfl⟩
  | del dir fe => exact ⟨fun _ => rfl, fun _ he _ _ => he, rfl, rfl, List.prefix_rfl, rfl⟩
  | delReadwrite fe => exact ⟨fun _ => rfl, fun _ he _ _ => he, rfl, rfl, List.prefix_rfl, rfl⟩
  | setFlag c' dir b => exact hset w _ hfor
  | armTimer c' dir ms =>
      show SocketKept c w (if _ then w else w.armTimer c' dir ms)
      split
      · exact refl c w
      · exact (htimer w (.addTimer (.client c' dir) ms) hfor rfl).trans (hset _ _ hfor)
  | disarmTimer c' dir =>
      show SocketKept c w (if _ then _ else w)
      split
      · exact (htimer w (.delTimer (.client c' dir)) hfor rfl).trans (hset _ _ hfor)
      · exact refl c w
  | startConnecting c' ms =>
      exact ((htimer w (.addTimer (.client c' .write) ms) hfor rfl).trans
        (hset _ _ hfor)).trans (hset _ _ hfor)
  | stopConnecting c' =>
      show SocketKept c w (if _ then _ else w)
      split
      · exact ((hset w _ hfor).trans (hset _ _ hfor)).trans
          (htimer _ (.delTimer (.client c' .write)) hfor rfl)
      · exact refl c w
  | timerFired c' dir => exact hset w _ hfor
  | connectTimeout c' => exact hset w _ hfor
  | allocate o' => exact ⟨fun _ => rfl, fun _ he _ _ => he, rfl, rfl, List.prefix_rfl, rfl⟩
  | setFe c' fe => exact hset w (fun cli => { cli with fe := some fe }) hfor.1
  | setBuf c' buf taken => exact (hset w _ hfor).trans (logged _ rfl)
  | setProcBuf p buf taken =>
      have hlog : SocketKept c (w.setProc p fun proc => { proc with buf })
        (w.update sys (.setProcBuf p buf taken)) := logged _ rfl
      exact ⟨hlog.waiting, hlog.entries, hlog.stamp, hlog.phase, hlog.queued, hlog.reached⟩
  | delayClose c' =>
      show SocketKept c w (if _ then _ else w)
      split
      · have hclosing := hset w (fun cli => { cli with closing := true }) hfor
        exact ⟨hclosing.waiting, hclosing.entries, rfl, rfl, List.prefix_append _ _, rfl⟩
      · exact refl c w
  | procDelayClose p =>
      show SocketKept c w (if _ then _ else w)
      split
      · exact ⟨fun _ => rfl, fun _ he _ _ => he, rfl, rfl, List.prefix_rfl, rfl⟩
      · exact refl c w
  | timer call => exact hfor.elim
  | enter r =>
      refine ⟨fun _ => rfl, fun _ he _ _ => he, rfl, rfl, List.prefix_rfl, ?_⟩
      refine of_log [.enter r] rfl ?_
      cases r with
      | client c' h fd timeout =>
          have hother : c' ≠ c := fun he => hne (Option.some.inj hfor) he.symm
          simp [Act.reaches, hother]
      | proc p h ok => rfl
      | onTimer u => rfl
  | close o' => exact logged w rfl

end SocketKept

/-- **A function of another object.** -/
theorem Updates.socketKept {o : Owner γ ρ} {ks : List Kind} (hd : Updates sys (Within o ks) w w')
    (ho : o ≠ .client c) : SocketKept c w w' :=
  hd.keeps (P := SocketKept c w) (fun v _ hq hv => hv.trans (.update sys v hq.1 ho)) (.refl c w)

/-- **A call** of something else. -/
theorem perform_socketKept (hown : w.Owned) {e : Call γ ρ υ} (ho : e.owner ≠ some (.client c))
    {r : Int × (Int × Nat) × World γ ρ υ κ} (h : w.perform sys e = some r) :
    SocketKept c w r.2.2 := by
  refine perform_keeps hown h (P := SocketKept c w) ?_ ?_ (.refl c w)
  · intro v o d he hq hv
    exact hv.trans (.update sys v hq.1 fun hc => ho (by rw [he, hc]))
  · intro v call u hu hv
    refine hv.trans (.setTimers v ?_)
    rw [hu]
    rintro dir ⟨⟩

/-! ## The timers of the round -/

/-- The timers of the socket are not due in this round, nor armed in the next. -/
structure TimersNotDue (w : World γ ρ υ κ) (c : γ) : Prop where
  notDue : ∀ dir, ¬ w.DueNow (.client c dir)
  over_ : c ∈ w.pendingClients ∧ w.phase ≠ .poll ∨
    ∀ dir, ((w.clients c).timer dir).waiting = false

omit [DecidableEq ρ] [DecidableEq υ] in
theorem TimersNotDue.socketKept (h : w.TimersNotDue c) (hb : SocketKept c w w') :
    w'.TimersNotDue c := by
  refine ⟨?_, ?_⟩
  · intro dir hdue
    refine h.notDue dir ?_
    unfold DueNow at hdue ⊢
    rw [hb.phase] at hdue
    cases hp : w.phase with
    | dispatch batch later =>
        rw [hp] at hdue
        obtain ⟨e, he, ht, hle⟩ := hdue
        exact ⟨e, hb.entries e he dir ht, ht, hb.stamp ▸ hle⟩
    | timers batch flag =>
        rw [hp] at hdue
        exact hdue
    | idle => simp [hp] at hdue
    | procsFree i => simp [hp] at hdue
    | clientsFree i => simp [hp] at hdue
    | poll => simp [hp] at hdue
  · rw [hb.phase]
    rcases h.over_ with ⟨hpending, hpoll⟩ | hwait
    · refine .inl ⟨?_, hpoll⟩
      unfold pendingClients at hpending ⊢
      rw [hb.phase]
      cases hp : w.phase with
      | clientsFree i =>
          rw [hp] at hpending
          exact (hb.queued.drop i).subset hpending
      | idle =>
          rw [hp] at hpending
          exact hb.queued.subset hpending
      | procsFree i =>
          rw [hp] at hpending
          exact hb.queued.subset hpending
      | poll => exact absurd hp hpoll
      | dispatch batch later =>
          rw [hp] at hpending
          exact hb.queued.subset hpending
      | timers batch flag =>
          rw [hp] at hpending
          exact hb.queued.subset hpending
    · right
      intro dir
      rw [hb.waiting]
      exact hwait dir

/-- A function that enters nothing but `on_close`. -/
theorem Updates.reached_silent {o : Owner γ ρ} {ks : List Kind}
    (hd : Updates sys (Within o ks) w w') (henter : .enter ∉ ks) : w'.reached c = w.reached c := by
  refine hd.keeps (P := fun v => v.reached c = w.reached c) ?_ rfl
  intro v d hq hv
  rw [← hv]
  refine SocketKept.of_log _ (update_acts sys v d) ?_
  cases d with
  | enter r =>
      have hclose : r.isClose = true := by
        by_contra hno
        refine henter ?_
        simpa [Update.kind, hno] using hq.2
      cases r with
      | client c' h fd timeout =>
          have hon : h = .onClose := by simpa [Running.isClose] using hclose
          simp [Update.acts, Act.reaches, hon]
      | proc p h ok => rfl
      | onTimer u => rfl
  | _ => rfl

omit [DecidableEq ρ] in
/-- **A close** leaves neither timer waiting. -/
theorem close_waiting (w : World γ ρ υ κ) (c : γ) (dir : Dir) :
    (((w.close c).clients c).timer dir).waiting = false := by
  unfold World.close
  dsimp only
  rw [clients_callHandler]
  show ((((w.disarmTimer c .read).disarmTimer c .write).clients c).timer dir).waiting = false
  rw [disarmTimer_waiting, disarmTimer_waiting]
  cases dir <;> rfl

namespace TimersNotDue

omit [DecidableEq γ] [DecidableEq ρ] [DecidableEq υ] in
/-- **The loop goes on**, with the socket still to be closed if it was. -/
theorem goOn (h : w.TimersNotDue c) (hclients : w'.clients = w.clients)
    (hpending : c ∈ w.pendingClients → c ∈ w'.pendingClients) (hpoll : w'.phase ≠ .poll)
    (hdue : ∀ dir, ¬ w'.DueNow (.client c dir)) : w'.TimersNotDue c := by
  refine ⟨hdue, ?_⟩
  rcases h.over_ with ⟨hin, -⟩ | hwait
  · exact .inl ⟨hpending hin, hpoll⟩
  · right
    rw [hclients]
    exact hwait

omit [DecidableEq γ] [DecidableEq ρ] [DecidableEq υ] in
theorem dispatch (h : w.TimersNotDue c) {batch batch' : List (Event.EpollEvent (File γ ρ))}
    {later later' : Option (File γ ρ × Callback)} (hp : w.phase = .dispatch batch later) :
    (w.setPhase (.dispatch batch' later')).TimersNotDue c := by
  refine h.goOn rfl ?_ (by rintro ⟨⟩) ?_
  · rw [pendingClients, hp]
    exact id
  · intro dir hdue
    refine h.notDue dir ?_
    rw [DueNow, hp]
    exact hdue

omit [DecidableEq γ] [DecidableEq ρ] [DecidableEq υ] in
theorem timers (h : w.TimersNotDue c) {batch batch' : List (TimerName γ υ)}
    {flag flag' : Option (γ × Dir)} (hp : w.phase = .timers batch flag) (hsub : batch' ⊆ batch) :
    (w.setPhase (.timers batch' flag')).TimersNotDue c := by
  refine h.goOn rfl ?_ (by rintro ⟨⟩) ?_
  · rw [pendingClients, hp]
    exact id
  · intro dir hdue
    refine h.notDue dir ?_
    rw [DueNow, hp]
    exact hsub hdue

/-- Another socket is closed, or this one. -/
theorem close (sys : Sys γ ρ κ) (h : w.TimersNotDue c) {i : Nat} {c' : γ} (hp : w.phase = .clientsFree i)
    (hi : w.clientsFree[i]? = some c') :
    ((w.setPhase (.clientsFree (i + 1))).close c').TimersNotDue c ∧
      ((w.setPhase (.clientsFree (i + 1))).close c').reached c = w.reached c := by
  have hd : Updates sys _ (w.setPhase (.clientsFree (i + 1)))
    ((w.setPhase (.clientsFree (i + 1))).close c') := close_updates c'
  by_cases hc : c' = c
  · subst hc
    refine ⟨⟨?_, .inr (close_waiting _ _)⟩, hd.reached_silent (by decide)⟩
    intro dir hdue
    rw [DueNow, hd.phase_eq] at hdue
    exact hdue
  · have hkept := hd.socketKept (c := c) fun he => hc (Owner.client.inj he)
    refine ⟨TimersNotDue.socketKept ?_ hkept, hkept.reached⟩
    refine h.goOn rfl ?_ (by rintro ⟨⟩) fun _ hdue => hdue
    intro hpending
    rw [pendingClients, hp] at hpending
    change c ∈ w.clientsFree.drop i at hpending
    show c ∈ w.clientsFree.drop (i + 1)
    obtain ⟨hlt, hget⟩ := List.getElem?_eq_some_iff.mp hi
    rw [List.drop_eq_getElem_cons hlt, hget] at hpending
    exact (List.mem_cons.mp hpending).resolve_left (Ne.symm hc)

omit [DecidableEq ρ] in
/-- In front of `epoll_wait` the timers of the socket are disarmed, so that it
leaves nothing to be due. -/
theorem fetch (h : w.TimersNotDue c) (hflags : w.FlagsRight c) (hp : w.phase = .poll)
    (answer : Answer) : (w.fetch sys answer).TimersNotDue c := by
  have hwait := h.over_.resolve_left fun hleft => hleft.2 hp
  refine ⟨?_, .inr hwait⟩
  rintro dir ⟨e, he, ht, -⟩
  have harmed := hflags dir
  rw [hwait dir] at harmed
  exact harmed.no_entry he ht

omit [DecidableEq γ] [DecidableEq ρ] [DecidableEq υ] in
/-- The timers of the round were due before. -/
theorem triggerTimers (h : w.TimersNotDue c) (hp : w.phase = .dispatch [] none) :
    w.triggerTimers.TimersNotDue c := by
  unfold World.triggerTimers
  split
  · refine h.goOn rfl ?_ (by rintro ⟨⟩) ?_
    · rw [pendingClients, hp]
      exact id
    · intro dir hdue
      obtain ⟨e, he, ht⟩ := List.mem_map.mp hdue
      refine h.notDue dir ?_
      rw [DueNow, hp]
      exact ⟨e, List.takeWhile_subset _ he, ht, Timer.Timers.le_of_mem_expired he⟩
  · refine h.goOn rfl ?_ (by rintro ⟨⟩) fun _ hdue => hdue
    rw [pendingClients, hp]
    exact id

/-- The timer that fires is not of the socket. -/
theorem fire (sys : Sys γ ρ κ) (h : w.TimersNotDue c) {t : TimerName γ υ} {batch : List (TimerName γ υ)}
    (hp : w.phase = .timers (t :: batch) none) :
    (w.fire t batch).TimersNotDue c ∧ (w.fire t batch).reached c = w.reached c := by
  cases t with
  | client c' dir =>
      have hd : Updates sys _ (w.setPhase (.timers batch (some (c', dir))))
        (w.fire (.client c' dir) batch) := onTimer_updates c' dir
      have hkept := hd.socketKept (c := c) ?_
      · exact ⟨(h.timers hp (List.subset_cons_self _ _)).socketKept hkept, hkept.reached⟩
      · rintro ⟨⟩
        refine h.notDue dir ?_
        rw [DueNow, hp]
        exact List.mem_cons_self
  | user u =>
      have hkept : SocketKept c (w.setPhase (.timers batch none)) (w.fire (.user u) batch) :=
        ⟨fun _ => rfl, fun _ he _ _ => he, rfl, rfl, List.prefix_rfl,
          SocketKept.of_log [.enter (.onTimer u)] rfl rfl⟩
      exact ⟨(h.timers hp (List.subset_cons_self _ _)).socketKept hkept, hkept.reached⟩

end TimersNotDue

/-- **A step of `wait`** calls no handler of the socket but `on_close`. -/
theorem AfterClose.move (h : w.AfterClose c) (hown : w.Owned) {answer : Answer}
    (hm : Move sys answer w w') : w'.TimersNotDue c ∧ w'.reached c = w.reached c := by
  have hown' : ∀ phase, (w.setPhase phase).Owned := fun _ => ⟨hown.client, hown.proc⟩
  have hround : w.TimersNotDue c := ⟨h.notDue, h.over_⟩
  have hkept : ∀ {phase : Phase γ ρ υ}, (w.setPhase phase).TimersNotDue c →
      SocketKept c (w.setPhase phase) w' → w'.TimersNotDue c ∧ w'.reached c = w.reached c :=
    fun hp hb => ⟨hp.socketKept hb, hb.reached⟩
  cases hm with
  | procClose hp hi =>
      rename_i i p
      have hd : Updates sys _ (w.setPhase (.procsFree (i + 1)))
        ((w.setPhase (.procsFree (i + 1))).procClose p) := procClose_updates p
      refine hkept ?_ (hd.socketKept (by rintro ⟨⟩))
      refine hround.goOn rfl ?_ (by rintro ⟨⟩) fun _ hdue => hdue
      rw [pendingClients, hp]
      exact id
  | procsDone hp hi =>
      refine ⟨hround.goOn rfl ?_ (by rintro ⟨⟩) fun _ hdue => hdue, rfl⟩
      rw [pendingClients, hp]
      exact id
  | close hp hi => exact hround.close sys hp hi
  | clientsDone hp hi =>
      refine ⟨⟨fun _ hdue => hdue, ?_⟩, rfl⟩
      rcases h.over_ with ⟨hpending, -⟩ | hwait
      · -- there is no socket left to be closed
        rw [pendingClients, hp] at hpending
        change c ∈ w.clientsFree.drop _ at hpending
        rw [List.drop_eq_nil_of_le (List.getElem?_eq_none_iff.mp hi)] at hpending
        cases hpending
      · exact .inr hwait
  | fetch hp => exact ⟨hround.fetch h.flagsRight hp answer, rfl⟩
  | skip hp hl => exact ⟨hround.dispatch hp, rfl⟩
  | read hp hl hptr hhit hproc hc =>
      rename_i ee batch later fe proc
      refine hkept (hround.dispatch hp) ((callback_updates (hown' _) hc).socketKept ?_)
      intro hfe
      have hnone := h.events ee (by rw [World.events, hp]; exact List.mem_cons_self) fe hptr hfe
        .read hhit
      rw [hnone] at hproc
      cases hproc
  | write hp hc =>
      refine hkept (hround.dispatch hp) ((callback_updates (hown' _) hc).socketKept ?_)
      exact h.later _ (by rw [World.later, hp]; rfl)
  | trigger hp =>
      refine ⟨hround.triggerTimers hp, ?_⟩
      unfold World.triggerTimers
      split <;> rfl
  | clearFlag hp =>
      rename_i batch c' dir
      exact hkept (hround.timers hp fun _ ht => ht)
        (.setClient _ c' (f := (·.setFlag dir false)) fun _ _ _ => rfl)
  | fire hp => exact hround.fire sys hp
  | done hp =>
      refine ⟨hround.goOn rfl ?_ (by rintro ⟨⟩) fun _ hdue => hdue, rfl⟩
      rw [pendingClients, hp]
      exact id

/-- In front of `epoll_wait` no handler runs. -/
def NoHandlerAtPoll (w : World γ ρ υ κ) : Prop := w.phase = .poll → w.running = none

/-- **One step**: the loop comes there when `before_wait` is through. -/
theorem NoHandlerAtPoll.step (h : w.NoHandlerAtPoll) (hown : w.Owned) {l : Label γ ρ υ}
    (hs : w.step sys l = some w') : w'.NoHandlerAtPoll := by
  have hown' : ∀ phase, (w.setPhase phase).Owned := fun _ => ⟨hown.client, hown.proc⟩
  have hpast : ∀ {phase : Phase γ ρ υ}, w'.phase = phase → phase ≠ .poll → w'.NoHandlerAtPoll :=
    fun hp hne hpoll => absurd (hp.symm.trans hpoll) hne
  cases stepped hs with
  | call hm hp =>
      rename_i e r
      intro hpoll
      have hphase : w.phase = .poll := (perform_phase hown hp).symm.trans hpoll
      rw [mayCall, h hphase, hphase] at hm
      cases hm
  | ret hr => exact fun _ => rfl
  | wait hr hp => exact hpast rfl (by rintro ⟨⟩)
  | next hr hm =>
      cases hm with
      | procClose hp hi =>
          rename_i i p
          have hd : Updates sys _ (w.setPhase (.procsFree (i + 1)))
            ((w.setPhase (.procsFree (i + 1))).procClose p) := procClose_updates p
          exact hpast hd.phase_eq (by rintro ⟨⟩)
      | procsDone hp hi => exact hpast rfl (by rintro ⟨⟩)
      | close hp hi =>
          rename_i i c'
          have hd : Updates sys _ (w.setPhase (.clientsFree (i + 1)))
            ((w.setPhase (.clientsFree (i + 1))).close c') := close_updates c'
          exact hpast hd.phase_eq (by rintro ⟨⟩)
      | clientsDone hp hi => exact fun _ => hr
      | fetch hp => exact hpast rfl (by rintro ⟨⟩)
      | skip hp hl => exact hpast rfl (by rintro ⟨⟩)
      | read hp hl hptr hhit hproc hc =>
          exact hpast (callback_updates (hown' _) hc).phase_eq (by rintro ⟨⟩)
      | write hp hc => exact hpast (callback_updates (hown' _) hc).phase_eq (by rintro ⟨⟩)
      | trigger hp =>
          unfold triggerTimers
          split
          · rintro ⟨⟩
          · rintro ⟨⟩
      | clearFlag hp => exact hpast rfl (by rintro ⟨⟩)
      | fire hp =>
          rename_i t batch
          cases t with
          | client c' dir =>
              have hd : Updates sys _ (w.setPhase (.timers batch (some (c', dir))))
                (w.fire (.client c' dir) batch) := onTimer_updates c' dir
              exact hpast hd.phase_eq (by rintro ⟨⟩)
          | user u => exact hpast rfl (by rintro ⟨⟩)
      | done hp => exact hpast rfl (by rintro ⟨⟩)

/-! ## A run over epoll -/

section Epoll

variable {espipe : Int → Bool} {fd : File γ ρ → Int}
  {w w' : World γ ρ υ (Event.EventEpoll (Event.EpollSet (File γ ρ)))}

/-- The events that are still to come, without a call on the socket. -/
theorem AfterClose.reports (h : w.AfterClose c) (hp : w.Polled fd espipe) {l : Label γ ρ υ}
    (honce : Once l) (hno : ∀ e, l = .call e → e.owner ≠ some (.client c))
    (hs : w.step (Sys.epoll espipe) l = some w') :
    (∀ ee ∈ w'.events, ∀ fe ∈ ee.ptr, fe.1 = .client c → ∀ dir, ee.hits dir = true →
      (w'.ev.files fe).proc dir = none) ∧ ∀ x ∈ w'.later, x.1.1 ≠ .client c := by
  have hkeep : ∀ {ee : Event.EpollEvent (File γ ρ)}, ee ∈ w.events → ∀ fe ∈ ee.ptr,
      fe.1 = .client c → ∀ dir, ee.hits dir = true → (w'.ev.files fe).proc dir = none := by
    intro ee hee fe hfe hc dir hhit
    refine proc_step hp.owned ?_ hs (h.events ee hee fe hfe hc dir hhit)
    rw [hc]
    exact hno
  have hnone : w'.later = none → ∀ x ∈ w'.later, x.1.1 ≠ .client c := by
    intro hl x hx
    rw [hl] at hx
    cases hx
  cases passes hp.owned hs with
  | same hl he =>
      refine ⟨fun ee hee => hkeep (he ▸ hee), ?_⟩
      rw [hl]
      exact h.later
  | taken he hl =>
      rename_i ee
      refine ⟨fun e hee => hkeep (he ▸ List.mem_cons_of_mem _ hee), ?_⟩
      intro x hx hc
      obtain ⟨hptr, hhit, hproc⟩ := hl x hx
      rw [h.events ee (he ▸ List.mem_cons_self) x.1 hptr hc .write hhit] at hproc
      cases hproc
  | called hl he => exact ⟨fun ee hee => hkeep (he ▸ hee), hnone hl⟩
  | over_ hl he =>
      refine ⟨?_, hnone hl⟩
      rw [he]
      rintro ee ⟨⟩
  | fetched hl hw =>
      subst hw
      refine ⟨?_, hnone rfl⟩
      rintro ee hee ⟨o, n⟩ hfe hc
      obtain ⟨fe, dir, hptr, hmask⟩ := hp.fetched (honce _ hl) hee
      -- what is fetched has something in its mask
      cases hc
      obtain rfl := Option.some.inj (hptr.symm.trans hfe)
      rw [((h.clear n).idle dir).1] at hmask
      cases hmask

/-- **One step** without a call on the socket calls none of its handlers but
`on_close`. -/
theorem AfterClose.step (h : w.AfterClose c) (hp : w.Polled fd espipe) {l : Label γ ρ υ}
    (honce : Once l) (hno : ∀ e, l = .call e → e.owner ≠ some (.client c))
    (hs : w.step (Sys.epoll espipe) l = some w') :
    w'.AfterClose c ∧ w'.reached c = w.reached c := by
  have hhushed : w.TimersNotDue c := ⟨h.notDue, h.over_⟩
  have hboth : w'.TimersNotDue c ∧ w'.reached c = w.reached c := by
    cases stepped hs with
    | call hm hperform =>
        rename_i e r
        have hb := (perform_socketKept hp.owned (hno e rfl) hperform).trans
          (.logged _ (a := .call e w.running r.1 r.2.1) rfl)
        exact ⟨hhushed.socketKept hb, hb.reached⟩
    | ret hr =>
        have hb : SocketKept c w { w with running := none } :=
          ⟨fun _ => rfl, fun _ he _ _ => he, rfl, rfl, List.prefix_rfl, rfl⟩
        exact ⟨hhushed.socketKept hb, hb.reached⟩
    | wait hr hidle =>
        refine ⟨⟨fun _ hdue => hdue, ?_⟩, SocketKept.of_log [.wait] rfl rfl⟩
        rcases h.over_ with ⟨hpending, -⟩ | hwait
        · refine .inl ⟨?_, by rintro ⟨⟩⟩
          rw [pendingClients, hidle] at hpending
          exact hpending
        · exact .inr hwait
    | next hr hm => exact h.move hp.owned hm
  obtain ⟨hevents, hlater⟩ := h.reports hp honce hno hs
  refine ⟨⟨⟨hevents, hlater, hboth.1.notDue, ?_⟩, ?_, hboth.1.over_⟩, hboth.2⟩
  · refine h.flagsRight.step hp.owned ?_ hs
    rintro ms b rfl
    exact absurd rfl (hno _ rfl)
  · intro n
    exact clear_step (Event.EventEpoll.host_clears _ espipe) hp.typesOk hp.ringed hp.owned hno hs
      (h.clear n)

omit [DecidableEq υ] in
/-- A first `close_await` puts the socket into the list, and touches no timer. -/
theorem closeAwait_queued (sys : Sys γ ρ κ) (w : World γ ρ υ κ)
    (hfirst : (w.clients c).closing = false) :
    (w.closeAwait sys c).clientsFree = w.clientsFree ++ [c] ∧
      (w.closeAwait sys c).timers = w.timers ∧ (w.closeAwait sys c).phase = w.phase ∧
      ((w.closeAwait sys c).clients c).closing = true ∧
      ((w.closeAwait sys c).clients c).fe = (w.clients c).fe := by
  have hqueue : ∀ v : World γ ρ υ κ, v.clients = w.clients → v.clientsFree = w.clientsFree →
      v.timers = w.timers → v.phase = w.phase →
      let u := (v.delayClose c).setClient c fun cli => { cli with closing := true }
      u.clientsFree = w.clientsFree ++ [c] ∧ u.timers = w.timers ∧ u.phase = w.phase ∧
        (u.clients c).closing = true ∧ (u.clients c).fe = (w.clients c).fe := by
    intro v hc hf ht hp
    simp [delayClose, World.setClient, hfirst, hc, hf, ht, hp]
  unfold closeAwait
  rw [hfirst]
  simp only [Bool.not_false, if_true]
  split
  · split
    · exact hqueue _ rfl rfl rfl rfl
    · exact hqueue _ rfl rfl rfl rfl
  · exact hqueue _ rfl rfl rfl rfl

/-- **`close_await`** of a socket that nothing is on its way to. -/
theorem CloseFinds.closeAwait (h : w.CloseFinds c) (hneg : ∀ d < 0, espipe d = false)
    (hp : w.Polled fd espipe) (hunused : w.Unused c) (hin : w.InList) (hcalm : w.NoHandlerAtPoll)
    (hfirst : (w.clients c).closing = false)
    (hs : w.step (Sys.epoll espipe) (.call (.closeAwait c)) = some w') : w'.AfterClose c := by
  have hclears : (Sys.epoll (γ := γ) (ρ := ρ) espipe).host.Clears :=
    Event.EventEpoll.host_clears _ espipe
  have htimed : w'.FlagsRight c := h.flagsRight.step hp.owned (by rintro ms b ⟨⟩) hs
  cases stepped hs with
  | call hm hperform =>
      cases hperform
      obtain ⟨hfree, htimers, hphase, hclosing, hfe⟩ :=
        closeAwait_queued (Sys.epoll espipe) w hfirst
      have hupdates : Updates (Sys.epoll espipe) _ w (w.closeAwait (Sys.epoll espipe) c) :=
        closeAwait_updates hp.owned c
      have hevents : (w.closeAwait (Sys.epoll espipe) c).events = w.events := by
        unfold World.events
        rw [hphase]
      refine ⟨⟨?_, ?_, ?_, htimed⟩, ?_, .inl ⟨?_, ?_⟩⟩
      · intro ee hee fe hptr hc dir hhit
        have hnone := h.events ee (hevents ▸ hee) fe hptr hc dir hhit
        rcases hupdates.noNewCallback (by decide) fe dir with hsame | hgone
        · exact hsame.trans hnone
        · exact hgone
      · intro x hx
        exact h.later x (hupdates.later_eq ▸ hx)
      · intro dir hdue
        refine h.notDue dir ?_
        unfold DueNow at hdue ⊢
        change (match (w.closeAwait (Sys.epoll espipe) c).phase with
          | .dispatch _ _ => ∃ e ∈ (w.closeAwait (Sys.epoll espipe) c).timers.timers,
              e.2 = .client c dir ∧ e.1 ≤ (w.closeAwait (Sys.epoll espipe) c).timers.stamp
          | .timers batch _ => .client c dir ∈ batch
          | _ => False) at hdue
        rw [hphase, htimers] at hdue
        exact hdue
      · intro n
        have hsettled : ClearOnceClosing (Sys.epoll espipe) w c := by
          refine ⟨hp.owned, hp.typesOk, hp.ringed, ?_⟩
          rw [hfirst]
          rintro ⟨⟩
        have hclosed := hsettled.closeAwait hclears hneg
        have hwas : (w.clients c).fe = some (.client c, n) ∨ w.ev.Clear (.client c, n) := by
          rcases Nat.lt_or_ge n (w.allocated (.client c)) with hlt | hge
          · exact h.files n hlt
          · exact .inr (hunused n hge).2
        rcases hwas with hown | hclear
        · exact hclosed.clear hclosing _ (hfe.trans hown)
        · rcases closeAwait_ev (Sys.epoll espipe) w c with heq | ⟨fe, -, heq⟩
          · exact heq ▸ hclear
          · show (w.closeAwait (Sys.epoll espipe) c).ev.Clear _
            rw [heq]
            exact hclear.apply hclears hp.typesOk hp.ringed _ (by rintro dir proc ⟨⟩)
      · have hpush : (w.closeAwait (Sys.epoll espipe) c).pendingClients
            = w.pendingClients ++ [c] := pendingClients_push hin hphase hfree
        show c ∈ (w.closeAwait (Sys.epoll espipe) c).pendingClients
        rw [hpush]
        exact List.mem_append_right _ List.mem_cons_self
      · show (w.closeAwait (Sys.epoll espipe) c).phase ≠ .poll
        rw [hphase]
        intro hpoll
        rw [mayCall, hcalm hpoll, hpoll] at hm
        cases hm

end Epoll

end World

section Run

variable {γ ρ υ : Type} [DecidableEq γ] [DecidableEq ρ] [DecidableEq υ]

/-- **Silence behind `close_await`**: if nothing is on its way to the socket when
it is called first, no handler of the socket is called any more but `on_close`:
whatever has happened before, whatever the other objects do, and whatever the
kernel answers. -/
theorem closed_silent (setup : Setup γ ρ) (oneshot direct : Bool) (setsize : Int)
    (fd : File γ ρ → Int) (espipe : Int → Bool) (hneg : ∀ d < 0, espipe d = false)
    (sec nsec : Int) (pre post : List (Label γ ρ υ)) (c : γ)
    {v w w' : World γ ρ υ (Event.EventEpoll (Event.EpollSet (File γ ρ)))}
    (hpre : Trace.run (World.step (Sys.epoll espipe))
      (World.start setup oneshot direct setsize fd ⟨fun _ => none, 0⟩ sec nsec) pre = some v)
    (hfirst : (v.clients c).closing = false)
    (hclose : v.step (Sys.epoll espipe) (.call (.closeAwait c)) = some w)
    (hpost : Trace.run (World.step (Sys.epoll espipe)) w post = some w')
    (honce : ∀ l ∈ pre ++ post, World.Once l)
    (hno : ∀ l ∈ post, l.owner ≠ some (.client c)) (hparted : v.CloseFinds c) :
    w'.reached c = w.reached c := by
  obtain ⟨hpolled, hunused, horderly, hcalm⟩ :
      v.Polled fd espipe ∧ v.Unused c ∧ Orderly v ∧ v.NoHandlerAtPoll := by
    refine Trace.run_induct
      (I := fun u => u.Polled fd espipe ∧ u.Unused c ∧ Orderly u ∧ u.NoHandlerAtPoll) ?_
      (Trace.meets_of_mem fun l hl => honce l (List.mem_append_left _ hl))
      ⟨World.polled_start setup oneshot direct setsize fd espipe sec nsec,
        World.unused_start setup oneshot direct setsize fd _ sec nsec c,
        orderly_start .., by rintro ⟨⟩⟩ hpre
    intro u l u' hl hu hs
    obtain ⟨hp, hun, ho, hc⟩ := hu
    exact ⟨hp.step hl hs, hun.step (Event.EventEpoll.host_clears _ espipe) hp.typesOk hp.ringed
      hp.owned hs, ho.step hs, hc.step hp.owned hs⟩
  have hsilent := hparted.closeAwait hneg hpolled hunused horderly.inList hcalm hfirst hclose
  have hpolled' := hpolled.step (fun _ he => by cases he) hclose
  have hquiet : Trace.Meets (World.step (Sys.epoll espipe)) (fun _ l => World.Once l ∧
      ∀ e, l = .call e → e.owner ≠ some (.client c)) w post := by
    refine Trace.meets_of_mem ?_
    intro l hl
    refine ⟨honce l (List.mem_append_right _ hl), ?_⟩
    rintro e rfl
    exact hno _ hl
  have hrun := Trace.run_induct
    (I := fun u => u.Polled fd espipe ∧ u.AfterClose c ∧ u.reached c = w.reached c)
    (fun u l u' hl hu hs =>
      have hstep := hu.2.1.step hu.1 hl.1 hl.2 hs
      ⟨hu.1.step hl.1 hs, hstep.1, hstep.2.trans hu.2.2⟩)
    hquiet ⟨hpolled', hsilent, rfl⟩ hpost
  exact hrun.2.2

/-- A socket that is closed by its `on_read`, with the write timer armed and an
event of another socket behind its own: that one is still called, and so is
`on_close`, and then nothing. -/
theorem closed_silent_reading :
    let start := World.fresh (.handled true false) false File.number
    let readable : Answer :=
      ⟨[(0, ⟨true, false, false, false⟩), (1, ⟨true, false, false, false⟩)], 9, 0, .wouldBlock,
        true⟩
    let pre : List (Label Nat Nat Nat) :=
      [.call (.readAwait 0 0), .call (.writeAwait 0 60000), .call (.readAwait 1 0), .wait,
        .next readable, .next readable, .next readable, .next readable]
    let late : Answer := ⟨[(0, ⟨true, true, true, true⟩)], 900, 0, .wouldBlock, true⟩
    let post : List (Label Nat Nat Nat) :=
      [.ret, .next readable, .ret, .next readable, .next readable, .wait, .next late, .next late,
        .ret, .next late, .next late, .next late]
    ∃ v w w', Trace.run (World.step .table) start pre = some v ∧
      v.step .table (.call (.closeAwait 0)) = some w ∧
      Trace.run (World.step .table) w post = some w' ∧
      v.reached 0 = 1 ∧ (closings (.client 0) w'.log).closed = [2] ∧
      w'.reached 0 = w.reached 0 := by
  intro start readable pre late post
  have hany : (Trace.run (World.step .table) start pre).any (fun v =>
      (Trace.run (World.step .table) v [.call (.closeAwait 0)]).any fun w =>
        (Trace.run (World.step .table) w post).any fun w' =>
          v.reached 0 = 1 && (closings (.client 0) w'.log).closed = [2] && !(v.clients 0).closing &&
            decide (v.CloseFinds 0)) = true := by
    decide +kernel
  obtain ⟨v, hpre, hv⟩ := Trace.run_any hany
  obtain ⟨w, hclose, hw⟩ := Trace.run_any hv
  obtain ⟨w', hpost, hw'⟩ := Trace.run_any hw
  simp only [Bool.and_eq_true, Bool.not_eq_true', decide_eq_true_eq] at hw'
  obtain ⟨⟨⟨hreached, hclosed⟩, hfirst⟩, hparted⟩ := hw'
  rw [Trace.run_cons] at hclose
  obtain ⟨u, hstep, hu⟩ := Option.bind_eq_some_iff.mp hclose
  cases hu
  have hneg : ∀ d : Int, d < 0 → decide (0 ≤ d) = false := by
    intro d hd
    simpa using hd
  exact ⟨v, w, w', hpre, hstep, hpost, hreached, hclosed,
    closed_silent (.handled true false) false false 1024 _ _ hneg 0 0 pre post 0 hpre hfirst hstep
      hpost (by decide) (by decide) hparted⟩

/-- An event for both sides: `on_read` closes the socket, and `on_write` is called
behind it, since `w_proc` was read before. -/
theorem closed_called :
    let start := World.fresh (.handled true false) false File.turn
    let both : Answer := ⟨[(0, ⟨true, true, false, false⟩)], 0, 0, .wouldBlock, true⟩
    let pre : List (Label Nat Nat Nat) :=
      [.call (.readAwait 0 0), .call (.writeAwait 0 0), .wait, .next both, .next both, .next both,
        .next both]
    let post : List (Label Nat Nat Nat) := [.ret, .next both]
    (∀ l ∈ post, l.owner ≠ some (.client 0)) ∧
    ∃ v w w', Trace.run (World.step .table) start pre = some v ∧ (v.clients 0).closing = false ∧
      v.step .table (.call (.closeAwait 0)) = some w ∧
      Trace.run (World.step .table) w post = some w' ∧
      w'.running = some (.client 0 .onWrite 0 false) ∧ w'.reached 0 ≠ w.reached 0 := by
  intro start both pre post
  refine ⟨by decide, ?_⟩
  have hany : (Trace.run (World.step .table) start pre).any (fun v =>
      (Trace.run (World.step .table) v [.call (.closeAwait 0)]).any fun w =>
        (Trace.run (World.step .table) w post).any fun w' =>
          !(v.clients 0).closing && w'.running = some (.client 0 .onWrite 0 false) &&
            decide (w'.reached 0 ≠ w.reached 0)) = true := by
    decide +kernel
  obtain ⟨v, hpre, hv⟩ := Trace.run_any hany
  obtain ⟨w, hclose, hw⟩ := Trace.run_any hv
  obtain ⟨w', hpost, hw'⟩ := Trace.run_any hw
  simp only [Bool.and_eq_true, Bool.not_eq_true', decide_eq_true_eq] at hw'
  obtain ⟨⟨hfirst, hrunning⟩, hreached⟩ := hw'
  rw [Trace.run_cons] at hclose
  obtain ⟨u, hstep, hu⟩ := Option.bind_eq_some_iff.mp hclose
  cases hu
  exact ⟨v, w, w', hpre, hfirst, hstep, hpost, hrunning, hreached⟩

end Run

end Libnio.Socket
