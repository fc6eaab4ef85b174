import Libnio.Socket.Cancels

/-!
# Socket — one connect, one answer

How often `on_connect` is called after one `connect_await`: by the event or by
the timer. The event takes the timer away, and is itself never called twice;
the timer leaves the file registered, so that a writable event behind it calls
`on_connect` again.
-/

namespace Libnio.Socket

open Event (Dir)

/-- `on_connect` of the socket is entered, by a timer or not. -/
def Act.answers {γ ρ υ : Type} [DecidableEq γ] (c : γ) (timeout : Bool) : Act γ ρ υ → Bool
  | .enter (.client c' .onConnect _ t) => c' = c && t = timeout
  | _ => false

namespace World

variable {γ ρ υ κ : Type}

section Answers

variable [DecidableEq γ]

/-- The calls of `on_connect` of the socket by its timer, or by an event. -/
def answersBy (w : World γ ρ υ κ) (c : γ) (timeout : Bool) : Nat :=
  w.log.countP (Act.answers c timeout)

/-- The calls of `on_connect` of the socket. -/
def answers (w : World γ ρ υ κ) (c : γ) : Nat := w.answersBy c false + w.answersBy c true

/-- The socket and the file of the connect_callback that comes next. -/
def connectNext (w : World γ ρ υ κ) : Option (γ × Nat) :=
  match w.called with
  | some ((.client c, n), .connectCallback) => some (c, n)
  | _ => none

/-- A connect_callback of the socket does not come behind a call of `on_connect`
by its timer, counted from `w`. -/
def InTime (w : World γ ρ υ κ) (c : γ) (v : World γ ρ υ κ) : Prop :=
  ∀ x ∈ v.connectNext, x.1 = c → v.answersBy c true = w.answersBy c true

/-- The connect_callbacks of the socket come from the file it has in `w`. -/
def FromFile (w : World γ ρ υ κ) (c : γ) (v : World γ ρ υ κ) : Prop :=
  ∀ x ∈ v.connectNext, x.1 = c → (w.clients c).fe = some (.client c, x.2)

instance (w : World γ ρ υ κ) (c : γ) (v : World γ ρ υ κ) : Decidable (w.InTime c v) :=
  inferInstanceAs (Decidable (∀ x ∈ v.connectNext, _))

instance [DecidableEq ρ] (w : World γ ρ υ κ) (c : γ) (v : World γ ρ υ κ) :
    Decidable (w.FromFile c v) :=
  inferInstanceAs (Decidable (∀ x ∈ v.connectNext, _))

omit [DecidableEq γ] in
theorem connectNext_iff {w : World γ ρ υ κ} {c : γ} {n : Nat} :
    w.connectNext = some (c, n) ↔ w.called = some ((.client c, n), .connectCallback) := by
  unfold connectNext
  split
  · rename_i c' n' hc
    rw [hc]
    constructor
    · rintro ⟨⟩
      rfl
    · rintro ⟨⟩
      rfl
  · rename_i hno
    constructor
    · intro h
      cases h
    · intro h
      exact absurd h (hno c n)

theorem answersBy_mono {w w' : World γ ρ υ κ} (h : w.log <+: w'.log) {c : γ} {timeout : Bool} :
    w.answersBy c timeout ≤ w'.answersBy c timeout := by
  obtain ⟨acts, hacts⟩ := h
  unfold answersBy
  rw [← hacts, List.countP_append]
  exact Nat.le_add_right _ _

/-- So many calls of `on_connect`, by an event and by the timer. -/
structure Answers (c : γ) (event timeout : Nat) (w w' : World γ ρ υ κ) : Prop where
  event : w'.answersBy c false = w.answersBy c false + event
  timeout : w'.answersBy c true = w.answersBy c true + timeout

variable {w w' w'' : World γ ρ υ κ} {c : γ} {e t : Nat}

theorem Answers.of_acts (acts : List (Act γ ρ υ)) (h : w'.log = w.log ++ acts) :
    Answers c (acts.countP (Act.answers c false)) (acts.countP (Act.answers c true)) w w' := by
  refine ⟨?_, ?_⟩
  · unfold answersBy
    rw [h, List.countP_append]
  · unfold answersBy
    rw [h, List.countP_append]

theorem Answers.of_log (h : w'.log = w.log) : Answers c 0 0 w w' := by
  refine ⟨?_, ?_⟩
  · unfold answersBy
    rw [h, Nat.add_zero]
  · unfold answersBy
    rw [h, Nat.add_zero]

theorem Answers.then_ (h : Answers c 0 0 w w') (h' : Answers c e t w' w'') : Answers c e t w w'' :=
  ⟨by rw [h'.event, h.event, Nat.add_zero], by rw [h'.timeout, h.timeout, Nat.add_zero]⟩

theorem Answers.trans {e' t' : Nat} (h : Answers c e t w w') (h' : Answers c e' t' w' w'') :
    Answers c (e + e') (t + t') w w'' :=
  ⟨by rw [h'.event, h.event, Nat.add_assoc], by rw [h'.timeout, h.timeout, Nat.add_assoc]⟩

theorem Answers.callHandler (w : World γ ρ υ κ) (c' : γ) {h : Handler} (hne : h ≠ .onConnect)
    (fd : Int) (timeout : Bool) : Answers c 0 0 w (w.callHandler c' h fd timeout) := by
  unfold World.callHandler
  split
  · have hacts : ∀ t,
      List.countP (Act.answers c t) [Act.enter (.client c' h fd timeout : Running γ ρ υ)]
        = 0 := by
      intro t
      cases h <;> first | rfl | exact absurd rfl hne
    have hgives : Answers c _ _ w (w.enter (.client c' h fd timeout)) := .of_acts _ rfl
    rw [hacts, hacts] at hgives
    exact hgives
  · exact .of_log rfl

end Answers

variable [DecidableEq γ] [DecidableEq ρ] [DecidableEq υ] {sys : Sys γ ρ κ} {w w' : World γ ρ υ κ}
  {c : γ}

/-! ## Who calls `on_connect` -/

theorem Updates.answers {Q : Update γ ρ υ → Prop} (hd : Updates sys Q w w')
    (hq : ∀ d, Q d → ∀ t, d.acts.countP (Act.answers c t) = 0) : Answers c 0 0 w w' := by
  refine hd.keeps (P := Answers c 0 0 w) ?_ (.of_log rfl)
  intro v d hdq hv
  have hgives : Answers c _ _ v (v.update sys d) := .of_acts _ (update_acts sys v d)
  rw [hq d hdq, hq d hdq] at hgives
  exact hv.then_ hgives

/-- Another object does not call it, nor does a function that enters nothing but
`on_close`. -/
theorem Updates.answers_other {o : Owner γ ρ} {ks : List Kind} (hd : Updates sys (Within o ks) w w')
    (ho : o ≠ .client c) : Answers c 0 0 w w' := by
  refine hd.answers ?_
  rintro d ⟨hfor, -⟩ t
  cases d with
  | enter r =>
      cases r with
      | client c' h fd timeout =>
          have hne : c' ≠ c := by
            rintro rfl
            exact ho (Option.some.inj hfor).symm
          cases h with
          | onConnect =>
              simp [Update.acts, Act.answers, hne]
          | _ => rfl
      | _ => rfl
  | _ => rfl

theorem Updates.answers_silent {o : Owner γ ρ} {ks : List Kind}
    (hd : Updates sys (Within o ks) w w') (henter : .enter ∉ ks) : Answers c 0 0 w w' := by
  refine hd.answers ?_
  rintro d ⟨-, hk⟩ t
  cases d with
  | enter r =>
      by_cases hclose : r.isClose = true
      · cases r with
        | client c' h fd timeout =>
            cases h with
            | onConnect => cases hclose
            | _ => rfl
        | _ => rfl
      · rw [Update.kind, if_neg hclose] at hk
        exact absurd hk henter
  | _ => rfl

theorem perform_answers (hown : w.Owned) {call : Call γ ρ υ} {r : Int × (Int × Nat) × World γ ρ υ κ}
    (h : w.perform sys call = some r) : Answers c 0 0 w r.2.2 := by
  cases ho : call.owner with
  | none =>
      exact perform_user hown ho h (P := Answers c 0 0 w) (fun _ _ _ _ hv => hv.then_ (.of_log rfl))
        (.of_log rfl)
  | some o =>
      refine (perform_within hown ho h).answers_silent ?_
      cases call <;> simp [Call.kinds]

omit [DecidableEq ρ] in
theorem readCallback_answers (w : World γ ρ υ κ) (c' : γ) (fe : File γ ρ) :
    Answers c 0 0 w (w.readCallback c' fe) := by
  have hlog : ((w.setClient c' (·.setFlag .read false)).disarmTimer c' .read).log = w.log :=
    log_disarmTimer ..
  exact (Answers.of_log hlog).then_ (.callHandler (h := .onRead) _ c' (by decide) _ _)

omit [DecidableEq ρ] in
theorem writeCallback_answers (w : World γ ρ υ κ) (c' : γ) (fe : File γ ρ) (answer : WriteAnswer) :
    Answers c 0 0 w (w.writeCallback c' fe answer) := by
  have hlog : ((w.setClient c' (·.setFlag .write false)).disarmTimer c' .write).log = w.log :=
    log_disarmTimer ..
  have hset : Answers c 0 0 w ((w.setClient c' (·.setFlag .write false)).disarmTimer c' .write) :=
    .of_log hlog
  unfold writeCallback
  dsimp only
  generalize (w.setClient c' (·.setFlag .write false)).disarmTimer c' .write = v at hset
  split
  · -- the bytes that are taken are no call of a handler
    have hsent : Answers c 0 0 w ((v.setClient c' (·.setBuf
        (Outgoing.flush (v.clients c').buf answer).buf)).sent (.client c')
          (Outgoing.flush (v.clients c').buf answer).taken) := by
      refine hset.then_ ?_
      exact Answers.of_acts [.taken (.client c') _] rfl
    split
    · exact hsent.then_ (.callHandler (h := .onError) _ c' (by decide) _ _)
    · split
      · exact hsent
      · exact hsent.then_ (.callHandler (h := .onWrite) _ c' (by decide) _ _)
  · exact hset.then_ (.callHandler (h := .onWrite) _ c' (by decide) _ _)

/-- **The event** calls `on_connect` once. -/
theorem connectCallback_answers {fe : File γ ρ} {connected : Bool}
    (h : w.connectCallback sys c fe connected = some w') : Answers c 1 0 w w' := by
  unfold connectCallback at h
  dsimp only at h
  obtain ⟨-, h⟩ := Option.ite_none_right_eq_some.mp h
  cases h
  have hlog : ∀ v : World γ ρ υ κ, ((if ((v.clients c).timer .write).connecting then
      ((v.setClient c (·.setWaiting .write false)).setClient c
          (·.setConnecting .write false)).setTimers
        (((v.setClient c (·.setWaiting .write false)).setClient c
          (·.setConnecting .write false)).timers.delTimer (.client c .write))
      else v) : World γ ρ υ κ).log = v.log := by
    intro v
    split <;> rfl
  have henter : ∀ {v : World γ ρ υ κ} (fd : Int), v.log = w.log →
      Answers c 1 0 w (v.enter (.client c .onConnect fd false)) := by
    intro v fd hv
    have hgives : Answers c _ _ w (v.enter (.client c .onConnect fd false)) :=
      .of_acts [.enter (.client c .onConnect fd false)] (by rw [← hv]; rfl)
    simpa [Act.answers] using hgives
  cases connected with
  | true => exact henter _ (hlog (w.setClient c (·.setFlag .write false)))
  | false => exact henter _ (hlog (w.setClient c (·.setFlag .write false)))

omit [DecidableEq ρ] [DecidableEq υ] in
/-- **The timer** calls it if the socket is connecting. -/
theorem onTimer_answers (w : World γ ρ υ κ) (c' : γ) (dir : Dir) :
    Answers c 0 0 w (w.onTimer c' dir) ∨
      c' = c ∧ dir = .write ∧ ((w.clients c).timer .write).connecting = true ∧
        Answers c 0 1 w (w.onTimer c' dir) := by
  have hset : ∀ v : World γ ρ υ κ, v.log = w.log → Answers c 0 0 w v := fun v hv => .of_log hv
  unfold onTimer
  cases dir with
  | read =>
      left
      refine Answers.then_ (hset _ ?_) (.callHandler (h := .onRead) _ c' (by decide) _ _)
      rfl
  | write =>
      dsimp only
      split
      · rename_i hconnecting
        rw [setClient_self, setClient_self] at hconnecting
        change (((w.clients c').setWaiting .write false).timer .write).connecting
          = true at hconnecting
        rw [ClientSocket.setWaiting_self] at hconnecting
        unfold callHandler
        split
        · have henter : ∀ v : World γ ρ υ κ, v.log = w.log →
              Answers c 0 (if c' = c then 1 else 0) w
                (v.enter (.client c' .onConnect (w.clientFd c') true)) := by
            intro v hv
            have hgives : Answers c _ _ w (v.enter (.client c' .onConnect (w.clientFd c') true)) :=
              .of_acts [.enter (.client c' .onConnect (w.clientFd c') true)] (by rw [← hv]; rfl)
            simpa [Act.answers, List.countP_cons] using hgives
          by_cases hc : c' = c
          · subst hc
            refine .inr ⟨rfl, rfl, hconnecting, ?_⟩
            rw [if_pos rfl] at henter
            exact henter _ (by rfl)
          · rw [if_neg hc] at henter
            exact .inl (henter _ (by rfl))
        · exact .inl (hset _ rfl)
      · left
        refine Answers.then_ (hset _ ?_) (.callHandler (h := .onWrite) _ c' (by decide) _ _)
        rfl

omit [DecidableEq ρ] [DecidableEq υ] in
theorem Answers.logged (w : World γ ρ υ κ) (c : γ) {a : Act γ ρ υ}
    (ha : ∀ timeout, a.answers c timeout = false) : Answers c 0 0 w (w.logged a) := by
  have hgives : Answers c _ _ w (w.logged a) := .of_acts [a] rfl
  simpa [ha] using hgives

/-- The timer that a connect has armed may still answer it. -/
def Pending (w : World γ ρ υ κ) (c : γ) : Prop := ((w.clients c).timer .write).connecting = true

/-- **A callback** of the loop. -/
theorem callback_answers (hown : w.Owned) {fe : File γ ρ} {proc : Callback} {answer : Answer}
    (h : w.callback sys fe proc answer = some w') :
    Answers c 0 0 w w' ∧ (w'.Pending c → w.Pending c) ∨
      Answers c 1 0 w w' ∧ ¬ w'.Pending c ∧ fe.1 = .client c ∧ proc = .connectCallback := by
  have hupdates := callback_updates hown h
  have hpending : w'.Pending c → w.Pending c := by
    refine hupdates.connecting ?_ c
    cases proc <;> decide
  by_cases ho : fe.1 = .client c
  · obtain ⟨o, n⟩ := fe
    cases ho
    cases proc with
    | connectCallback =>
        refine .inr ⟨connectCallback_answers h, ?_, rfl, rfl⟩
        unfold Pending
        rw [connectCallback_connecting h]
        exact Bool.false_ne_true
    | readCallback =>
        cases h
        exact .inl ⟨readCallback_answers w c _, hpending⟩
    | writeCallback =>
        cases h
        exact .inl ⟨writeCallback_answers w c _ _, hpending⟩
    | connectProc => cases h
    | readProc => cases h
    | writeProc => cases h
  · exact .inl ⟨hupdates.answers_other ho, hpending⟩

/-- The callback that is called next, in any part of the loop. -/
theorem called_answers (hown : w.Owned) {fe : File γ ρ} {proc : Callback} {phase : Phase γ ρ υ}
    {answer : Answer} (hcalled : w.called = some (fe, proc))
    (h : (w.setPhase phase).callback sys fe proc answer = some w') :
    Answers c 0 0 w w' ∧ (w'.Pending c → w.Pending c) ∨
      Answers c 1 0 w w' ∧ ¬ w'.Pending c ∧
        ∃ n, w.called = some ((.client c, n), .connectCallback) := by
  have hown' : (w.setPhase phase).Owned := ⟨hown.client, hown.proc⟩
  have hphase : Answers c 0 0 w (w.setPhase phase) := .of_log rfl
  rcases callback_answers (c := c) hown' h with ⟨hg, hpend⟩ | ⟨hg, hpend, ho, rfl⟩
  · exact .inl ⟨hphase.then_ hg, hpend⟩
  · obtain ⟨o, n⟩ := fe
    cases ho
    exact .inr ⟨hphase.then_ hg, hpend, n, hcalled⟩

/-- **A timer** that fires. -/
theorem fire_answers (sys : Sys γ ρ κ) (w : World γ ρ υ κ) (c : γ) (t : TimerName γ υ)
    (batch : List (TimerName γ υ)) :
    Answers c 0 0 w (w.fire t batch) ∧ ((w.fire t batch).Pending c → w.Pending c) ∨
      Answers c 0 1 w (w.fire t batch) ∧ w.Pending c ∧ ¬ (w.fire t batch).Pending c := by
  have hphase : ∀ phase, Answers c 0 0 w (w.setPhase phase) := fun _ => .of_log rfl
  cases t with
  | user u => exact .inl ⟨(hphase _).then_ (.of_acts [.enter (.onTimer u)] rfl), id⟩
  | client c' dir =>
      have hupdates : Updates sys _ (w.setPhase (.timers batch (some (c', dir))))
          (w.fire (.client c' dir) batch) := onTimer_updates c' dir
      have hpend : (w.fire (.client c' dir) batch).Pending c → w.Pending c :=
        hupdates.connecting (by decide) c
      rcases onTimer_answers (w := w.setPhase (.timers batch (some (c', dir))))
          (c := c) c' dir
        with hg | ⟨rfl, rfl, hconnecting, hg⟩
      · exact .inl ⟨(hphase _).then_ hg, hpend⟩
      · refine .inr ⟨(hphase _).then_ hg, hconnecting, ?_⟩
        unfold Pending
        rw [show ((((w.fire (.client c' .write) batch).clients c').timer .write).connecting)
          = false from onTimer_write _ c']
        exact Bool.false_ne_true

/-- **A step of `wait`.** -/
theorem move_answers (hown : w.Owned) (hr : w.running = none) {answer : Answer}
    (hm : Move sys answer w w') :
    Answers c 0 0 w w' ∧ (w'.Pending c → w.Pending c) ∨
      Answers c 0 1 w w' ∧ w.Pending c ∧ ¬ w'.Pending c ∨
      Answers c 1 0 w w' ∧ ¬ w'.Pending c ∧
        ∃ n, w.called = some ((.client c, n), .connectCallback) := by
  have hphase : ∀ phase, Answers c 0 0 w (w.setPhase phase) := fun _ => .of_log rfl
  cases hm with
  | procClose hp hi =>
      rename_i i p
      have hupdates : Updates sys _ _ ((w.setPhase (.procsFree (i + 1))).procClose p) :=
        procClose_updates p
      exact .inl ⟨(hphase _).then_ (hupdates.answers_silent (by decide)),
        hupdates.connecting (by decide) c⟩
  | procsDone hp hi => exact .inl ⟨.of_log rfl, id⟩
  | close hp hi =>
      rename_i i c'
      have hupdates : Updates sys _ _ ((w.setPhase (.clientsFree (i + 1))).close c') :=
        close_updates c'
      exact .inl ⟨(hphase _).then_ (hupdates.answers_silent (by decide)),
        hupdates.connecting (by decide) c⟩
  | clientsDone hp hi => exact .inl ⟨.of_log rfl, id⟩
  | fetch hp => exact .inl ⟨.of_log rfl, id⟩
  | skip hp hl => exact .inl ⟨.of_log rfl, id⟩
  | read hp hl hptr hhit hproc hc =>
      exact (called_answers hown (called_read hr hp hptr hhit hproc) hc).imp_right .inr
  | write hp hc => exact (called_answers hown (called_later hr hp) hc).imp_right .inr
  | trigger hp =>
      unfold triggerTimers
      split
      · exact .inl ⟨.of_log rfl, id⟩
      · exact .inl ⟨.of_log rfl, id⟩
  | clearFlag hp =>
      rename_i batch c' dir
      have hupdates :
        Updates sys (Within (.client c') [.flag]) (w.setPhase (.timers batch none))
          ((w.setPhase (.timers batch none)).setClient c' (·.setFlag dir false)) :=
        .one _ (d := .setFlag c' dir false) ⟨rfl, by simp [Update.kind]⟩
      exact .inl ⟨.of_log rfl, hupdates.connecting (by decide) c⟩
  | fire hp => exact (fire_answers sys w c _ _).imp_right .inl
  | done hp => exact .inl ⟨.of_log rfl, id⟩

/-- **One step** without a call on the socket: the timer answers if it is pending,
and so does a connect_callback; neither leaves it pending. -/
theorem step_answers (hown : w.Owned) {l : Label γ ρ υ}
    (hno : ∀ call, l = .call call → call.owner ≠ some (.client c)) (hs : w.step sys l = some w') :
    Answers c 0 0 w w' ∧ (w'.Pending c → w.Pending c) ∨
      Answers c 0 1 w w' ∧ w.Pending c ∧ ¬ w'.Pending c ∨
      Answers c 1 0 w w' ∧ ¬ w'.Pending c ∧ ∃ n answer, l = .next answer ∧
        w.called = some ((.client c, n), .connectCallback) := by
  cases stepped hs with
  | call hm hp =>
      rename_i call r
      left
      have hnot : ∀ ms connected, call ≠ .connectAwait c ms connected := by
        rintro ms connected rfl
        exact hno _ rfl rfl
      refine ⟨(perform_answers hown hp).then_ (.logged _ c fun _ => rfl), ?_⟩
      unfold Pending
      rw [← (perform_addsNoConnect hown hnot hp).2.1]
      exact id
  | ret hr => exact .inl ⟨.of_log rfl, id⟩
  | wait hr hp => exact .inl ⟨(Answers.logged w c fun _ => rfl).then_ (.of_log rfl), id⟩
  | next hr hm =>
      rename_i answer
      refine (move_answers (c := c) hown hr hm).imp_right (Or.imp_right ?_)
      rintro ⟨hg, hpend, n, hcalled⟩
      exact ⟨hg, hpend, n, answer, rfl, hcalled⟩

/-- Where a connect_callback comes next nothing else can happen. -/
theorem step_connect (hfit : w.CallbacksFit) {n : Nat}
    (hcalled : w.called = some ((.client c, n), .connectCallback)) {l : Label γ ρ υ}
    (hs : w.step sys l = some w') : ∃ answer batch, l = .next answer ∧
      w.phase = .dispatch batch (some ((.client c, n), .connectCallback)) ∧
      (w.setPhase (.dispatch batch none)).callback sys (.client c, n) .connectCallback answer
        = some w' := by
  obtain ⟨hr, batch, hphase⟩ := phase_of_called hfit hcalled
  cases l with
  | call call =>
      simp only [World.step, mayCall, hr, hphase] at hs
      cases hs
  | ret =>
      simp only [World.step, hr] at hs
      cases hs
  | wait =>
      simp only [World.step, hr, hphase] at hs
      cases hs
  | next answer =>
      refine ⟨answer, batch, rfl, hphase, ?_⟩
      simp only [World.step, hr] at hs
      rw [next, hphase] at hs
      exact hs

/-! ## A file that is done with -/

/-- No callback for writing comes from the file any more. -/
structure NoWriteCallback (fe : File γ ρ) (w : World γ ρ υ κ) : Prop where
  later : ∀ p, w.later ≠ some (fe, p)
  gone : (w.ev.files fe).proc .write = none ∨
    w.ev.Clear fe ∧ some fe ∉ w.events.map Event.EpollEvent.ptr

section Epoll

variable {espipe : Int → Bool} {fd : File γ ρ → Int}
  {w w' : World γ ρ υ (Event.EventEpoll (Event.EpollSet (File γ ρ)))} {fe : File γ ρ}

/-- **It stays so** without a call on its object. -/
theorem NoWriteCallback.step (h : w.NoWriteCallback fe) (hp : w.Polled fd espipe) {l : Label γ ρ υ}
    (honce : Once l) (hno : ∀ call, l = .call call → call.owner ≠ some fe.1)
    (hs : w.step (Sys.epoll espipe) l = some w') : w'.NoWriteCallback fe := by
  have hnone : w'.later = none → ∀ p, w'.later ≠ some (fe, p) := by
    intro hl p
    rw [hl]
    exact fun h => Option.some_ne_none _ h.symm
  refine ⟨?_, ?_⟩
  · cases passes hp.owned hs with
    | same hl he =>
        rw [hl]
        exact h.later
    | taken he hl =>
        rename_i ee
        intro p hlater
        obtain ⟨hptr, -, hproc⟩ := hl _ hlater
        rcases h.gone with hgone | ⟨-, hgone⟩
        · rw [hgone] at hproc
          cases hproc
        · refine hgone ?_
          rw [he, List.map_cons, hptr]
          exact List.mem_cons_self
    | called hl he => exact hnone hl
    | over_ hl he => exact hnone hl
    | fetched hl hw =>
        subst hw
        exact hnone rfl
  · rcases h.gone with hgone | ⟨hclear, hgone⟩
    · exact .inl (proc_step hp.owned hno hs hgone)
    · right
      refine ⟨?_, ?_⟩
      · exact clear_step (Event.EventEpoll.host_clears _ espipe) hp.typesOk hp.ringed hp.owned hno
          hs hclear
      · cases passes hp.owned hs with
        | same hl he =>
            rw [he]
            exact hgone
        | taken he hl =>
            intro hmem
            refine hgone ?_
            rw [he, List.map_cons]
            exact List.mem_cons_of_mem _ hmem
        | called hl he =>
            rw [he]
            exact hgone
        | over_ hl he =>
            rw [he]
            exact List.not_mem_nil
        | fetched hl hw =>
            subst hw
            intro hmem
            obtain ⟨ee, hee, hptr⟩ := List.mem_map.mp hmem
            -- what is fetched has something in its mask
            obtain ⟨fe', dir, hptr', hmask⟩ := hp.fetched (honce _ hl) hee
            rw [hptr] at hptr'
            cases hptr'
            rw [(hclear.idle dir).1] at hmask
            cases hmask

/-- `connect_callback` takes the write interest away, or all of it. -/
theorem connectCallback_ev {sys : Sys γ ρ κ} {w w' : World γ ρ υ κ} {c : γ} {connected : Bool}
    (h : w.connectCallback sys c fe connected = some w') :
    w'.ev = w.ev.apply sys.host (if connected then .del .write fe else .delReadwrite fe) := by
  unfold connectCallback at h
  dsimp only at h
  obtain ⟨-, h⟩ := Option.ite_none_right_eq_some.mp h
  cases h
  have hev : ∀ v : World γ ρ υ κ, ((if ((v.clients c).timer .write).connecting then
      ((v.setClient c (·.setWaiting .write false)).setClient c
          (·.setConnecting .write false)).setTimers
        (((v.setClient c (·.setWaiting .write false)).setClient c
          (·.setConnecting .write false)).timers.delTimer (.client c .write))
      else v) : World γ ρ υ κ).ev = v.ev := by
    intro v
    split <;> rfl
  cases connected with
  | true => exact congrArg (·.del sys.host .write fe) (hev (w.setClient c (·.setFlag .write false)))
  | false =>
      exact congrArg (·.delReadwrite sys.host fe) (hev (w.setClient c (·.setFlag .write false)))

/-- **A connect_callback** is done with its file. -/
theorem spent_connect (hp : w.Polled fd espipe) {c : γ} {n : Nat}
    (hcalled : w.called = some ((.client c, n), .connectCallback)) {l : Label γ ρ υ}
    (hs : w.step (Sys.epoll espipe) l = some w') : w'.NoWriteCallback (.client c, n) := by
  obtain ⟨answer, batch, -, hphase, hcb⟩ := step_connect hp.callbacksFit hcalled hs
  have hown : (w.setPhase (.dispatch batch none)).Owned := ⟨hp.owned.client, hp.owned.proc⟩
  have hupdates := callback_updates hown hcb
  have hpast := hp.spread.past
  rw [World.later, World.events, hphase] at hpast
  have hev := connectCallback_ev hcb
  refine ⟨?_, ?_⟩
  · intro p
    rw [hupdates.later_eq]
    exact fun h => Option.some_ne_none _ h.symm
  · cases hc : answer.connected with
    | true =>
        left
        rw [hc] at hev
        rw [hev]
        change ((w.ev.del (Sys.epoll espipe).host .write (.client c, n)).files (.client c, n)).proc
          .write = none
        rw [(Event.NioEvent.del_keeps _ .write _ w.ev).proc]
        simp
    | false =>
        right
        rw [hc] at hev
        refine ⟨?_, ?_⟩
        · rw [hev]
          exact Event.NioEvent.clear_delReadwrite
              (Event.EventEpoll.host_clears _ espipe) hp.ringed _
        · rw [World.events, hupdates.phase_eq]
          exact hpast _ rfl

/-! ## What a run keeps behind a connect -/

/-- Nobody has answered the connect at `w`, or one of the two has, and neither will
again. -/
inductive OneAnswer (w : World γ ρ υ (Event.EventEpoll (Event.EpollSet (File γ ρ)))) (c : γ)
    (v : World γ ρ υ (Event.EventEpoll (Event.EpollSet (File γ ρ)))) : Prop
  | open_ (h : Answers c 0 0 w v)
  | byTimer (h : Answers c 0 1 w v) (hp : ¬ v.Pending c)
  | byEvent (h : Answers c 1 0 w v) (hp : ¬ v.Pending c)
      (hs : ∀ n, (w.clients c).fe = some (.client c, n) → v.NoWriteCallback (.client c, n))

omit [DecidableEq υ] in
theorem OneAnswer.le {c : γ} {v : World γ ρ υ (Event.EventEpoll (Event.EpollSet (File γ ρ)))}
    (h : w.OneAnswer c v) : v.answers c ≤ w.answers c + 1 := by
  unfold answers
  cases h with
  | open_ h =>
      have he := h.event
      have ht := h.timeout
      omega
  | byTimer h hp =>
      have he := h.event
      have ht := h.timeout
      omega
  | byEvent h hp hs =>
      have he := h.event
      have ht := h.timeout
      omega

/-- **One step** with a connect_callback in time. -/
theorem OneAnswer.step {c : γ} {v v' : World γ ρ υ (Event.EventEpoll (Event.EpollSet (File γ ρ)))}
    (h : w.OneAnswer c v) (hp : v.Polled fd espipe) {l : Label γ ρ υ} (honce : Once l)
    (hno : ∀ call, l = .call call → call.owner ≠ some (.client c)) (hfile : w.FromFile c v)
    (htime : w.InTime c v) (hs : v.step (Sys.epoll espipe) l = some v') : w.OneAnswer c v' := by
  rcases step_answers hp.owned hno hs with ⟨hg, hpend⟩ | ⟨hg, hpend, hdone⟩ |
    ⟨hg, hdone, n, answer, rfl, hcalled⟩
  · cases h with
    | open_ h => exact .open_ (h.then_ hg)
    | byTimer h hp' => exact .byTimer (h.trans hg) (fun hv => hp' (hpend hv))
    | byEvent h hp' hspent =>
        refine .byEvent (h.trans hg) (fun hv => hp' (hpend hv)) ?_
        intro n hfe
        exact (hspent n hfe).step hp honce hno hs
  · cases h with
    | open_ h => exact .byTimer (h.then_ hg) hdone
    | byTimer h hp' => exact absurd hpend hp'
    | byEvent h hp' hspent => exact absurd hpend hp'
  · have hnext : (c, n) ∈ v.connectNext := connectNext_iff.mpr hcalled
    have hfe : (w.clients c).fe = some (.client c, n) := hfile _ hnext rfl
    have hintime := htime _ hnext rfl
    cases h with
    | open_ h =>
        refine .byEvent (h.then_ hg) hdone ?_
        intro m hm
        rw [hfe] at hm
        cases hm
        exact spent_connect hp hcalled hs
    | byTimer h hp' =>
        have ht := h.timeout
        omega
    | byEvent h hp' hspent =>
        -- its file is spent
        obtain ⟨-, batch, hphase⟩ := phase_of_called hp.callbacksFit hcalled
        refine absurd ?_ ((hspent n hfe).later .connectCallback)
        rw [World.later, hphase]

end Epoll

end World

section Run

variable {γ ρ υ : Type} [DecidableEq γ] [DecidableEq ρ] [DecidableEq υ]

/-- **One connect, one answer**, exactly in the runs in which no connect_callback
of the socket comes behind a timeout of its connect: whatever has happened before,
whatever the other sockets do and the kernel answers. -/
theorem one_answer_iff (setup : Setup γ ρ) (oneshot direct : Bool) (setsize : Int)
    (fd : File γ ρ → Int) (espipe : Int → Bool) (sec nsec : Int) (pre post : List (Label γ ρ υ))
    (c : γ) (ms : Int) {v w w' : World γ ρ υ (Event.EventEpoll (Event.EpollSet (File γ ρ)))}
    (hpre : Trace.run (World.step (Sys.epoll espipe))
      (World.start setup oneshot direct setsize fd ⟨fun _ => none, 0⟩ sec nsec) pre = some v)
    (hconnect : v.step (Sys.epoll espipe) (.call (.connectAwait c ms true)) = some w)
    (hpost : Trace.run (World.step (Sys.epoll espipe)) w post = some w')
    (honce : ∀ l ∈ pre ++ post, World.Once l)
    (hno : ∀ l ∈ post, l.owner ≠ some (.client c))
    (hfile : Trace.Meets (World.step (Sys.epoll espipe)) (fun u _ => w.FromFile c u) w post) :
    w'.answers c ≤ w.answers c + 1 ↔
      Trace.Meets (World.step (Sys.epoll espipe)) (fun u _ => w.InTime c u) w post := by
  have hpolled : w.Polled fd espipe := by
    have hstart := World.polled_start (υ := υ) setup oneshot direct setsize fd espipe sec nsec
    have hv : v.Polled fd espipe :=
      Trace.run_induct (fun u l u' hl hu hs => hu.step hl hs)
        (Trace.meets_of_mem fun l hl => honce l (List.mem_append_left _ hl)) hstart hpre
    exact hv.step (fun _ he => by cases he) hconnect
  have hquiet : Trace.Meets (World.step (Sys.epoll espipe)) (fun _ l => World.Once l ∧
      ∀ call, l = .call call → call.owner ≠ some (.client c)) w post := by
    refine Trace.meets_of_mem ?_
    intro l hl
    refine ⟨honce l (List.mem_append_right _ hl), ?_⟩
    rintro call rfl
    exact hno _ hl
  constructor
  · intro hle
    rw [Trace.meets_iff]
    rintro before l after rfl t ht
    rw [Trace.run_append, ht, Option.bind_some, Trace.run_cons] at hpost
    obtain ⟨t', hs, hafter⟩ := Option.bind_eq_some_iff.mp hpost
    have hpolled' : t.Polled fd espipe :=
      Trace.run_induct (fun u l u' hl hu hs => hu.step hl hs)
        (Trace.meets_of_mem fun l hl => honce l
            (List.mem_append_right _ (List.mem_append_left _ hl)))
        hpolled ht
    rintro ⟨c', n⟩ hnext hc
    have hcalled := World.connectNext_iff.mp hnext
    by_contra hne
    obtain rfl : c = c' := hc.symm
    -- both have answered, the event behind the timer
    obtain ⟨answer, batch, -, -, hcb⟩ := World.step_connect hpolled'.callbacksFit hcalled hs
    have hgives := World.connectCallback_answers hcb
    have hown' := (World.kept_owned (Sys.epoll espipe)).step hpolled'.owned hs hpolled'.owned
    have hbefore : ∀ timeout, w.answersBy c timeout ≤ t.answersBy c timeout := fun _ =>
      World.answersBy_mono
        ((World.kept_log (Sys.epoll espipe) w.log).run ht hpolled.owned (List.prefix_refl _)).2
    have hlater : ∀ timeout, t'.answersBy c timeout ≤ w'.answersBy c timeout := fun _ =>
      World.answersBy_mono
        ((World.kept_log (Sys.epoll espipe) t'.log).run hafter hown' (List.prefix_refl _)).2
    have hevent : t'.answersBy c false = t.answersBy c false + 1 := hgives.event
    have htimeout : t'.answersBy c true = t.answersBy c true := hgives.timeout
    have hb := hbefore false
    have hb' := hbefore true
    have hl := hlater false
    have hl' := hlater true
    unfold World.answers at hle
    omega
  · intro htime
    have hrun := Trace.run_induct (I := fun u => u.Polled fd espipe ∧ w.OneAnswer c u)
      (fun u l u' hl hu hs => ⟨hu.1.step hl.1.1 hs, hu.2.step hu.1 hl.1.1 hl.1.2 hl.2.1 hl.2.2 hs⟩)
      (hquiet.and (hfile.and htime)) ⟨hpolled, .open_ (.of_log rfl)⟩ hpost
    exact World.OneAnswer.le hrun.2

/-- A server that accepts within the time, and two rounds that find the socket
writable: `on_connect` is called in the first. -/
theorem one_answer_accepted :
    let start := World.fresh (.handled false false) false File.turn
    let writable := { Answer.writable 0 .wouldBlock with nsec := 5 }
    let post : List (Label Nat Nat Nat) :=
      [.wait, .next writable, .next writable, .next writable, .next writable, .next writable, .ret,
        .next writable, .wait, .next writable, .next writable, .next writable, .next writable]
    ∃ w w', start.step .table (.call (.connectAwait 0 1000 true)) = some w ∧
      Trace.run (World.step .table) w post = some w' ∧ w'.answersBy 0 false = 1 ∧
      w'.answers 0 ≤ w.answers 0 + 1 := by
  intro start writable post
  have hany : (Trace.run (World.step .table) start [.call (.connectAwait 0 1000 true)]).any
      (fun w => (Trace.run (World.step .table) w post).any
        fun w' => w'.answersBy 0 false = 1 &&
          decide (Trace.Meets (World.step .table) (fun u _ => w.FromFile 0 u ∧ w.InTime 0 u) w
            post)) = true := by
    decide +kernel
  obtain ⟨w, hconnect, hw⟩ := Trace.run_any hany
  obtain ⟨w', hpost, hw'⟩ := Trace.run_any hw
  simp only [Bool.and_eq_true, decide_eq_true_eq] at hw'
  obtain ⟨hevent, hmeets⟩ := hw'
  rw [Trace.run_cons] at hconnect
  obtain ⟨v, hv, hvw⟩ := Option.bind_eq_some_iff.mp hconnect
  cases hvw
  refine ⟨w, w', hv, hpost, hevent, ?_⟩
  exact (one_answer_iff (.handled false false) false false 1024 File.turn _ 0 0 [] post 0 1000
    rfl hv hpost (by decide) (by decide) (hmeets.mono fun _ _ h => h.1)).mpr
        (hmeets.mono fun _ _ h => h.2)

/-- The timeout comes first, and leaves the file registered: a writable event in
the next round calls `on_connect` again. -/
theorem answered_twice :
    let start := World.fresh (.handled false false) false File.turn
    let late := { Answer.idle with sec := 1 }
    let writable := { Answer.writable 0 .wouldBlock with sec := 1 }
    let post : List (Label Nat Nat Nat) :=
      [.wait, .next late, .next late, .next late, .next late, .next late, .ret, .next late,
        .next late, .wait, .next writable, .next writable, .next writable, .next writable,
        .next writable]
    (start.connectAwait .table 0 10 true).1 = true ∧
    ∃ w w', start.step .table (.call (.connectAwait 0 10 true)) = some w ∧
      Trace.run (World.step .table) w post = some w' ∧
      Trace.Meets (World.step .table) (fun u _ => w.FromFile 0 u) w post ∧
      w'.answersBy 0 true = 1 ∧ w'.answersBy 0 false = 1 ∧ ¬ w'.answers 0 ≤ w.answers 0 + 1 := by
  intro start late writable post
  refine ⟨by decide, ?_⟩
  have hany : (Trace.run (World.step .table) start [.call (.connectAwait 0 10 true)]).any
      (fun w => (Trace.run (World.step .table) w post).any
        fun w' => w'.answersBy 0 true = 1 && w'.answersBy 0 false = 1 && w.answers 0 = 0 &&
          decide (Trace.Meets (World.step .table) (fun u _ => w.FromFile 0 u) w post)) = true := by
    decide +kernel
  obtain ⟨w, hconnect, hw⟩ := Trace.run_any hany
  obtain ⟨w', hpost, hw'⟩ := Trace.run_any hw
  simp only [Bool.and_eq_true, decide_eq_true_eq] at hw'
  obtain ⟨⟨⟨htimeout, hevent⟩, hnone⟩, hmeets⟩ := hw'
  rw [Trace.run_cons] at hconnect
  obtain ⟨v, hv, hvw⟩ := Option.bind_eq_some_iff.mp hconnect
  cases hvw
  refine ⟨w, w', hv, hpost, hmeets, htimeout, hevent, ?_⟩
  rw [hnone, World.answers, hevent, htimeout]
  decide

end Run

end Libnio.Socket
