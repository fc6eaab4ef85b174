import Libnio.Socket.Connecting

/-!
# Socket — the timers and `timers_`

Outside of `trigger_timers` a timer of a socket waits exactly when `timers_`
holds it, once and under its own key, over every run; and a `del_timer` takes
this entry out, unless it is that of a connect_callback which comes after the
close of its socket.
-/

namespace Libnio.Socket

open Event (Dir)

namespace World

variable {γ ρ υ κ : Type}

/-- `wait` is inside of `trigger_timers`. -/
def inTriggerTimers (w : World γ ρ υ κ) : Bool :=
  match w.phase with
  | .timers _ _ => true
  | _ => false

/-- `client_socket::close` has run on the socket. -/
def closed [DecidableEq γ] (w : World γ ρ υ κ) (c : γ) : Bool :=
  w.log.any fun a =>
    match a with
    | .close (.client c') => c' = c
    | _ => false

theorem closed_iff [DecidableEq γ] {w : World γ ρ υ κ} {c : γ} :
    w.closed c = true ↔ .close (.client c) ∈ w.log := by
  unfold closed
  rw [List.any_eq_true]
  constructor
  · rintro ⟨a, ha, hc⟩
    split at hc
    · rw [← of_decide_eq_true hc]
      exact ha
    · cases hc
  · intro h
    exact ⟨_, h, decide_eq_true rfl⟩

/-- The timer if this flag of it is set. -/
def timerIf (c : γ) (dir : Dir) (flag : Bool) : List (TimerName γ υ) :=
  if flag then [.client c dir] else []

/-- The timers of sockets that the next step of `wait` calls `del_timer` for. -/
def cancels (w : World γ ρ υ κ) : List (TimerName γ υ) :=
  match w.called with
  | some ((.client c, _), .connectCallback) => timerIf c .write
      ((w.clients c).timer .write).connecting
  | some ((.client c, _), .readCallback) => timerIf c .read ((w.clients c).timer .read).waiting
  | some ((.client c, _), .writeCallback) => timerIf c .write ((w.clients c).timer .write).waiting
  | some _ => []
  | none =>
      match w.closeNext with
      | some c => timerIf c .read ((w.clients c).timer .read).waiting ++
          timerIf c .write ((w.clients c).timer .write).waiting
      | none => []

/-- A connect finds its socket without a file. -/
def FreshConnect (w : World γ ρ υ κ) : Label γ ρ υ → Prop
  | .call (.connectAwait c _ _) => (w.clients c).fe = none
  | _ => True

variable [DecidableEq γ] [DecidableEq ρ] [DecidableEq υ]

instance (w : World γ ρ υ κ) : DecidablePred (FreshConnect w)
  | .call (.connectAwait c _ _) => inferInstanceAs (Decidable ((w.clients c).fe = none))
  | .call (.readAwait _ _) | .call (.writeAwait _ _) | .call (.write _ _ _ _)
  | .call (.readDisable _) | .call (.writeDisable _) | .call (.readwriteDisable _)
  | .call (.closeAwait _) | .call (.procConnectAwait _) | .call (.procReadAwait _)
  | .call (.procWriteAwait _) | .call (.procWrite _ _ _) | .call (.procReadDisable _)
  | .call (.procWriteDisable _) | .call (.procCloseAwait _) | .call (.addTimer _ _)
  | .call (.delTimer _) | .call (.resetTimer _ _) | .ret | .wait | .next _ => .isTrue trivial

/-- The timers of every socket and `timers_` agree. -/
structure Agrees (w : World γ ρ υ κ) : Prop where
  waiting : ∀ c dir, ((w.clients c).timer dir).waiting = true ↔ .client c dir ∈ w.timers.names
  once : ∀ c dir, w.timers.names.count (.client c dir) ≤ 1
  key : ∀ c dir key, (key, .client c dir) ∈ w.timers.timers → key = w.timers.expire (.client c dir)

/-- What a run should find wherever it takes a step: outside of `trigger_timers`
the timers and `timers_` agree; each `del_timer` of a callback or a close takes
out the entry it is called for, and these calls are all that changes `timers_`
there; and behind a close no entry of its socket is left. -/
structure TimersHeld (sys : Sys γ ρ κ) (w : World γ ρ υ κ) (l : Label γ ρ υ) : Prop where
  agrees : w.inTriggerTimers = false → w.Agrees
  removes : ∀ answer, l = .next answer → w.timers.RemovesEach w.cancels
  cancelled : ∀ answer w', l = .next answer → w.step sys l = some w' →
    w.called.isSome ∨ w.closeNext.isSome → w'.timers =
        w.cancels.foldl Timer.Timers.delTimer w.timers
  closed : ∀ answer w' c dir, l = .next answer → w.step sys l = some w' → w.closeNext = some c →
    .client c dir ∉ w'.timers.names

/-- A connect_callback comes next, of a socket that has been closed with its write
timer still marked as connecting, and which does not wait any more. -/
def Stale (w : World γ ρ υ κ) : Prop :=
  match w.called with
  | some ((.client c, _), .connectCallback) => w.closed c = true ∧
      ((w.clients c).timer .write).connecting = true ∧ ((w.clients c).timer .write).waiting = false
  | _ => False

instance (w : World γ ρ υ κ) : Decidable w.Stale :=
  match h : w.called with
  | some ((.client c, _), .connectCallback) => decidable_of_iff (w.closed c = true ∧
      ((w.clients c).timer .write).connecting = true ∧ ((w.clients c).timer .write).waiting = false)
      (by rw [Stale, h])
  | some ((.client _, _), .readCallback) | some ((.client _, _), .writeCallback)
  | some ((.client _, _), .connectProc) | some ((.client _, _), .readProc)
  | some ((.client _, _), .writeProc) | some ((.proc _, _), _) | none =>
      .isFalse (by rw [Stale, h]; exact id)

variable {sys : Sys γ ρ κ} {w w' : World γ ρ υ κ} {c : γ}

/-! ## What is asked of `del_timer` -/

omit [DecidableEq ρ] in
theorem timers_disarmTimer (w : World γ ρ υ κ) (c : γ) (dir : Dir) :
    (w.disarmTimer c dir).timers
      = (timerIf c dir ((w.clients c).timer dir).waiting).foldl Timer.Timers.delTimer w.timers := by
  unfold World.disarmTimer timerIf
  split <;> rfl

/-- A proc has no timers. -/
theorem procCallback_timers (hown : w.Owned) {fe : File γ ρ} {proc : Callback} {answer : Answer}
    {p : ρ} (h : w.callback sys fe proc answer = some w') (ho : fe.1 = .proc p) :
    w'.timers = w.timers := by
  refine (callback_updates hown h).keeps (P := fun v => v.timers = w.timers) ?_ rfl
  intro v d hq hv
  rw [← hv]
  obtain ⟨hfor, -⟩ := hq
  rw [ho] at hfor
  cases d with
  | procDelayClose q =>
      show (if _ then _ else v).timers = v.timers
      split <;> rfl
  | setFe c' f => cases hfor.1
  | timer tc => cases hfor
  | armTimer c' dir ms => cases hfor
  | disarmTimer c' dir => cases hfor
  | startConnecting c' ms => cases hfor
  | stopConnecting c' => cases hfor
  | delayClose c' => cases hfor
  | _ => rfl

theorem connectCallback_cancels {fe : File γ ρ} {connected : Bool}
    (h : w.connectCallback sys c fe connected = some w') :
    w'.timers = (timerIf c .write ((w.clients c).timer .write).connecting).foldl
      Timer.Timers.delTimer w.timers := by
  unfold connectCallback at h
  dsimp only at h
  obtain ⟨-, h⟩ := Option.ite_none_right_eq_some.mp h
  cases h
  have hconnecting : (((w.setClient c (·.setFlag .write false)).clients c).timer .write).connecting
      = ((w.clients c).timer .write).connecting := by
    rw [setClient_self]
    rfl
  rw [hconnecting]
  generalize ((w.clients c).timer .write).connecting = b
  cases b
  · cases connected <;> rfl
  · cases connected <;> rfl

omit [DecidableEq ρ] in
/-- A callback has cleared the flag of its side before it disarms the timer. -/
theorem timers_flagged (w : World γ ρ υ κ) (c : γ) (dir : Dir) :
    ((w.setClient c (·.setFlag dir false)).disarmTimer c dir).timers
      = (timerIf c dir ((w.clients c).timer dir).waiting).foldl Timer.Timers.delTimer w.timers := by
  rw [timers_disarmTimer, setClient_self]
  rfl

omit [DecidableEq ρ] in
theorem writeCallback_cancels (w : World γ ρ υ κ) (c : γ) (fe : File γ ρ) (answer : WriteAnswer) :
    (w.writeCallback c fe answer).timers
      = (timerIf c .write ((w.clients c).timer .write).waiting).foldl Timer.Timers.delTimer
          w.timers := by
  rw [← timers_flagged]
  unfold writeCallback
  dsimp only
  split
  · split
    · rw [timers_callHandler]
      rfl
    · split
      · rfl
      · rw [timers_callHandler]
        rfl
  · rw [timers_callHandler]

/-- **A callback** calls `del_timer` for these. -/
theorem callback_cancels (hown : w.Owned) {fe : File γ ρ} {proc : Callback} {answer : Answer}
    {phase : Phase γ ρ υ} (hc : w.called = some (fe, proc))
    (h : (w.setPhase phase).callback sys fe proc answer = some w') :
    w'.timers = w.cancels.foldl Timer.Timers.delTimer w.timers := by
  have hown' : (w.setPhase phase).Owned := ⟨hown.client, hown.proc⟩
  obtain ⟨o, n⟩ := fe
  unfold cancels
  rw [hc]
  cases o with
  | proc p =>
      have htimers : w'.timers = (w.setPhase phase).timers := procCallback_timers hown' h rfl
      exact htimers
  | client c =>
      cases proc with
      | connectCallback =>
          change (w.setPhase phase).connectCallback sys c (.client c, n) answer.connected =
            some w' at h
          have hcancels := connectCallback_cancels h
          exact hcancels
      | readCallback =>
          cases h
          show (callHandler c .onRead _ false _).timers = _
          rw [timers_callHandler, timers_flagged]
          rfl
      | writeCallback =>
          cases h
          exact writeCallback_cancels (w.setPhase phase) c _ answer.write
      | connectProc => cases h
      | readProc => cases h
      | writeProc => cases h

omit [DecidableEq ρ] in
/-- **A close** calls `del_timer` for these. -/
theorem close_cancels (w : World γ ρ υ κ) (phase : Phase γ ρ υ) (c : γ) :
    ((w.setPhase phase).close c).timers
      = (timerIf c .read ((w.clients c).timer .read).waiting ++
          timerIf c .write ((w.clients c).timer .write).waiting).foldl Timer.Timers.delTimer
            w.timers := by
  have hwrite : ((((w.setPhase phase).disarmTimer c .read).clients c).timer .write).waiting
      = ((w.clients c).timer .write).waiting := by
    rw [disarmTimer_waiting, if_neg (by decide)]
    rfl
  unfold World.close
  dsimp only
  rw [timers_callHandler]
  show (((w.setPhase phase).disarmTimer c .read).disarmTimer c .write).timers = _
  rw [timers_disarmTimer, timers_disarmTimer, hwrite, List.foldl_append]
  rfl

/-! ## Where it finds them -/

/-- What a run keeps of all that. -/
structure TimersInv (sys : Sys γ ρ κ) (w : World γ ρ υ κ) : Prop where
  owned : w.Owned
  typesOk : w.ev.TypesOk sys.host
  callbacksFit : w.CallbacksFit
  flagsRight : ∀ c, w.FlagsRight c
  connectInv : ∀ c, w.ConnectInv c

omit [DecidableEq γ] [DecidableEq ρ] [DecidableEq υ] in
theorem batch_of_called {x : File γ ρ × Callback} (h : w.called = some x) : w.batch = [] := by
  unfold called at h
  split at h
  · rename_i hp
    simp [World.batch, hp]
  · rename_i hp
    simp [World.batch, hp]
  · cases h

omit [DecidableEq γ] [DecidableEq ρ] [DecidableEq υ] in
theorem batch_of_closeNext (h : w.closeNext = some c) : w.batch = [] := by
  unfold closeNext at h
  split at h
  · rename_i hp
    simp [World.batch, hp]
  · cases h

omit [DecidableEq γ] [DecidableEq ρ] [DecidableEq υ] in
theorem batch_of_outside (h : w.inTriggerTimers = false) : w.batch = [] := by
  cases hp : w.phase with
  | timers batch flag =>
      rw [inTriggerTimers, hp] at h
      cases h
  | _ => rw [World.batch, hp]

omit [DecidableEq γ] [DecidableEq ρ] [DecidableEq υ] in
/-- A connect_callback comes next where it is kept for later: a socket has none
for reading. -/
theorem phase_of_called (hfit : w.CallbacksFit) {n : Nat}
    (h : w.called = some ((.client c, n), .connectCallback)) : w.running = none ∧
      ∃ batch, w.phase = .dispatch batch (some ((.client c, n), .connectCallback)) := by
  unfold called at h
  split at h
  · rename_i batch later hr hp
    cases h
    exact ⟨hr, batch, hp⟩
  · obtain ⟨fe, -, hfe⟩ := Option.bind_eq_some_iff.mp h
    obtain ⟨-, hmap⟩ := Option.ite_none_right_eq_some.mp hfe
    obtain ⟨proc, hproc, hpair⟩ := Option.map_eq_some_iff.mp hmap
    cases hpair
    cases hfit _ .read _ hproc
  · cases h

omit [DecidableEq γ] [DecidableEq ρ] [DecidableEq υ] in
theorem connects_of_called (hfit : w.CallbacksFit) {n : Nat}
    (h : w.called = some ((.client c, n), .connectCallback)) : w.Connects c := by
  obtain ⟨-, batch, hp⟩ := phase_of_called hfit h
  refine ⟨n, .inr ?_⟩
  unfold World.later
  rw [hp]

omit [DecidableEq ρ] in
/-- Outside of `trigger_timers` right flags make `timers_` agree. -/
theorem agrees_of_flagsRight (ht : ∀ c, w.FlagsRight c) (hb : w.batch = []) : w.Agrees := by
  have hbatch : ∀ tm, tm ∉ w.batch := by
    intro tm
    rw [hb]
    exact List.not_mem_nil
  refine ⟨?_, ?_, ?_⟩
  · intro c dir
    exact ((ht c dir).mem_names_iff (hbatch _)).symm
  · intro c dir
    have honce := (ht c dir).once
    have hle := Bool.toNat_le ((w.clients c).timer dir).waiting
    omega
  · intro c dir key hk
    exact (ht c dir).key _ hk rfl

/-- A timer that is cancelled if its flag is set is found. -/
theorem removesEach_if {ev : Timer.Timers (TimerName γ υ)} {batch : List (TimerName γ υ)}
    {dir : Dir}
    {waiting : Bool} (h : Timer.Armed ev batch (.client c dir) waiting) (hb : batch = []) :
    ev.RemovesEach (timerIf c dir waiting) := by
  unfold timerIf
  split
  · rename_i hw
    have hout : TimerName.client c dir ∉ batch := by
      rw [hb]
      exact List.not_mem_nil
    exact ⟨(h.removes_iff hout).mpr hw, trivial⟩
  · trivial

omit [DecidableEq ρ] in
/-- **Each `del_timer` finds its entry** unless a stale connect_callback comes. -/
theorem removesEach_cancels (h : TimersInv sys w) : w.timers.RemovesEach w.cancels ↔ ¬ w.Stale := by
  have hplain : w.timers.RemovesEach w.cancels → ¬ w.Stale →
      (w.timers.RemovesEach w.cancels ↔ ¬ w.Stale) :=
    fun hremoves hstale => iff_of_true hremoves hstale
  cases hcalled : w.called with
  | none =>
      have hstale : ¬ w.Stale := by
        unfold Stale
        rw [hcalled]
        exact id
      refine hplain ?_ hstale
      unfold cancels
      rw [hcalled]
      dsimp only
      split
      · rename_i c hc
        have hb := batch_of_closeNext hc
        -- the timer for writing is deleted behind that for reading
        have hread := removesEach_if (h.flagsRight c .read) hb
        have hwrite := removesEach_if (h.flagsRight c .write) hb
        unfold timerIf at hread ⊢
        split
        · rename_i hw
          rw [if_pos hw] at hread
          refine ⟨hread.1, ?_⟩
          have hne : (Timer.Call.delTimer (.client c .read) : Timer.Call (TimerName γ υ)).timer
              ≠ .client c .write := by rintro ⟨⟩
          exact removesEach_if ((h.flagsRight c .write).apply hne) hb
        · exact hwrite
      · trivial
  | some x =>
      obtain ⟨⟨o, n⟩, proc⟩ := x
      have hb := batch_of_called hcalled
      cases o with
      | proc p =>
          refine hplain ?_ ?_
          · unfold cancels
            rw [hcalled]
            trivial
          · unfold Stale
            rw [hcalled]
            exact id
      | client c =>
          have hout : TimerName.client c .write ∉ w.batch := by
            rw [hb]
            exact List.not_mem_nil
          unfold cancels Stale
          rw [hcalled]
          cases proc with
          | connectCallback =>
              show w.timers.RemovesEach (timerIf c .write ((w.clients c).timer .write).connecting) ↔
                ¬ (w.closed c = true ∧ ((w.clients c).timer .write).connecting = true ∧
                  ((w.clients c).timer .write).waiting = false)
              have hremoves := (h.flagsRight c .write).removes_iff hout
              unfold timerIf
              split
              · rename_i hconnecting
                show _ ∧ True ↔ _
                rw [and_true, hremoves]
                constructor
                · rintro hw ⟨-, -, hnot⟩
                  rw [hw] at hnot
                  cases hnot
                · intro hnot
                  rcases (h.connectInv c).waits hconnecting with hclose | hwait | hno
                  · by_contra hw
                    exact hnot ⟨closed_iff.mpr hclose, hconnecting, by simpa using hw⟩
                  · exact hwait
                  · exact absurd (connects_of_called h.callbacksFit hcalled) hno
              · rename_i hnot
                exact iff_of_true trivial fun hstale => hnot hstale.2.1
          | readCallback => exact iff_of_true (removesEach_if (h.flagsRight c .read) hb) id
          | writeCallback => exact iff_of_true (removesEach_if (h.flagsRight c .write) hb) id
          | connectProc => exact iff_of_true trivial id
          | readProc => exact iff_of_true trivial id
          | writeProc => exact iff_of_true trivial id

/-- **Wherever a run stands** the timers are held, unless a stale connect_callback
comes next. -/
theorem timersHeld_iff (h : TimersInv sys w) (l : Label γ ρ υ) :
    TimersHeld sys w l ↔ ∀ answer, l = .next answer → ¬ w.Stale := by
  constructor
  · intro hheld answer hl
    exact (removesEach_cancels h).mp (hheld.removes answer hl)
  · intro hstale
    refine ⟨?_, ?_, ?_, ?_⟩
    · intro hout
      exact agrees_of_flagsRight h.flagsRight (batch_of_outside hout)
    · intro answer hl
      exact (removesEach_cancels h).mpr (hstale answer hl)
    · intro answer w' hl hs hat
      subst hl
      cases hcalled : w.called with
      | some x =>
          obtain ⟨fe, proc⟩ := x
          obtain ⟨hr, phase, hnext⟩ := next_called sys hcalled answer
          rw [step, hr] at hs
          exact callback_cancels h.owned hcalled (hnext.symm.trans hs)
      | none =>
          rw [hcalled] at hat
          obtain ⟨c, hc⟩ := Option.isSome_iff_exists.mp (hat.resolve_left (by simp))
          obtain ⟨i, -, -, rfl⟩ := step_closeNext hc hs
          unfold cancels
          rw [hcalled, hc]
          exact close_cancels w _ c
    · intro answer w' c dir hl hs hc
      subst hl
      obtain ⟨i, -, -, rfl⟩ := step_closeNext hc hs
      have hb := batch_of_closeNext hc
      have htimed : (w.setPhase (.clientsFree (i + 1))).FlagsRight c :=
        (h.flagsRight c).of_same (fun _ => rfl) rfl hb.symm
      exact htimed.close rfl dir

/-- **One step** in which a connect finds its socket without a file. -/
theorem TimersInv.step (h : TimersInv sys w) {l : Label γ ρ υ} (hfresh : w.FreshConnect l)
    (hs : w.step sys l = some w') : TimersInv sys w' := by
  have hconnect : ∀ c ms connected, l = .call (.connectAwait c ms connected) →
      (w.clients c).fe = none := by
    rintro c ms connected rfl
    exact hfresh
  refine ⟨(kept_owned sys).step h.owned hs h.owned, (kept_typesOk sys).step h.owned hs h.typesOk,
    h.callbacksFit.step h.owned hs, ?_, ?_⟩
  · intro c
    refine (h.flagsRight c).step h.owned ?_ hs
    intro ms connected hl
    rw [(h.connectInv c).fresh (hconnect c ms connected hl)]
  · intro c
    exact (h.connectInv c).step h.owned h.typesOk h.callbacksFit (hconnect c) hs

omit [DecidableEq ρ] in
theorem timersInv_start (sys : Sys γ ρ κ) (setup : Setup γ ρ) (oneshot direct : Bool)
    (setsize : Int) (fd : File γ ρ → Int) (backend : κ) (sec nsec : Int) :
    TimersInv (υ := υ) sys (World.start setup oneshot direct setsize fd backend sec nsec) where
  owned := owned_start ..
  typesOk := Event.NioEvent.typesOk_create sys.host oneshot direct setsize fd backend
  callbacksFit := callbacksFit_start setup oneshot direct setsize fd backend sec nsec
  flagsRight := flagsRight_start setup oneshot direct setsize fd backend sec nsec
  connectInv := connectInv_start setup oneshot direct setsize fd backend sec nsec

end World

section Run

variable {γ ρ υ κ : Type} [DecidableEq γ] [DecidableEq ρ] [DecidableEq υ]

/-- **The timers and `timers_` agree** over whole runs, in which a connect finds
its socket without a file; the flags and the entries always do, and every
`del_timer` finds its entry exactly in the runs in which no connect_callback
comes behind the close of a socket that was connecting. -/
theorem timers_held_iff (sys : Sys γ ρ κ) (setup : Setup γ ρ) (oneshot direct : Bool)
    (setsize : Int) (fd : File γ ρ → Int) (backend : κ) (sec nsec : Int)
    (ls : List (Label γ ρ υ))
    (hfresh : Trace.Meets (World.step sys) World.FreshConnect
      (World.start setup oneshot direct setsize fd backend sec nsec) ls) :
    Trace.Meets (World.step sys) (World.TimersHeld sys)
        (World.start setup oneshot direct setsize fd backend sec nsec) ls ↔
      Trace.Meets (World.step sys) (fun w l => ∀ answer, l = .next answer → ¬ w.Stale)
        (World.start setup oneshot direct setsize fd backend sec nsec) ls := by
  have hstart := World.timersInv_start (υ := υ) sys setup oneshot direct setsize fd backend sec nsec
  constructor
  · intro h
    exact Trace.meets_induct (I := World.TimersInv sys) (fun w l w' hl hk hs => hk.step hl.1 hs)
      (fun w l hl hk => (World.timersHeld_iff hk l).mp hl.2) (hfresh.and h) hstart
  · intro h
    exact Trace.meets_induct (I := World.TimersInv sys) (fun w l w' hl hk hs => hk.step hl.1 hs)
      (fun w l hl hk => (World.timersHeld_iff hk l).mpr hl.2) (hfresh.and h) hstart

/-- A connect with a timer, which the server refuses, of one socket, beside a
read with a timer of another that expires: every `del_timer` finds its entry. -/
theorem timers_held_two :
    let setup : Setup Nat Nat := { Setup.handled false false with clientFile := fun c => c = 1 }
    let start := World.fresh setup false File.number
    let refused : Answer := ⟨[(0, ⟨false, true, true, true⟩)], 1, 0, .wouldBlock, false⟩
    let ls : List (Label Nat Nat Nat) :=
      [.call (.connectAwait 0 5000 true), .call (.readAwait 1 20), .wait, .next refused,
        .next refused, .next refused, .next refused, .next refused, .call (.closeAwait 0), .ret,
        .next refused, .next refused, .call (.readAwait 1 20), .ret, .next refused, .next refused,
        .wait, .next refused, .next refused, .ret]
    (∃ w, Trace.run (World.step .table) start ls = some w ∧ w.closed 0 = true ∧
      w.timers.names = [.client 1 .read]) ∧
    Trace.Meets (World.step .table) (World.TimersHeld .table) start ls := by
  intro setup start refused ls
  have hany : (Trace.run (World.step .table) start ls).any
      (fun w => w.closed 0 && w.timers.names = [.client 1 .read]) = true := by
    decide +kernel
  obtain ⟨w, hrun, hw⟩ := Trace.run_any hany
  simp only [Bool.and_eq_true, decide_eq_true_eq] at hw
  have hfresh : Trace.Meets (World.step .table) World.FreshConnect start ls := by
    decide +kernel
  have hstale : Trace.Meets (World.step .table) (fun w _ => ¬ w.Stale) start ls := by
    decide +kernel
  refine ⟨⟨w, hrun, hw⟩, ?_⟩
  exact (timers_held_iff .table setup false false 1024 _ _ 0 0 ls hfresh).mpr
    (hstale.mono fun _ _ h _ _ => h)

/-- A socket that is closed while it is connecting, and asked to read again before
the close: an error on it calls read_callback and then connect_callback, whose
`del_timer` finds nothing. -/
theorem reopened_not_held :
    let start := World.fresh (.handled false false) false File.turn
    let answer : Answer := ⟨[(0, ⟨true, false, true, true⟩)], 0, 0, .wouldBlock, false⟩
    let ls : List (Label Nat Nat Nat) :=
      [.call (.connectAwait 0 1000 true), .call (.closeAwait 0), .call (.readAwait 0 0), .wait,
        .next answer, .next answer, .ret, .next answer, .next answer, .next answer, .ret]
    Trace.Meets (World.step .table) World.FreshConnect start ls ∧
      ¬ Trace.Meets (World.step .table) (World.TimersHeld .table) start (ls ++ [.next answer]) := by
  intro start answer ls
  refine ⟨by decide +kernel, ?_⟩
  intro hm
  have hany : (Trace.run (World.step .table) start ls).any
      (fun w => w.cancels = [.client 0 .write] && w.timers.timers = []) = true := by
    decide +kernel
  obtain ⟨w, hrun, hw⟩ := Trace.run_any hany
  simp only [Bool.and_eq_true, decide_eq_true_eq] at hw
  obtain ⟨hcancels, htimers⟩ := hw
  obtain ⟨-, hlast⟩ := Trace.meets_append.mp hm
  have hremoves := (hlast w hrun).1.removes answer rfl
  rw [hcancels] at hremoves
  have hfound := Timer.Timers.removes_iff.mp hremoves.1
  rw [htimers] at hfound
  cases hfound

end Run

end Libnio.Socket
