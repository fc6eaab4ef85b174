import Libnio.Socket.Update

/-!
# Socket — every function by its updates

For each function which updates lead from the world it finds to the one it leaves,
up to what a call, a callback, a timer and a close may do.
-/

namespace Libnio.Socket

open Event (Dir)

namespace World

variable {γ ρ υ κ : Type} [DecidableEq γ] [DecidableEq ρ] [DecidableEq υ] {sys : Sys γ ρ κ}
  {w : World γ ρ υ κ}

/-! ## Files stay with their objects -/

omit [DecidableEq γ] [DecidableEq ρ] [DecidableEq υ] in
theorem Owned.setTimers (h : w.Owned) (timers : Timer.Timers (TimerName γ υ)) :
    (w.setTimers timers).Owned :=
  ⟨h.client, h.proc⟩

omit [DecidableEq ρ] [DecidableEq υ] in
theorem Owned.setClient (h : w.Owned) (c : γ) {f : ClientSocket γ ρ → ClientSocket γ ρ}
    (hf : ∀ cli, (f cli).fe = cli.fe) : (w.setClient c f).Owned := by
  refine ⟨?_, h.proc⟩
  intro c' fe hfe
  refine h.client c' fe ?_
  rw [← hfe]
  show _ = (Function.update w.clients c (f (w.clients c)) c').fe
  rcases eq_or_ne c' c with rfl | hc
  · rw [Function.update_self, hf]
  · rw [Function.update_of_ne hc]

omit [DecidableEq γ] [DecidableEq υ] in
theorem Owned.setProc (h : w.Owned) (p : ρ) {f : EventProc γ ρ → EventProc γ ρ}
    (hf : ∀ proc, (f proc).fe = proc.fe) : (w.setProc p f).Owned := by
  refine ⟨h.client, ?_⟩
  intro p' fe hfe
  refine h.proc p' fe ?_
  rw [← hfe]
  show _ = (Function.update w.procs p (f (w.procs p)) p').fe
  rcases eq_or_ne p' p with rfl | hp
  · rw [Function.update_self, hf]
  · rw [Function.update_of_ne hp]

omit [DecidableEq ρ] in
theorem Owned.disarmTimer (h : w.Owned) (c : γ) (dir : Dir) : (w.disarmTimer c dir).Owned := by
  unfold World.disarmTimer
  split
  · exact (h.setTimers _).setClient c (f := (·.setWaiting dir false)) fun _ => rfl
  · exact h

omit [DecidableEq ρ] [DecidableEq υ] in
theorem Owned.delayClose (h : w.Owned) (c : γ) : (w.delayClose c).Owned := by
  unfold World.delayClose
  split
  · have hc := h.setClient c (f := fun cli => { cli with closing := true }) fun _ => rfl
    exact ⟨hc.client, hc.proc⟩
  · exact h

omit [DecidableEq γ] [DecidableEq υ] in
theorem Owned.procDelayClose (h : w.Owned) (p : ρ) : (w.procDelayClose p).Owned := by
  unfold World.procDelayClose
  split
  · have hp := h.setProc p (f := fun proc => { proc with closing := true }) fun _ => rfl
    exact ⟨hp.client, hp.proc⟩
  · exact h

theorem Owned.update (h : w.Owned) {o : Owner γ ρ} {d : Update γ ρ υ} (hd : d.For o) :
    (w.update sys d).Owned := by
  cases d with
  | add dir fe proc => exact ⟨h.client, h.proc⟩
  | del dir fe => exact ⟨h.client, h.proc⟩
  | delReadwrite fe => exact ⟨h.client, h.proc⟩
  | setFlag c dir b => exact h.setClient c fun _ => rfl
  | armTimer c dir ms =>
      show (if _ then w else w.armTimer c dir ms).Owned
      split
      · exact h
      · exact (h.setTimers _).setClient c (f := (·.setWaiting dir true)) fun _ => rfl
  | disarmTimer c dir => exact h.disarmTimer c dir
  | startConnecting c ms =>
      have hc := (h.setTimers (w.timers.addTimer (.client c .write) ms)).setClient c
        (f := (·.setConnecting .write true)) fun _ => rfl
      exact hc.setClient c (f := (·.setWaiting .write true)) fun _ => rfl
  | stopConnecting c =>
      show (if _ then _ else w).Owned
      split
      · have hc := (h.setClient c (f := (·.setWaiting .write false)) fun _ => rfl).setClient c
          (f := (·.setConnecting .write false)) fun _ => rfl
        exact ⟨hc.client, hc.proc⟩
      · exact h
  | timerFired c dir => exact h.setClient c fun _ => rfl
  | connectTimeout c => exact h.setClient c fun _ => rfl
  | allocate o => exact ⟨h.client, h.proc⟩
  | setFe c fe =>
      obtain ⟨hc, hfe⟩ := hd
      refine ⟨?_, h.proc⟩
      intro c' fe' hfe'
      change (Function.update w.clients c { w.clients c with fe := some fe } c').fe =
          some fe' at hfe'
      rcases eq_or_ne c' c with rfl | hne
      · rw [Function.update_self] at hfe'
        cases hfe'
        rw [hfe, hc]
      · rw [Function.update_of_ne hne] at hfe'
        exact h.client c' fe' hfe'
  | setBuf c buf taken =>
      have hc := h.setClient c (f := (·.setBuf buf)) fun _ => rfl
      exact ⟨hc.client, hc.proc⟩
  | setProcBuf p buf taken =>
      have hp := h.setProc p (f := fun proc => { proc with buf }) fun _ => rfl
      exact ⟨hp.client, hp.proc⟩
  | delayClose c => exact h.delayClose c
  | procDelayClose p => exact h.procDelayClose p
  | timer c => exact ⟨h.client, h.proc⟩
  | enter r => exact ⟨h.client, h.proc⟩
  | close o => exact ⟨h.client, h.proc⟩

theorem Updates.owned {o : Owner γ ρ} {ks : List Kind} {w' : World γ ρ υ κ}
    (h : Updates sys (Within o ks) w w') (hown : w.Owned) : w'.Owned :=
  h.keeps (fun _ _ hd hw => hw.update hd.1) hown

/-! ## Calls -/

theorem connectAwait_updates (c : γ) (ms : Int) (connected : Bool) :
    Updates sys (Within (.client c) [.connect, .add]) w (w.connectAwait sys c ms connected).2 := by
  have hallocate : Updates sys (Within (.client c) [.connect, .add]) w (w.allocate (.client c)).2 :=
    .one w (d := .allocate (.client c)) ⟨rfl, by simp [Update.kind]⟩
  have hadd := hallocate.then_ (.add .write (w.allocate (.client c)).1 .connectCallback)
    ⟨rfl, by simp [Update.kind]⟩
  have hfe := hadd.then_ (.setFe c (w.allocate (.client c)).1) ⟨⟨rfl, rfl⟩, by simp [Update.kind]⟩
  unfold connectAwait
  split
  · exact .nothing w
  · dsimp only
    split
    · exact hadd
    · split
      · exact hfe
      · exact hfe.then_ (.startConnecting c ms) ⟨rfl, by simp [Update.kind]⟩

theorem await_updates (hown : w.Owned) {dir : Dir} {proc : Callback} {c : γ} {ms : Int}
    {r : Bool × World γ ρ υ κ} (h : w.await sys dir proc c ms = some r) :
    Updates sys (Within (.client c) [.add, .arm]) w r.2 := by
  unfold await at h
  split at h
  · cases h
  · rename_i fe hfe
    have hadd : Updates sys (Within (.client c) [.add, .arm]) w
        (if !w.ev.oneshot || !(w.clients c).flags dir then w.addEvent sys dir fe proc
          else (true, w)).2 := by
      split
      · exact .one w (d := .add dir fe proc) ⟨hown.client c fe hfe, by simp [Update.kind]⟩
      · exact .nothing w
    generalize (if !w.ev.oneshot || !(w.clients c).flags dir then w.addEvent sys dir fe proc
      else (true, w)) = v at h hadd
    dsimp only at h
    split at h
    · cases h
      exact hadd
    · split at h
      · cases h
        exact hadd
      · split at h
        · rename_i hnot
          cases h
          have hwait : ((v.2.clients c).timer dir).waiting = false := by simpa using hnot
          have harm := hadd.then_ (.armTimer c dir ms) ⟨rfl, by simp [Update.kind]⟩
          simpa only [update, hwait, Bool.false_eq_true, if_false] using harm
        · cases h
          exact hadd

theorem write_updates (hown : w.Owned) {c : γ} {data : Data} {ms : Int} {answer : WriteAnswer}
    {r : Int × (Int × Nat) × World γ ρ υ κ} (h : w.write sys c data ms answer = some r) :
    Updates sys (Within (.client c) [.buf, .add, .arm]) w r.2.2 := by
  unfold write at h
  split at h
  · cases h
  · dsimp only at h
    have hbuf : Updates sys (Within (.client c) [.buf, .add, .arm]) w
        ((w.setClient c (·.setBuf (Outgoing.write (w.clients c).buf data answer).buf)).sent
          (.client c) (Outgoing.write (w.clients c).buf data answer).taken) :=
      .one w (d := .setBuf c (Outgoing.write (w.clients c).buf data answer).buf
        (Outgoing.write (w.clients c).buf data answer).taken) ⟨rfl, by simp [Update.kind]⟩
    split at h
    · obtain ⟨s, hs, rfl⟩ := Option.map_eq_some_iff.mp h
      have hawait := await_updates (hbuf.owned hown) hs
      exact hbuf.trans (hawait.mono fun d hd => hd.mono (by decide))
    · cases h
      exact hbuf

theorem closeAwait_updates (hown : w.Owned) (c : γ) :
    Updates sys (Within (.client c) [.del, .queue]) w (w.closeAwait sys c) := by
  unfold closeAwait
  split
  · dsimp only
    -- the flag is already set by `delay_close`
    have hidem : ∀ v : World γ ρ υ κ, (v.clients c).closing = false →
        (v.delayClose c).setClient c (fun cli => { cli with closing := true })
          = v.delayClose c := by
      intro v hv
      simp [delayClose, setClient, hv]
    rename_i hnot
    have hclosing : (w.clients c).closing = false := by simpa using hnot
    have hqueue : ∀ v : World γ ρ υ κ, (v.clients c).closing = false →
        Updates sys (Within (.client c) [.del, .queue]) w v →
        Updates sys (Within (.client c) [.del, .queue]) w
          ((v.delayClose c).setClient c fun cli => { cli with closing := true }) := by
      intro v hv hd
      rw [hidem v hv]
      exact hd.then_ (.delayClose c) ⟨rfl, by simp [Update.kind]⟩
    split
    · rename_i fe hfe
      split
      · exact hqueue _ hclosing (.one w (d := .delReadwrite fe)
          ⟨hown.client c fe hfe, by simp [Update.kind]⟩)
      · exact hqueue _ hclosing (.nothing w)
    · exact hqueue _ hclosing (.nothing w)
  · exact .nothing w

theorem procAwait_updates (hown : w.Owned) (dir : Dir) (proc : Callback) (p : ρ) :
    Updates sys (Within (.proc p) [.add]) w (w.procAwait sys dir proc p).2 := by
  unfold procAwait
  split
  · exact .nothing w
  · rename_i fe hfe
    exact .one w (d := .add dir fe proc) ⟨hown.proc p fe hfe, by simp [Update.kind]⟩

theorem procDisable_updates (hown : w.Owned) (dir : Dir) (p : ρ) :
    Updates sys (Within (.proc p) [.del]) w (w.procDisable sys dir p) := by
  unfold procDisable
  split
  · exact .nothing w
  · rename_i fe hfe
    exact .one w (d := .del dir fe) ⟨hown.proc p fe hfe, by simp [Update.kind]⟩

theorem procWrite_updates (hown : w.Owned) {p : ρ} {data : Data} {answer : WriteAnswer}
    {r : Int × (Int × Nat) × World γ ρ υ κ} (h : w.procWrite sys p data answer = some r) :
    Updates sys (Within (.proc p) [.buf, .add]) w r.2.2 := by
  unfold procWrite at h
  split at h
  · cases h
  · dsimp only at h
    have hbuf : Updates sys (Within (.proc p) [.buf, .add]) w
        ((w.setProc p fun proc =>
          { proc with buf := (Outgoing.write (w.procs p).buf data answer).buf }).sent (.proc p)
          (Outgoing.write (w.procs p).buf data answer).taken) :=
      .one w (d := .setProcBuf p (Outgoing.write (w.procs p).buf data answer).buf
        (Outgoing.write (w.procs p).buf data answer).taken) ⟨rfl, by simp [Update.kind]⟩
    split at h
    · cases h
      have hawait : Updates sys _ _ _ := procAwait_updates (hbuf.owned hown) .write .writeProc p
      exact hbuf.trans (hawait.mono fun d hd => hd.mono (by decide))
    · cases h
      exact hbuf

theorem procCloseAwait_updates (hown : w.Owned) (p : ρ) :
    Updates sys (Within (.proc p) [.del, .queue]) w (w.procCloseAwait sys p) := by
  unfold procCloseAwait
  split
  · exact .nothing w
  · rename_i fe hfe
    split
    · rename_i hnot
      have hclosing : (w.procs p).closing = false := by simpa using hnot
      have hidem : ((w.delReadwrite sys fe).procDelayClose p).setProc p
          (fun proc => { proc with closing := true }) =
              (w.delReadwrite sys fe).procDelayClose p := by
        simp [procDelayClose, setProc, delReadwrite, setEv, hclosing]
      rw [hidem]
      have hdel : Updates sys (Within (.proc p) [.del, .queue]) w (w.delReadwrite sys fe) :=
        .one w (d := .delReadwrite fe) ⟨hown.proc p fe hfe, by simp [Update.kind]⟩
      exact hdel.then_ (.procDelayClose p) ⟨rfl, by simp [Update.kind]⟩
    · exact .nothing w

/-- The updates of a call: those of its kinds on its object, or one on a timer of
the program. -/
def CallWithin (c : Call γ ρ υ) (d : Update γ ρ υ) : Prop :=
  match c.owner with
  | some o => Within o c.kinds d
  | none => ∃ tc u, d = .timer tc ∧ tc.timer = .user u

/-- **A call does its updates.** -/
theorem perform_updates (hown : w.Owned) {c : Call γ ρ υ} {r : Int × (Int × Nat) × World γ ρ υ κ}
    (h : w.perform sys c = some r) : Updates sys (CallWithin c) w r.2.2 := by
  cases c with
  | connectAwait c ms b =>
      cases h
      exact connectAwait_updates c ms b
  | readAwait c ms =>
      obtain ⟨s, hs, rfl⟩ := Option.map_eq_some_iff.mp h
      exact await_updates hown hs
  | writeAwait c ms =>
      obtain ⟨s, hs, rfl⟩ := Option.map_eq_some_iff.mp h
      exact await_updates hown hs
  | write c data ms a => exact write_updates hown h
  | readDisable c =>
      obtain ⟨s, hs, rfl⟩ := Option.map_eq_some_iff.mp h
      obtain ⟨fe, hfe, rfl⟩ := Option.map_eq_some_iff.mp hs
      exact .one w (d := .del .read fe) ⟨hown.client c fe hfe, by simp [Update.kind, Call.kinds]⟩
  | writeDisable c =>
      obtain ⟨s, hs, rfl⟩ := Option.map_eq_some_iff.mp h
      obtain ⟨fe, hfe, rfl⟩ := Option.map_eq_some_iff.mp hs
      exact .one w (d := .del .write fe) ⟨hown.client c fe hfe, by simp [Update.kind, Call.kinds]⟩
  | readwriteDisable c =>
      obtain ⟨s, hs, rfl⟩ := Option.map_eq_some_iff.mp h
      obtain ⟨fe, hfe, rfl⟩ := Option.map_eq_some_iff.mp hs
      exact .one w (d := .delReadwrite fe) ⟨hown.client c fe hfe, by simp [Update.kind, Call.kinds]⟩
  | closeAwait c =>
      cases h
      exact closeAwait_updates hown c
  | procConnectAwait p =>
      cases h
      show Updates sys _ w (w.procConnectAwait sys p).2
      unfold procConnectAwait
      split
      · exact .nothing w
      · rename_i fe hfe
        exact .one w (d := .add .write fe .connectProc)
          ⟨hown.proc p fe hfe, by simp [Update.kind, Call.kinds]⟩
  | procReadAwait p =>
      cases h
      exact procAwait_updates hown .read .readProc p
  | procWriteAwait p =>
      cases h
      exact procAwait_updates hown .write .writeProc p
  | procWrite p data a => exact procWrite_updates hown h
  | procReadDisable p =>
      cases h
      exact procDisable_updates hown .read p
  | procWriteDisable p =>
      cases h
      exact procDisable_updates hown .write p
  | procCloseAwait p =>
      cases h
      exact procCloseAwait_updates hown p
  | addTimer u ms =>
      cases h
      exact .one w (d := .timer (.addTimer (.user u) ms)) ⟨_, u, rfl, rfl⟩
  | delTimer u =>
      cases h
      exact .one w (d := .timer (.delTimer (.user u))) ⟨_, u, rfl, rfl⟩
  | resetTimer u ms =>
      cases h
      exact .one w (d := .timer (.resetTimer (.user u) ms)) ⟨_, u, rfl, rfl⟩

/-- A call of an object. -/
theorem perform_within (hown : w.Owned) {c : Call γ ρ υ} {o : Owner γ ρ} (ho : c.owner = some o)
    {r : Int × (Int × Nat) × World γ ρ υ κ} (h : w.perform sys c = some r) :
    Updates sys (Within o c.kinds) w r.2.2 := by
  refine (perform_updates hown h).mono ?_
  intro d hd
  simpa only [CallWithin, ho] using hd

/-- A call for a timer of the program. -/
theorem perform_user (hown : w.Owned) {c : Call γ ρ υ} (ho : c.owner = none)
    {r : Int × (Int × Nat) × World γ ρ υ κ} (h : w.perform sys c = some r)
    {P : World γ ρ υ κ → Prop}
    (htimer : ∀ v (tc : Timer.Call (TimerName γ υ)) u, tc.timer = .user u → P v →
      P (v.setTimers (v.timers.apply tc))) (hp : P w) : P r.2.2 := by
  refine (perform_updates hown h).keeps (P := P) ?_ hp
  intro v d hd hv
  simp only [CallWithin, ho] at hd
  obtain ⟨tc, u, rfl, hu⟩ := hd
  exact htimer v tc u hu hv

/-- **What a call keeps**: what its own updates keep, or a timer of the program. -/
theorem perform_keeps (hown : w.Owned) {c : Call γ ρ υ} {r : Int × (Int × Nat) × World γ ρ υ κ}
    (h : w.perform sys c = some r) {P : World γ ρ υ κ → Prop}
    (hdeed : ∀ v o d, c.owner = some o → Within o c.kinds d → P v → P (v.update sys d))
    (htimer : ∀ v (tc : Timer.Call (TimerName γ υ)) u, tc.timer = .user u → P v →
      P (v.setTimers (v.timers.apply tc))) (hp : P w) : P r.2.2 := by
  cases ho : c.owner with
  | none => exact perform_user hown ho h htimer hp
  | some o => exact (perform_within hown ho h).keeps (fun v d hd hv => hdeed v o d ho hd hv) hp

/-! ## Callbacks -/

section Callbacks

variable {ks : List Kind}

theorem callHandler_updates {w' : World γ ρ υ κ} {c : γ}
    (h : Updates sys (Within (.client c) ks) w w') {hd : Handler} (hne : hd ≠ .onClose)
    (hk : Kind.enter ∈ ks) (fd : Int) (timeout : Bool) :
    Updates sys (Within (.client c) ks) w (w'.callHandler c hd fd timeout) := by
  unfold callHandler
  split
  · refine h.then_ (.enter (.client c hd fd timeout)) ⟨rfl, ?_⟩
    simpa [Update.kind, Running.isClose, hne] using hk
  · exact h

theorem connectCallback_updates {c : γ} {fe : File γ ρ} (hfe : fe.1 = .client c) {connected : Bool}
    {w' : World γ ρ υ κ} (h : w.connectCallback sys c fe connected = some w') :
    Updates sys (Within (.client c) Callback.connectCallback.kinds) w w' := by
  unfold connectCallback at h
  dsimp only at h
  obtain ⟨-, h⟩ := Option.ite_none_right_eq_some.mp h
  have hflag : Updates sys (Within (.client c) Callback.connectCallback.kinds) w
      (w.setClient c (·.setFlag .write false)) :=
    .one w (d := .setFlag c .write false) ⟨rfl, by simp [Update.kind, Callback.kinds]⟩
  have hstop := hflag.then_ (.stopConnecting c) ⟨rfl, by simp [Update.kind, Callback.kinds]⟩
  cases h
  refine Updates.then_ (.enter (.client c .onConnect _ false)) ?_
    ⟨rfl, by simp [Update.kind, Running.isClose, Callback.kinds]⟩
  split
  · exact hstop.then_ (.del .write fe) ⟨hfe, by simp [Update.kind, Callback.kinds]⟩
  · exact hstop.then_ (.delReadwrite fe) ⟨hfe, by simp [Update.kind, Callback.kinds]⟩

theorem readCallback_updates (c : γ) (fe : File γ ρ) :
    Updates sys (Within (.client c) Callback.readCallback.kinds) w (w.readCallback c fe) := by
  have hflag : Updates sys (Within (.client c) Callback.readCallback.kinds) w
      (w.setClient c (·.setFlag .read false)) :=
    .one w (d := .setFlag c .read false) ⟨rfl, by simp [Update.kind, Callback.kinds]⟩
  have hdisarm := hflag.then_ (.disarmTimer c .read) ⟨rfl, by simp [Update.kind, Callback.kinds]⟩
  exact callHandler_updates hdisarm (by decide) (by decide) _ _

theorem writeCallback_updates (c : γ) (fe : File γ ρ) (answer : WriteAnswer) :
    Updates sys (Within (.client c) Callback.writeCallback.kinds) w
      (w.writeCallback c fe answer) := by
  have hflag : Updates sys (Within (.client c) Callback.writeCallback.kinds) w
      (w.setClient c (·.setFlag .write false)) :=
    .one w (d := .setFlag c .write false) ⟨rfl, by simp [Update.kind, Callback.kinds]⟩
  have hdisarm := hflag.then_ (.disarmTimer c .write) ⟨rfl, by simp [Update.kind, Callback.kinds]⟩
  unfold writeCallback
  dsimp only
  split
  · have hbuf := fun buf taken =>
      hdisarm.then_ (.setBuf c buf taken) ⟨rfl, by simp [Update.kind, Callback.kinds]⟩
    split
    · exact callHandler_updates (hbuf _ _) (by decide) (by decide) _ _
    · split
      · exact hbuf _ _
      · exact callHandler_updates (hbuf _ _) (by decide) (by decide) _ _
  · exact callHandler_updates hdisarm (by decide) (by decide) _ _

theorem writeProc_updates (p : ρ) (answer : WriteAnswer) :
    Updates sys (Within (.proc p) Callback.writeProc.kinds) w (w.writeProc p answer) := by
  have henter : ∀ {w' : World γ ρ υ κ} {hd : Handler}, hd ≠ .onClose →
      Updates sys (Within (.proc p) Callback.writeProc.kinds) w w' →
      Updates sys (Within (.proc p) Callback.writeProc.kinds) w (w'.enter (.proc p hd false)) := by
    intro w' hd hne h
    exact h.then_ (.enter (.proc p hd false))
      ⟨rfl, by simp [Update.kind, Running.isClose, Callback.kinds, hne]⟩
  unfold writeProc
  split
  · have hbuf : ∀ buf taken, Updates sys (Within (.proc p) Callback.writeProc.kinds) w
        (w.update sys (.setProcBuf p buf taken)) := fun _ _ =>
      .one w ⟨rfl, by simp [Update.kind, Callback.kinds]⟩
    dsimp only
    split
    · exact henter (by decide) (hbuf _ _)
    · split
      · exact hbuf _ _
      · exact henter (by decide) (hbuf _ _)
  · exact henter (by decide) (.nothing w)

/-- **A callback does its updates**, to the object that is the `ctx` of its file. -/
theorem callback_updates (hown : w.Owned) {fe : File γ ρ} {proc : Callback} {answer : Answer}
    {w' : World γ ρ υ κ} (h : w.callback sys fe proc answer = some w') :
    Updates sys (Within fe.1 proc.kinds) w w' := by
  obtain ⟨o, n⟩ := fe
  cases o with
  | client c =>
      cases proc with
      | connectCallback => exact connectCallback_updates rfl h
      | readCallback =>
          cases h
          exact readCallback_updates c _
      | writeCallback =>
          cases h
          exact writeCallback_updates c _ _
      | connectProc => cases h
      | readProc => cases h
      | writeProc => cases h
  | proc p =>
      cases proc with
      | connectCallback => cases h
      | readCallback => cases h
      | writeCallback => cases h
      | connectProc =>
          cases h
          have hdel : Updates sys _ _ _ := procDisable_updates hown .write p
          exact (hdel.mono fun d hd => hd.mono (by decide)).then_ (.enter (.proc p .onConnect _))
            ⟨rfl, by simp [Update.kind, Running.isClose, Callback.kinds]⟩
      | readProc =>
          cases h
          exact .one w (d := .enter (.proc p .onRead false))
            ⟨rfl, by simp [Update.kind, Running.isClose, Callback.kinds]⟩
      | writeProc =>
          cases h
          exact writeProc_updates p _

/-- What `on_timer` does when the timer waits no longer. -/
theorem fired_updates (c : γ) (dir : Dir) :
    Updates sys (Within (.client c) [.flag, .enter]) (w.setClient c (·.setWaiting dir false))
      (w.onTimer c dir) := by
  have hflag : Updates sys (Within (.client c) [.flag, .enter])
      (w.setClient c (·.setWaiting dir false))
      ((w.setClient c (·.setWaiting dir false)).setClient c (·.setFlag dir true)) :=
    .one _ (d := .setFlag c dir true) ⟨rfl, by simp [Update.kind]⟩
  unfold onTimer
  cases dir with
  | read => exact callHandler_updates hflag (by decide) (by decide) _ _
  | write =>
      dsimp only
      split
      · have htimeout := hflag.then_ (.connectTimeout c) ⟨rfl, by simp [Update.kind]⟩
        exact callHandler_updates htimeout (by decide) (by decide) _ _
      · exact callHandler_updates hflag (by decide) (by decide) _ _

theorem onTimer_updates (c : γ) (dir : Dir) :
    Updates sys (Within (.client c) [.fired, .flag, .enter]) w (w.onTimer c dir) := by
  have hfired : Updates sys (Within (.client c) [.fired, .flag, .enter]) w
      (w.setClient c (·.setWaiting dir false)) :=
    .one w (d := .timerFired c dir) ⟨rfl, by simp [Update.kind]⟩
  exact hfired.trans ((fired_updates c dir).mono fun d hd => hd.mono (by decide))

theorem close_updates (c : γ) :
    Updates sys (Within (.client c) [.disarm, .close, .enterClose]) w (w.close c) := by
  have hread : Updates sys (Within (.client c) [.disarm, .close, .enterClose]) w
      (w.disarmTimer c .read) :=
    .one w (d := .disarmTimer c .read) ⟨rfl, by simp [Update.kind]⟩
  have hwrite := hread.then_ (.disarmTimer c .write) ⟨rfl, by simp [Update.kind]⟩
  have hclose := hwrite.then_ (.close (.client c)) ⟨rfl, by simp [Update.kind]⟩
  unfold close
  dsimp only
  unfold callHandler
  split
  · exact hclose.then_ (.enter (.client c .onClose _ false))
      ⟨rfl, by simp [Update.kind, Running.isClose]⟩
  · exact hclose

theorem procClose_updates (p : ρ) :
    Updates sys (Within (.proc p) [.close, .enterClose]) w (w.procClose p) := by
  have hclose :
    Updates sys (Within (.proc p) [.close, .enterClose]) w (w.logged (.close (.proc p))) :=
    .one w (d := .close (.proc p)) ⟨rfl, by simp [Update.kind]⟩
  exact hclose.then_ (.enter (.proc p .onClose false)) ⟨rfl, by simp [Update.kind, Running.isClose]⟩

end Callbacks

end World

end Libnio.Socket
