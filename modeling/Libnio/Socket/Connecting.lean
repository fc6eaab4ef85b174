import Libnio.Socket.Reported

/-!
# Socket — a socket that is connecting

`connect_callback` asks whether the write timer is connecting, where its
siblings ask whether it is waiting. Up to `client_socket::close` this comes to
the same: as long as a connect_callback of the socket can be called, a write
timer that is connecting waits.
-/

namespace Libnio.Socket

open Event (Dir)

namespace ClientSocket

variable {γ ρ : Type} {cli : ClientSocket γ ρ} {dir : Dir} {b : Bool}

theorem setWaiting_self : (cli.setWaiting dir b).timer dir = { cli.timer dir with waiting := b } :=
  Function.update_self ..

theorem setWaiting_of_ne {d : Dir} (h : d ≠ dir) : (cli.setWaiting dir b).timer d = cli.timer d :=
  Function.update_of_ne h ..

theorem setConnecting_self :
    (cli.setConnecting dir b).timer dir = { cli.timer dir with connecting := b } :=
  Function.update_self ..

end ClientSocket

namespace World

variable {γ ρ υ κ : Type}

/-- A connect_callback of the socket can be called. -/
def Connects (w : World γ ρ υ κ) (c : γ) : Prop :=
  ∃ n, (w.ev.files (.client c, n)).proc .write = some .connectCallback ∨
    w.later = some ((.client c, n), .connectCallback)

/-- What a run of connects keeps for a socket: its callbacks stand on its file,
and what is kept for later was read there; without a file none of its timers is
in use; and a timer that is connecting waits while it matters. -/
structure ConnectInv (w : World γ ρ υ κ) (c : γ) : Prop where
  file : ∀ n p, (w.ev.files (.client c, n)).proc .write = some p →
    (w.clients c).fe = some (.client c, n)
  later : ∀ n p, w.later = some ((.client c, n), p) → (w.clients c).fe ≠ none ∧
    (p = .writeCallback → ∀ m, (w.ev.files (.client c, m)).proc .write ≠ some .connectCallback)
  fresh : (w.clients c).fe = none → ∀ dir, (w.clients c).timer dir = ⟨false, false⟩
  waits : ((w.clients c).timer .write).connecting = true →
    .close (.client c) ∈ w.log ∨ ((w.clients c).timer .write).waiting = true ∨ ¬ w.Connects c

/-- A part of a step that adds nothing to a socket but `write_callback`. -/
structure AddsNoConnect (c : γ) (w w' : World γ ρ υ κ) : Prop where
  fe : (w'.clients c).fe = (w.clients c).fe
  proc : ∀ n p, (w'.ev.files (.client c, n)).proc .write = some p →
    (w.ev.files (.client c, n)).proc .write = some p ∨
      p = .writeCallback ∧ (w.clients c).fe = some (.client c, n)
  later : ∀ x, w'.later = some x → w.later = some x
  fresh : (w.clients c).fe = none → (w.clients c).timer = (fun _ => ⟨false, false⟩) →
    (w'.clients c).timer = fun _ => ⟨false, false⟩

variable {w w' : World γ ρ υ κ} {c : γ}

theorem AddsNoConnect.connects (hr : AddsNoConnect c w w') (h : w'.Connects c) : w.Connects c := by
  obtain ⟨n, hproc | hlater⟩ := h
  · rcases hr.proc n _ hproc with hp | ⟨he, -⟩
    · exact ⟨n, .inl hp⟩
    · cases he
  · exact ⟨n, .inr (hr.later _ hlater)⟩

theorem ConnectInv.addsNoConnect (h : w.ConnectInv c) (hr : AddsNoConnect c w w')
    (hwaits : ((w'.clients c).timer .write).connecting = true →
      .close (.client c) ∈ w'.log ∨ ((w'.clients c).timer .write).waiting = true ∨
        ¬ w'.Connects c) : w'.ConnectInv c := by
  refine ⟨?_, ?_, ?_, hwaits⟩
  · intro n p hp
    rw [hr.fe]
    rcases hr.proc n p hp with hp | ⟨-, hfe⟩
    · exact h.file n p hp
    · exact hfe
  · intro n p hl
    rw [hr.fe]
    obtain ⟨hfe, hwrite⟩ := h.later n p (hr.later _ hl)
    refine ⟨hfe, ?_⟩
    intro he m hm
    rcases hr.proc m _ hm with hp | ⟨he', -⟩
    · exact hwrite he m hp
    · cases he'
  · intro hfe dir
    rw [hr.fe] at hfe
    rw [hr.fresh hfe (funext (h.fresh hfe))]

/-- Where neither the flags of the write timer nor a close matter. -/
theorem ConnectInv.addsNoConnect_same (h : w.ConnectInv c) (hr : AddsNoConnect c w w')
    (hlog : w.log <+: w'.log) (htimer : (w'.clients c).timer .write = (w.clients c).timer .write) :
    w'.ConnectInv c := by
  refine h.addsNoConnect hr ?_
  rw [htimer]
  intro hc
  rcases h.waits hc with hclose | hwait | hnot
  · exact .inl (hlog.subset hclose)
  · exact .inr (.inl hwait)
  · exact .inr (.inr fun hcon => hnot (hr.connects hcon))

variable [DecidableEq γ] [DecidableEq ρ] [DecidableEq υ] {sys : Sys γ ρ κ}

/-! ## Timers, update by update -/

/-- Only a connect and an await set a flag of a timer. -/
theorem update_idle (sys : Sys γ ρ κ) (w : World γ ρ υ κ) {d : Update γ ρ υ}
    (hconnect : d.kind ≠ .connect)
    (harm : d.kind ≠ .arm) (c : γ) (h : (w.clients c).timer = fun _ => ⟨false, false⟩) :
    ((w.update sys d).clients c).timer = fun _ => ⟨false, false⟩ := by
  have hset : ∀ (v : World γ ρ υ κ) (c' : γ) {f : ClientSocket γ ρ → ClientSocket γ ρ},
      (v.clients c).timer = (fun _ => ⟨false, false⟩) →
      (∀ cli, cli.timer = (fun _ => ⟨false, false⟩) → (f cli).timer = fun _ => ⟨false, false⟩) →
      ((v.setClient c' f).clients c).timer = fun _ => ⟨false, false⟩ := by
    intro v c' f hv hf
    show (Function.update v.clients c' (f (v.clients c')) c).timer = _
    rcases eq_or_ne c c' with rfl | hne
    · rw [Function.update_self]
      exact hf _ hv
    · rw [Function.update_of_ne hne]
      exact hv
  have hwaiting : ∀ (dir : Dir) (cli : ClientSocket γ ρ), cli.timer = (fun _ => ⟨false, false⟩) →
      (cli.setWaiting dir false).timer = fun _ => ⟨false, false⟩ := by
    intro dir cli hcli
    show Function.update cli.timer dir _ = _
    rw [hcli]
    exact Function.update_eq_self dir _
  have hconnecting : ∀ (dir : Dir) (cli : ClientSocket γ ρ), cli.timer = (fun _ => ⟨false, false⟩) →
      (cli.setConnecting dir false).timer = fun _ => ⟨false, false⟩ := by
    intro dir cli hcli
    show Function.update cli.timer dir _ = _
    rw [hcli]
    exact Function.update_eq_self dir _
  cases d with
  | setFlag c' dir b => exact hset w c' (f := (·.setFlag dir b)) h fun _ hcli => hcli
  | armTimer c' dir ms => exact absurd rfl harm
  | disarmTimer c' dir =>
      show ((if _ then _ else w).clients c).timer = _
      split
      · exact hset (w.setTimers _) c' h (hwaiting dir)
      · exact h
  | startConnecting c' ms => exact absurd rfl hconnect
  | stopConnecting c' =>
      show ((if _ then _ else w).clients c).timer = _
      split
      · exact hset _ c' (hset w c' h (hwaiting .write)) (hconnecting .write)
      · exact h
  | timerFired c' dir => exact hset w c' h (hwaiting dir)
  | connectTimeout c' => exact hset w c' h (hconnecting .write)
  | setFe c' fe => exact absurd rfl hconnect
  | setBuf c' buf taken => exact hset w c' (f := (·.setBuf buf)) h fun _ hcli => hcli
  | delayClose c' =>
      show ((if _ then _ else w).clients c).timer = _
      split
      · exact hset w c' (f := fun cli => { cli with closing := true }) h fun _ hcli => hcli
      · exact h
  | procDelayClose p =>
      show ((if _ then _ else w).clients c).timer = _
      split <;> exact h
  | _ => exact h

/-- An await may set the flag of one that waits, and nothing else. -/
theorem update_waits (sys : Sys γ ρ κ) (w : World γ ρ υ κ) {d : Update γ ρ υ}
    (hconnect : d.kind ≠ .connect)
    (hdisarm : d.kind ≠ .disarm) (hfired : d.kind ≠ .fired) (hflag : d.kind ≠ .flag) (c : γ)
        (dir : Dir) :
    (((w.update sys d).clients c).timer dir).connecting = ((w.clients c).timer dir).connecting ∧
      (((w.clients c).timer dir).waiting = true →
        (((w.update sys d).clients c).timer dir).waiting = true) := by
  have hset : ∀ (c' : γ) {f : ClientSocket γ ρ → ClientSocket γ ρ},
      (∀ cli, (f cli).timer = cli.timer) →
      ((w.setClient c' f).clients c).timer = (w.clients c).timer := by
    intro c' f hf
    show (Function.update w.clients c' (f (w.clients c')) c).timer = _
    rcases eq_or_ne c c' with rfl | hne
    · rw [Function.update_self, hf]
    · rw [Function.update_of_ne hne]
  have hsame : ∀ {v : World γ ρ υ κ}, (v.clients c).timer = (w.clients c).timer →
      ((v.clients c).timer dir).connecting = ((w.clients c).timer dir).connecting ∧
        (((w.clients c).timer dir).waiting = true → ((v.clients c).timer dir).waiting = true) := by
    intro v hv
    rw [hv]
    exact ⟨rfl, id⟩
  cases d with
  | setFlag c' dir b => exact absurd rfl hflag
  | armTimer c' dir' ms =>
      show (((if _ then w else w.armTimer c' dir' ms).clients c).timer dir).connecting = _ ∧ (_ →
        (((if _ then w else w.armTimer c' dir' ms).clients c).timer dir).waiting = true)
      split
      · exact ⟨rfl, id⟩
      · show ((Function.update w.clients c' ((w.clients c').setWaiting dir' true) c).timer
          dir).connecting
          = _ ∧ (_ → ((Function.update w.clients c' ((w.clients c').setWaiting dir' true) c).timer
            dir).waiting = true)
        rcases eq_or_ne c c' with rfl | hne
        · rw [Function.update_self]
          show (Function.update (w.clients c).timer dir' _ dir).connecting = _ ∧
            (_ → (Function.update (w.clients c).timer dir' _ dir).waiting = true)
          rcases eq_or_ne dir dir' with rfl | hdir
          · rw [Function.update_self]
            exact ⟨rfl, fun _ => rfl⟩
          · rw [Function.update_of_ne hdir]
            exact ⟨rfl, id⟩
        · rw [Function.update_of_ne hne]
          exact ⟨rfl, id⟩
  | disarmTimer c' dir => exact absurd rfl hdisarm
  | startConnecting c' ms => exact absurd rfl hconnect
  | stopConnecting c' => exact absurd rfl hdisarm
  | timerFired c' dir => exact absurd rfl hfired
  | connectTimeout c' => exact absurd rfl hflag
  | setFe c' fe => exact absurd rfl hconnect
  | setBuf c' buf taken => exact hsame (hset c' (f := (·.setBuf buf)) fun _ => rfl)
  | delayClose c' =>
      refine hsame ?_
      show ((if _ then _ else w).clients c).timer = _
      split
      · exact hset c' (f := fun cli => { cli with closing := true }) fun _ => rfl
      · rfl
  | procDelayClose p =>
      refine hsame ?_
      show ((if _ then _ else w).clients c).timer = _
      split <;> rfl
  | _ => exact ⟨rfl, id⟩

/-- Only a connect makes a timer connecting. -/
theorem update_connecting (sys : Sys γ ρ κ) (w : World γ ρ υ κ) {d : Update γ ρ υ}
    (hconnect : d.kind ≠ .connect) (c : γ)
    (h : (((w.update sys d).clients c).timer .write).connecting = true) :
    ((w.clients c).timer .write).connecting = true := by
  have hset : ∀ {v : World γ ρ υ κ} (c' : γ) {f : ClientSocket γ ρ → ClientSocket γ ρ},
      (∀ cli, ((f cli).timer .write).connecting = true → (cli.timer .write).connecting = true) →
      (((v.setClient c' f).clients c).timer .write).connecting = true →
      ((v.clients c).timer .write).connecting = true := by
    intro v c' f hf hv
    change ((Function.update v.clients c' (f (v.clients c')) c).timer .write).connecting =
        true at hv
    rcases eq_or_ne c c' with rfl | hne
    · rw [Function.update_self] at hv
      exact hf _ hv
    · rwa [Function.update_of_ne hne] at hv
  have hwaiting : ∀ (dir : Dir) (b : Bool) (cli : ClientSocket γ ρ),
      ((cli.setWaiting dir b).timer .write).connecting = true →
      (cli.timer .write).connecting = true := by
    intro dir b cli hcli
    rcases eq_or_ne Dir.write dir with rfl | hne
    · rwa [ClientSocket.setWaiting_self] at hcli
    · rwa [ClientSocket.setWaiting_of_ne hne] at hcli
  have hstopped : ∀ cli : ClientSocket γ ρ,
      ((cli.setConnecting .write false).timer .write).connecting = true →
      (cli.timer .write).connecting = true := by
    intro cli hcli
    rw [ClientSocket.setConnecting_self] at hcli
    cases hcli
  cases d with
  | setFlag c' dir b => exact hset c' (f := (·.setFlag dir b)) (fun _ hcli => hcli) h
  | armTimer c' dir ms =>
      change (((if _ then w else w.armTimer c' dir ms).clients c).timer .write).connecting =
          true at h
      split at h
      · exact h
      · exact hset c' (hwaiting dir true) h
  | disarmTimer c' dir =>
      change (((if _ then _ else w).clients c).timer .write).connecting = true at h
      split at h
      · exact hset (v := w) c' (hwaiting dir false) h
      · exact h
  | startConnecting c' ms => exact absurd rfl hconnect
  | stopConnecting c' =>
      change (((if _ then _ else w).clients c).timer .write).connecting = true at h
      split at h
      · exact hset c' (hwaiting .write false) (hset c' hstopped h)
      · exact h
  | timerFired c' dir => exact hset c' (hwaiting dir false) h
  | connectTimeout c' => exact hset c' hstopped h
  | setFe c' fe => exact absurd rfl hconnect
  | setBuf c' buf taken => exact hset (v := w) c' (f := (·.setBuf buf)) (fun _ hcli => hcli) h
  | delayClose c' =>
      change (((if _ then _ else w).clients c).timer .write).connecting = true at h
      split at h
      · exact hset (v := w) c' (f := fun cli => { cli with closing := true }) (fun _ hcli => hcli) h
      · exact h
  | procDelayClose p =>
      change (((if _ then _ else w).clients c).timer .write).connecting = true at h
      split at h <;> exact h
  | _ => exact h

theorem Updates.connecting {o : Owner γ ρ} {ks : List Kind} (hd : Updates sys (Within o ks) w w')
    (hconnect : .connect ∉ ks) (c : γ) :
    ((w'.clients c).timer .write).connecting = true →
      ((w.clients c).timer .write).connecting = true :=
  hd.keeps (P := fun v => ((v.clients c).timer .write).connecting = true →
      ((w.clients c).timer .write).connecting = true)
    (fun v _ hq hv h => hv (update_connecting sys v (fun he => hconnect (he ▸ hq.2)) c h)) id

/-! ## What each function does to the socket -/

theorem Updates.later_eq {o : Owner γ ρ} {ks : List Kind} (hd : Updates sys (Within o ks) w w') :
    w'.later = w.later := by
  unfold World.later
  rw [hd.phase_eq]

/-- Functions of another object touch neither the socket nor its files. -/
theorem Updates.client_other {o : Owner γ ρ} {ks : List Kind} (hd : Updates sys (Within o ks) w w')
    (ho : o ≠ .client c) :
    w'.clients c = w.clients c ∧ ∀ n, w'.ev.files (.client c, n) = w.ev.files (.client c, n) := by
  refine hd.keeps (P := fun v => v.clients c = w.clients c ∧
    ∀ n, v.ev.files (.client c, n) = w.ev.files (.client c, n)) ?_ ⟨rfl, fun _ => rfl⟩
  intro v d hq hv
  refine ⟨(update_clients sys v hq.1 ho).trans hv.1, ?_⟩
  intro n
  rw [update_ev]
  cases hc : d.evCall with
  | none => exact hv.2 n
  | some e =>
      have hne : (Owner.client c, n) ≠ e.file := by
        intro he
        refine ho ?_
        rw [← hq.1.file hc, ← he]
      exact (Event.NioEvent.apply_other v.ev hne).files.trans (hv.2 n)

theorem AddsNoConnect.of_other {o : Owner γ ρ} {ks : List Kind}
    (hd : Updates sys (Within o ks) w w') (ho : o ≠ .client c) : AddsNoConnect c w w' := by
  obtain ⟨hclient, hfiles⟩ := hd.client_other ho
  refine ⟨by rw [hclient], ?_, ?_, ?_⟩
  · intro n p hp
    rw [hfiles] at hp
    exact .inl hp
  · intro x hx
    rwa [hd.later_eq] at hx
  · intro _ hidle
    rw [hclient]
    exact hidle

/-- Functions that only take callbacks away. -/
theorem Updates.addsNoConnect {o : Owner γ ρ} {ks : List Kind} (hd : Updates sys (Within o ks) w w')
    (c : γ) (hadd : .add ∉ ks) (hconnect : .connect ∉ ks) (harm : .arm ∉ ks) :
    AddsNoConnect c w w' := by
  refine ⟨hd.fe_eq hconnect c, ?_, ?_, ?_⟩
  · intro n p hp
    exact .inl ((hd.noNewCallback hadd).had hp)
  · intro x hx
    rwa [hd.later_eq] at hx
  · intro _ hidle
    exact hd.keeps (P := fun v => (v.clients c).timer = fun _ => ⟨false, false⟩)
      (fun v d hq hv => update_idle sys v (fun h => hconnect (h ▸ hq.2))
          (fun h => harm (h ▸ hq.2)) c hv)
      hidle

/-- A socket without a file arms no timer. -/
theorem perform_idle (hown : w.Owned) {call : Call γ ρ υ} (howner : call.owner = some (.client c))
    (hnot : ∀ ms connected, call ≠ .connectAwait c ms connected)
    {r : Int × (Int × Nat) × World γ ρ υ κ} (h : w.perform sys call = some r)
    (hfe : (w.clients c).fe = none) (hidle : (w.clients c).timer = fun _ => ⟨false, false⟩) :
    (r.2.2.clients c).timer = fun _ => ⟨false, false⟩ := by
  have hquiet : .connect ∉ call.kinds → .arm ∉ call.kinds →
      (r.2.2.clients c).timer = fun _ => ⟨false, false⟩ := by
    intro hconnect harm
    refine (perform_within hown howner h).keeps
      (P := fun v => (v.clients c).timer = fun _ => ⟨false, false⟩) ?_ hidle
    intro v d hq hv
    exact update_idle sys v (fun h => hconnect (h ▸ hq.2)) (fun h => harm (h ▸ hq.2)) c hv
  -- an await asserts that there is a file
  have hawait : ∀ {v : World γ ρ υ κ} {dir : Dir} {proc : Callback} {ms : Int}
      {s : Bool × World γ ρ υ κ}, (v.clients c).fe = none → v.await sys dir proc c ms ≠ some s := by
    intro v dir proc ms s hv hs
    unfold await at hs
    rw [hv] at hs
    cases hs
  cases call with
  | connectAwait c' ms connected =>
      cases howner
      exact absurd rfl (hnot ms connected)
  | readAwait c' ms =>
      cases howner
      obtain ⟨s, hs, -⟩ := Option.map_eq_some_iff.mp h
      exact absurd hs (hawait hfe)
  | writeAwait c' ms =>
      cases howner
      obtain ⟨s, hs, -⟩ := Option.map_eq_some_iff.mp h
      exact absurd hs (hawait hfe)
  | write c' data ms answer =>
      cases howner
      change w.write sys c data ms answer = some r at h
      unfold write at h
      obtain ⟨hnone, h⟩ := Option.ite_none_left_eq_some.mp h
      dsimp only at h
      split at h
      · rename_i hawaits
        obtain ⟨fe, hsome⟩ := file_of_awaits hnone hawaits
        rw [hfe] at hsome
        cases hsome
      · cases h
        show (Function.update w.clients c _ c).timer = _
        rw [Function.update_self]
        exact hidle
  | _ => exact hquiet (by simp [Call.kinds]) (by simp [Call.kinds])

omit [DecidableEq γ] [DecidableEq ρ] [DecidableEq υ] in
/-- Of the calls of a socket that do not connect it only those of `write_await`
ask for the write side. -/
theorem asks_write {call : Call γ ρ υ} (howner : call.owner = some (.client c))
    (hnot : ∀ ms connected, call ≠ .connectAwait c ms connected) {fe : File γ ρ} {proc : Callback}
    (h : .add .write fe proc ∈ w.asks call) :
    proc = .writeCallback ∧ (w.clients c).fe = some fe := by
  have hnone : ∀ {o : Option (File γ ρ)} {f : File γ ρ → Event.Call (File γ ρ) Callback},
      (∀ e, f e ≠ .add .write fe proc) → .add .write fe proc ∉ o.map f := by
    intro o f hf h
    obtain ⟨fe', -, heq⟩ := Option.map_eq_some_iff.mp h
    exact hf fe' heq
  cases call with
  | connectAwait c' ms connected =>
      cases howner
      exact absurd rfl (hnot ms connected)
  | readAwait c' ms => exact absurd h (hnone (fun e he => by cases he))
  | writeAwait c' ms =>
      cases howner
      obtain ⟨fe', hfe, heq⟩ := Option.map_eq_some_iff.mp h
      cases heq
      exact ⟨rfl, hfe⟩
  | write c' data ms answer =>
      cases howner
      obtain ⟨fe', hfe, heq⟩ := Option.map_eq_some_iff.mp h
      cases heq
      exact ⟨rfl, hfe⟩
  | readDisable c' => exact absurd h (hnone (fun e he => by cases he))
  | writeDisable c' => exact absurd h (hnone (fun e he => by cases he))
  | readwriteDisable c' => exact absurd h (hnone (fun e he => by cases he))
  | closeAwait c' => exact absurd h (hnone (fun e he => by cases he))
  | _ => cases howner

/-- **A call that does not connect the socket.** -/
theorem perform_addsNoConnect (hown : w.Owned) {call : Call γ ρ υ}
    (hnot : ∀ ms connected, call ≠ .connectAwait c ms connected)
    {r : Int × (Int × Nat) × World γ ρ υ κ} (h : w.perform sys call = some r) :
    AddsNoConnect c w r.2.2 ∧
      ((r.2.2.clients c).timer .write).connecting = ((w.clients c).timer .write).connecting ∧
      (((w.clients c).timer .write).waiting = true →
        ((r.2.2.clients c).timer .write).waiting = true) := by
  have hin : ∀ {o : Owner γ ρ}, call.owner = some o → Updates sys (Within o call.kinds) w r.2.2 :=
    fun ho => perform_within hown ho h
  cases ho : call.owner with
  | none =>
      refine perform_user hown ho h (P := fun v => AddsNoConnect c w v ∧
        ((v.clients c).timer .write).connecting = ((w.clients c).timer .write).connecting ∧
        (((w.clients c).timer .write).waiting = true →
          ((v.clients c).timer .write).waiting = true)) ?_ ?_
      · intro v tc u _ hv
        exact ⟨⟨hv.1.fe, hv.1.proc, hv.1.later, hv.1.fresh⟩, hv.2⟩
      · exact ⟨⟨rfl, fun _ _ hp => .inl hp, fun _ hx => hx, fun _ hidle => hidle⟩, rfl, id⟩
  | some o =>
      by_cases hc : o = .client c
      · subst hc
        have hconnect : .connect ∉ call.kinds := by
          cases call with
          | connectAwait c' ms connected =>
              cases ho
              exact absurd rfl (hnot ms connected)
          | _ => simp [Call.kinds]
        refine ⟨⟨(hin ho).fe_eq hconnect c, ?_, ?_, ?_⟩, ?_⟩
        · intro n p hp
          rcases perform_ev h with hev | ⟨e, he, hev⟩
          · rw [hev] at hp
            exact .inl hp
          · rw [hev] at hp
            rcases Event.NioEvent.apply_proc sys.host w.ev e (.client c, n) .write with
              heq | hnone | ⟨q, rfl, hset⟩
            · rw [heq] at hp
              exact .inl hp
            · rw [hnone] at hp
              cases hp
            · rw [hset] at hp
              cases hp
              exact .inr (asks_write ho hnot he)
        · intro x hx
          rwa [(hin ho).later_eq] at hx
        · intro hfe hidle
          exact perform_idle hown ho hnot h hfe hidle
        · refine (hin ho).keeps (P := fun v => ((v.clients c).timer .write).connecting
            = ((w.clients c).timer .write).connecting ∧
                (((w.clients c).timer .write).waiting = true →
              ((v.clients c).timer .write).waiting = true)) ?_ ⟨rfl, id⟩
          intro v d hq hv
          have hks : .disarm ∉ call.kinds ∧ .fired ∉ call.kinds ∧ .flag ∉ call.kinds := by
            cases call <;> simp [Call.kinds]
          obtain ⟨hconnecting, hwaiting⟩ := update_waits sys v (fun h => hconnect (h ▸ hq.2))
            (fun h => hks.1 (h ▸ hq.2)) (fun h => hks.2.1 (h ▸ hq.2)) (fun h => hks.2.2 (h ▸ hq.2))
            c .write
          exact ⟨hconnecting.trans hv.1, fun hw => hwaiting (hv.2 hw)⟩
      · obtain ⟨hclient, -⟩ := (hin ho).client_other hc
        refine ⟨.of_other (hin ho) hc, ?_⟩
        rw [hclient]
        exact ⟨rfl, id⟩

omit [DecidableEq γ] [DecidableEq ρ] [DecidableEq υ] in
theorem AddsNoConnect.trans {w'' : World γ ρ υ κ} (h : AddsNoConnect c w w')
    (h' : AddsNoConnect c w' w'') : AddsNoConnect c w w'' := by
  refine ⟨h'.fe.trans h.fe, ?_, fun x hx => h.later x (h'.later x hx), ?_⟩
  · intro n p hp
    rcases h'.proc n p hp with hp | ⟨he, hfe⟩
    · exact h.proc n p hp
    · exact .inr ⟨he, h.fe ▸ hfe⟩
  · intro hfe hidle
    exact h'.fresh (h.fe.trans hfe) (h.fresh hfe hidle)

omit [DecidableEq γ] [DecidableEq ρ] [DecidableEq υ] in
theorem AddsNoConnect.of_same (hclient : w'.clients c = w.clients c)
    (hev : w'.ev.files = w.ev.files) (hlater : ∀ x, w'.later = some x → w.later = some x) :
    AddsNoConnect c w w' := by
  refine ⟨by rw [hclient], ?_, hlater, ?_⟩
  · intro n p hp
    rw [hev] at hp
    exact .inl hp
  · intro _ hidle
    rw [hclient]
    exact hidle

omit [DecidableEq γ] [DecidableEq ρ] [DecidableEq υ] in
theorem ConnectInv.of_same (h : w.ConnectInv c) (hclient : w'.clients c = w.clients c)
    (hev : w'.ev.files = w.ev.files) (hlater : ∀ x, w'.later = some x → w.later = some x)
    (hlog : w.log <+: w'.log) : w'.ConnectInv c :=
  h.addsNoConnect_same (.of_same hclient hev hlater) hlog (by rw [hclient])

omit [DecidableEq ρ] [DecidableEq υ] in
theorem setClient_self (w : World γ ρ υ κ) (c : γ) (f : ClientSocket γ ρ → ClientSocket γ ρ) :
    (w.setClient c f).clients c = f (w.clients c) :=
  Function.update_self ..

omit [DecidableEq υ] in
/-- The event refuses the file of a connect. -/
theorem ConnectInv.refused (h : w.ConnectInv c) (hok : w.ev.TypesOk sys.host) {u : World γ ρ υ κ}
    (hrefused : w.ev.accepts sys.host (.client c, w.allocated (.client c)) = false)
    (hev : u.ev = (w.ev.add sys.host .write (.client c, w.allocated (.client c))
      .connectCallback).2)
    (hclient : u.clients c = w.clients c) (hlater : u.later = w.later) (hlog : u.log = w.log) :
    u.ConnectInv c := by
  have hkeeps := Event.NioEvent.refused_keeps sys.host hok hrefused .write Callback.connectCallback
  refine h.addsNoConnect_same ⟨by rw [hclient], ?_, fun x hx => hlater ▸ hx, ?_⟩
    (by rw [hlog]) (by rw [hclient])
  · intro n p hp
    rw [hev, hkeeps.proc] at hp
    exact .inl hp
  · intro _ hidle
    rw [hclient]
    exact hidle

omit [DecidableEq υ] in
/-- The file of a connect is registered, whatever becomes of its timer. -/
theorem ConnectInv.registered (sys : Sys γ ρ κ) (h : w.ConnectInv c) (hfe : (w.clients c).fe = none)
    {u : World γ ρ υ κ}
    (hev : u.ev = w.ev.apply sys.host
      (.add .write (.client c, w.allocated (.client c)) .connectCallback))
    (hlater : u.later = w.later)
    (hfile : (u.clients c).fe = some (.client c, w.allocated (.client c)))
    (hwaits : ((u.clients c).timer .write).connecting = true →
      ((u.clients c).timer .write).waiting = true) : u.ConnectInv c := by
  have hnone : ∀ n, (w.ev.files (.client c, n)).proc .write = none := by
    intro n
    by_contra hne
    obtain ⟨p, hp⟩ := Option.ne_none_iff_exists'.mp hne
    have hfile := h.file n p hp
    rw [hfe] at hfile
    cases hfile
  refine ⟨?_, ?_, ?_, fun hc => .inr (.inl (hwaits hc))⟩
  · intro n p hp
    rw [hev] at hp
    rw [hfile]
    rcases Event.NioEvent.apply_proc sys.host w.ev
      (.add .write (.client c, w.allocated (.client c)) .connectCallback) (.client c, n) .write
      with heq | hgone | ⟨q, heq, -⟩
    · rw [heq, hnone] at hp
      cases hp
    · rw [hgone] at hp
      cases hp
    · cases heq
      rfl
  · intro n p hl
    rw [hlater] at hl
    exact absurd hfe (h.later n p hl).1
  · intro hnofile
    rw [hfile] at hnofile
    cases hnofile

/-- **A connect** of a socket without a file. -/
theorem ConnectInv.connectAwait (h : w.ConnectInv c) (hok : w.ev.TypesOk sys.host)
    (hfe : (w.clients c).fe = none) (ms : Int) (connected : Bool) :
    (w.connectAwait sys c ms connected).2.ConnectInv c := by
  unfold World.connectAwait
  split
  · exact h
  · dsimp only
    split
    · rename_i hrefused
      have haccepts : w.ev.accepts sys.host (.client c, w.allocated (.client c)) = false := by
        rw [← add_fst hok .write (.client c, w.allocated (.client c)) .connectCallback]
        exact Bool.not_eq_true' _ ▸ hrefused
      exact h.refused hok haccepts rfl rfl rfl rfl
    · split
      · refine h.registered sys hfe rfl rfl ?_ ?_
        · rw [setClient_self]
          rfl
        · intro hc
          rw [setClient_self] at hc
          change ((w.clients c).timer .write).connecting = true at hc
          rw [h.fresh hfe] at hc
          cases hc
      · refine h.registered sys hfe rfl rfl ?_ ?_
        · dsimp only
          rw [setClient_self, setClient_self]
          show (Function.update w.clients c _ c).fe = _
          rw [Function.update_self]
          rfl
        · intro _
          dsimp only
          rw [setClient_self, ClientSocket.setWaiting_self]

/-! ## Callbacks and timers -/

omit [DecidableEq γ] [DecidableEq ρ] [DecidableEq υ] in
theorem clients_callHandler (w : World γ ρ υ κ) (c : γ) (h : Handler) (fd : Int) (timeout : Bool) :
    (w.callHandler c h fd timeout).clients = w.clients := by
  unfold callHandler
  split <;> rfl

omit [DecidableEq ρ] [DecidableEq υ] in
theorem connecting_set (w : World γ ρ υ κ) (c : γ) :
    (((w.setClient c (·.setConnecting .write false)).clients c).timer .write).connecting
      = false := by
  rw [setClient_self, ClientSocket.setConnecting_self]

/-- After its connect_callback a socket is not connecting. -/
theorem connectCallback_connecting {fe : File γ ρ} {connected : Bool}
    (h : w.connectCallback sys c fe connected = some w') :
    ((w'.clients c).timer .write).connecting = false := by
  unfold connectCallback at h
  dsimp only at h
  obtain ⟨-, h⟩ := Option.ite_none_right_eq_some.mp h
  cases h
  have hstop : ∀ v : World γ ρ υ κ, ((((if ((v.clients c).timer .write).connecting then
      ((v.setClient c (·.setWaiting .write false)).setClient c
          (·.setConnecting .write false)).setTimers
        (((v.setClient c (·.setWaiting .write false)).setClient c
          (·.setConnecting .write false)).timers.delTimer (.client c .write))
      else v) : World γ ρ υ κ).clients c).timer .write).connecting = false := by
    intro v
    split
    · exact connecting_set (v.setClient c (·.setWaiting .write false)) c
    · rename_i hnot
      simpa using hnot
  cases connected with
  | true => exact hstop _
  | false => exact hstop _

omit [DecidableEq ρ] in
/-- `read_callback` leaves the write timer alone. -/
theorem readCallback_timer (w : World γ ρ υ κ) (c : γ) (fe : File γ ρ) :
    ((w.readCallback c fe).clients c).timer .write = (w.clients c).timer .write := by
  unfold readCallback
  dsimp only
  rw [clients_callHandler]
  unfold World.disarmTimer
  split
  · rw [setClient_self, ClientSocket.setWaiting_of_ne (by decide)]
    show ((w.setClient c (·.setFlag .read false)).clients c).timer .write = _
    rw [setClient_self]
    rfl
  · rw [setClient_self]
    rfl

omit [DecidableEq ρ] [DecidableEq υ] in
/-- `on_timer` of the read timer leaves the write timer alone, that of the write
timer leaves it not connecting. -/
theorem onTimer_read (w : World γ ρ υ κ) (c : γ) :
    ((w.onTimer c .read).clients c).timer .write = (w.clients c).timer .write := by
  unfold onTimer
  dsimp only
  rw [clients_callHandler, setClient_self, setClient_self]
  show ((w.clients c).setWaiting .read false).timer .write = _
  exact ClientSocket.setWaiting_of_ne (by decide)

omit [DecidableEq ρ] [DecidableEq υ] in
theorem onTimer_write (w : World γ ρ υ κ) (c : γ) :
    (((w.onTimer c .write).clients c).timer .write).connecting = false := by
  unfold onTimer
  dsimp only
  split
  · rw [clients_callHandler]
    exact connecting_set _ c
  · rename_i hnot
    rw [clients_callHandler]
    simpa using hnot

/-- **A callback**: a `write_callback` of the socket comes when no
connect_callback of it can come any more. -/
theorem ConnectInv.callback (h : w.ConnectInv c) (hown : w.Owned) {fe : File γ ρ} {proc : Callback}
    {answer : Answer} (hcb : w.callback sys fe proc answer = some w')
    (hwrite : fe.1 = .client c → proc = .writeCallback → ¬ w.Connects c) : w'.ConnectInv c := by
  have hupdates := callback_updates hown hcb
  have hlog : w.log <+: w'.log := (kept_log sys w.log).updates hupdates (List.prefix_refl _)
  by_cases ho : fe.1 = .client c
  · have hr : AddsNoConnect c w w' := by
      refine hupdates.addsNoConnect c ?_ ?_ ?_
      · cases proc <;> decide
      · cases proc <;> decide
      · cases proc <;> decide
    obtain ⟨o, n⟩ := fe
    cases ho
    cases proc with
    | connectCallback =>
        refine h.addsNoConnect hr ?_
        intro hc
        rw [connectCallback_connecting hcb] at hc
        cases hc
    | readCallback =>
        cases hcb
        exact h.addsNoConnect_same hr hlog (readCallback_timer w c _)
    | writeCallback =>
        refine h.addsNoConnect hr ?_
        intro _
        exact .inr (.inr fun hcon => hwrite rfl rfl (hr.connects hcon))
    | connectProc => cases hcb
    | readProc => cases hcb
    | writeProc => cases hcb
  · exact h.addsNoConnect_same (.of_other hupdates ho) hlog (by rw [(hupdates.client_other ho).1])

omit [DecidableEq γ] [DecidableEq ρ] [DecidableEq υ] in
/-- The `w_proc` of an event is kept for later. -/
theorem ConnectInv.capture (h : w.ConnectInv c) {ee : Event.EpollEvent (File γ ρ)}
    {batch : List (Event.EpollEvent (File γ ρ))} {later : Option (File γ ρ × Callback)}
    (hl : w.Captured ee later) : (w.setPhase (.dispatch batch later)).ConnectInv c := by
  refine ⟨h.file, ?_, h.fresh, ?_⟩
  · intro n p hlater
    obtain ⟨-, -, hproc⟩ := hl _ hlater
    have hfe := h.file n p hproc
    refine ⟨?_, ?_⟩
    · show (w.clients c).fe ≠ none
      rw [hfe]
      exact Option.some_ne_none _
    · rintro rfl m hm
      -- both stand on the one file of the socket
      have hfe' := h.file m _ hm
      rw [hfe] at hfe'
      cases hfe'
      change (w.ev.files (.client c, n)).proc .write = _ at hm
      rw [hproc] at hm
      cases hm
  · intro hc
    rcases h.waits hc with hclose | hwait | hnot
    · exact .inl hclose
    · exact .inr (.inl hwait)
    · refine .inr (.inr fun hcon => hnot ?_)
      obtain ⟨n, hproc | hlater⟩ := hcon
      · exact ⟨n, .inl hproc⟩
      · exact ⟨n, .inl (hl _ hlater).2.2⟩

/-! ## A step, a run -/

omit [DecidableEq γ] [DecidableEq ρ] [DecidableEq υ] in
/-- Past the event it is at, `wait` has nothing kept for later. -/
theorem ConnectInv.setPhase (h : w.ConnectInv c) {phase : Phase γ ρ υ}
    (hl : (w.setPhase phase).later = none) : (w.setPhase phase).ConnectInv c := by
  refine h.of_same rfl rfl ?_ (List.prefix_refl _)
  intro x hx
  rw [hl] at hx
  cases hx

/-- **A timer of the vector.** -/
theorem ConnectInv.fire (sys : Sys γ ρ κ) (h : w.ConnectInv c) (t : TimerName γ υ)
    (batch : List (TimerName γ υ)) : (w.fire t batch).ConnectInv c := by
  cases t with
  | user u =>
      have hphase : (w.setPhase (.timers batch none)).ConnectInv c := h.setPhase rfl
      exact hphase.of_same rfl rfl (fun x hx => by cases hx) (List.prefix_append _ _)
  | client c' dir =>
      have hphase : (w.setPhase (.timers batch (some (c', dir)))).ConnectInv c := h.setPhase rfl
      have hupdates : Updates sys _ _ (w.fire (.client c' dir) batch) := onTimer_updates c' dir
      have hlog := (kept_log sys _).updates hupdates (List.prefix_refl _)
      by_cases hc : c' = c
      · subst hc
        have hr := hupdates.addsNoConnect c' (by decide) (by decide) (by decide)
        cases dir with
        | read => exact hphase.addsNoConnect_same hr hlog (onTimer_read _ c')
        | write =>
            refine hphase.addsNoConnect hr ?_
            intro hc
            rw [show ((((w.fire (.client c' .write) batch).clients c').timer .write).connecting)
              = false from onTimer_write _ c'] at hc
            cases hc
      · have ho : (Owner.client c' : Owner γ ρ) ≠ .client c := by
          rintro ⟨⟩
          exact hc rfl
        exact hphase.addsNoConnect_same (.of_other hupdates ho) hlog
          (by rw [(hupdates.client_other ho).1])

/-- **A step of `wait`.** -/
theorem ConnectInv.move (h : w.ConnectInv c) (hown : w.Owned) (hfit : w.CallbacksFit)
    {answer : Answer} (hm : Move sys answer w w') : w'.ConnectInv c := by
  have hown' : ∀ phase, (w.setPhase phase).Owned := fun _ => ⟨hown.client, hown.proc⟩
  cases hm with
  | procClose hp hi =>
      rename_i i p
      have hupdates : Updates sys _ _ ((w.setPhase (.procsFree (i + 1))).procClose p) :=
        procClose_updates p
      have ho : (Owner.proc p : Owner γ ρ) ≠ .client c := by rintro ⟨⟩
      have hlog := (kept_log sys _).updates hupdates (List.prefix_refl _)
      exact (h.setPhase rfl).addsNoConnect_same (.of_other hupdates ho) hlog
          (by rw [(hupdates.client_other ho).1])
  | procsDone hp hi => exact h.of_same rfl rfl (fun x hx => by cases hx) (List.prefix_refl _)
  | close hp hi =>
      rename_i i c'
      have hupdates : Updates sys _ _ ((w.setPhase (.clientsFree (i + 1))).close c') :=
        close_updates c'
      have hphase : (w.setPhase (.clientsFree (i + 1))).ConnectInv c := h.setPhase rfl
      by_cases hc : c' = c
      · subst hc
        refine hphase.addsNoConnect
          (hupdates.addsNoConnect c' (by decide) (by decide) (by decide)) ?_
        intro _
        left
        -- the log has it before the handler is told
        unfold World.close
        dsimp only
        unfold callHandler
        split
        · exact List.mem_append_left _ (List.mem_append_right _ (List.mem_singleton.mpr rfl))
        · exact List.mem_append_right _ (List.mem_singleton.mpr rfl)
      · have ho : (Owner.client c' : Owner γ ρ) ≠ .client c := by
          rintro ⟨⟩
          exact hc rfl
        have hlog := (kept_log sys _).updates hupdates (List.prefix_refl _)
        exact hphase.addsNoConnect_same (.of_other hupdates ho) hlog
          (by rw [(hupdates.client_other ho).1])
  | clientsDone hp hi => exact h.of_same rfl rfl (fun x hx => by cases hx) (List.prefix_refl _)
  | fetch hp => exact h.of_same rfl rfl (fun x hx => by cases hx) (List.prefix_refl _)
  | skip hp hl => exact h.capture hl
  | read hp hl hptr hhit hproc hc =>
      rename_i ee batch later fe proc
      refine (h.capture hl).callback (hown' _) hc ?_
      rintro ho rfl
      -- on the read side a socket has nothing but its read callback
      have hputs := hfit fe .read _ hproc
      rw [ho] at hputs
      cases hputs
  | write hp hc =>
      rename_i batch fe proc
      refine (h.setPhase rfl).callback (hown' _) hc ?_
      rintro ho rfl hcon
      obtain ⟨o, n⟩ := fe
      cases ho
      have hlater : w.later = some ((.client c, n), .writeCallback) := by
        unfold World.later
        rw [hp]
      obtain ⟨m, hproc | hnone⟩ := hcon
      · exact (h.later n _ hlater).2 rfl m hproc
      · cases hnone
  | trigger hp =>
      unfold triggerTimers
      split
      · exact h.of_same rfl rfl (fun x hx => by cases hx) (List.prefix_refl _)
      · exact h.setPhase rfl
  | clearFlag hp =>
      rename_i batch c' dir
      have hupdates : Updates sys (Within (.client c') [.flag]) (w.setPhase (.timers batch none))
          ((w.setPhase (.timers batch none)).setClient c' (·.setFlag dir false)) :=
        .one _ (d := .setFlag c' dir false) ⟨rfl, by simp [Update.kind]⟩
      refine (h.setPhase rfl).addsNoConnect_same
        (hupdates.addsNoConnect c (by decide) (by decide) (by decide))
        (List.prefix_refl _) ?_
      show (Function.update w.clients c' _ c).timer .write = _
      rcases eq_or_ne c c' with rfl | hne
      · rw [Function.update_self]
        rfl
      · rw [Function.update_of_ne hne]
        rfl
  | fire hp => exact h.fire sys _ _
  | done hp => exact h.setPhase rfl

/-- **One step.** A connect finds the socket without a file. -/
theorem ConnectInv.step (h : w.ConnectInv c) (hown : w.Owned) (hok : w.ev.TypesOk sys.host)
    (hfit : w.CallbacksFit) {l : Label γ ρ υ}
    (hconnect : ∀ ms connected, l = .call (.connectAwait c ms connected) →
      (w.clients c).fe = none) (hs : w.step sys l = some w') : w'.ConnectInv c := by
  cases stepped hs with
  | call hm hp =>
      rename_i call r
      have hlog : w.log <+: r.2.2.log := (kept_log sys w.log).perform hown hp (List.prefix_refl _)
      have hcall : r.2.2.ConnectInv c := by
        by_cases hnot : ∀ ms connected, call ≠ .connectAwait c ms connected
        · obtain ⟨hr, hconnecting, hwaiting⟩ := perform_addsNoConnect hown hnot hp
          refine h.addsNoConnect hr ?_
          rw [hconnecting]
          intro hc
          rcases h.waits hc with hclose | hwait | hnot
          · exact .inl (hlog.subset hclose)
          · exact .inr (.inl (hwaiting hwait))
          · exact .inr (.inr fun hcon => hnot (hr.connects hcon))
        · push Not at hnot
          obtain ⟨ms, connected, rfl⟩ := hnot
          cases hp
          exact h.connectAwait hok (hconnect ms connected rfl) ms connected
      exact hcall.of_same rfl rfl (fun _ hx => hx) (List.prefix_append _ _)
  | ret hr => exact h.of_same rfl rfl (fun _ hx => hx) (List.prefix_refl _)
  | wait hr hp =>
      refine h.addsNoConnect_same ⟨rfl, ?_, fun x hx => (by cases hx), fun _ hidle => hidle⟩
        (List.prefix_append _ _) rfl
      intro n p hproc
      change ((w.ev.prepare sys.host).files (.client c, n)).proc .write = some p at hproc
      rw [(Event.NioEvent.prepare_keeps sys.host w.ev).proc] at hproc
      exact .inl hproc
  | next hr hm => exact h.move hown hfit hm

omit [DecidableEq γ] [DecidableEq ρ] [DecidableEq υ] in
theorem connectInv_start (setup : Setup γ ρ) (oneshot direct : Bool) (setsize : Int)
    (fd : File γ ρ → Int) (backend : κ) (sec nsec : Int) (c : γ) :
    (World.start setup oneshot direct setsize fd backend sec nsec :
      World γ ρ υ κ).ConnectInv c := by
  refine ⟨?_, ?_, fun _ _ => rfl, ?_⟩
  · intro n p hp
    cases hp
  · intro n p hl
    cases hl
  · intro hc
    cases hc

end World

end Libnio.Socket
