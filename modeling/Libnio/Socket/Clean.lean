import Libnio.Socket.Connecting

/-!
# Socket — nothing dangles at a close

Every run up to the `client_socket::close` of a socket: the event and `timers_` know
nothing of it then, unless a call has registered it behind its `close_await`.
-/

namespace Libnio.Socket

open Event (Dir)

namespace World

variable {γ ρ υ κ : Type}

/-- A connect of this socket finds it without a file. -/
def FreshConnectOf (c : γ) (w : World γ ρ υ κ) : Label γ ρ υ → Prop
  | .call (.connectAwait c' _ _) => c' = c → (w.clients c).fe = none
  | _ => True

variable [DecidableEq γ] [DecidableEq ρ] [DecidableEq υ]

instance (c : γ) (w : World γ ρ υ κ) : DecidablePred (FreshConnectOf c w)
  | .call (.connectAwait c' _ _) => inferInstanceAs (Decidable (c' = c → (w.clients c).fe = none))
  | .call (.readAwait _ _) | .call (.writeAwait _ _) | .call (.write _ _ _ _)
  | .call (.readDisable _) | .call (.writeDisable _) | .call (.readwriteDisable _)
  | .call (.closeAwait _) | .call (.procConnectAwait _) | .call (.procReadAwait _)
  | .call (.procWriteAwait _) | .call (.procWrite _ _ _) | .call (.procReadDisable _)
  | .call (.procWriteDisable _) | .call (.procCloseAwait _) | .call (.addTimer _ _)
  | .call (.delTimer _) | .call (.resetTimer _ _) | .ret | .wait | .next _ => .isTrue trivial

variable {sys : Sys γ ρ κ} {w w' : World γ ρ υ κ} {c : γ}

/-- What a run keeps for the close of a socket: it is settled, its timers are those that
`timers_` holds, and the lists of what is closing are in order. -/
structure Closable (sys : Sys γ ρ κ) (w : World γ ρ υ κ) (c : γ) : Prop where
  clearOnceClosing : ClearOnceClosing sys w c
  flagsRight : w.FlagsRight c
  connectInv : w.ConnectInv c
  callbacksFit : w.CallbacksFit
  orderly : Orderly w

theorem closable_start (sys : Sys γ ρ κ) (setup : Setup γ ρ) (oneshot direct : Bool)
    (setsize : Int) (fd : File γ ρ → Int) (backend : κ) (sec nsec : Int) (c : γ) :
    Closable sys (World.start setup oneshot direct setsize fd backend sec nsec : World γ ρ υ κ)
      c where
  clearOnceClosing :=
    ⟨owned_start .., Event.NioEvent.typesOk_create sys.host oneshot direct setsize fd
    backend, Event.NioEvent.ringed_create .., fun hclosing => by cases hclosing⟩
  flagsRight := flagsRight_start setup oneshot direct setsize fd backend sec nsec c
  connectInv := connectInv_start setup oneshot direct setsize fd backend sec nsec c
  callbacksFit := callbacksFit_start setup oneshot direct setsize fd backend sec nsec
  orderly := orderly_start ..

/-- **One step** that does not register the socket again. -/
theorem Closable.step (hclears : sys.host.Clears) (hneg : ∀ d < 0, sys.host.espipe d = false)
    (h : Closable sys w c) {l : Label γ ρ υ} (hfresh : w.FreshConnectOf c l)
    (hno : ¬ w.Reopens sys c l) (hs : w.step sys l = some w') : Closable sys w' c := by
  have hconnect : ∀ ms connected, l = .call (.connectAwait c ms connected) →
      (w.clients c).fe = none := by
    rintro ms connected rfl
    exact hfresh rfl
  refine ⟨h.clearOnceClosing.step hclears hneg hno hs, ?_,
    h.connectInv.step h.clearOnceClosing.owned h.clearOnceClosing.typesOk h.callbacksFit hconnect
      hs,
    h.callbacksFit.step h.clearOnceClosing.owned hs, h.orderly.step hs⟩
  refine h.flagsRight.step h.clearOnceClosing.owned ?_ hs
  -- a socket without a file has no timer that waits
  intro ms connected hl
  rw [h.connectInv.fresh (hconnect ms connected hl)]

/-- **The close** that comes next leaves nothing of the socket. -/
theorem Closable.clean (h : Closable sys w c) (hat : w.closeNext = some c) {answer : Answer}
    (hs : w.step sys (.next answer) = some w') : w'.Clean c := by
  obtain ⟨i, hp, hi, rfl⟩ := step_closeNext hat hs
  have hclosing : (w.clients c).closing = true := by
    refine (h.orderly.client c).isClosing ?_
    unfold World.pendingClients
    rw [hp]
    exact List.count_pos_iff.mpr (List.mem_of_getElem? (by rwa [List.getElem?_drop, Nat.add_zero]))
  have hlater : ClearOnceClosing sys (w.setPhase (.clientsFree (i + 1))) c :=
    h.clearOnceClosing.of_same ⟨h.clearOnceClosing.owned.client, h.clearOnceClosing.owned.proc⟩
      rfl rfl
  refine hlater.close hclosing (h.flagsRight.of_same (fun _ => rfl) rfl ?_) rfl
  simp [World.batch, hp, World.setPhase]

end World

/-! ## Every run -/

section Run

variable {γ ρ υ κ : Type} [DecidableEq γ] [DecidableEq ρ] [DecidableEq υ]

/-- **Nothing dangles** when `client_socket::close` has been run on a socket,
in any run that does not register the socket again after its `close_await`, and
in which a connect of it finds it without a file. The deletions of the backend take
what they delete out of the mask, and `lseek` does not answer `ESPIPE` for a
descriptor below zero. -/
theorem close_clean (sys : Sys γ ρ κ) (setup : Setup γ ρ) (oneshot direct : Bool) (setsize : Int)
    (fd : File γ ρ → Int) (backend : κ) (sec nsec : Int) (ls : List (Label γ ρ υ)) (c : γ)
    (w w' : World γ ρ υ κ) (answer : Answer) :
    let start := World.start setup oneshot direct setsize fd backend sec nsec
    sys.host.Clears → (∀ d < 0, sys.host.espipe d = false) →
    Trace.Meets (World.step sys) (World.FreshConnectOf c) start ls →
    Trace.Meets (World.step sys) (fun v l => ¬ v.Reopens sys c l) start ls →
    Trace.run (World.step sys) start ls = some w → w.closeNext = some c →
    w.step sys (.next answer) = some w' → w'.Clean c := by
  intro start hclears hneg hfresh hm hrun hat hs
  have hkeep : World.Closable sys w c :=
    Trace.run_induct (I := fun v => World.Closable sys v c)
      (fun v l v' hl hv hstep => hv.step hclears hneg hl.1 hl.2 hstep) (hfresh.and hm)
      (World.closable_start sys setup oneshot direct setsize fd backend sec nsec c) hrun
  exact hkeep.clean hat hs

/-- A socket that is connected: its handler reads with a timer, and a write is taken in
part, so that it waits for both sides when it is closed. -/
theorem close_clean_waiting :
    let start := World.fresh (.handled false false) false File.turn
    let ls : List (Label Nat Nat Nat) :=
      [.call (.connectAwait 0 1000 true), .wait, .next .idle, .next .idle,
        .next (.writable 0 .wouldBlock), .next .idle, .next .idle, .call (.readAwait 0 5),
        .call (.write 0 (.counting 3) 5 (.wrote 1)), .call (.closeAwait 0),
        .call (.write 0 (.counting 3) 5 .wouldBlock), .ret, .next .idle, .next .idle, .wait,
        .next .idle]
    ∃ w w', Trace.run (World.step .table) start ls = some w ∧
      w.step .table (.next .idle) = some w' ∧ w.timers.timers.length = 2 ∧ w'.Clean 0 := by
  intro start ls
  have hany : (Trace.run (World.step .table) start ls).any
      (fun w => w.timers.timers.length = 2 && w.closeNext = some 0 &&
        (w.step .table (.next .idle)).isSome) := by
    decide +kernel
  obtain ⟨w, hrun, hw⟩ := Trace.run_any hany
  simp only [Bool.and_eq_true, decide_eq_true_eq] at hw
  obtain ⟨⟨htimers, hat⟩, hstep⟩ := hw
  obtain ⟨w', hw'⟩ := Option.isSome_iff_exists.mp hstep
  have hfresh : Trace.Meets (World.step .table) (World.FreshConnectOf 0) start ls := by
    decide +kernel
  have hm : Trace.Meets (World.step .table) (fun v l => ¬ v.Reopens .table 0 l) start ls := by
    decide +kernel
  have hneg : ∀ d : Int, d < 0 → decide (0 ≤ d) = false := by
    intro d hd
    simpa using hd
  exact ⟨w, w', hrun, hw', htimers, close_clean .table (.handled false false) false false 1024 _ _
    0 0 ls 0 w w' .idle (Event.EventEpoll.host_clears _ _) hneg hfresh hm hrun hat hw'⟩

/-- A `read_await` behind the `close_await` leaves the socket registered when it
is closed. -/
theorem reopened_not_clean :
    let ls : List (Label Nat Nat Nat) :=
      [.call (.closeAwait 0), .call (.readAwait 0 0), .wait, .next .idle]
    ∃ w w',
      Trace.run (World.step .table) (.fresh (.handled true true) false File.turn) ls = some w ∧
      w.closeNext = some 0 ∧ w.step .table (.next .idle) = some w' ∧ ¬ w'.Clean 0 := by
  intro ls
  have hany : (Trace.run (World.step .table) (.fresh (.handled true true) false File.turn) ls).any
      (fun w => w.closeNext = some 0 && (w.step .table (.next .idle)).any fun w' =>
        (w'.clients 0).fe = some (.client 0, 0) && (w'.ev.files (.client 0, 0)).mask .read) := by
    decide +kernel
  obtain ⟨w, hrun, hw⟩ := Trace.run_any hany
  simp only [Bool.and_eq_true, decide_eq_true_eq] at hw
  obtain ⟨w', hw', htest⟩ := (Option.any_eq_true _ _).mp hw.2
  simp only [Bool.and_eq_true, decide_eq_true_eq] at htest
  refine ⟨w, w', hrun, hw.1, hw', ?_⟩
  intro hclean
  have hmask := hclean.mask _ htest.1 .read
  rw [htest.2] at hmask
  cases hmask

end Run

end Libnio.Socket
