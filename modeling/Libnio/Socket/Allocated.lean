import Libnio.Socket.Connecting

/-!
# Socket — files that are not allocated yet

The files of a socket are numbered in the order of its connects. What has no
number yet is no file of it and registered for nothing, over whole runs.
-/

namespace Libnio.Socket

open Event (Dir)

namespace World

variable {γ ρ υ κ : Type} [DecidableEq γ] [DecidableEq ρ] [DecidableEq υ] {sys : Sys γ ρ κ}
  {w w' : World γ ρ υ κ} {c : γ}

/-- Nothing is known of the files that are not allocated yet. -/
def Unused (w : World γ ρ υ κ) (c : γ) : Prop :=
  ∀ n, w.allocated (.client c) ≤ n →
    (w.clients c).fe ≠ some (.client c, n) ∧ w.ev.Clear (.client c, n)

/-- A file is allocated by its own object, for a connect. -/
theorem update_allocated (sys : Sys γ ρ κ) (w : World γ ρ υ κ) {d : Update γ ρ υ} {o : Owner γ ρ}
    (hfor : d.For o) (hd : o = .client c → d.kind ≠ .connect) :
    (w.update sys d).allocated (.client c) = w.allocated (.client c) := by
  cases d with
  | armTimer c' dir ms =>
      show (if _ then w else w.armTimer c' dir ms).allocated _ = _
      split <;> rfl
  | disarmTimer c' dir =>
      show (if _ then _ else w).allocated _ = _
      split <;> rfl
  | stopConnecting c' =>
      show (if _ then _ else w).allocated _ = _
      split <;> rfl
  | delayClose c' =>
      show (if _ then _ else w).allocated _ = _
      split <;> rfl
  | procDelayClose p =>
      show (if _ then _ else w).allocated _ = _
      split <;> rfl
  | allocate o' =>
      obtain rfl : o' = o := hfor
      refine Function.update_of_ne ?_ _ _
      rintro rfl
      exact hd rfl rfl
  | _ => rfl

/-- Neither the file of the socket nor the number of its files has changed. -/
structure KeepsFile (c : γ) (w w' : World γ ρ υ κ) : Prop where
  fe : (w'.clients c).fe = (w.clients c).fe
  allocated : w'.allocated (.client c) = w.allocated (.client c)

theorem KeepsFile.update {v : World γ ρ υ κ} (h : KeepsFile c w v) {d : Update γ ρ υ}
    {o : Owner γ ρ} (hfor : d.For o) (hd : o = .client c → d.kind ≠ .connect) :
    KeepsFile c w (v.update sys d) := by
  refine ⟨?_, (update_allocated sys v hfor hd).trans h.allocated⟩
  by_cases ho : o = .client c
  · exact (update_fe sys v (hd ho) c).trans h.fe
  · rw [update_clients sys v hfor ho]
    exact h.fe

/-- **The loop** gives no socket a file. -/
theorem KeepsFile.move (hown : w.Owned) {answer : Answer} (hm : Move sys answer w w') :
    KeepsFile c w w' := by
  have hloop : LoopKept sys (KeepsFile c w) := by
    refine ⟨?_, fun _ _ h => ⟨h.fe, h.allocated⟩, fun _ _ h => ⟨h.fe, h.allocated⟩,
      fun _ _ h => ⟨h.fe, h.allocated⟩, fun _ _ h => ⟨h.fe, h.allocated⟩,
      fun _ h => ⟨h.fe, h.allocated⟩, fun _ h => ⟨h.fe, h.allocated⟩,
      fun _ h => ⟨h.fe, h.allocated⟩⟩
    intro v o d hfor hkind hv
    exact hv.update hfor fun _ => ne_of_mem_of_not_mem hkind (by decide)
  exact hloop.move hown hm ⟨rfl, rfl⟩

omit [DecidableEq γ] [DecidableEq ρ] [DecidableEq υ] in
/-- What a call asks is about the file that its object has, or about the one that
its connect allocates. -/
theorem asks_file (hown : w.Owned) {e : Call γ ρ υ} {a : Event.Call (File γ ρ) Callback}
    (ha : a ∈ w.asks e) {n : Nat} (hf : a.file = (.client c, n)) :
    (w.clients c).fe = some (.client c, n) ∨
      n = w.allocated (.client c) ∧ ∃ ms b, e = .connectAwait c ms b := by
  have hclient : ∀ {c' : γ} {f : File γ ρ → Event.Call (File γ ρ) Callback},
      (∀ fe, (f fe).file = fe) → a ∈ (w.clients c').fe.map f →
      (w.clients c).fe = some (.client c, n) := by
    intro c' f hfile ha
    obtain ⟨fe, hfe, rfl⟩ := Option.map_eq_some_iff.mp ha
    have howner := hown.client c' fe hfe
    rw [hfile] at hf
    rw [hf] at howner hfe
    cases howner
    exact hfe
  have hproc : ∀ {p : ρ} {f : File γ ρ → Event.Call (File γ ρ) Callback},
      (∀ fe, (f fe).file = fe) → a ∉ (w.procs p).fe.map f := by
    intro p f hfile ha
    obtain ⟨fe, hfe, rfl⟩ := Option.map_eq_some_iff.mp ha
    have howner := hown.proc p fe hfe
    rw [hfile] at hf
    rw [hf] at howner
    cases howner
  cases e with
  | connectAwait c' ms b =>
      cases ha
      cases hf
      exact .inr ⟨rfl, ms, b, rfl⟩
  | readAwait c' ms => exact .inl (hclient (fun _ => rfl) ha)
  | writeAwait c' ms => exact .inl (hclient (fun _ => rfl) ha)
  | write c' data ms answer => exact .inl (hclient (fun _ => rfl) ha)
  | readDisable c' => exact .inl (hclient (fun _ => rfl) ha)
  | writeDisable c' => exact .inl (hclient (fun _ => rfl) ha)
  | readwriteDisable c' => exact .inl (hclient (fun _ => rfl) ha)
  | closeAwait c' => exact .inl (hclient (fun _ => rfl) ha)
  | procConnectAwait p => exact absurd ha (hproc fun _ => rfl)
  | procReadAwait p => exact absurd ha (hproc fun _ => rfl)
  | procWriteAwait p => exact absurd ha (hproc fun _ => rfl)
  | procWrite p data answer => exact absurd ha (hproc fun _ => rfl)
  | procReadDisable p => exact absurd ha (hproc fun _ => rfl)
  | procWriteDisable p => exact absurd ha (hproc fun _ => rfl)
  | procCloseAwait p => exact absurd ha (hproc fun _ => rfl)
  | addTimer u ms => cases ha
  | delTimer u => cases ha
  | resetTimer u ms => cases ha

/-- **A connect** takes the next number, and touches this file only. -/
theorem connectAwait_allocated (sys : Sys γ ρ κ) (w : World γ ρ υ κ) (c : γ) (ms : Int) :
    (w.connectAwait sys c ms true).2.allocated (.client c) = w.allocated (.client c) + 1 ∧
      (w.connectAwait sys c ms true).2.ev
        = w.ev.apply sys.host (.add .write (.client c, w.allocated (.client c)) .connectCallback) ∧
      (((w.connectAwait sys c ms true).2.clients c).fe = (w.clients c).fe ∨
        ((w.connectAwait sys c ms true).2.clients c).fe
          = some (.client c, w.allocated (.client c))) := by
  have hallocated : (w.allocate (.client c)).2.allocated (.client c)
      = w.allocated (.client c) + 1 := Function.update_self ..
  unfold connectAwait
  simp only [Bool.not_true, Bool.false_eq_true, if_false]
  split
  · exact ⟨hallocated, rfl, .inl rfl⟩
  · have hset : ∀ v : World γ ρ υ κ, ((v.setClient c fun cli =>
        { cli with fe := some (w.allocate (.client c)).1 }).clients c).fe
          = some (.client c, w.allocated (.client c)) := by
      intro v
      rw [setClient_self]
      rfl
    split
    · exact ⟨hallocated, rfl, .inr (hset _)⟩
    · refine ⟨hallocated, rfl, .inr ?_⟩
      rw [setClient_self, setClient_self]
      exact hset _

/-- **One step.** -/
theorem Unused.step (hclears : sys.host.Clears) (h : w.Unused c) (hok : w.ev.TypesOk sys.host)
    (hring : w.ev.Ringed) (hown : w.Owned) {l : Label γ ρ υ} (hs : w.step sys l = some w') :
    w'.Unused c := by
  have hloop : (∀ e, l ≠ .call e) → KeepsFile c w w' → w'.Unused c := by
    intro hno hkept n hn
    rw [hkept.allocated] at hn
    rw [hkept.fe]
    refine ⟨(h n hn).1, ?_⟩
    exact clear_step hclears hok hring hown (fun e he => absurd he (hno e)) hs (h n hn).2
  cases stepped hs with
  | call hm hp =>
      rename_i e r
      by_cases hconnect : ∃ ms b, e = .connectAwait c ms b
      · obtain ⟨ms, b, rfl⟩ := hconnect
        cases hp
        cases b with
        | false => exact h
        | true =>
            obtain ⟨hallocated, hev, hfe⟩ := connectAwait_allocated sys w c ms
            intro n hn
            change (w.connectAwait sys c ms true).2.allocated (.client c) ≤ n at hn
            rw [hallocated] at hn
            have hold := h n (Nat.le_of_succ_le hn)
            have hne : n ≠ w.allocated (.client c) := Nat.ne_of_gt hn
            refine ⟨?_, ?_⟩
            · show ((w.connectAwait sys c ms true).2.clients c).fe ≠ _
              rcases hfe with hfe | hfe
              · rw [hfe]
                exact hold.1
              · rw [hfe]
                rintro ⟨⟩
                exact hne rfl
            · show (w.connectAwait sys c ms true).2.ev.Clear _
              rw [hev]
              refine (Event.NioEvent.apply_other w.ev ?_).clear hold.2
              rintro ⟨⟩
              exact hne rfl
      · have hkept : KeepsFile c w r.2.2 := by
          refine perform_keeps hown hp ?_ (fun _ _ _ _ hv => ⟨hv.fe, hv.allocated⟩) ⟨rfl, rfl⟩
          intro v o d ho hq hv
          refine hv.update hq.1 ?_
          rintro rfl hkind
          have hin := hq.2
          rw [hkind] at hin
          cases e with
          | connectAwait c' ms b =>
              cases ho
              exact absurd ⟨ms, b, rfl⟩ hconnect
          | _ => simp [Call.kinds] at hin
        intro n hn
        change r.2.2.allocated (.client c) ≤ n at hn
        rw [hkept.allocated] at hn
        obtain ⟨hfe, hclear⟩ := h n hn
        refine ⟨?_, ?_⟩
        · show (r.2.2.clients c).fe ≠ _
          rw [hkept.fe]
          exact hfe
        · show r.2.2.ev.Clear _
          rcases perform_ev hp with heq | ⟨a, ha, heq⟩
          · rw [heq]
            exact hclear
          · rw [heq]
            refine (Event.NioEvent.apply_other w.ev ?_).clear hclear
            intro hf
            rcases asks_file hown ha hf.symm with hhas | ⟨-, hcon⟩
            · exact hfe hhas
            · exact hconnect hcon
  | ret hr => exact hloop (fun e he => by cases he) ⟨rfl, rfl⟩
  | wait hr hp => exact hloop (fun e he => by cases he) ⟨rfl, rfl⟩
  | next hr hm => exact hloop (fun e he => by cases he) (.move hown hm)

omit [DecidableEq υ] in
theorem unused_start (setup : Setup γ ρ) (oneshot direct : Bool) (setsize : Int)
    (fd : File γ ρ → Int) (backend : κ) (sec nsec : Int) (c : γ) :
    (World.start setup oneshot direct setsize fd backend sec nsec : World γ ρ υ κ).Unused c := by
  intro n hn
  refine ⟨?_, rfl, fun _ => ⟨rfl, rfl, rfl⟩⟩
  simp only [World.start] at hn ⊢
  split
  · rename_i hfile
    rw [hfile] at hn
    rintro ⟨⟩
    cases hn
  · rintro ⟨⟩

end World

end Libnio.Socket
