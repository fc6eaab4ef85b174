import Libnio.Mqtt.Message
import Libnio.Socket.Bytes

/-!
# Mqtt — sending

`mqtt_client::send_await`: a message is encoded and handed to the socket of the
client, over whole runs of a program that does anything else in between.
-/

namespace Libnio.Mqtt

open Socket (World Sys Owner Label Data WriteAnswer Setup Written)

/-! ## What is sent -/

/-- `out.data()`, `out.size()`, with the memory around it. -/
def outData (around : Int → UInt8) (out : Bytes) : Data :=
  { mem := fun i => if 0 ≤ i then out.getD i.toNat (around i) else around i, len := out.length }

theorem outData_bytes (around : Int → UInt8) (out : Bytes) : (outData around out).bytes = out := by
  refine List.ext_getElem (by simp [Data.bytes, outData]) ?_
  intro n h₁ h₂
  simp [Data.bytes, Data.span, outData, h₂]

section Session

variable {γ ρ υ κ : Type} [DecidableEq γ] [DecidableEq ρ] [DecidableEq υ] (sys : Sys γ ρ κ)

/-- `mqtt_client::send_await`, over the socket `c`: what it returns, and what it
leaves of the message and the world. What `conn_.write` returns is not looked at. -/
def sendAwait (c : γ) (m : MqttMessage) (around : Int → UInt8) (answer : WriteAnswer)
    (w : World γ ρ υ κ) : Option (Bool × MqttMessage × World γ ρ υ κ) :=
  match m.toString [] with
  | .error _ => none
  | .ok (ok, m, out) =>
      if !ok || out.isEmpty then some (false, m, w)
      else
        (w.step sys (.call (.write c (outData around out) (-1) answer))).map fun w => (true, m, w)

/-- A step of a program: a `send_await`, or anything else. -/
inductive Sending (γ ρ υ : Type) where
  | send (c : γ) (m : MqttMessage) (around : Int → UInt8) (answer : WriteAnswer)
  | other (l : Label γ ρ υ)

/-- What a step makes of the world. -/
def sendStep (w : World γ ρ υ κ) : Sending γ ρ υ → Option (World γ ρ υ κ)
  | .send c m around answer => (sendAwait sys c m around answer w).map fun r => r.2.2
  | .other l => w.step sys l

/-- A call that returns `true` has appended the whole packet to what the socket
sends, and one that returns `false` nothing of it; no other stream is touched. -/
structure Appended (w : World γ ρ υ κ) (c : γ) (m : MqttMessage)
    (r : Bool × MqttMessage × World γ ρ υ κ) : Prop where
  sent : r.1 = true → ∃ m' out, m.toString [] = .ok (true, m', out) ∧
    r.2.2.stream (.client c) = w.stream (.client c) ++ out
  refused : r.1 = false → r.2.2.stream (.client c) = w.stream (.client c)
  others : ∀ o ≠ Owner.client c, r.2.2.stream o = w.stream o

/-- **All or nothing**, of every call of `send_await`; what comes between the calls
leaves every stream alone that it does not write to. -/
def AllOrNothing (w : World γ ρ υ κ) : Sending γ ρ υ → Prop
  | .send c m around answer => ∀ r ∈ sendAwait sys c m around answer w, Appended w c m r
  | .other l => ∀ w' ∈ w.step sys l, ∀ o, (∀ c, l = .call c → ∀ s ∈ c.sends, s.1 ≠ o) →
      w'.stream o = w.stream o

/-- A packet that is handed over finds something in `buf_`, or a kernel that takes
a count of it. -/
def Counted (w : World γ ρ υ κ) : Sending γ ρ υ → Prop
  | .send c m _ answer => ∀ m' out, m.toString [] = .ok (true, m', out) → out ≠ [] →
      w.buf (.client c) = [] → ∃ n, answer = .wrote n
  | .other _ => True

/-! ## One call -/

variable {sys} {w w' : World γ ρ υ κ}

/-- What a call of `send_await` does, by what the message is encoded to. -/
theorem sendAwait_cases {c : γ} {m : MqttMessage} {around : Int → UInt8} {answer : WriteAnswer}
    {r : Bool × MqttMessage × World γ ρ υ κ} (h : sendAwait sys c m around answer w = some r) :
    ∃ ok m' out, m.toString [] = .ok (ok, m', out) ∧
      ((r = (false, m', w) ∧ (ok = false ∨ out = [])) ∨
        ∃ w', w.step sys (.call (.write c (outData around out) (-1) answer)) = some w' ∧
          r = (true, m', w') ∧ ok = true ∧ out ≠ []) := by
  unfold sendAwait at h
  split at h
  · cases h
  · rename_i ok m' out henc
    refine ⟨ok, m', out, henc, ?_⟩
    split at h
    · rename_i hrefuse
      cases h
      refine .inl ⟨rfl, ?_⟩
      simpa using hrefuse
    · rename_i htake
      obtain ⟨w', hs, rfl⟩ := Option.map_eq_some_iff.mp h
      refine .inr ⟨w', hs, rfl, ?_⟩
      simpa using htake

/-- A call of `write` that is taken: the streams behind it. -/
theorem stream_write (hown : w.Owned) {c : γ} {data : Data} {ms : Int} {answer : WriteAnswer}
    (hs : w.step sys (.call (.write c data ms answer)) = some w') :
    (∀ o ≠ Owner.client c, w'.stream o = w.stream o) ∧
      (0 < data.len → (w'.stream (.client c) = w.stream (.client c) ++ data.bytes ↔
        (w.buf (.client c) = [] → ∃ n, answer = .wrote n))) := by
  cases Socket.World.stepped hs with
  | call hm h =>
      rename_i r
      have hleft := Socket.World.perform_left hown h rfl
      have hlogged : ∀ o,
          (r.2.2.logged (.call (.write c data ms answer) w.running r.1 r.2.1)).stream o
          = r.2.2.stream o := by
        intro o
        exact Socket.World.stream_logged rfl
      refine ⟨?_, ?_⟩
      · intro o ho
        rw [hlogged]
        exact hleft.stream_other (Ne.symm ho)
      · intro hlen
        rw [hlogged, hleft.stream_iff]
        exact Socket.Outgoing.write_appends_iff hlen

/-- A step keeps the files with their objects. -/
theorem owned_sendStep (hown : w.Owned) {l : Sending γ ρ υ} (hs : sendStep sys w l = some w') :
    w'.Owned := by
  have hkeep : ∀ {l : Label γ ρ υ} {v : World γ ρ υ κ}, w.step sys l = some v → v.Owned :=
    fun hs => (Socket.World.kept_owned sys).step hown hs hown
  cases l with
  | other l => exact hkeep hs
  | send c m around answer =>
      obtain ⟨r, hr, rfl⟩ := Option.map_eq_some_iff.mp hs
      obtain ⟨ok, m', out, -, ⟨rfl, -⟩ | ⟨v, hv, rfl, -, -⟩⟩ := sendAwait_cases hr
      · exact hown
      · exact hkeep hv

/-- **One step** that is taken. -/
theorem allOrNothing_iff (hown : w.Owned) {l : Sending γ ρ υ} (hs : sendStep sys w l = some w') :
    AllOrNothing sys w l ↔ Counted w l := by
  cases l with
  | other l =>
      refine iff_of_true ?_ trivial
      intro v hv o hno
      exact (Socket.World.KeepsStream.step hown hv hno).stream
  | send c m around answer =>
      obtain ⟨r, hr, rfl⟩ := Option.map_eq_some_iff.mp hs
      have hone : AllOrNothing sys w (.send c m around answer) ↔ Appended w c m r := by
        constructor
        · exact fun h => h r hr
        · intro h r' hr'
          cases hr.symm.trans hr'
          exact h
      rw [hone]
      obtain ⟨ok, m', out, henc, ⟨rfl, hrefuse⟩ | ⟨v, hv, rfl, rfl, hne⟩⟩ := sendAwait_cases hr
      · -- it is refused before the socket is asked
        refine iff_of_true ⟨fun h => (by cases h), fun _ => rfl, fun o _ => rfl⟩ ?_
        intro m'' out' henc' hne
        cases henc.symm.trans henc'
        rcases hrefuse with h | h
        · cases h
        · exact absurd h hne
      · have hlen : 0 < (outData around out).len := List.length_pos_iff.mpr hne
        obtain ⟨hother, hself⟩ := stream_write hown hv
        have hself := hself hlen
        rw [outData_bytes] at hself
        constructor
        · intro h m'' out' henc' _ hbuf
          obtain ⟨m₁, out₁, henc₁, hstream⟩ := h.sent rfl
          cases henc.symm.trans henc₁
          exact hself.mp hstream hbuf
        · intro h
          exact ⟨fun _ => ⟨m', out, henc, hself.mpr (h m' out henc hne)⟩,
            fun h => (by cases h), hother⟩

/-! ## Every run -/

/-- **A call of `send_await` is all or nothing** in the runs in which each packet
that is handed over finds something in `buf_` or a kernel that takes a count of
it, and in no others. -/
theorem sendAwait_allOrNothing_iff (sys : Sys γ ρ κ) (setup : Setup γ ρ) (oneshot direct : Bool)
    (setsize : Int) (fd : Socket.File γ ρ → Int) (backend : κ) (sec nsec : Int)
    (ls : List (Sending γ ρ υ)) (w : World γ ρ υ κ) :
    Trace.run (sendStep sys) (World.start setup oneshot direct setsize fd backend sec nsec) ls
      = some w →
    (Trace.Meets (sendStep sys) (AllOrNothing sys)
        (World.start setup oneshot direct setsize fd backend sec nsec) ls ↔
      Trace.Meets (sendStep sys) Counted
        (World.start setup oneshot direct setsize fd backend sec nsec) ls) := by
  intro hrun
  have hstart : (World.start setup oneshot direct setsize fd backend sec nsec :
      World γ ρ υ κ).Owned := World.owned_start ..
  have htaken := Trace.meets_taken hrun
  constructor
  · intro h
    refine Trace.meets_induct (I := World.Owned) (fun _ _ _ _ hown hs => owned_sendStep hown hs) ?_
      (h.and htaken) hstart
    rintro v l ⟨hp, v', hs⟩ hown
    exact (allOrNothing_iff hown hs).mp hp
  · intro h
    refine Trace.meets_induct (I := World.Owned) (fun _ _ _ _ hown hs => owned_sendStep hown hs) ?_
      (h.and htaken) hstart
    rintro v l ⟨hp, v', hs⟩ hown
    exact (allOrNothing_iff hown hs).mpr hp

/-- A PINGREQ of which the kernel takes one byte, and a PUBACK behind it. -/
theorem sendAwait_allOrNothing_two :
    let ping : MqttMessage := .pingreq ⟨.new .pingreq⟩
    let ack : MqttMessage := .puback ((MqttAck.new .puback).setPktId 7)
    let start : World Nat Nat Nat _ := .fresh (.handled true true) false Socket.File.turn
    let ls : List (Sending Nat Nat Nat) :=
      [.send 0 ping (fun _ => 9) (.wrote 1), .send 0 ack (fun _ => 9) .wouldBlock]
    ∃ w, Trace.run (sendStep .table) start ls = some w ∧
      w.stream (.client 0) = [0xc0, 0, 0x40, 2, 0, 7] ∧
      Trace.Meets (sendStep .table) (AllOrNothing .table) start ls := by
  intro ping ack start ls
  have hany : (Trace.run (sendStep .table) start ls).any
      (fun w => w.stream (.client 0) = [0xc0, 0, 0x40, 2, 0, 7]) := by
    decide +kernel
  obtain ⟨w, hrun, hw⟩ := Trace.run_any hany
  have hcounted : Trace.Meets (sendStep .table) Counted start ls := by
    refine ⟨fun _ _ _ _ _ => ⟨1, rfl⟩, ?_⟩
    intro v hv
    -- one byte is left for the second call
    have hbuf : (sendStep .table start (.send 0 ping (fun _ => 9) (.wrote 1))).all
        (fun v => v.buf (.client 0) ≠ []) := by
      decide +kernel
    rw [Option.mem_def.mp hv] at hbuf
    exact ⟨fun _ _ _ _ hnil => absurd hnil (of_decide_eq_true hbuf), fun _ _ => trivial⟩
  exact ⟨w, hrun, of_decide_eq_true hw, (sendAwait_allOrNothing_iff .table (.handled true true)
    false false 1024 _ _ 0 0 ls w hrun).mpr hcounted⟩

/-- The socket is gone when a PINGREQ is sent: the call returns `true`, and not a
byte of it is in the stream. -/
theorem sendAwait_not_allOrNothing :
    let ping : MqttMessage := .pingreq ⟨.new .pingreq⟩
    let start : World Nat Nat Nat _ := .fresh (.handled true true) false Socket.File.turn
    let ls : List (Sending Nat Nat Nat) := [.send 0 ping (fun _ => 9) .hardError]
    (∃ r, sendAwait .table 0 ping (fun _ => 9) .hardError start = some r ∧ r.1 = true ∧
      r.2.2.stream (.client 0) = []) ∧
    (∃ r, sendAwait .table 0 ping (fun _ => 9) .wouldBlock start = some r ∧ r.1 = true ∧
      r.2.2.stream (.client 0) = [9, 0xc0, 0]) ∧
    ¬ Trace.Meets (sendStep .table) (AllOrNothing .table) start ls := by
  intro ping start ls
  have hhard : (sendAwait .table 0 ping (fun _ => 9) .hardError start).any
      (fun r => r.1 && r.2.2.stream (.client 0) = []) := by
    decide +kernel
  have hblock : (sendAwait .table 0 ping (fun _ => 9) .wouldBlock start).any
      (fun r => r.1 && r.2.2.stream (.client 0) = [9, 0xc0, 0]) := by
    decide +kernel
  simp only [Option.any_eq_true, Bool.and_eq_true, decide_eq_true_eq] at hhard hblock
  refine ⟨hhard, hblock, ?_⟩
  rintro ⟨hall, -⟩
  obtain ⟨r, hr, hret, hstream⟩ := hhard
  obtain ⟨m', out, henc, hsent⟩ := (hall r hr).sent hret
  -- the packet is not empty
  have hlen : (ping.toString []).map (fun r => r.2.2.length) = .ok 2 := rfl
  rw [henc] at hlen
  rw [hstream] at hsent
  have hout := congrArg List.length hsent
  simp only [Except.map, Except.ok.injEq] at hlen
  rw [List.length_append, hlen] at hout
  simp at hout

end Session

end Libnio.Mqtt
