import Libnio.Mqtt.Contents
import Libnio.Mqtt.Send

/-!
# Mqtt — from one end of a connection to the other

A program sends messages over a socket of its event, with whatever else it does in
between; what the kernel takes of them comes in at a client, cut into any reads, at any
later time, until the connection ends. `messages_in_order`: the messages that are
delivered there are the first of those that were sent, and `messages_not_held` says
when each of them is there.
-/

namespace Libnio.Mqtt

open Stream
open Socket (World Sys Owner Label Setup)

/-- `out` of a message. -/
def MqttMessage.packet (m : MqttMessage) : Bytes :=
  match m.toString [] with
  | .ok (true, _, out) => out
  | _ => []

theorem MqttMessage.packet_eq {m m' : MqttMessage} {out : Bytes}
    (h : m.toString [] = .ok (true, m', out)) : m.packet = out := by
  rw [packet, h]

theorem MqttMessage.Sendable.carried {m : MqttMessage} (h : m.Sendable) (past : UInt8)
    (handler : List MqttMessage → Bool) :
    MqttClient.Carried past handler m.packet fun d => d.contents = m.contents := by
  obtain ⟨m', packet, htext, -, hcar⟩ := h.conveyed
  rw [packet_eq htext]
  exact hcar past handler

/-- The same contents, one by one. -/
theorem map_contents {ms ds : List MqttMessage}
    (h : List.Forall₂ (fun m d : MqttMessage => d.contents = m.contents) ms ds) :
    ds.map MqttMessage.contents = ms.map MqttMessage.contents := by
  induction h with
  | nil => rfl
  | cons h _ ih => rw [List.map_cons, List.map_cons, h, ih]

/-- **A conversation cannot be mistaken**: if what some messages are written as begins
what others are written as, then their contents begin the contents of the others. In
particular no packet is the beginning of another one, and two lists of messages that
are written alike have the same contents. -/
theorem conversation_unambiguous (ms ms' : List MqttMessage) (hms : ∀ m ∈ ms, m.Sendable)
    (hms' : ∀ m ∈ ms', m.Sendable)
    (h : ms.flatMap MqttMessage.packet <+: ms'.flatMap MqttMessage.packet) :
    ms.map MqttMessage.contents <+: ms'.map MqttMessage.contents := by
  have hcar : ∀ m : MqttMessage, m.Sendable → MqttClient.Carried 0 (fun _ => true) m.packet
      fun d => d.contents = m.contents := fun m hm => hm.carried 0 _
  obtain ⟨first, ds, hfirst, hsame, hsame'⟩ :=
    (MqttClient.readLoop_receiver 0 (some fun _ => true)).unambiguous
      (fun _ (h : MqttClient.Idle _) => h.inv) (fun m hm => (hcar m (hms m hm)).carries)
      (fun m hm => (hcar m (hms' m hm)).carries)
      (fun m hm => (hcar m (hms m hm)).runs_on fun _ => rfl) MqttClient.idle_new h
  rw [← map_contents hsame, map_contents hsame']
  exact hfirst.map _

/-- A PINGREQ begins a PINGREQ with a PUBACK behind it. -/
theorem conversation_unambiguous_ping :
    [MqttMessage.pingreq (.new .pingreq)].map MqttMessage.contents
      <+: [MqttMessage.pingreq (.new .pingreq), .puback (AckKind.puback.new.setPktId 7)].map
        MqttMessage.contents := by
  refine conversation_unambiguous _ _ ?_ ?_ (by decide)
  · intro m hm
    rw [List.mem_singleton.mp hm]
    exact .pingreq
  · intro m hm
    rcases List.mem_cons.mp hm with rfl | hm
    · exact .pingreq
    · rw [List.mem_singleton.mp hm]
      exact .ack .puback 7

/-! ## The sending end -/

/-- A program, and the messages for which `send_await` has returned `true`. -/
structure Sender (γ ρ υ κ : Type) where
  world : World γ ρ υ κ
  handed : List MqttMessage

/-- A message that is sent over `c` can be sent, and finds something in `buf_` or a
kernel that takes a count of it; nothing else is written to `c`. -/
def Polite {γ ρ υ κ : Type} (c : γ) (l : Link (Sender γ ρ υ κ) MqttClient Failure) :
    LinkLabel (Sending γ ρ υ) → Prop
  | .send (.send c' m around answer) =>
      c' = c → m.Sendable ∧ Counted l.sender.world (.send c' m around answer)
  | .send (.other (.call call)) => ∀ s ∈ call.sends, s.1 ≠ .client c
  | _ => True

namespace Sender

variable {γ ρ υ κ : Type} [DecidableEq γ] [DecidableEq ρ] [DecidableEq υ] (sys : Sys γ ρ κ)

def step (c : γ) (s : Sender γ ρ υ κ) : Sending γ ρ υ → Option (Sender γ ρ υ κ)
  | .send c' m around answer =>
      (sendAwait sys c' m around answer s.world).map fun r =>
        ⟨r.2.2, if c' = c ∧ r.1 then s.handed ++ [m] else s.handed⟩
  | .other l => (s.world.step sys l).map fun world => { s with world }

/-- The bytes that the kernel has taken. -/
def gone (c : γ) (s : Sender γ ρ υ κ) : Bytes := s.world.log.flatMap (·.accepted (.client c))

def start (setup : Setup γ ρ) (oneshot direct : Bool) (setsize : Int)
    (fd : Socket.File γ ρ → Int) (backend : κ) (sec nsec : Int) : Sender γ ρ υ κ :=
  ⟨World.start setup oneshot direct setsize fd backend sec nsec, []⟩

/-- What goes out, and what `buf_` still holds, are the packets of what was sent. -/
structure Sound (c : γ) (s : Sender γ ρ υ κ) : Prop where
  owned : s.world.Owned
  stream_eq : s.world.stream (.client c) = s.handed.flatMap MqttMessage.packet
  sendable : ∀ m ∈ s.handed, m.Sendable

variable {sys} {c : γ} {s s' : Sender γ ρ υ κ}

omit [DecidableEq υ] in
theorem sound_start (setup : Setup γ ρ) (oneshot direct : Bool) (setsize : Int)
    (fd : Socket.File γ ρ → Int) (backend : κ) (sec nsec : Int) :
    Sound c (start setup oneshot direct setsize fd backend sec nsec : Sender γ ρ υ κ) :=
  ⟨World.owned_start .., rfl, fun _ h => (List.not_mem_nil h).elim⟩

/-- What a step does to the world. -/
theorem step_world {b : Sending γ ρ υ} (hs : step sys c s b = some s') :
    sendStep sys s.world b = some s'.world := by
  cases b with
  | send c' m around answer =>
      obtain ⟨r, hr, rfl⟩ := Option.map_eq_some_iff.mp hs
      rw [sendStep, hr]
      rfl
  | other l =>
      obtain ⟨world, hw, rfl⟩ := Option.map_eq_some_iff.mp hs
      exact hw

/-- What has gone out stays out. -/
theorem gone_step (hown : s.world.Owned) {b : Sending γ ρ υ} (hs : step sys c s b = some s') :
    s.gone c <+: s'.gone c := by
  have hlog : s.world.log <+: s'.world.log := by
    have hkept := fun {l : Label γ ρ υ} {v : World γ ρ υ κ} (hv : s.world.step sys l = some v) =>
      (World.kept_log sys s.world.log).step hown hv (List.prefix_refl _)
    have hs := step_world hs
    cases b with
    | other l => exact hkept hs
    | send c' m around answer =>
        obtain ⟨r, hr, hworld⟩ := Option.map_eq_some_iff.mp hs
        obtain ⟨ok, m', out, -, ⟨rfl, -⟩ | ⟨v, hv, rfl, -, -⟩⟩ := sendAwait_cases hr
        · rw [← hworld]
        · rw [← hworld]
          exact hkept hv
  obtain ⟨acts, hacts⟩ := hlog
  exact ⟨acts.flatMap (·.accepted (.client c)), by rw [gone, gone, ← hacts, List.flatMap_append]⟩

/-- **One step** of the program. -/
theorem Sound.step (h : Sound c s) {l : Link (Sender γ ρ υ κ) MqttClient Failure}
    (hl : l.sender = s) {b : Sending γ ρ υ} (hp : Polite c l (.send b))
    (hs : step sys c s b = some s') : Sound c s' := by
  subst hl
  have hown := owned_sendStep h.owned (step_world hs)
  cases b with
  | other label =>
      obtain ⟨world, hw, rfl⟩ := Option.map_eq_some_iff.mp hs
      have hno : ∀ call, label = .call call → ∀ t ∈ call.sends, t.1 ≠ Owner.client c := by
        rintro call rfl
        exact hp
      exact ⟨hown, (World.KeepsStream.step h.owned hw hno).stream.trans h.stream_eq, h.sendable⟩
  | send c' m around answer =>
      have htaken := step_world hs
      obtain ⟨r, hr, rfl⟩ := Option.map_eq_some_iff.mp hs
      have hown : r.2.2.Owned := hown
      by_cases hc : c' = c
      · subst hc
        obtain ⟨hm, hcount⟩ := hp rfl
        have happ := (allOrNothing_iff h.owned htaken).mpr hcount r hr
        cases hret : r.1 with
        | false =>
            rw [if_neg (by simp)]
            exact ⟨hown, (happ.refused hret).trans h.stream_eq, h.sendable⟩
        | true =>
            rw [if_pos ⟨rfl, rfl⟩]
            obtain ⟨m', out, htext, hstream⟩ := happ.sent hret
            refine ⟨hown, ?_, ?_⟩
            · rw [List.flatMap_append, List.flatMap_singleton, MqttMessage.packet_eq htext,
                ← h.stream_eq]
              exact hstream
            · intro m' hm'
              rcases List.mem_append.mp hm' with hm' | hm'
              · exact h.sendable m' hm'
              · rw [List.mem_singleton.mp hm']
                exact hm
      · -- another socket
        have hne : Owner.client c ≠ (Owner.client c' : Owner γ ρ) := fun he => by
          cases he
          exact hc rfl
        have hstream : r.2.2.stream (.client c) = l.sender.world.stream (.client c) := by
          obtain ⟨ok, m', out, -, ⟨rfl, -⟩ | ⟨v, hv, rfl, -, -⟩⟩ := sendAwait_cases hr
          · rfl
          · exact (stream_write h.owned hv).1 _ hne
        rw [if_neg fun hb => hc hb.1]
        exact ⟨hown, hstream.trans h.stream_eq, h.sendable⟩

end Sender

/-! ## Both ends -/

section Network

variable {γ ρ υ κ : Type} [DecidableEq γ] [DecidableEq ρ] [DecidableEq υ] (sys : Sys γ ρ κ)

/-- A step of the connection between the socket `c` and a client with this handler.
An end of the connection, or a `read` that fails, is `onRead` of nothing. -/
def networkStep (c : γ) (past : UInt8) (handler : List MqttMessage → Bool) :
    Link (Sender γ ρ υ κ) MqttClient Failure → LinkLabel (Sending γ ρ υ) →
      Option (Link (Sender γ ρ υ κ) MqttClient Failure) :=
  Link.step (Sender.step sys c) (Sender.gone c) (MqttClient.readLoop past (some handler))
    fun client => ⟨.error "", client.delivered⟩

/-- The messages that were delivered, whether the client goes on or has stopped. -/
def Arrived (l : Link (Sender γ ρ υ κ) MqttClient Failure) : List MqttMessage :=
  outs MqttClient.delivered Failure.delivered l.receiver

variable {sys} {c : γ} {past : UInt8} {handler : List MqttMessage → Bool}

/-- What the steps of the sender keep, as a link asks for it. -/
theorem sender_keeps (l : Link (Sender γ ρ υ κ) MqttClient Failure) (b : Sending γ ρ υ)
    (s' : Sender γ ρ υ κ) (hp : Polite c l (.send b)) (hS : Sender.Sound c l.sender)
    (hs : Sender.step sys c l.sender b = some s') :
    Sender.Sound c s' ∧ l.sender.gone c <+: s'.gone c :=
  ⟨hS.step rfl hp hs, Sender.gone_step hS.owned hs⟩

omit [DecidableEq υ] in
/-- What has come in is a part of the packets of what was sent. -/
theorem come_sent {l : Link (Sender γ ρ υ κ) MqttClient Failure}
    (hS : Sender.Sound c l.sender) :
    l.come (Sender.gone c) <+: l.sender.handed.flatMap MqttMessage.packet := by
  rw [← hS.stream_eq]
  exact (List.take_prefix _ _).trans (List.prefix_append _ _)

/-- **Messages arrive in order**, none of them twice and none that was not sent: what
is delivered at the other end is the beginning of what was sent, and all of it when
every byte has come in and the client goes on. -/
theorem messages_in_order (sys : Sys γ ρ κ) (setup : Setup γ ρ) (oneshot direct : Bool)
    (setsize : Int) (fd : Socket.File γ ρ → Int) (backend : κ) (sec nsec : Int) (c : γ)
    (past : UInt8) (handler : List MqttMessage → Bool) (ls : List (LinkLabel (Sending γ ρ υ)))
    (l : Link (Sender γ ρ υ κ) MqttClient Failure)
    (hrun : Trace.run (networkStep sys c past handler)
      ⟨.start setup oneshot direct setsize fd backend sec nsec, 0, .ok .new⟩ ls = some l)
    (hpolite : Trace.Meets (networkStep sys c past handler) (Polite c)
      ⟨.start setup oneshot direct setsize fd backend sec nsec, 0, .ok .new⟩ ls) :
    (Arrived l).map MqttMessage.contents <+: l.sender.handed.map MqttMessage.contents ∧
    ((∃ client, l.receiver = .ok client) → l.got = (l.sender.gone c).length →
      l.sender.world.buf (.client c) = [] →
      (Arrived l).map MqttMessage.contents = l.sender.handed.map MqttMessage.contents) := by
  have hrec := MqttClient.readLoop_receiver past (some handler)
  obtain ⟨hS, ht⟩ := Link.run_tracks hrec MqttClient.inv_new sender_keeps hpolite
    (Sender.sound_start ..) (.inl (Link.fed_start hrec _)) hrun
  obtain ⟨first, ds, hfirst, hsame, hout, hall⟩ := ht.conveys hrec
    (fun _ (h : MqttClient.Idle _) => h.inv) (fun _ => rfl) MqttClient.idle_new
    (fun m hm => ((hS.sendable m hm).carried past handler).carries) (come_sent hS)
  have hout : Arrived l = ds := hout
  rw [hout, map_contents hsame]
  refine ⟨hfirst.map _, ?_⟩
  intro hok hgot hbuf
  rw [hall hok]
  rw [Link.come, hgot, List.take_length, ← hS.stream_eq, World.stream, hbuf, List.append_nil]
  rfl

/-- A PINGREQ and a PUBACK, the second read of which takes the end of the first
packet. -/
theorem messages_in_order_two :
    let start : Link (Sender Nat Nat Nat _) MqttClient Failure :=
      ⟨⟨.fresh (.handled true true) false Socket.File.turn, []⟩, 0, .ok .new⟩
    let ls : List (LinkLabel (Sending Nat Nat Nat)) :=
      [.send (.send 0 (.pingreq (.new .pingreq)) (fun _ => 9) (.wrote 2)), .read 1,
        .send (.send 0 (.puback ((MqttAck.new .puback).setPktId 7)) (fun _ => 9) (.wrote 4)),
        .read 5]
    ∃ l, Trace.run (networkStep .table 0 0 fun _ => true) start ls = some l ∧
      l.sender.handed.map MqttMessage.contents = [.pingreq, .ack .puback 7] ∧
      (Arrived l).map MqttMessage.contents <+: l.sender.handed.map MqttMessage.contents := by
  intro start ls
  have hany : (Trace.run (networkStep .table 0 0 fun _ => true) start ls).any
      (fun l => l.sender.handed.map MqttMessage.contents = [.pingreq, .ack .puback 7]) := by
    decide +kernel
  obtain ⟨l, hrun, hl⟩ := Trace.run_any hany
  refine ⟨l, hrun, of_decide_eq_true hl,
    (messages_in_order .table (.handled true true) false false 1024 _ _ 0 0 0 0 _ ls l hrun ?_).1⟩
  refine ⟨fun _ => ⟨.pingreq, fun _ _ _ _ _ => ⟨2, rfl⟩⟩, fun _ _ => ⟨trivial, fun _ _ => ?_⟩⟩
  exact ⟨fun _ => ⟨.ack .puback 7, fun _ _ _ _ _ => ⟨4, rfl⟩⟩,
    fun _ _ => ⟨trivial, fun _ _ => trivial⟩⟩

/-- **No message is held back** as long as the connection stays and the handler takes
every message: the client goes on, and has delivered each message whose packet has
come in as a whole. -/
theorem messages_not_held (sys : Sys γ ρ κ) (setup : Setup γ ρ) (oneshot direct : Bool)
    (setsize : Int) (fd : Socket.File γ ρ → Int) (backend : κ) (sec nsec : Int) (c : γ)
    (past : UInt8) (handler : List MqttMessage → Bool) (ls : List (LinkLabel (Sending γ ρ υ)))
    (l : Link (Sender γ ρ υ κ) MqttClient Failure)
    (hrun : Trace.run (networkStep sys c past handler)
      ⟨.start setup oneshot direct setsize fd backend sec nsec, 0, .ok .new⟩ ls = some l)
    (hpolite : Trace.Meets (networkStep sys c past handler) (Polite c)
      ⟨.start setup oneshot direct setsize fd backend sec nsec, 0, .ok .new⟩ ls)
    (hstay : LinkLabel.hangup ∉ ls) (htakes : ∀ ds, handler ds = true) :
    ∃ client, l.receiver = .ok client ∧
      ∀ first, first <+: l.sender.handed →
        (first.flatMap MqttMessage.packet).length ≤ l.got →
        first.map MqttMessage.contents <+: client.delivered.map MqttMessage.contents := by
  have hrec := MqttClient.readLoop_receiver past (some handler)
  have hidle : ∀ s, MqttClient.Idle s → MqttClient.Inv s := fun _ h => h.inv
  obtain ⟨hS, hf⟩ := Link.run_fed hrec MqttClient.inv_new sender_keeps hpolite
    (Sender.sound_start ..) (Link.fed_start hrec _) hstay hrun
  have hcome := come_sent hS
  obtain ⟨client, hclient⟩ := hrec.runs_on hidle
    (fun m hm => ((hS.sendable m hm).carried past handler).runs_on htakes) MqttClient.idle_new hcome
  refine ⟨client, hf.receiver_eq.trans hclient, ?_⟩
  intro first hfirst hlen
  -- the packets of the first messages are the beginning of what has come in
  have hwhole : first.flatMap MqttMessage.packet <+: l.come (Sender.gone c) := by
    have hsent : first.flatMap MqttMessage.packet
        <+: l.sender.handed.flatMap MqttMessage.packet := by
      obtain ⟨more, hmore⟩ := hfirst
      rw [← hmore, List.flatMap_append]
      exact List.prefix_append _ _
    refine List.prefix_of_prefix_length_le hsent hcome ?_
    unfold Link.come
    rw [List.length_take, Nat.min_eq_left hf.got_le]
    exact hlen
  obtain ⟨ds, hsame, hds⟩ := hrec.conveys_whole hidle
    (fun m hm => ((hS.sendable m (hfirst.subset hm)).carried past handler).carries)
    MqttClient.idle_new hwhole hclient
  rw [← map_contents hsame]
  exact hds.map _

/-- The first byte of a PINGRESP behind a PINGREQ: the PINGREQ is delivered. -/
theorem messages_not_held_one :
    let start : Link (Sender Nat Nat Nat _) MqttClient Failure :=
      ⟨⟨.fresh (.handled true true) false Socket.File.turn, []⟩, 0, .ok .new⟩
    let ls : List (LinkLabel (Sending Nat Nat Nat)) :=
      [.send (.send 0 (.pingreq (.new .pingreq)) (fun _ => 9) (.wrote 2)),
        .send (.send 0 (.pingresp (.new .pingresp)) (fun _ => 9) (.wrote 1)), .read 3]
    ∃ l client, Trace.run (networkStep .table 0 0 fun _ => true) start ls = some l ∧
      l.receiver = .ok client ∧
      [Contents.pingreq] <+: client.delivered.map MqttMessage.contents := by
  intro start ls
  let ping : MqttMessage := .pingreq (.new .pingreq)
  have hany : (Trace.run (networkStep .table 0 0 fun _ => true) start ls).any
      (fun l => [ping].isPrefixOf l.sender.handed && l.got = 3) := by
    decide +kernel
  obtain ⟨l, hrun, hl⟩ := Trace.run_any hany
  rw [Bool.and_eq_true] at hl
  obtain ⟨client, hclient, hfirst⟩ := messages_not_held .table (.handled true true) false
    false 1024 _ _ 0 0 0 0 _ ls l hrun
    ⟨fun _ => ⟨.pingreq, fun _ _ _ _ _ => ⟨2, rfl⟩⟩, fun _ _ =>
      ⟨fun _ => ⟨.pingresp, fun _ _ _ _ _ => ⟨1, rfl⟩⟩, fun _ _ => ⟨trivial, fun _ _ => trivial⟩⟩⟩
    (by simp [ls]) (fun _ => rfl)
  have hlen : ([ping].flatMap MqttMessage.packet).length = 2 := rfl
  refine ⟨l, client, hrun, hclient, hfirst [ping] (List.isPrefixOf_iff_prefix.mp hl.1) ?_⟩
  rw [hlen, of_decide_eq_true hl.2]
  decide

end Network

end Libnio.Mqtt
