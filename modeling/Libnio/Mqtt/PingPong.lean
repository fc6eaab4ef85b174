import Libnio.Mqtt.Network
import Libnio.Stream.Duplex

/-!
# Mqtt — the sample client and the sample server

`mqtt_server` answers a PINGREQ with a PINGRESP, `mqtt_client` starts with a PINGREQ
and answers every message with another one, until it has counted enough of them.
`ping_pong`: in every order of reads at the two ends, cut in any way, the two go in
lockstep, and neither of them waits for the other one in vain.
-/

namespace Libnio.Mqtt

open Stream

/-! ## The two programs -/

/-- The function that is given to `on_message`: what it returns for the messages so
far, the current one last, and what it sends. -/
abbrev OnMessage := List MqttMessage → Bool × List MqttMessage

/-- What has been sent in answer to these messages. -/
def OnMessage.answers (onMessage : OnMessage) (ds : List MqttMessage) : List MqttMessage :=
  (List.range ds.length).flatMap fun i => (onMessage (ds.take (i + 1))).2

/-- `handle_client` of `mqtt_server` -/
def serverOnMessage : OnMessage := fun ds =>
  match ds.getLast? with
  | none => (true, [])
  | some msg =>
      match msg.getHeader.getType with
      | .pingreq => (true, [.pingresp (.new .pingresp)])
      | .disconnect => (false, [])
      | _ => (true, [])

/-- `handle_client` of `mqtt_client`: `count n` is what the counter of all connections
is once it has been raised for the `n`-th message of this one. -/
def clientOnMessage (totalCount : Nat) (count : Nat → Nat) : OnMessage := fun ds =>
  if count ds.length ≥ totalCount then (false, []) else (true, [.pingreq (.new .pingreq)])

/-- What an end has sent: the client is on the left, and begins. -/
def told (totalCount : Nat) (count : Nat → Nat) : Side → List MqttMessage → List MqttMessage
  | .left, ds => .pingreq (.new .pingreq) :: (clientOnMessage totalCount count).answers ds
  | .right, ds => OnMessage.answers serverOnMessage ds

def onMessage (totalCount : Nat) (count : Nat → Nat) : Side → OnMessage
  | .left => clientOnMessage totalCount count
  | .right => serverOnMessage

/-- A read at one of the ends, or the end of its connection. -/
def pingStep (past : Side → UInt8) (totalCount : Nat) (count : Nat → Nat) :
    (Side → End MqttClient Failure) → Side × EndLabel → Option (Side → End MqttClient Failure) :=
  Duplex.step
    (fun side => MqttClient.readLoop (past side)
      (some fun ds => (onMessage totalCount count side ds).1))
    MqttClient.delivered Failure.delivered (fun client => ⟨.error "", client.delivered⟩)
    fun side ds => (told totalCount count side ds).flatMap MqttMessage.packet

/-- The messages that an end has been given. -/
def had (d : Side → End MqttClient Failure) (side : Side) : List MqttMessage :=
  Duplex.put MqttClient.delivered Failure.delivered d side

/-- Bytes are on their way to an end that goes on. -/
def Moves (totalCount : Nat) (count : Nat → Nat) (d : Side → End MqttClient Failure) : Prop :=
  ∃ side, (∃ client, (d side).receiver = .ok client) ∧
    (d side).got < ((told totalCount count side.other (had d side.other)).flatMap
      MqttMessage.packet).length

/-- The server gets nothing but PINGREQs, the client nothing but PINGRESPs, each of
them for a PINGREQ, and one PINGREQ at most is not answered. The client goes on while
it counts less than `total_count`, and as long as both go on there is something to
read. -/
structure Lockstep (totalCount : Nat) (count : Nat → Nat) (d : Side → End MqttClient Failure) :
    Prop where
  pingreqs : ∀ m ∈ had d .right, m.getHeader.getType = .pingreq
  pingresps : ∀ m ∈ had d .left, m.getHeader.getType = .pingresp
  answered : (had d .left).length ≤ (had d .right).length
  outstanding : (had d .right).length ≤ (had d .left).length + 1
  counted : ∀ n, 0 < n → n < (had d .left).length → count n < totalCount
  moves : (∀ side, ∃ client, (d side).receiver = .ok client) → Moves totalCount count d

/-! ## What is answered -/

section Answers

variable {om : OnMessage}

theorem answers_grows {ds ds' : List MqttMessage} (h : ds <+: ds') :
    om.answers ds <+: om.answers ds' := by
  obtain ⟨more, rfl⟩ := h
  have hsame : (List.range ds.length).flatMap (fun i => (om ((ds ++ more).take (i + 1))).2)
      = om.answers ds := by
    refine List.flatMap_congr fun i hi => ?_
    rw [List.take_append_of_le_length (List.mem_range.mp hi)]
  rw [OnMessage.answers, OnMessage.answers, List.length_append, List.range_add,
    List.flatMap_append]
  exact ⟨_, congrArg (· ++ _) hsame.symm⟩

/-- Each message is answered with `m`, if it is in this part. -/
theorem answers_eq_replicate {m : MqttMessage} {ds : List MqttMessage}
    (h : ∀ n, 0 < n → n ≤ ds.length → (om (ds.take n)).2 = [m]) :
    om.answers ds = List.replicate ds.length m := by
  have hone : ∀ i ∈ List.range ds.length, (om (ds.take (i + 1))).2 = [m] := by
    intro i hi
    exact h (i + 1) (Nat.succ_pos i) (List.mem_range.mp hi)
  rw [OnMessage.answers, List.flatMap_congr hone, List.flatMap, List.map_const',
    List.flatten_replicate_singleton, List.length_range]

theorem mem_answers {m : MqttMessage} {ds : List MqttMessage} (h : m ∈ om.answers ds) :
    ∃ ds', m ∈ (om ds').2 := by
  obtain ⟨i, -, hm⟩ := List.mem_flatMap.mp h
  exact ⟨_, hm⟩

theorem length_answers_le (hone : ∀ ds, (om ds).2.length ≤ 1) (ds : List MqttMessage) :
    (om.answers ds).length ≤ ds.length := by
  have hsum : ∀ n, ((List.range n).flatMap fun i => (om (ds.take (i + 1))).2).length ≤ n := by
    intro n
    induction n with
    | zero => exact Nat.le_refl 0
    | succ n ih =>
        rw [List.range_succ, List.flatMap_append, List.flatMap_singleton, List.length_append]
        exact Nat.add_le_add ih (hone _)
  exact hsum ds.length

end Answers

/-! ## What is sent is carried -/

/-- A PINGREQ or a PINGRESP comes in as a message of its type. -/
theorem carries_bare {t : MqttType} {e : MqttBare → MqttMessage} (h0 : t ≠ .reservedMin)
    (h1 : t ≠ .reservedMax)
    (htext : (e (.new t)).toString [] = .ok (MqttMessage.written e ((MqttBare.new t).toString [])))
    (hcreate : ∀ (past : UInt8) (header : MqttHeader), header.type = t →
      MqttMessage.createMessage past header = some (e (.ofHeader header)))
    (hrun : ∀ m, (e m).run [] = .ok (e m, [])) (hfin : ∀ m, (e m).finished = true)
    (hheader : ∀ m, (e m).getHeader = m.header) (past : UInt8)
    (handler : List MqttMessage → Bool) :
    MqttClient.Carried past handler (e (.new t)).packet fun d =>
      d.getHeader.getType = (e (.new t)).getHeader.getType := by
  rw [MqttMessage.bare_toString] at htext
  rw [@MqttMessage.packet_eq _ (e ⟨(MqttHeader.new t).setRemaingLength 0⟩) _ htext]
  refine MqttClient.carried_built past handler h0 h1 (by decide) ?_
  intro header ht _ _
  refine ⟨_, e (.ofHeader header), hcreate past header ht, hrun _, hfin _, ?_⟩
  rw [hheader, hheader]
  exact ht

theorem carries_pingreq (past : UInt8) (handler : List MqttMessage → Bool) :
    MqttClient.Carried past handler (MqttMessage.pingreq (.new .pingreq)).packet fun d =>
      d.getHeader.getType = .pingreq := by
  refine carries_bare (t := .pingreq) (by decide) (by decide) rfl ?_ (fun _ => rfl)
    (fun _ => rfl) (fun _ => rfl) past handler
  intro past header ht
  rw [MqttMessage.createMessage, MqttHeader.getType, ht]

theorem carries_pingresp (past : UInt8) (handler : List MqttMessage → Bool) :
    MqttClient.Carried past handler (MqttMessage.pingresp (.new .pingresp)).packet fun d =>
      d.getHeader.getType = .pingresp := by
  refine carries_bare (t := .pingresp) (by decide) (by decide) rfl ?_ (fun _ => rfl)
    (fun _ => rfl) (fun _ => rfl) past handler
  intro past header ht
  rw [MqttMessage.createMessage, MqttHeader.getType, ht]

section Programs

variable {totalCount : Nat} {count : Nat → Nat}

theorem taken_count {ds : List MqttMessage}
    (h : (clientOnMessage totalCount count ds).1 = true) : ¬ count ds.length ≥ totalCount := by
  unfold clientOnMessage at h
  split at h
  · cases h
  · assumption

theorem clientOnMessage_sends {ds : List MqttMessage} {m : MqttMessage}
    (h : m ∈ (clientOnMessage totalCount count ds).2) : m = .pingreq (.new .pingreq) := by
  unfold clientOnMessage at h
  split at h
  · cases h
  · exact List.mem_singleton.mp h

theorem serverOnMessage_sends {ds : List MqttMessage} {m : MqttMessage}
    (h : m ∈ (serverOnMessage ds).2) : m = .pingresp (.new .pingresp) := by
  unfold serverOnMessage at h
  split at h
  · cases h
  · split at h
    · exact List.mem_singleton.mp h
    · cases h
    · cases h

theorem clientOnMessage_one (ds : List MqttMessage) :
    (clientOnMessage totalCount count ds).2.length ≤ 1 := by
  unfold clientOnMessage
  split
  · exact Nat.zero_le 1
  · exact Nat.le_refl 1

/-- Each end sends messages of one type. -/
theorem told_type (side : Side) (ds : List MqttMessage) :
    ∀ m ∈ told totalCount count side ds, m = match side with
      | .left => .pingreq (.new .pingreq)
      | .right => .pingresp (.new .pingresp) := by
  intro m hm
  cases side with
  | left =>
      rcases List.mem_cons.mp hm with hm | hm
      · exact hm
      · obtain ⟨ds', hm⟩ := mem_answers hm
        exact clientOnMessage_sends hm
  | right =>
      obtain ⟨ds', hm⟩ := @mem_answers serverOnMessage _ _ hm
      exact serverOnMessage_sends hm

theorem told_grows (side : Side) {ds ds' : List MqttMessage} (h : ds <+: ds') :
    told totalCount count side ds <+: told totalCount count side ds' := by
  cases side with
  | left => exact (List.prefix_cons_inj _).mpr (answers_grows h)
  | right => exact answers_grows h

/-- A PINGREQ is answered by the server. -/
theorem told_right {ds : List MqttMessage} (h : ∀ m ∈ ds, m.getHeader.getType = .pingreq) :
    told totalCount count .right ds = List.replicate ds.length (.pingresp (.new .pingresp)) := by
  refine @answers_eq_replicate serverOnMessage _ _ ?_
  intro n hn hle
  have hne : ds.take n ≠ [] := by
    intro hnil
    have hlen := congrArg List.length hnil
    rw [List.length_take, Nat.min_eq_left hle, List.length_nil] at hlen
    omega
  have htype := h _ (List.mem_of_mem_take (List.getLast_mem hne))
  rw [serverOnMessage, List.getLast?_eq_some_getLast hne]
  simp only [htype]

/-- A client that has taken every message has answered it. -/
theorem told_left {ds : List MqttMessage}
    (h : MqttClient.Taken (fun ds => (clientOnMessage totalCount count ds).1) ds) :
    told totalCount count .left ds = List.replicate (ds.length + 1) (.pingreq (.new .pingreq)) := by
  rw [List.replicate_succ]
  refine congrArg (List.cons _) (answers_eq_replicate ?_)
  intro n hn hle
  rw [clientOnMessage, if_neg (taken_count (h n hn hle))]

end Programs

/-! ## Every run -/

section Run

variable {totalCount : Nat} {count : Nat → Nat} {past : Side → UInt8}
  {d : Side → End MqttClient Failure}

/-- What a program makes of the bytes that have come in. -/
def Reads (totalCount : Nat) (count : Nat → Nat) (past : Side → UInt8)
    (d : Side → End MqttClient Failure) : Prop :=
  Duplex.Tracks
    (fun side => MqttClient.readLoop (past side)
      (some fun ds => (onMessage totalCount count side ds).1))
    MqttClient.delivered Failure.delivered (fun client => ⟨.error "", client.delivered⟩)
    (fun side ds => (told totalCount count side ds).flatMap MqttMessage.packet) .new d

theorem Reads.run {ls : List (Side × EndLabel)}
    (hrun : Trace.run (pingStep past totalCount count) (fun _ => ⟨0, .ok .new⟩) ls = some d) :
    Reads totalCount count past d := by
  have hrec : ∀ side, Receiver (MqttClient.readLoop (past side)
      (some fun ds => (onMessage totalCount count side ds).1)) MqttClient.delivered
      Failure.delivered MqttClient.Inv := fun _ => MqttClient.readLoop_receiver _ _
  refine (Duplex.tracks_start hrec).run hrec MqttClient.inv_new (fun _ => rfl) ?_ hrun
  intro side ds ds' h
  obtain ⟨more, hmore⟩ := @told_grows totalCount count side _ _ h
  rw [← hmore, List.flatMap_append]
  exact List.prefix_append _ _

/-- What an end has been given was sent by the other one, with its type; and it has
been given all of that, if everything has come in and it goes on. -/
theorem Reads.had (ht : Reads totalCount count past d) (side : Side) :
    ∃ first, first <+: told totalCount count side.other (had d side.other) ∧
      List.Forall₂ (fun m d : MqttMessage => d.getHeader.getType = m.getHeader.getType) first
        (had d side) ∧
      ((∃ client, (d side).receiver = .ok client) →
        (d side).got = ((told totalCount count side.other (Mqtt.had d side.other)).flatMap
          MqttMessage.packet).length →
        first = told totalCount count side.other (Mqtt.had d side.other)) := by
  refine Duplex.Tracks.conveys
    (fun _ => MqttClient.readLoop_receiver _ _) (fun _ (h : MqttClient.Idle _) => h.inv)
    (fun _ => rfl) MqttClient.idle_new rfl (fun _ _ => rfl) ?_ ht side
  intro side ds m hm
  have htype := told_type side.other ds m hm
  cases side with
  | left =>
      obtain rfl : m = .pingresp (.new .pingresp) := htype
      exact (carries_pingresp _ _).carries
  | right =>
      obtain rfl : m = .pingreq (.new .pingreq) := htype
      exact (carries_pingreq _ _).carries

/-- The messages that an end has been given are no more than the other one has sent,
and of its type. -/
theorem Reads.had_type (ht : Reads totalCount count past d) (side : Side) :
    (Mqtt.had d side).length ≤ (told totalCount count side.other (Mqtt.had d side.other)).length ∧
    ∀ m ∈ Mqtt.had d side, m.getHeader.getType = match side with
      | .left => .pingresp
      | .right => .pingreq := by
  obtain ⟨first, hfirst, hsame, -⟩ := ht.had side
  refine ⟨hsame.length_eq ▸ hfirst.length_le, ?_⟩
  intro m hm
  obtain ⟨m', hm', heq⟩ := exists_of_mem_forall₂ hsame hm
  have htold := told_type side.other _ m' (hfirst.subset hm')
  rw [heq, htold]
  cases side <;> rfl

/-- The handler has taken every message that an end has been given, but perhaps the
last one of an end that has stopped. -/
theorem Reads.taken (ht : Reads totalCount count past d) (side : Side) :
    MqttClient.Taken (fun ds => (onMessage totalCount count side ds).1)
      (Mqtt.had d side).dropLast ∧
    ((∃ client, (d side).receiver = .ok client) →
      MqttClient.Taken (fun ds => (onMessage totalCount count side ds).1) (Mqtt.had d side)) := by
  obtain ⟨hok, herr⟩ := @MqttClient.readLoop_taken (past side)
    (fun ds => (onMessage totalCount count side ds).1) .new MqttClient.inv_new
    (fun n hn hle => absurd hle (Nat.not_le.mpr hn))
    ((Duplex.link MqttClient.delivered Failure.delivered d side).come
      fun ds => (told totalCount count side.other ds).flatMap MqttMessage.packet)
  rcases ht side with h | ⟨client, hstop, h⟩
  · have hrec : (d side).receiver = _ := h.receiver_eq
    cases hr : (d side).receiver with
    | ok client =>
        have htaken := hok client (hrec.symm.trans hr)
        have hhad : Mqtt.had d side = client.delivered := by
          rw [Mqtt.had, Duplex.put, hr, outs_ok]
        rw [hhad]
        exact ⟨htaken.dropLast, fun _ => htaken⟩
    | error e =>
        have htaken := herr e (hrec.symm.trans hr)
        have hhad : Mqtt.had d side = e.delivered := by
          rw [Mqtt.had, Duplex.put, hr, outs_error]
        rw [hhad]
        refine ⟨htaken, ?_⟩
        rintro ⟨client, hc⟩
        cases hc
  · have hr : (d side).receiver = _ := hstop
    have htaken := hok client h.receiver_eq.symm
    have hhad : Mqtt.had d side = client.delivered := by
      rw [Mqtt.had, Duplex.put, hr, outs_error]
    rw [hhad, hr]
    refine ⟨htaken.dropLast, ?_⟩
    rintro ⟨client', hc⟩
    cases hc

/-- **The sample programs go in lockstep**, in every run. -/
theorem ping_pong (past : Side → UInt8) (totalCount : Nat) (count : Nat → Nat)
    (ls : List (Side × EndLabel)) (d : Side → End MqttClient Failure)
    (hrun : Trace.run (pingStep past totalCount count) (fun _ => ⟨0, .ok .new⟩) ls = some d) :
    Lockstep totalCount count d := by
  have ht := Reads.run hrun
  obtain ⟨hleft, hresp⟩ := ht.had_type .left
  obtain ⟨hright, hreq⟩ := ht.had_type .right
  have hserver : told totalCount count .right (had d .right) = _ := told_right hreq
  refine ⟨hreq, hresp, ?_, ?_, ?_, ?_⟩
  · rwa [Side.other, hserver, List.length_replicate] at hleft
  · refine hright.trans ?_
    rw [Side.other, told, List.length_cons]
    exact Nat.succ_le_succ (length_answers_le clientOnMessage_one _)
  · intro n hn hlt
    have htaken := (ht.taken .left).1 n hn (by rw [List.length_dropLast]; omega)
    have hcount := taken_count htaken
    rw [List.length_take, List.length_dropLast, Nat.min_eq_left (by omega)] at hcount
    exact Nat.lt_of_not_ge hcount
  · intro hgo
    by_contra hno
    -- everything has come in at both ends
    have hall : ∀ side : Side, (d side).got = ((told totalCount count side.other
        (had d side.other)).flatMap MqttMessage.packet).length := by
      intro side
      refine Nat.le_antisymm ?_ (Nat.le_of_not_lt fun hlt => hno ⟨side, hgo side, hlt⟩)
      rcases ht side with h | ⟨client, -, h⟩
      · exact h.got_le
      · exact h.got_le
    have hsame : ∀ side : Side, (had d side).length
        = (told totalCount count side.other (had d side.other)).length := by
      intro side
      obtain ⟨first, -, hsame, hfirst⟩ := ht.had side
      rw [← hfirst (hgo side) (hall side), hsame.length_eq]
    have hl := hsame .left
    have hr := hsame .right
    rw [Side.other, hserver, List.length_replicate] at hl
    rw [Side.other, told_left ((ht.taken .left).2 (hgo .left)), List.length_replicate] at hr
    omega

/-- Two rounds, the first answer in two reads; the client has counted enough then. -/
theorem ping_pong_two :
    ∃ d, Trace.run (pingStep (fun _ => 0) 2 id) (fun _ => ⟨0, .ok .new⟩)
        [(.right, .read 1024), (.left, .read 1), (.left, .read 1024), (.right, .read 1024),
          (.left, .read 1024)] = some d ∧
      (had d .left).length = 2 ∧ Lockstep 2 id d := by
  have hany : (Trace.run (pingStep (fun _ => 0) 2 id) (fun _ => ⟨0, .ok .new⟩)
      [(.right, .read 1024), (.left, .read 1), (.left, .read 1024), (.right, .read 1024),
        (.left, .read 1024)]).any (fun d => (had d .left).length = 2) := by
    decide +kernel
  obtain ⟨d, hrun, hd⟩ := Trace.run_any hany
  exact ⟨d, hrun, of_decide_eq_true hd, ping_pong (fun _ => 0) 2 id _ d hrun⟩

end Run

end Libnio.Mqtt
