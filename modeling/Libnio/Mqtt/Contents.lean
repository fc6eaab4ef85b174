import Libnio.Mqtt.AckFacts
import Libnio.Mqtt.ConnectFacts
import Libnio.Mqtt.Delivery
import Libnio.Mqtt.PublishFacts
import Libnio.Mqtt.SubscribeFacts
import Libnio.Mqtt.UnsubscribeFacts

/-!
# Mqtt — what a message says

`contents` is what the getters of a message tell an application, as far as a packet
carries it, and `Sendable` is said of the messages that an application makes with the
constructors and the setters. `Sendable.carried`: what `to_string` makes of such a
message comes out of a client as one message with the same contents.
-/

namespace Libnio.Mqtt

open Stream

/-- What a message says. A packet has no will without both of its parts, no packet id
and no dup flag with QoS 0, and of a CONNECT the will QoS and the keep-alive time are
not received as they were set. -/
inductive Contents where
  | connect (cid username passwd willTopic willMsg : Bytes) (session : Bool)
  | connack (session : Bool) (code : UInt8)
  | publish (topic payload : Bytes) (qos : MqttQos) (remain dup : Bool) (pktId : Option UInt16)
  | ack (kind : AckKind) (pktId : UInt16)
  | subscribe (pktId : UInt16) (topics : List Bytes) (qoses : List MqttQos)
  | suback (pktId : UInt16) (qoses : List MqttQos)
  | unsubscribe (pktId : UInt16) (topics : List Bytes)
  | pingreq
  | pingresp
  | disconnect
deriving DecidableEq

/-! ## The contents of each class -/

def MqttConnect.contents (m : MqttConnect) : Contents :=
  .connect m.cid m.username m.passwd
    (if m.willTopic ≠ [] ∧ m.willMsg ≠ [] then m.willTopic else [])
    (if m.willTopic ≠ [] ∧ m.willMsg ≠ [] then m.willMsg else []) m.hasSession

/-- `get_payload_len()` bytes of `get_payload()` -/
def MqttPublish.contents (m : MqttPublish) : Contents :=
  .publish m.topic (m.payload.take m.payloadLen.toNat) m.header.getQos m.header.isRemain
    (m.header.isDup && m.header.getQos != .qos0)
    (if m.header.getQos = .qos0 then none else some m.pktId)

namespace MqttMessage

def contents : MqttMessage → Contents
  | connect m => m.contents
  | connack m => .connack m.session m.connackCode
  | publish m => m.contents
  | puback m => .ack .puback m.pktId
  | pubrec m => .ack .pubrec m.pktId
  | pubrel m => .ack .pubrel m.pktId
  | pubcomp m => .ack .pubcomp m.pktId
  | subscribe m => .subscribe m.pktId m.topics m.qoses
  | suback m => .suback m.pktId m.qoses
  | unsubscribe m => .unsubscribe m.pktId m.topics
  | unsuback m => .ack .unsuback m.pktId
  | pingreq _ => .pingreq
  | pingresp _ => .pingresp
  | disconnect _ => .disconnect

theorem contents_ack (kind : AckKind) (m : MqttAck) :
    (kind.message m).contents = .ack kind m.pktId := by
  cases kind <;> rfl

/-- **A message that an application makes**: with what each packet can announce, a
PUBLISH that is not empty with QoS 0, a CONNACK without the session flag, and an
UNSUBSCRIBE of one topic. -/
inductive Sendable : MqttMessage → Prop where
  | connect {past : UInt8} {setters : List MqttConnect.Setter}
      (h : (MqttConnect.build past setters).Sendable) :
      Sendable (.connect (MqttConnect.build past setters))
  | connack (code : UInt8) : Sendable (.connack (MqttConnack.new.setConnackCode code))
  | publish {setters : List MqttPublish.Setter} (h : MqttPublish.Sendable setters)
      (hp : ¬ ((MqttPublish.build setters).header.getQos = .qos0 ∧
        MqttPublish.given setters = [])) :
      Sendable (.publish (MqttPublish.build setters))
  | ack (kind : AckKind) (id : UInt16) : Sendable (kind.message (kind.new.setPktId id))
  | subscribe (id : UInt16) {pairs : List (Bytes × MqttQos)} (hne : pairs ≠ [])
      (hp : ∀ p ∈ pairs, 0 ∉ p.1 ∧ p.1 ≠ [] ∧ p.1.length ≤ 65535)
      (hn : 2 + MqttSubscribe.total pairs < 268435456) :
      Sendable (.subscribe (MqttSubscribe.build id pairs))
  | suback (id : UInt16) {qoses : List MqttQos} (hne : qoses ≠ [])
      (hn : 2 + qoses.length < 268435456) : Sendable (.suback (MqttSuback.build id qoses))
  | unsubscribe (id : UInt16) {topic : Bytes} (h : MqttUnsubscribe.Sendable [topic]) :
      Sendable (.unsubscribe (MqttUnsubscribe.build id [topic]))
  | pingreq : Sendable (.pingreq (.new .pingreq))
  | pingresp : Sendable (.pingresp (.new .pingresp))
  | disconnect : Sendable (.disconnect (.new .disconnect))

/-- `to_string` makes a packet of the message, and a client takes it as one message
with these contents. -/
def Conveyed (m : MqttMessage) : Prop :=
  ∃ m' packet, m.toString [] = .ok (true, m', packet) ∧ packet ≠ [] ∧
    ∀ (past : UInt8) (handler : List MqttMessage → Bool),
      MqttClient.Carried past handler packet fun d => d.contents = m.contents

/-- What `Conveyed` takes of a message that is written with this first byte. -/
theorem conveyed_of {m m' : MqttMessage} {t : MqttType} {f : BitVec 4} {n : Nat} {body : Bytes}
    (h0 : t ≠ .reservedMin) (h1 : t ≠ .reservedMax) (hn : n < 268435456)
    (htext : m.toString []
      = .ok (true, m', MqttHeader.firstByte t f :: (Base128.encode n ++ body)))
    (hrun : ∀ (past : UInt8) (header : MqttHeader), header.type = t → header.hflags = f →
      header.dlen = UInt32.ofNat n → ∃ m0 d, createMessage past header = some m0 ∧
        m0.run body = .ok (d, []) ∧ d.finished = true ∧ d.contents = m.contents) :
    m.Conveyed :=
  ⟨m', _, htext, List.cons_ne_nil _ _, fun past handler =>
    MqttClient.carried_built past handler h0 h1 hn (hrun past)⟩

/-! ## What each class writes is received -/

theorem conveyed_connect {past : UInt8} {setters : List MqttConnect.Setter}
    (h : (MqttConnect.build past setters).Sendable) :
    Conveyed (.connect (MqttConnect.build past setters)) := by
  obtain ⟨hh, hc⟩ := MqttConnect.build_facts past setters
  generalize MqttConnect.build past setters = m at *
  obtain ⟨hw, hu, hp, hsess⟩ := MqttConnect.wireFlags_bits hc
  have hlt := h.remaining_lt
  obtain ⟨m', htext⟩ := MqttConnect.toString_eq hh h []
  have hwrite := congrArg (fun r => Except.ok (ε := Stop) (written connect r)) htext
  refine conveyed_of (m := .connect m) (by decide) (by decide) (by omega) hwrite ?_
  · intro past' header ht _ _
    obtain ⟨d, hd, hrun⟩ := MqttConnect.run_body past' header m.keepAlive h.cid_le h.willTopic_le
      h.willMsg_le h.username_le h.passwd_le hw hu hp
    have hrun := hrun []
    rw [List.append_nil] at hrun
    refine ⟨.connect (.ofHeader past' header), .connect d, ?_, ?_, hd.finished, ?_⟩
    · rw [createMessage, MqttHeader.getType, ht]
    · rw [run, hrun]
      rfl
    · have hs : d.hasSession = m.hasSession := by
        rw [MqttConnect.hasSession, MqttConnect.hasSession, hd.connFlags_eq, hsess]
      rw [contents, contents, MqttConnect.contents, MqttConnect.contents, hd.cid_eq,
        hd.username_eq, hd.passwd_eq, hd.willTopic_eq, hd.willMsg_eq, hs]
      by_cases hwill : m.willTopic ≠ [] ∧ m.willMsg ≠ []
      · simp only [if_pos hwill]
      · simp only [if_neg hwill, ne_eq, not_true_eq_false, false_and, if_false]

theorem conveyed_connack (code : UInt8) :
    Conveyed (.connack (MqttConnack.new.setConnackCode code)) := by
  have hwrite := congrArg (fun r => Except.ok (ε := Stop) (written connack r))
    (MqttConnack.toString_eq (MqttConnack.new.setConnackCode code) [])
  refine conveyed_of (m := .connack _) (t := .connack) (by decide) (by decide) (by decide)
    hwrite ?_
  · intro past header ht _ _
    have hrun := MqttConnack.run_two header 0 code []
    refine ⟨.connack (.ofHeader header), _, ?_, congrArg (lift connack) hrun, rfl, rfl⟩
    rw [createMessage, MqttHeader.getType, ht]

theorem conveyed_publish {setters : List MqttPublish.Setter} (h : MqttPublish.Sendable setters)
    (hp : ¬ ((MqttPublish.build setters).header.getQos = .qos0 ∧
      MqttPublish.given setters = [])) :
    Conveyed (.publish (MqttPublish.build setters)) := by
  have htext := h.toString_eq rfl []
  have hlt := h.length_lt
  obtain ⟨-, hlen, hpay⟩ := MqttPublish.build_facts setters
  have hshort := short_length h.topic_le
  have h0 := h.topic_ne
  generalize MqttPublish.build setters = m at *
  generalize MqttPublish.given setters = payload at *
  obtain ⟨n, hn⟩ : ∃ n, n = (MqttPublish.wireBody m.topic m.header.getQos m.pktId payload).length :=
    ⟨_, rfl⟩
  rw [← hn] at htext hlt
  have hwb := MqttPublish.length_wireBody m.topic m.header.getQos m.pktId payload
  obtain ⟨-, hqos, hremain, hdup⟩ := MqttPublish.wireHeader_facts m n
  -- of the payload that was given, what the getters return
  have hgiven : m.payload.take m.payloadLen.toNat = payload := by
    rw [hlen, UInt32.toNat_ofNat', Nat.mod_eq_of_lt (by omega)]
    by_cases hnil : payload = []
    · rw [hnil, List.length_nil, List.take_zero]
    · rw [hpay (by omega) hnil, List.take_length]
  have hwrite := congrArg (Except.map (written publish)) htext
  refine conveyed_of (m := .publish m) (by decide) (by decide) hlt hwrite ?_
  · intro past header ht hflags hdlen
    have hq : header.getQos = m.header.getQos := (MqttPublish.getQos_hflags hflags).trans hqos
    have hbody : MqttPublish.wireBody m.topic m.header.getQos m.pktId payload
        = msb (UInt16.ofNat m.topic.length) :: lsb (UInt16.ofNat m.topic.length) ::
          (m.topic ++ ((if header.getQos ≠ .qos0 then [msb m.pktId, lsb m.pktId] else [])
            ++ (payload ++ []))) := by
      simp [MqttPublish.wireBody, hq]
    obtain ⟨d, hd, hrun⟩ := MqttPublish.run_body header (msb (UInt16.ofNat m.topic.length))
      (lsb (UInt16.ofNat m.topic.length)) (msb m.pktId) (lsb m.pktId) h0 hshort payload
      (by rw [hdlen, hq, UInt32.toNat_ofNat']; omega)
      (fun hc hpay => hp ⟨hq ▸ hc, hpay⟩)
    have hdflags : d.header.hflags = (MqttPublish.wireHeader m n).hflags := by
      rw [hd.header_eq]
      exact hflags
    refine ⟨.publish (.ofHeader header), .publish d, ?_, ?_, hd.finished, ?_⟩
    · rw [createMessage, MqttHeader.getType, ht]
    · rw [run, hbody, hrun []]
      rfl
    · have hqd : d.header.getQos = m.header.getQos := by
        rw [hd.header_eq]
        exact hq
      have hrd : d.header.isRemain = m.header.isRemain := by
        rw [← hremain, MqttHeader.isRemain, MqttHeader.isRemain, hdflags]
      have hdd : d.header.isDup = (m.header.isDup && m.header.getQos != .qos0) := by
        rw [← hdup, MqttHeader.isDup, MqttHeader.isDup, hdflags]
      have hpd : d.payload.take d.payloadLen.toNat = payload := by
        rw [hd.payloadLen_eq, hd.payload_eq, List.take_length]
      rw [contents, contents, MqttPublish.contents, MqttPublish.contents, hd.topic_eq, hpd,
        hgiven, hqd, hrd, hdd, Bool.and_assoc, Bool.and_self]
      congr 1
      split
      · rfl
      · rename_i hq0
        rw [hd.pktId_eq (hq.symm ▸ hq0), short_msb_lsb, UInt16.ofNat_toNat]

theorem conveyed_ack (kind : AckKind) (id : UInt16) :
    Conveyed (kind.message (kind.new.setPktId id)) := by
  have hnew : kind.new.pktId = 0 := by cases kind <;> rfl
  obtain ⟨m', htext⟩ := Acknowledgement.ack_toString kind id []
  refine conveyed_of (by cases kind <;> decide) (by cases kind <;> decide) (by decide) htext ?_
  intro past header ht hf _
  obtain ⟨-, -, hl', hfin'⟩ := kind.ofHeader_facts hf
  have hrun := MqttAck.run_two hl' hfin' (msb id) (lsb id) []
  rw [short_msb_lsb, UInt16.ofNat_toNat] at hrun
  refine ⟨_, _, kind.createMessage_eq past ht, kind.message_run hrun, ?_, ?_⟩
  · rw [AckKind.message_finished]
  · rw [contents_ack, contents_ack, MqttAck.setPktId_eq hnew]

theorem conveyed_subscribe (id : UInt16) {pairs : List (Bytes × MqttQos)} (hne : pairs ≠ [])
    (hp : ∀ p ∈ pairs, 0 ∉ p.1 ∧ p.1 ≠ [] ∧ p.1.length ≤ 65535)
    (hn : 2 + MqttSubscribe.total pairs < 268435456) :
    Conveyed (.subscribe (MqttSubscribe.build id pairs)) := by
  obtain ⟨m', htext⟩ := MqttSubscribe.toString_build id hne hp hn []
  have hwrite := congrArg (fun r => Except.ok (ε := Stop) (written subscribe r)) htext
  refine conveyed_of (m := .subscribe _) (by decide) (by decide) hn hwrite ?_
  · intro past header ht _ hdlen
    have hd : header.dlen.toNat = 2 + MqttSubscribe.total pairs := by
      rw [hdlen, UInt32.toNat_ofNat']
      omega
    have hat := MqttSubscribe.atEntry_afterPktId header (msb id) (lsb id)
    rw [hd] at hat
    obtain ⟨m, hf, htop, hq, hid, hrun⟩ := MqttSubscribe.run_entries hat hn hne
      (fun p hm => (hp p hm).2) rfl
    have hpos : 0 < MqttSubscribe.total pairs := by
      obtain ⟨p, pairs, rfl⟩ := List.exists_cons_of_ne_nil hne
      simp [MqttSubscribe.total]
    have hrun := hrun []
    rw [List.append_nil] at hrun
    refine ⟨.subscribe (.ofHeader header), .subscribe m, ?_, ?_, hf, ?_⟩
    · rw [createMessage, MqttHeader.getType, ht]
    · rw [run, MqttSubscribe.run_pktId, if_neg (by rw [hd]; omega), hrun]
      rfl
    · rw [contents, contents, MqttSubscribe.build_eq id fun p hm => (hp p hm).1, hid, htop, hq,
        MqttSubscribe.afterPktId, short_msb_lsb, UInt16.ofNat_toNat]
      rfl

theorem conveyed_suback (id : UInt16) {qoses : List MqttQos} (hne : qoses ≠ [])
    (hn : 2 + qoses.length < 268435456) : Conveyed (.suback (MqttSuback.build id qoses)) := by
  obtain ⟨m', htext⟩ := MqttSuback.toString_build id hne hn []
  have hwrite := congrArg (fun r => Except.ok (ε := Stop) (written suback r)) htext
  refine conveyed_of (m := .suback _) (by decide) (by decide) hn hwrite ?_
  · intro past header ht _ hdlen
    have hd : header.dlen.toNat = 2 + qoses.length := by
      rw [hdlen, UInt32.toNat_ofNat']
      omega
    have hat := MqttSuback.atQos_afterPktId header (msb id) (lsb id)
    rw [hd] at hat
    obtain ⟨m, hf, hq, hid, hrun⟩ := MqttSuback.run_qoses hat hn
      (show qoses.map MqttQos.code ≠ [] by simpa using hne) (by simp)
    have hpos := List.length_pos_iff.mpr hne
    have hrun := hrun []
    rw [List.append_nil] at hrun
    refine ⟨.suback (.ofHeader header), .suback m, ?_, ?_, hf, ?_⟩
    · rw [createMessage, MqttHeader.getType, ht]
    · rw [run, MqttSuback.run_pktId, if_neg (by rw [hd]; omega), hrun]
      rfl
    · have hqoses : m.qoses = qoses := by
        rw [hq]
        simp [MqttSuback.afterPktId, MqttSuback.ofHeader, Function.comp_def, decodeQos_code]
      rw [contents, contents, hid, hqoses, MqttSuback.build, MqttSuback.foldl_addTopicQos,
        MqttSuback.afterPktId, short_msb_lsb, UInt16.ofNat_toNat]
      rfl

theorem conveyed_unsubscribe (id : UInt16) {topic : Bytes}
    (h : MqttUnsubscribe.Sendable [topic]) :
    Conveyed (.unsubscribe (MqttUnsubscribe.build id [topic])) := by
  obtain ⟨m', htext⟩ := MqttUnsubscribe.toString_build id h []
  have hn := h.length_lt
  obtain ⟨-, h0, hl⟩ := h.topic_ok topic List.mem_cons_self
  have hpos := List.length_pos_iff.mpr h0
  have htot : MqttUnsubscribe.total [topic] = topic.length + 2 := by
    simp [MqttUnsubscribe.total]
  rw [htot] at hn
  have hwrite := congrArg (fun r => Except.ok (ε := Stop) (written unsubscribe r)) htext
  refine conveyed_of (m := .unsubscribe _) (by decide) (by decide) h.length_lt hwrite ?_
  · intro past header ht _ hdlen
    have hd : header.dlen.toNat = 2 + (topic.length + 2) := by
      rw [hdlen, htot, UInt32.toNat_ofNat']
      omega
    have hat := MqttUnsubscribe.atEntry_afterPktId header (msb id) (lsb id)
    rw [hd] at hat
    obtain ⟨m, htop, hid, hrun⟩ := MqttUnsubscribe.run_entry hat hn (by omega) (Nat.zero_le _) h0
      (short_length hl)
    have hk : 2 + 2 + ([] ++ topic : Bytes).length = 4 + topic.length := by simp
    rw [hk, if_pos (by omega)] at hrun
    have hrest := hrun.2 []
    rw [List.append_nil] at hrest
    refine ⟨.unsubscribe (.ofHeader header), .unsubscribe m, ?_, ?_, hrun.1, ?_⟩
    · rw [createMessage, MqttHeader.getType, ht]
    · rw [run, MqttUnsubscribe.run_pktId, if_neg (by omega), List.flatMap_singleton,
        MqttUnsubscribe.entry, hrest]
      rfl
    · rw [contents, contents, MqttUnsubscribe.build_eq id fun t hm => (h.topic_ok t hm).1, hid,
        htop, MqttUnsubscribe.afterPktId, short_msb_lsb, UInt16.ofNat_toNat]
      rfl

/-- What `to_string` makes of a message without a body. -/
theorem bare_toString (t : MqttType) :
    (MqttBare.new t).toString [] = (true, ⟨(MqttHeader.new t).setRemaingLength 0⟩,
      MqttHeader.firstByte t 0 :: (Base128.encode 0 ++ [])) := by
  rw [MqttBare.toString, MqttBare.new, MqttHeader.buildHeader_of
    (h := (MqttHeader.new t).setRemaingLength 0) (n := 0) rfl (by decide) [], List.append_nil]
  rfl

/-- A message without a body. -/
theorem conveyed_bare {t : MqttType} (h0 : t ≠ .reservedMin) (h1 : t ≠ .reservedMax)
    {e : MqttBare → MqttMessage} {tells : Contents}
    (htext : ∀ m out, (e m).toString out = .ok (written e (m.toString out)))
    (hcreate : ∀ (past : UInt8) (header : MqttHeader), header.type = t →
      createMessage past header = some (e (.ofHeader header)))
    (hrun : ∀ m data, (e m).run data = lift e (m.update data))
    (hfin : ∀ m, (e m).finished = true) (htells : ∀ m, (e m).contents = tells) :
    Conveyed (e (.new t)) := by
  have hwrite := htext (.new t) []
  rw [bare_toString] at hwrite
  refine conveyed_of (m := e (.new t)) h0 h1 (by decide) hwrite ?_
  · intro past header ht _ _
    exact ⟨_, e (.ofHeader header), hcreate past header ht, hrun _ [], hfin _,
      (htells _).trans (htells _).symm⟩

/-- **What is sent is received**: every message that an application makes comes out
of a client with the contents it was given. -/
theorem Sendable.conveyed {m : MqttMessage} (h : m.Sendable) : m.Conveyed := by
  cases h with
  | connect h => exact conveyed_connect h
  | connack code => exact conveyed_connack code
  | publish h hp => exact conveyed_publish h hp
  | ack kind id => exact conveyed_ack kind id
  | subscribe id hne hp hn => exact conveyed_subscribe id hne hp hn
  | suback id hne hn => exact conveyed_suback id hne hn
  | unsubscribe id h => exact conveyed_unsubscribe id h
  | pingreq =>
      refine conveyed_bare (e := .pingreq) (by decide) (by decide) (fun _ _ => rfl) ?_
        (fun _ _ => rfl) (fun _ => rfl) (fun _ => rfl)
      intro past header ht
      rw [createMessage, MqttHeader.getType, ht]
  | pingresp =>
      refine conveyed_bare (e := .pingresp) (by decide) (by decide) (fun _ _ => rfl) ?_
        (fun _ _ => rfl) (fun _ => rfl) (fun _ => rfl)
      intro past header ht
      rw [createMessage, MqttHeader.getType, ht]
  | disconnect =>
      refine conveyed_bare (e := .disconnect) (by decide) (by decide) (fun _ _ => rfl) ?_
        (fun _ _ => rfl) (fun _ => rfl) (fun _ => rfl)
      intro past header ht
      rw [createMessage, MqttHeader.getType, ht]

end MqttMessage

end Libnio.Mqtt
