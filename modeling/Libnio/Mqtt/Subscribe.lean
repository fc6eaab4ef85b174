import Libnio.Mqtt.Publish

/-!
# Mqtt — SUBSCRIBE

`mqtt_subscribe`: a list of topics with a QoS each. The end of the message
is found by counting the bytes read (`nread`) against the remaining length
of the header (`bodyLen`).
-/

namespace Libnio.Mqtt

open Stream

/-- `MQTT_STAT_HDR_VAR` .. `MQTT_STAT_TOPIC_QOS` -/
inductive SubscribeStatus where
  | hdrVar | topicLen | topicVal | topicQos
deriving DecidableEq, Repr

structure MqttSubscribe where
  header : MqttHeader
  pktId : UInt16
  buff : Vector UInt8 2
  dlen : Nat
  status : SubscribeStatus
  topics : List Bytes
  qoses : List MqttQos
  bodyLen : UInt32
  nread : UInt32
  topic : Bytes
  finished : Bool
deriving DecidableEq

/-- `int qos = *data` and the cast `(mqtt_qos_t) qos` after the range test: the
plain `char` is signed, and what is not 0, 1 or 2 becomes QoS 0. -/
def decodeQos (b : UInt8) : MqttQos :=
  let qos := b.toInt8.toInt
  if qos < 0 ∨ qos > 0x80 ∨ qos > 2 then .qos0
  else if qos = 1 then .qos1
  else if qos = 2 then .qos2
  else .qos0

theorem decodeQos_code (q : MqttQos) : decodeQos q.code = q := by
  cases q <;> decide

namespace MqttSubscribe

/-- `mqtt_subscribe()` -/
def new : MqttSubscribe :=
  { header := MqttHeader.new .subscribe, pktId := 0, buff := Vector.replicate 2 0,
    dlen := 0, status := .hdrVar, topics := [], qoses := [], bodyLen := 0, nread := 0,
    topic := [], finished := false }

/-- `mqtt_subscribe(const mqtt_header&)`: only the length is taken over. -/
def ofHeader (header : MqttHeader) : MqttSubscribe :=
  { header := MqttHeader.new .subscribe, pktId := 0, buff := Vector.replicate 2 0,
    dlen := 0, status := .hdrVar, topics := [], qoses := [],
    bodyLen := header.getRemainingLength, nread := 0, topic := [], finished := false }

def setPktId (m : MqttSubscribe) (id : UInt16) : MqttSubscribe :=
  if id > 0 then { m with pktId := id } else m

def addTopic (m : MqttSubscribe) (topic : Bytes) (qos : MqttQos) : MqttSubscribe :=
  { m with topics := m.topics ++ [cString topic],
           qoses := m.qoses ++ [qos],
           bodyLen := m.bodyLen + (2 + UInt32.ofNat (cString topic).length + 1) }

/-- The loop of `to_string` over topics and QoSes. -/
def packTopics : List Bytes → List MqttQos → Bytes → Bytes
  | topic :: topics, qos :: qoses, out =>
      packTopics topics qoses (packAddChar qos.code (packAddString topic out))
  | _, _, out => out

/-- `bool to_string(std::string& out)` -/
def toString (m : MqttSubscribe) (out : Bytes) : Bool × MqttSubscribe × Bytes :=
  if m.topics = [] then (false, m, out)
  else
    let m := { m with bodyLen := m.bodyLen + 2 }
    let header := (m.header.setHeaderFlags 0x02).setRemaingLength m.bodyLen
    let (ok, header, out) := header.buildHeader out
    let m := { m with header }
    if !ok then (false, m, out)
    else
      let out := packAddShort m.pktId out
      (true, m, packTopics m.topics m.qoses out)

/-! ## Parsing -/

def headerVarGuard (m : MqttSubscribe) : Except Stop Unit :=
  if m.nread ≥ 2 then .error (.error "invalid header var") else .ok ()

/-- `buff_[nread_++] = *data++` -/
def putHeaderVar (m : MqttSubscribe) (b : UInt8) : Except Stop MqttSubscribe := do
  let buff ← store m.buff m.nread.toNat b
  return { m with buff, nread := m.nread + 1 }

def headerVarNext (m : MqttSubscribe) : Except Stop MqttSubscribe :=
  match unpackShort (m.buff.get 0) (m.buff.get 1) 2 with
  | none => .error (.error "unpack pkt id error")
  | some pktId =>
      let m := { m with pktId }
      if m.nread ≥ m.bodyLen then .error (.error "no payload!")
      else .ok { m with dlen := 0, status := .topicLen }

def updateHeaderVar : Handler MqttSubscribe :=
  field headerVarGuard (fun m => m.nread < 2) putHeaderVar headerVarNext

/-- `buff_[dlen_++] = *data++; nread_++;` -/
def putTopicLen (m : MqttSubscribe) (b : UInt8) : Except Stop MqttSubscribe := do
  let buff ← store m.buff m.dlen b
  return { m with buff, dlen := m.dlen + 1, nread := m.nread + 1 }

def topicLenNext (m : MqttSubscribe) : Except Stop MqttSubscribe :=
  match unpackShort (m.buff.get 0) (m.buff.get 1) 2 with
  | none => .error (.error "unpack cid len error")
  | some n =>
      if n = 0 then .error (.error "invalid topic len")
      else if m.nread ≥ m.bodyLen then .error (.error "overflow")
      else .ok { m with dlen := n.toNat, status := .topicVal }

def updateTopicLen : Handler MqttSubscribe :=
  field (fun _ => .ok ()) (fun m => m.dlen < 2) putTopicLen topicLenNext

/-- `topic_ += *data++; --dlen_;` -/
def putTopic (m : MqttSubscribe) (b : UInt8) : Except Stop MqttSubscribe :=
  .ok { m with topic := m.topic ++ [b], dlen := m.dlen - 1 }

def topicValNext (m : MqttSubscribe) : Except Stop MqttSubscribe :=
  .ok { m with nread := m.nread + UInt32.ofNat m.topic.length, dlen := 0,
               status := .topicQos }

def updateTopicVal : Handler MqttSubscribe :=
  field (fun m => assertThat (m.dlen > 0)) (fun m => m.dlen > 0) putTopic topicValNext

def updateTopicQos : Handler MqttSubscribe
  | _, [] => .error .assertion
  | m, b :: data =>
      if m.topic = [] then .error (.error "no topic got")
      else
        let m : MqttSubscribe :=
          { m with nread := m.nread + 1, topics := m.topics ++ [m.topic], topic := [],
                   qoses := m.qoses ++ [decodeQos b] }
        if m.nread ≥ m.bodyLen then .ok ({ m with finished := true }, data)
        else .ok ({ m with dlen := 0, status := .topicLen }, data)

def handlers (m : MqttSubscribe) (data : Bytes) :
    Except Stop (MqttSubscribe × Bytes) :=
  match m.status with
  | .hdrVar => updateHeaderVar m data
  | .topicLen => updateTopicLen m data
  | .topicVal => updateTopicVal m data
  | .topicQos => updateTopicQos m data

/-- The loop of `update`. -/
def run (m : MqttSubscribe) (data : Bytes) : Except Stop (MqttSubscribe × Bytes) :=
  Stream.run .timeout MqttSubscribe.finished handlers m data

/-- `int update(const char* data, int dlen)` -/
def update (m : MqttSubscribe) (data : Bytes) : Except Stop (MqttSubscribe × Bytes) :=
  if data = [] then .error (.error "invalid input") else run m data

/-! ## The parser may be cut anywhere -/

/-- The fill counter is in the range its handler relies on. -/
def Inv (m : MqttSubscribe) : Prop :=
  m.finished = false → match m.status with
    | .hdrVar => m.nread < 2
    | .topicLen => m.dlen < 2
    | .topicVal => m.dlen > 0
    | .topicQos => True

theorem putHeaderVar_eq {m : MqttSubscribe} (hk : m.nread.toNat < 2) (b : UInt8) :
    putHeaderVar m b
      = .ok { m with buff := m.buff.set m.nread.toNat b hk, nread := m.nread + 1 } := by
  simp [putHeaderVar, store_eq hk]

theorem putTopicLen_eq {m : MqttSubscribe} (hk : m.dlen < 2) (b : UInt8) :
    putTopicLen m b = .ok { m with buff := m.buff.set m.dlen b hk, dlen := m.dlen + 1,
                                   nread := m.nread + 1 } := by
  simp [putTopicLen, store_eq hk]

theorem headerVarNext_inv {m m' : MqttSubscribe} (h : headerVarNext m = .ok m') :
    Inv m' := by
  rw [headerVarNext, unpackShort_two] at h
  simp only at h
  split at h <;> cases h
  exact fun _ => Nat.zero_lt_two

theorem topicLenNext_inv {m m' : MqttSubscribe} (h : topicLenNext m = .ok m') :
    Inv m' := by
  rw [topicLenNext, unpackShort_two] at h
  simp only at h
  split at h
  · cases h
  · rename_i hn
    split at h <;> cases h
    intro _
    exact Nat.pos_of_ne_zero fun hc => hn (UInt16.toNat_inj.mp hc)

theorem subscribe_resumable :
    Resumable MqttSubscribe.finished handlers Inv (fun _ => 0) where
  rank_le := fun _ => Nat.zero_le _
  resumesAt := by
    intro m hi hf
    have hi' := hi hf
    cases hst : m.status with
    | hdrVar =>
        rw [hst] at hi'
        refine field_resumesAt headerVarGuard (fun m => m.nread < 2) putHeaderVar
          headerVarNext (fun m => m.status = .hdrVar ∧ m.finished = false)
          ?_ ?_ ?_ ?_ ⟨hst, hf⟩ (.inl (decide_eq_true hi'))
        · rintro s ⟨hs, -⟩ - data -
          simp only [handlers, hs]
          rfl
        · rintro s b s' hq hm hput
          rw [putHeaderVar_eq (UInt32.lt_iff_toNat_lt.mp (by simpa using hm))] at hput
          cases hput
          exact hq
        · rintro s ⟨hs, hfs⟩ hm
          have hlt : s.nread < 2 := by simpa using hm
          refine ⟨if_neg (UInt32.not_le.mpr hlt), hfs, fun _ => ?_⟩
          rw [hs]
          exact hlt
        · rintro s s' - - hn
          exact headerVarNext_inv hn
    | topicLen =>
        rw [hst] at hi'
        refine field_resumesAt (fun _ => .ok ()) (fun m => m.dlen < 2) putTopicLen
          topicLenNext (fun m => m.status = .topicLen ∧ m.finished = false)
          ?_ ?_ ?_ ?_ ⟨hst, hf⟩ (.inl (decide_eq_true hi'))
        · rintro s ⟨hs, -⟩ - data -
          simp only [handlers, hs]
          rfl
        · rintro s b s' hq hm hput
          rw [putTopicLen_eq (by simpa using hm)] at hput
          cases hput
          exact hq
        · rintro s ⟨hs, hfs⟩ hm
          refine ⟨rfl, hfs, fun _ => ?_⟩
          rw [hs]
          simpa using hm
        · rintro s s' - - hn
          exact topicLenNext_inv hn
    | topicVal =>
        rw [hst] at hi'
        refine field_resumesAt (fun m => assertThat (m.dlen > 0)) (fun m => m.dlen > 0)
          putTopic topicValNext (fun m => m.status = .topicVal ∧ m.finished = false)
          ?_ ?_ ?_ ?_ ⟨hst, hf⟩ (.inl (decide_eq_true hi'))
        · rintro s ⟨hs, -⟩ - data -
          simp only [handlers, hs]
          rfl
        · rintro s b s' hq - hput
          cases hput
          exact hq
        · rintro s ⟨hs, hfs⟩ hm
          have hpos : s.dlen > 0 := by simpa using hm
          refine ⟨assertThat_true hpos, hfs, fun _ => ?_⟩
          rw [hs]
          exact hpos
        · rintro s s' - - hn _
          cases hn
          trivial
    | topicQos =>
        refine .of_token (f := fun b =>
          (updateTopicQos m [b]).map fun r => r.1) ?_ ?_
        · intro b data
          simp only [handlers, hst, updateTopicQos]
          split
          · rfl
          · split <;> rfl
        · intro b s' hb
          simp only [updateTopicQos] at hb
          split at hb
          · cases hb
          · split at hb <;> cases hb
            · intro hc
              cases hc
            · exact fun _ => Nat.zero_lt_two

/-- **The SUBSCRIBE parser may be cut anywhere.** -/
theorem subscribe_lawful : Lawful MqttSubscribe.finished run Inv :=
  subscribe_resumable.lawful

theorem inv_ofHeader (header : MqttHeader) : Inv (ofHeader header) :=
  fun _ => (by decide : (0 : UInt32) < 2)

end MqttSubscribe

end Libnio.Mqtt
