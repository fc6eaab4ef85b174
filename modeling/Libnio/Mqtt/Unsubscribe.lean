import Libnio.Mqtt.Publish

/-!
# Mqtt — UNSUBSCRIBE

`mqtt_unsubscribe`: a list of topics. As in `mqtt_subscribe` the end of the
message is found by counting, but the scratch string `topic` keeps its
characters from one topic to the next.
-/

namespace Libnio.Mqtt

open Stream

/-- `MQTT_STAT_HDR_VAR` .. `MQTT_STAT_TOPIC_VAL` -/
inductive UnsubscribeStatus where
  | hdrVar | topicLen | topicVal
deriving DecidableEq, Repr

structure MqttUnsubscribe where
  header : MqttHeader
  pktId : UInt16
  buff : Vector UInt8 2
  dlen : Nat
  status : UnsubscribeStatus
  topics : List Bytes
  bodyLen : UInt32
  nread : UInt32
  topic : Bytes
  finished : Bool
deriving DecidableEq

namespace MqttUnsubscribe

/-- `mqtt_unsubscribe()` -/
def new : MqttUnsubscribe :=
  { header := MqttHeader.new .unsubscribe, pktId := 0, buff := Vector.replicate 2 0,
    dlen := 0, status := .hdrVar, topics := [], bodyLen := 0, nread := 0, topic := [],
    finished := false }

/-- `mqtt_unsubscribe(const mqtt_header&)` -/
def ofHeader (header : MqttHeader) : MqttUnsubscribe :=
  { header := header.copy, pktId := 0, buff := Vector.replicate 2 0, dlen := 0,
    status := .hdrVar, topics := [], bodyLen := header.getRemainingLength, nread := 0,
    topic := [], finished := false }

def setPktId (m : MqttUnsubscribe) (id : UInt16) : MqttUnsubscribe :=
  if id > 0 then { m with pktId := id } else m

/-- `add_topic(const char*)` -/
def addTopic (m : MqttUnsubscribe) (topic : Bytes) : MqttUnsubscribe :=
  { m with topics := m.topics ++ [cString topic],
           bodyLen := m.bodyLen + (2 + UInt32.ofNat (cString topic).length) }

/-- The loop of `to_string` over the topics. -/
def packTopics : List Bytes → Bytes → Bytes
  | [], out => out
  | topic :: topics, out => packTopics topics (packAddString topic out)

/-- `bool to_string(std::string& out)` -/
def toString (m : MqttUnsubscribe) (out : Bytes) : Bool × MqttUnsubscribe × Bytes :=
  if m.topics = [] then (false, m, out)
  else
    let m := { m with bodyLen := m.bodyLen + 2 }
    let header := (m.header.setHeaderFlags 0x02).setRemaingLength m.bodyLen
    let (ok, header, out) := header.buildHeader out
    let m := { m with header }
    if !ok then (false, m, out)
    else
      let out := packAddShort m.pktId out
      (true, m, packTopics m.topics out)

/-! ## Parsing -/

def headerVarGuard (m : MqttUnsubscribe) : Except Stop Unit :=
  if m.nread ≥ 2 then .error (.error "invalid header var") else .ok ()

/-- `buff_[nread_++] = *data++` -/
def putHeaderVar (m : MqttUnsubscribe) (b : UInt8) : Except Stop MqttUnsubscribe := do
  let buff ← store m.buff m.nread.toNat b
  return { m with buff, nread := m.nread + 1 }

def headerVarNext (m : MqttUnsubscribe) : Except Stop MqttUnsubscribe :=
  match unpackShort (m.buff.get 0) (m.buff.get 1) 2 with
  | none => .error (.error "unpack pkt id error")
  | some pktId =>
      let m := { m with pktId }
      if m.nread ≥ m.bodyLen then .error (.error "no payload!")
      else .ok { m with dlen := 0, status := .topicLen }

def updateHeaderVar : Handler MqttUnsubscribe :=
  field headerVarGuard (fun m => m.nread < 2) putHeaderVar headerVarNext

/-- `buff_[dlen_++] = *data++; nread_++;` -/
def putTopicLen (m : MqttUnsubscribe) (b : UInt8) : Except Stop MqttUnsubscribe := do
  let buff ← store m.buff m.dlen b
  return { m with buff, dlen := m.dlen + 1, nread := m.nread + 1 }

def topicLenNext (m : MqttUnsubscribe) : Except Stop MqttUnsubscribe :=
  match unpackShort (m.buff.get 0) (m.buff.get 1) 2 with
  | none => .error (.error "unpack cid len error")
  | some n =>
      if n = 0 then .error (.error "invalid topic len")
      else if m.nread ≥ m.bodyLen then .error (.error "overflow")
      else .ok { m with dlen := n.toNat, status := .topicVal }

def updateTopicLen : Handler MqttUnsubscribe :=
  field (fun _ => .ok ()) (fun m => m.dlen < 2) putTopicLen topicLenNext

/-- `topic_ += *data++; --dlen_;` -/
def putTopic (m : MqttUnsubscribe) (b : UInt8) : Except Stop MqttUnsubscribe :=
  .ok { m with topic := m.topic ++ [b], dlen := m.dlen - 1 }

/-- `topic_` is pushed and counted as it is, and not cleared. -/
def topicValNext (m : MqttUnsubscribe) : Except Stop MqttUnsubscribe :=
  let m : MqttUnsubscribe :=
    { m with nread := m.nread + UInt32.ofNat m.topic.length,
             topics := m.topics ++ [m.topic] }
  if m.nread ≥ m.bodyLen then .ok { m with finished := true }
  else .ok { m with dlen := 0, status := .topicLen }

def updateTopicVal : Handler MqttUnsubscribe :=
  field (fun m => assertThat (m.dlen > 0)) (fun m => m.dlen > 0) putTopic topicValNext

def handlers (m : MqttUnsubscribe) (data : Bytes) :
    Except Stop (MqttUnsubscribe × Bytes) :=
  match m.status with
  | .hdrVar => updateHeaderVar m data
  | .topicLen => updateTopicLen m data
  | .topicVal => updateTopicVal m data

/-- The loop of `update`. -/
def run (m : MqttUnsubscribe) (data : Bytes) : Except Stop (MqttUnsubscribe × Bytes) :=
  Stream.run .timeout MqttUnsubscribe.finished handlers m data

/-- `int update(const char* data, int dlen)` -/
def update (m : MqttUnsubscribe) (data : Bytes) :
    Except Stop (MqttUnsubscribe × Bytes) :=
  if data = [] then .error (.error "invalid input") else run m data

/-! ## The parser may be cut anywhere -/

/-- The fill counter is in the range its handler relies on. -/
def Inv (m : MqttUnsubscribe) : Prop :=
  m.finished = false → match m.status with
    | .hdrVar => m.nread < 2
    | .topicLen => m.dlen < 2
    | .topicVal => m.dlen > 0

theorem putHeaderVar_eq {m : MqttUnsubscribe} (hk : m.nread.toNat < 2) (b : UInt8) :
    putHeaderVar m b
      = .ok { m with buff := m.buff.set m.nread.toNat b hk, nread := m.nread + 1 } := by
  simp [putHeaderVar, store_eq hk]

theorem putTopicLen_eq {m : MqttUnsubscribe} (hk : m.dlen < 2) (b : UInt8) :
    putTopicLen m b = .ok { m with buff := m.buff.set m.dlen b hk, dlen := m.dlen + 1,
                                   nread := m.nread + 1 } := by
  simp [putTopicLen, store_eq hk]

theorem headerVarNext_inv {m m' : MqttUnsubscribe} (h : headerVarNext m = .ok m') :
    Inv m' := by
  rw [headerVarNext, unpackShort_two] at h
  simp only at h
  split at h <;> cases h
  exact fun _ => Nat.zero_lt_two

theorem topicLenNext_inv {m m' : MqttUnsubscribe} (h : topicLenNext m = .ok m') :
    Inv m' := by
  rw [topicLenNext, unpackShort_two] at h
  simp only at h
  split at h
  · cases h
  · rename_i hn
    split at h <;> cases h
    intro _
    exact Nat.pos_of_ne_zero fun hc => hn (UInt16.toNat_inj.mp hc)

theorem topicValNext_inv {m m' : MqttUnsubscribe} (h : topicValNext m = .ok m') :
    Inv m' := by
  simp only [topicValNext] at h
  split at h <;> cases h <;> intro hf
  · cases hf
  · exact Nat.zero_lt_two

theorem unsubscribe_resumable :
    Resumable MqttUnsubscribe.finished handlers Inv (fun _ => 0) where
  rank_le := fun _ => Nat.zero_le _
  resumesAt := by
    intro m hi hf
    have hi' := hi hf
    cases hst : m.status with
    | hdrVar =>
        rw [hst] at hi'
        refine field_resumesAt headerVarGuard (fun m => m.nread < 2) putHeaderVar
          headerVarNext (fun m => m.status = .hdrVar ∧ m.finished = false)
          ?_ ?_ ?_ ?_ ⟨hst, hf⟩ (.inl (decide_eq_true hi'))
        · rintro s ⟨hs, -⟩ - data -
          simp only [handlers, hs]
          rfl
        · rintro s b s' hq hm hput
          rw [putHeaderVar_eq (UInt32.lt_iff_toNat_lt.mp (by simpa using hm))] at hput
          cases hput
          exact hq
        · rintro s ⟨hs, hfs⟩ hm
          have hlt : s.nread < 2 := by simpa using hm
          refine ⟨if_neg (UInt32.not_le.mpr hlt), hfs, fun _ => ?_⟩
          rw [hs]
          exact hlt
        · rintro s s' - - hn
          exact headerVarNext_inv hn
    | topicLen =>
        rw [hst] at hi'
        refine field_resumesAt (fun _ => .ok ()) (fun m => m.dlen < 2) putTopicLen
          topicLenNext (fun m => m.status = .topicLen ∧ m.finished = false)
          ?_ ?_ ?_ ?_ ⟨hst, hf⟩ (.inl (decide_eq_true hi'))
        · rintro s ⟨hs, -⟩ - data -
          simp only [handlers, hs]
          rfl
        · rintro s b s' hq hm hput
          rw [putTopicLen_eq (by simpa using hm)] at hput
          cases hput
          exact hq
        · rintro s ⟨hs, hfs⟩ hm
          refine ⟨rfl, hfs, fun _ => ?_⟩
          rw [hs]
          simpa using hm
        · rintro s s' - - hn
          exact topicLenNext_inv hn
    | topicVal =>
        rw [hst] at hi'
        refine field_resumesAt (fun m => assertThat (m.dlen > 0)) (fun m => m.dlen > 0)
          putTopic topicValNext (fun m => m.status = .topicVal ∧ m.finished = false)
          ?_ ?_ ?_ ?_ ⟨hst, hf⟩ (.inl (decide_eq_true hi'))
        · rintro s ⟨hs, -⟩ - data -
          simp only [handlers, hs]
          rfl
        · rintro s b s' hq - hput
          cases hput
          exact hq
        · rintro s ⟨hs, hfs⟩ hm
          have hpos : s.dlen > 0 := by simpa using hm
          refine ⟨assertThat_true hpos, hfs, fun _ => ?_⟩
          rw [hs]
          exact hpos
        · rintro s s' - - hn
          exact topicValNext_inv hn

/-- **The UNSUBSCRIBE parser may be cut anywhere.** -/
theorem unsubscribe_lawful : Lawful MqttUnsubscribe.finished run Inv :=
  unsubscribe_resumable.lawful

theorem inv_ofHeader (header : MqttHeader) : Inv (ofHeader header) :=
  fun _ => (by decide : (0 : UInt32) < 2)

end MqttUnsubscribe

end Libnio.Mqtt
