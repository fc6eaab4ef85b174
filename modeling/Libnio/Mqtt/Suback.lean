import Libnio.Mqtt.Subscribe

/-!
# Mqtt — SUBACK

`mqtt_suback`: a packet id and a list of QoSes, one a byte.
-/

namespace Libnio.Mqtt

open Stream

/-- `MQTT_STAT_HDR_VAR`, `MQTT_STAT_TOPIC_QOS` -/
inductive SubackStatus where
  | hdrVar | topicQos
deriving DecidableEq, Repr

structure MqttSuback where
  header : MqttHeader
  pktId : UInt16
  buff : Vector UInt8 2
  dlen : Nat
  status : SubackStatus
  qoses : List MqttQos
  bodyLen : UInt32
  nread : UInt32
  finished : Bool
deriving DecidableEq

namespace MqttSuback

/-- `mqtt_suback()` -/
def new : MqttSuback :=
  { header := MqttHeader.new .suback, pktId := 0, buff := Vector.replicate 2 0, dlen := 0,
    status := .hdrVar, qoses := [], bodyLen := 0, nread := 0, finished := false }

/-- `mqtt_suback(const mqtt_header&)`: only the length is taken over. -/
def ofHeader (header : MqttHeader) : MqttSuback :=
  { header := MqttHeader.new .suback, pktId := 0, buff := Vector.replicate 2 0, dlen := 0,
    status := .hdrVar, qoses := [], bodyLen := header.getRemainingLength, nread := 0,
    finished := false }

def setPktId (m : MqttSuback) (id : UInt16) : MqttSuback := { m with pktId := id }

/-- `add_topic_qos(mqtt_qos_t)` -/
def addTopicQos (m : MqttSuback) (qos : MqttQos) : MqttSuback :=
  { m with qoses := m.qoses ++ [qos], bodyLen := m.bodyLen + 1 }

/-- `add_topic_qos(const std::vector<mqtt_qos_t>&)` -/
def addTopicQoses (m : MqttSuback) (qoses : List MqttQos) : MqttSuback :=
  qoses.foldl addTopicQos m

/-- The loop of `to_string` over the QoSes. -/
def packQoses : List MqttQos → Bytes → Bytes
  | [], out => out
  | qos :: qoses, out => packQoses qoses (packAddChar qos.code out)

/-- `bool to_string(std::string& out)` -/
def toString (m : MqttSuback) (out : Bytes) : Bool × MqttSuback × Bytes :=
  if m.qoses = [] then (false, m, out)
  else
    let m := { m with bodyLen := m.bodyLen + 2 }
    let header := m.header.setRemaingLength m.bodyLen
    let (ok, header, out) := header.buildHeader out
    let m := { m with header }
    if !ok then (false, m, out)
    else
      let out := packAddShort m.pktId out
      (true, m, packQoses m.qoses out)

/-! ## Parsing -/

def headerVarGuard (m : MqttSuback) : Except Stop Unit :=
  if m.nread ≥ 2 then .error (.error "invalid header var") else .ok ()

/-- `buff_[nread_++] = *data++` -/
def putHeaderVar (m : MqttSuback) (b : UInt8) : Except Stop MqttSuback := do
  let buff ← store m.buff m.nread.toNat b
  return { m with buff, nread := m.nread + 1 }

/-- A packet without QoSes is only warned about. -/
def headerVarNext (m : MqttSuback) : Except Stop MqttSuback :=
  match unpackShort (m.buff.get 0) (m.buff.get 1) 2 with
  | none => .error (.error "unpack pkt id error")
  | some pktId =>
      let m := { m with pktId }
      if m.nread ≥ m.bodyLen then .ok { m with finished := true }
      else .ok { m with dlen := 0, status := .topicQos }

def updateHeaderVar : Handler MqttSuback :=
  field headerVarGuard (fun m => m.nread < 2) putHeaderVar headerVarNext

def updateTopicQos : Handler MqttSuback
  | _, [] => .error .assertion
  | m, b :: data =>
      let m : MqttSuback := { m with nread := m.nread + 1, qoses := m.qoses ++ [decodeQos b] }
      if m.nread ≥ m.bodyLen then .ok ({ m with finished := true }, data)
      else .ok ({ m with dlen := 0, status := .topicQos }, data)

def handlers (m : MqttSuback) (data : Bytes) : Except Stop (MqttSuback × Bytes) :=
  match m.status with
  | .hdrVar => updateHeaderVar m data
  | .topicQos => updateTopicQos m data

/-- The loop of `update`. -/
def run (m : MqttSuback) (data : Bytes) : Except Stop (MqttSuback × Bytes) :=
  Stream.run .timeout MqttSuback.finished handlers m data

/-- `int update(const char* data, int dlen)` -/
def update (m : MqttSuback) (data : Bytes) : Except Stop (MqttSuback × Bytes) :=
  if data = [] then .error (.error "invalid input") else run m data

/-! ## The parser may be cut anywhere -/

/-- The fill counter is in the range its handler relies on. -/
def Inv (m : MqttSuback) : Prop :=
  m.finished = false → match m.status with
    | .hdrVar => m.nread < 2
    | .topicQos => True

theorem putHeaderVar_eq {m : MqttSuback} (hk : m.nread.toNat < 2) (b : UInt8) :
    putHeaderVar m b
      = .ok { m with buff := m.buff.set m.nread.toNat b hk, nread := m.nread + 1 } := by
  simp [putHeaderVar, store_eq hk]

theorem headerVarNext_inv {m m' : MqttSuback} (h : headerVarNext m = .ok m') :
    Inv m' := by
  rw [headerVarNext, unpackShort_two] at h
  simp only at h
  split at h <;> cases h <;> intro hf
  · cases hf
  · trivial

theorem suback_resumable : Resumable MqttSuback.finished handlers Inv (fun _ => 0) where
  rank_le := fun _ => Nat.zero_le _
  resumesAt := by
    intro m hi hf
    have hi' := hi hf
    cases hst : m.status with
    | hdrVar =>
        rw [hst] at hi'
        refine field_resumesAt headerVarGuard (fun m => m.nread < 2) putHeaderVar
          headerVarNext (fun m => m.status = .hdrVar ∧ m.finished = false)
          ?_ ?_ ?_ ?_ ⟨hst, hf⟩ (.inl (decide_eq_true hi'))
        · rintro s ⟨hs, -⟩ - data -
          simp only [handlers, hs]
          rfl
        · rintro s b s' hq hm hput
          rw [putHeaderVar_eq (UInt32.lt_iff_toNat_lt.mp (by simpa using hm))] at hput
          cases hput
          exact hq
        · rintro s ⟨hs, hfs⟩ hm
          have hlt : s.nread < 2 := by simpa using hm
          refine ⟨if_neg (UInt32.not_le.mpr hlt), hfs, fun _ => ?_⟩
          rw [hs]
          exact hlt
        · rintro s s' - - hn
          exact headerVarNext_inv hn
    | topicQos =>
        refine .of_token (f := fun b =>
          (updateTopicQos m [b]).map fun r => r.1) ?_ ?_
        · intro b data
          simp only [handlers, hst, updateTopicQos]
          split <;> rfl
        · intro b s' hb
          simp only [updateTopicQos] at hb
          split at hb <;> cases hb
          · intro hc
            cases hc
          · exact fun _ => trivial

/-- **The SUBACK parser may be cut anywhere.** -/
theorem suback_lawful : Lawful MqttSuback.finished run Inv :=
  suback_resumable.lawful

theorem inv_ofHeader (header : MqttHeader) : Inv (ofHeader header) :=
  fun _ => (by decide : (0 : UInt32) < 2)

end MqttSuback

end Libnio.Mqtt
