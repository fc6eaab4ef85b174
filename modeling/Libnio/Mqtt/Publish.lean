import Libnio.Mqtt.HeaderFacts

/-!
# Mqtt — PUBLISH

`mqtt_publish`: its setters, `toString`, and the five parsing handlers.
-/

namespace Libnio.Mqtt

open Stream

/-- `MQTT_STAT_HDR_VAR` .. `MQTT_STAT_PAYLOAD` -/
inductive PublishStatus where
  | hdrVar | topicLen | topicVal | pktid | payload
deriving DecidableEq, Repr

structure MqttPublish where
  header : MqttHeader
  pktId : UInt16
  buff : Vector UInt8 2
  dlen : Nat
  status : PublishStatus
  hlenVar : UInt32
  topic : Bytes
  payload : Bytes
  payloadLen : UInt32
  finished : Bool
deriving DecidableEq

/-- What a `std::string` assigned from a `const char*` holds: the characters
before the first NUL. -/
def cString (p : Bytes) : Bytes := p.takeWhile (· ≠ 0)

theorem cString_eq {p : Bytes} (h : 0 ∉ p) : cString p = p := by
  induction p with
  | nil => rfl
  | cons b p ih =>
      have hb : b ≠ 0 := fun hc => h (by simp [hc])
      have hrest := ih fun hm => h (by simp [hm])
      rw [cString] at hrest ⊢
      rw [List.takeWhile_cons, if_pos (decide_eq_true hb), hrest]

namespace MqttPublish

/-- `mqtt_publish()` -/
def new : MqttPublish :=
  { header := MqttHeader.new .publish, pktId := 0, buff := Vector.replicate 2 0,
    dlen := 0, status := .hdrVar, hlenVar := 0, topic := [], payload := [],
    payloadLen := 0, finished := false }

/-- `mqtt_publish(const mqtt_header&)` -/
def ofHeader (header : MqttHeader) : MqttPublish :=
  { header := header.copy, pktId := 0, buff := Vector.replicate 2 0, dlen := 0,
    status := .hdrVar, hlenVar := 0, topic := [], payload := [],
    payloadLen := header.getRemainingLength, finished := false }

def setTopic (m : MqttPublish) (topic : Bytes) : MqttPublish :=
  { m with topic := cString topic }

def setPktId (m : MqttPublish) (id : UInt16) : MqttPublish :=
  if id > 0 then { m with pktId := id } else m

/-- `set_payload(len, data)`; `data` is the memory at the pointer, or NULL. -/
def setPayload (m : MqttPublish) (len : UInt32) (data : Option Bytes) : MqttPublish :=
  let m := { m with payloadLen := len }
  match data with
  | some data => if m.payloadLen > 0 then { m with payload := data.take len.toNat } else m
  | none => m

/-- `out.append(s.c_str(), n)`: the memory at `s.c_str()` ends after the NUL. -/
def appendCStr (s : Bytes) (n : Nat) (out : Bytes) : Except Stop Bytes :=
  if n ≤ s.length + 1 then .ok (out ++ (s ++ [0]).take n) else .error .outOfBounds

/-- `bool to_string(std::string& out)` -/
def toString (m : MqttPublish) (out : Bytes) :
    Except Stop (Bool × MqttPublish × Bytes) := do
  let header := m.header
  let len := UInt32.ofNat m.topic.length + 2 + m.payloadLen
  let qos := header.getQos
  if qos ≠ .qos0 ∧ m.pktId = 0 then
    return (false, m, out)
  let len := if qos ≠ .qos0 then len + 2 else len
  let header := if header.isDup ∧ qos = .qos0 then header.setDup false else header
  let header := header.setRemaingLength len
  let (ok, header, out) := header.buildHeader out
  let m := { m with header }
  if !ok then
    return (false, m, out)
  let out := packAddString m.topic out
  let out := if qos ≠ .qos0 then packAddShort m.pktId out else out
  if m.payloadLen > 0 ∧ m.payload ≠ [] then
    let out ← appendCStr m.payload m.payloadLen.toNat out
    return (true, m, out)
  return (true, m, out)

/-! ## Parsing -/

/-- `buff_[dlen_++] = *data++` -/
def putBuff (m : MqttPublish) (b : UInt8) : Except Stop MqttPublish := do
  let buff ← store m.buff m.dlen b
  return { m with buff, dlen := m.dlen + 1 }

def updateHeaderVar : Handler MqttPublish := fun m data => do
  assertThat (data ≠ [])
  return ({ m with dlen := 0, status := .topicLen }, data)

def topicLenNext (m : MqttPublish) : Except Stop MqttPublish :=
  match unpackShort (m.buff.get 0) (m.buff.get 1) 2 with
  | none => .error (.error "unpack cid len error")
  | some n =>
      if n = 0 then .error (.error "invalid topic len")
      else .ok { m with dlen := n.toNat, hlenVar := n.toUInt32 + 2, status := .topicVal }

def updateTopicLen : Handler MqttPublish :=
  field (fun _ => .ok ()) (fun m => m.dlen < 2) putBuff topicLenNext

/-- `topic_ += *data++; --dlen_;` -/
def putTopic (m : MqttPublish) (b : UInt8) : Except Stop MqttPublish :=
  .ok { m with topic := m.topic ++ [b], dlen := m.dlen - 1 }

def topicValNext (m : MqttPublish) : Except Stop MqttPublish :=
  let m := { m with dlen := 0 }
  if m.header.getQos ≠ .qos0 then .ok { m with status := .pktid }
  else .ok { m with payloadLen := m.payloadLen - m.hlenVar, status := .payload }

def updateTopicVal : Handler MqttPublish :=
  field (fun m => assertThat (m.dlen > 0)) (fun m => m.dlen > 0) putTopic topicValNext

def pktidNext (m : MqttPublish) : Except Stop MqttPublish :=
  match unpackShort (m.buff.get 0) (m.buff.get 1) 2 with
  | none => .error (.error "unpack pkt_id error")
  | some id =>
      let m : MqttPublish := { m with pktId := id, hlenVar := m.hlenVar + 2 }
      if m.payloadLen = 0 then .ok { m with finished := true }
      else if m.payloadLen < m.hlenVar then .error (.error "invalid payload len")
      else
        let m : MqttPublish := { m with payloadLen := m.payloadLen - m.hlenVar }
        if m.payloadLen = 0 then .ok { m with finished := true }
        else .ok { m with status := .payload }

def pktidGuard (m : MqttPublish) : Except Stop Unit :=
  if m.dlen ≥ 2 then .error (.error "invalid pkt id") else .ok ()

def updatePktid : Handler MqttPublish :=
  field pktidGuard (fun m => m.dlen < 2) putBuff pktidNext

/-- The loop of `update_payload` has bytes to take. -/
def payloadMore (m : MqttPublish) : Bool := m.payload.length < m.payloadLen.toNat

/-- `payload_.push_back(*data)` -/
def putPayload (m : MqttPublish) (b : UInt8) : Except Stop MqttPublish :=
  .ok { m with payload := m.payload ++ [b] }

def payloadGuard (m : MqttPublish) : Except Stop Unit :=
  if m.payloadLen.toNat ≤ m.payload.length then .error (.error "finished") else .ok ()

def updatePayload : Handler MqttPublish := fun m data => do
  payloadGuard m
  assertThat (data ≠ [])
  let (m, data) ← eatWhile payloadMore putPayload m data
  if !m.payloadMore then return ({ m with finished := true }, data)
  return (m, data)

def handlers (m : MqttPublish) (data : Bytes) : Except Stop (MqttPublish × Bytes) :=
  match m.status with
  | .hdrVar => updateHeaderVar m data
  | .topicLen => updateTopicLen m data
  | .topicVal => updateTopicVal m data
  | .pktid => updatePktid m data
  | .payload => updatePayload m data

/-- The loop of `update`. -/
def run (m : MqttPublish) (data : Bytes) : Except Stop (MqttPublish × Bytes) :=
  Stream.run .timeout MqttPublish.finished handlers m data

/-- `int update(const char* data, int dlen)` -/
def update (m : MqttPublish) (data : Bytes) : Except Stop (MqttPublish × Bytes) :=
  if data = [] then .error (.error "invalid input") else run m data

/-! ## The parser may be cut anywhere -/

/-- Where each handler may be called. -/
def Inv (m : MqttPublish) : Prop :=
  m.finished = false → match m.status with
    | .hdrVar => True
    | .topicLen => m.dlen < 2
    | .topicVal => m.dlen > 0
    | .pktid => m.dlen < 2
    | .payload => True

/-- Only the header handler takes nothing. -/
def rank (m : MqttPublish) : Nat := if m.status = .hdrVar then 1 else 0

theorem putBuff_eq {m : MqttPublish} (hk : m.dlen < 2) (b : UInt8) :
    putBuff m b = .ok { m with buff := m.buff.set m.dlen b hk, dlen := m.dlen + 1 } := by
  simp [putBuff, store_eq hk]

def payloadNext (m : MqttPublish) : Except Stop MqttPublish :=
  .ok { m with finished := true }

/-- `update_payload` is a field handler: it does not check that the input is
used up when the payload is not complete, but it always is. -/
theorem updatePayload_eq (m : MqttPublish) {data : Bytes} (hd : data ≠ []) :
    updatePayload m data
      = field payloadGuard payloadMore putPayload payloadNext m data := by
  cases hg : payloadGuard m with
  | error e => simp [updatePayload, field, hd, hg]
  | ok u =>
      rcases field_cases payloadGuard payloadMore putPayload payloadNext hd hg with
        ⟨e, he, hf⟩ | ⟨m1, he, hm1, hf⟩ | ⟨m1, rest, he, hm1, hf⟩
      · rw [hf]
        simp [updatePayload, hd, hg, he]
      · rw [hf]
        simp [updatePayload, hd, hg, he, hm1]
      · rw [hf]
        simp [updatePayload, hd, hg, he, hm1, Except.map, payloadNext]

/-- Inside of a field of `buff_`, the invariant of the loop. -/
theorem putBuff_keeps {st : PublishStatus} (s : MqttPublish) (b : UInt8)
    (s' : MqttPublish) (hq : s.status = st ∧ s.finished = false)
    (hm : decide (s.dlen < 2) = true) (hput : putBuff s b = .ok s') :
    s'.status = st ∧ s'.finished = false := by
  rw [putBuff_eq (by simpa using hm)] at hput
  cases hput
  exact hq

theorem topicLenNext_inv {m m' : MqttPublish} (h : topicLenNext m = .ok m') : Inv m' := by
  rw [topicLenNext, unpackShort_two] at h
  simp only at h
  split at h
  · cases h
  · rename_i hn
    cases h
    intro _
    exact Nat.pos_of_ne_zero fun hc => hn (UInt16.toNat_inj.mp hc)

theorem topicValNext_inv {m m' : MqttPublish} (h : topicValNext m = .ok m') : Inv m' := by
  simp only [topicValNext] at h
  split at h <;> cases h <;> intro _
  · exact Nat.zero_lt_two
  · trivial

theorem pktidNext_inv {m m' : MqttPublish} (h : pktidNext m = .ok m') : Inv m' := by
  rw [pktidNext, unpackShort_two] at h
  simp only at h
  split at h
  · cases h
    intro hf
    cases hf
  · split at h
    · cases h
    · split at h <;> cases h <;> intro hf
      · cases hf
      · trivial

theorem publish_resumable : Resumable MqttPublish.finished handlers Inv rank where
  rank_le := by
    intro m
    unfold rank
    split <;> decide
  resumesAt := by
    intro m hi hf
    have hi' := hi hf
    cases hst : m.status with
    | hdrVar =>
        refine .of_skip { m with dlen := 0, status := .topicLen } ?_ ?_ hf ?_
        · intro data hd
          simp [handlers, hst, updateHeaderVar, hd]
        · intro _
          exact Nat.zero_lt_two
        · simp [rank, hst]
    | topicLen =>
        rw [hst] at hi'
        refine field_resumesAt (fun _ => .ok ()) (fun m => m.dlen < 2) putBuff
          topicLenNext (fun m => m.status = .topicLen ∧ m.finished = false)
          ?_ putBuff_keeps ?_ ?_ ⟨hst, hf⟩ (.inl (decide_eq_true hi'))
        · rintro s ⟨hs, -⟩ - data -
          simp only [handlers, hs]
          rfl
        · rintro s ⟨hs, hfs⟩ hm
          refine ⟨rfl, hfs, fun _ => ?_⟩
          rw [hs]
          simpa using hm
        · rintro s s' - - hn
          exact topicLenNext_inv hn
    | topicVal =>
        rw [hst] at hi'
        refine field_resumesAt (fun m => assertThat (m.dlen > 0)) (fun m => m.dlen > 0)
          putTopic topicValNext (fun m => m.status = .topicVal ∧ m.finished = false)
          ?_ ?_ ?_ ?_ ⟨hst, hf⟩ (.inl (decide_eq_true hi'))
        · rintro s ⟨hs, -⟩ - data -
          simp only [handlers, hs]
          rfl
        · rintro s b s' hq - hput
          cases hput
          exact hq
        · rintro s ⟨hs, hfs⟩ hm
          have hpos : s.dlen > 0 := by simpa using hm
          refine ⟨assertThat_true hpos, hfs, fun _ => ?_⟩
          rw [hs]
          exact hpos
        · rintro s s' - - hn
          exact topicValNext_inv hn
    | pktid =>
        rw [hst] at hi'
        refine field_resumesAt pktidGuard (fun m => m.dlen < 2) putBuff
          pktidNext (fun m => m.status = .pktid ∧ m.finished = false)
          ?_ putBuff_keeps ?_ ?_ ⟨hst, hf⟩ (.inl (decide_eq_true hi'))
        · rintro s ⟨hs, -⟩ - data -
          simp only [handlers, hs]
          rfl
        · rintro s ⟨hs, hfs⟩ hm
          have hlt : s.dlen < 2 := by simpa using hm
          refine ⟨if_neg (by omega), hfs, fun _ => ?_⟩
          rw [hs]
          exact hlt
        · rintro s s' - - hn
          exact pktidNext_inv hn
    | payload =>
        refine field_resumesAt payloadGuard payloadMore putPayload payloadNext
          (fun m => m.status = .payload ∧ m.finished = false)
          ?_ ?_ ?_ ?_ ⟨hst, hf⟩ ?_
        · rintro s ⟨hs, -⟩ - data hd
          simp only [handlers, hs]
          exact updatePayload_eq s hd
        · rintro s b s' hq - hput
          cases hput
          exact hq
        · rintro s ⟨hs, hfs⟩ hm
          refine ⟨if_neg ?_, hfs, fun _ => ?_⟩
          · simpa [payloadMore] using hm
          · rw [hs]
            trivial
        · rintro s s' - - hn hc
          cases hn
          cases hc
        · by_cases hg : m.payloadLen.toNat ≤ m.payload.length
          · exact .inr ⟨_, if_pos hg⟩
          · exact .inl (by simpa [payloadMore] using hg)

/-- **The PUBLISH parser may be cut anywhere.** -/
theorem publish_lawful : Lawful MqttPublish.finished run Inv :=
  publish_resumable.lawful

theorem inv_ofHeader (header : MqttHeader) : Inv (ofHeader header) := fun _ => trivial

end MqttPublish

end Libnio.Mqtt
