import Libnio.Mqtt.Base
import Libnio.Stream.Base128

/-!
# Mqtt — the fixed header

`mqtt_header`: the type and flags of a packet and the length of its body,
built by `buildHeader` and parsed a byte at a time by `update`.
-/

namespace Libnio.Mqtt

open Stream

/-- `mqtt_type_t` -/
inductive MqttType where
  | reservedMin | connect | connack | publish | puback | pubrec | pubrel
  | pubcomp | subscribe | suback | unsubscribe | unsuback | pingreq
  | pingresp | disconnect | reservedMax
deriving DecidableEq, Repr

def MqttType.code : MqttType → UInt8
  | reservedMin => 0
  | connect => 1
  | connack => 2
  | publish => 3
  | puback => 4
  | pubrec => 5
  | pubrel => 6
  | pubcomp => 7
  | subscribe => 8
  | suback => 9
  | unsubscribe => 10
  | unsuback => 11
  | pingreq => 12
  | pingresp => 13
  | disconnect => 14
  | reservedMax => 15

/-- The cast `(mqtt_type_t) type` -/
def MqttType.ofCode : UInt8 → MqttType
  | 0 => reservedMin
  | 1 => connect
  | 2 => connack
  | 3 => publish
  | 4 => puback
  | 5 => pubrec
  | 6 => pubrel
  | 7 => pubcomp
  | 8 => subscribe
  | 9 => suback
  | 10 => unsubscribe
  | 11 => unsuback
  | 12 => pingreq
  | 13 => pingresp
  | 14 => disconnect
  | _ => reservedMax

/-- `mqtt_qos_t` -/
inductive MqttQos where
  | qos0 | qos1 | qos2
deriving DecidableEq, Repr

def MqttQos.code : MqttQos → UInt8
  | qos0 => 0
  | qos1 => 1
  | qos2 => 2

/-- `MQTT_STAT_HDR_TYPE`, `MQTT_STAT_HDR_LEN` -/
inductive HeaderStatus where
  | hdrType | hdrLen
deriving DecidableEq, Repr

structure MqttHeader where
  hbuf : Vector UInt8 4
  hlen : Nat
  dlen : UInt32
  status : HeaderStatus
  type : MqttType
  hflags : BitVec 4
  finished : Bool
deriving DecidableEq

namespace MqttHeader

/-- `mqtt_header(mqtt_type_t)`. The buffer starts with whatever the memory
held; it is never read before it is written. -/
def new (type : MqttType) : MqttHeader :=
  { hbuf := Vector.replicate 4 0, hlen := 0, dlen := 0, status := .hdrType,
    type, hflags := 0, finished := false }

def getType (h : MqttHeader) : MqttType := h.type

def getHeaderFlags (h : MqttHeader) : BitVec 4 := h.hflags

def getRemainingLength (h : MqttHeader) : UInt32 := h.dlen

/-- `mqtt_header(const mqtt_header&)`: the parsing state is not copied. -/
def copy (header : MqttHeader) : MqttHeader :=
  { hbuf := Vector.replicate 4 0, hlen := 0, status := .hdrType, finished := false,
    type := header.getType, hflags := header.getHeaderFlags,
    dlen := header.getRemainingLength }

def reset (h : MqttHeader) : MqttHeader :=
  { h with status := .hdrType, finished := false, type := .reservedMin, hflags := 0,
           dlen := 0, hlen := 0 }

def setHeaderFlags (h : MqttHeader) (flags : UInt8) : MqttHeader :=
  { h with hflags := (flags &&& 0x0f).toBitVec.setWidth 4 }

/-- `set_remaing_length` -/
def setRemaingLength (h : MqttHeader) (len : UInt32) : MqttHeader :=
  { h with dlen := len }

def setQos (h : MqttHeader) (qos : MqttQos) : MqttHeader :=
  let hflags := h.hflags &&& ~~~((1#4 <<< 2) ||| (1#4 <<< 1))
  match qos with
  | .qos1 => { h with hflags := hflags ||| (1 <<< 1) }
  | .qos2 => { h with hflags := hflags ||| (1 <<< 2) }
  | .qos0 => { h with hflags }

def setDup (h : MqttHeader) (yes : Bool) : MqttHeader :=
  if yes then { h with hflags := h.hflags ||| (1 <<< 3) }
  else { h with hflags := h.hflags &&& ~~~(1#4 <<< 3) }

def setRemain (h : MqttHeader) (yes : Bool) : MqttHeader :=
  if yes then { h with hflags := h.hflags ||| 0x01 }
  else { h with hflags := h.hflags &&& ~~~0x01#4 }

/-- Bits 1 and 2 of the flags; the reserved value 3 counts as QoS 0. -/
def getQos (h : MqttHeader) : MqttQos :=
  if (h.hflags >>> 1) &&& 0x03 = 1 then .qos1
  else if (h.hflags >>> 1) &&& 0x03 = 2 then .qos2
  else .qos0

def isDup (h : MqttHeader) : Bool := h.hflags &&& 0x08 ≠ 0

def isRemain (h : MqttHeader) : Bool := h.hflags &&& 0x01 ≠ 0

/-- A header with these flags. -/
def flagged (flags : BitVec 4) : MqttHeader := { new .publish with hflags := flags }

/-- Each of the three setters stores what it is given, and leaves the other two fields
as they were. -/
@[simp] theorem setQos_flags (h : MqttHeader) (qos : MqttQos) :
    (h.setQos qos).getQos = qos ∧ (h.setQos qos).isDup = h.isDup
      ∧ (h.setQos qos).isRemain = h.isRemain := by
  have hbits : ∀ f, ((flagged f).setQos qos).getQos = qos
      ∧ ((flagged f).setQos qos).isDup = (flagged f).isDup
      ∧ ((flagged f).setQos qos).isRemain = (flagged f).isRemain := by
    cases qos <;> decide +kernel
  cases qos <;> exact hbits h.hflags

@[simp] theorem setDup_flags (h : MqttHeader) (yes : Bool) :
    (h.setDup yes).getQos = h.getQos ∧ (h.setDup yes).isDup = yes
      ∧ (h.setDup yes).isRemain = h.isRemain := by
  have hbits : ∀ f, ((flagged f).setDup yes).getQos = (flagged f).getQos
      ∧ ((flagged f).setDup yes).isDup = yes
      ∧ ((flagged f).setDup yes).isRemain = (flagged f).isRemain := by
    cases yes <;> decide +kernel
  cases yes <;> exact hbits h.hflags

@[simp] theorem setRemain_flags (h : MqttHeader) (yes : Bool) :
    (h.setRemain yes).getQos = h.getQos ∧ (h.setRemain yes).isDup = h.isDup
      ∧ (h.setRemain yes).isRemain = yes := by
  have hbits : ∀ f, ((flagged f).setRemain yes).getQos = (flagged f).getQos
      ∧ ((flagged f).setRemain yes).isDup = (flagged f).isDup
      ∧ ((flagged f).setRemain yes).isRemain = yes := by
    cases yes <;> decide +kernel
  cases yes <;> exact hbits h.hflags

/-- `(((char) type_ << 4) & 0xff) | hflags_` -/
def firstByte (type : MqttType) (hflags : BitVec 4) : UInt8 :=
  ((type.code <<< 4) &&& 0xff) ||| UInt8.ofBitVec (hflags.setWidth 8)

/-- `bool build_header(std::string& out)` -/
def buildHeader (h : MqttHeader) (out : Bytes) : Bool × MqttHeader × Bytes :=
  let flags := h.getHeaderFlags
  let h := { h with hflags := h.hflags ||| (flags &&& 0x0f) }
  let first := firstByte h.type h.hflags
  let dlen := h.dlen
  if dlen < 128 then
    (true, h, out ++ [first, (dlen &&& 0x7f).toUInt8])
  else if dlen < 16384 then
    (true, h, out ++ [first,
      (dlen.toUInt8 &&& 0x7f) ||| 0x80,
      (dlen >>> 7).toUInt8 &&& 0x7f])
  else if dlen < 2097152 then
    (true, h, out ++ [first,
      (dlen.toUInt8 &&& 0x7f) ||| 0x80,
      ((dlen >>> 7).toUInt8 &&& 0x7f) ||| 0x80,
      (dlen >>> 14).toUInt8 &&& 0x7f])
  else if dlen < 268435456 then
    (true, h, out ++ [first,
      (dlen.toUInt8 &&& 0x7f) ||| 0x80,
      ((dlen >>> 7).toUInt8 &&& 0x7f) ||| 0x80,
      ((dlen >>> 14).toUInt8 &&& 0x7f) ||| 0x80,
      (dlen >>> 21).toUInt8 &&& 0x7f])
  else (false, h, out)

/-! ## Parsing -/

def updateHeaderType : Handler MqttHeader
  | _, [] => .error .assertion
  | h, ch :: data =>
      let type := (ch &&& 0xff) >>> 4
      if type ≤ MqttType.reservedMin.code ∨ type ≥ MqttType.reservedMax.code then
        .error (.error "")
      else
        .ok ({ h with type := MqttType.ofCode type,
                      hflags := (ch &&& 0x0f).toBitVec.setWidth 4,
                      status := .hdrLen, hlen := 0 }, data)

/-- `hbuf_[hlen_++] = *data++` -/
def putLen (h : MqttHeader) (b : UInt8) : Except Stop MqttHeader := do
  let hbuf ← store h.hbuf h.hlen b
  return { h with hbuf, hlen := h.hlen + 1 }

/-- The loop of `update_header_len`, which ends early after a byte with bit 7
clear. -/
def eatLen : Handler MqttHeader
  | h, [] => .ok (h, [])
  | h, b :: data =>
      if h.hlen < 4 then do
        let h ← putLen h b
        if b &&& 0x80 = 0 then return (h, data)
        eatLen h data
      else .ok (h, b :: data)

/-- The loop over `hbuf_[0..n)` that assembles `dlen_`. -/
def lenValue (hbuf : Vector UInt8 4) : Nat → UInt32
  | 0 => 0
  | i + 1 => lenValue hbuf i
      ||| (((hbuf.getD i 0) &&& 0x7f).toUInt32 <<< UInt32.ofNat (7 * i))

def updateHeaderLen : Handler MqttHeader := fun h data => do
  assertThat (data ≠ [])
  if h.hlen ≥ 4 then throw (.error "invalid header len")
  let (h, data) ← eatLen h data
  assertThat (h.hlen > 0 ∧ h.hlen ≤ 4)
  let last ← load h.hbuf (h.hlen - 1)
  if last &&& 0x80 ≠ 0 then
    if h.hlen = 4 then throw (.error "invalid header len")
    assertThat (data = [])
    return (h, data)
  return ({ h with dlen := lenValue h.hbuf h.hlen, finished := true }, data)

def handlers (h : MqttHeader) (data : Bytes) : Except Stop (MqttHeader × Bytes) :=
  match h.status with
  | .hdrType => updateHeaderType h data
  | .hdrLen => updateHeaderLen h data

/-- The loop of `update`. -/
def run (h : MqttHeader) (data : Bytes) : Except Stop (MqttHeader × Bytes) :=
  Stream.run .timeout MqttHeader.finished handlers h data

/-- `int update(const char* data, int dlen)` -/
def update (h : MqttHeader) (data : Bytes) : Except Stop (MqttHeader × Bytes) :=
  if data = [] then .error (.error "invalid input") else run h data

end MqttHeader

end Libnio.Mqtt
