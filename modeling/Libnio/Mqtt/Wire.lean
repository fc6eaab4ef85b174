import Libnio.Stream.Grammar
import Libnio.Mqtt.HeaderFacts

/-!
# Mqtt — what the bytes of a stream announce

The fixed headers of a stream and, for each message type, the grammar of the
bytes after it: which lengths its parser goes by. Nothing here runs a parser.
`layout` is what MQTT says of the same bytes, and `LengthsFit` that the lengths
inside of a body end where the body does. `WellFramed` walks along a stream
from packet to packet: the lengths inside every body agree with the remaining
length in front of it.
-/

namespace Libnio.Mqtt

open Stream

abbrev BodyGrammar := Grammar UInt8

namespace Wire

/-! ## Bodies -/

/-- The number in the two bytes of a length. -/
def shortOf (xs : Bytes) : Nat := short (xs.getD 0 0) (xs.getD 1 0)

/-- `n` bytes of any value. -/
def skip (n : Nat) (next : BodyGrammar) : BodyGrammar :=
  if n = 0 then next else .read n fun _ => next

/-- A string with its length in front. -/
def string (next : BodyGrammar) : BodyGrammar :=
  .read 2 fun xs => skip (shortOf xs) next

/-- CONNACK, PUBACK, PUBREC, PUBREL, PUBCOMP, UNSUBACK -/
def twoBytes : BodyGrammar := .read 2 fun _ => .done

/-- PINGREQ, PINGRESP, DISCONNECT -/
def noBytes : BodyGrammar := .done

def connectPasswd (flags : UInt8) : BodyGrammar :=
  if flags &&& 0x40 ≠ 0 then string .done else .done

def connectUsername (flags : UInt8) : BodyGrammar :=
  if flags &&& 0x80 ≠ 0 then string (connectPasswd flags) else connectPasswd flags

/-- An empty will topic is refused, with the byte after its length. -/
def connectWill (flags : UInt8) : BodyGrammar :=
  if flags &&& 0x04 ≠ 0 then
    .read 2 fun xs =>
      if shortOf xs = 0 then .stuck
      else .read (shortOf xs) fun _ => string (connectUsername flags)
  else connectUsername flags

/-- The remaining length has no part in it. -/
def connectBody : BodyGrammar :=
  .read 10 fun xs => string (connectWill (xs.getD 7 0))

/-- What follows a topic of `n` bytes when there is no packet id. The payload
is what `len` leaves, in 32 bits. -/
def publishRest (len n : Nat) : BodyGrammar :=
  if (4294967296 - (n + 2) + len) % 4294967296 = 0 then .stuck
  else .read ((4294967296 - (n + 2) + len) % 4294967296) fun _ => .done

/-- What follows a topic of `n` bytes when there is a packet id. -/
def publishIdRest (len n : Nat) : BodyGrammar :=
  .read 2 fun _ =>
    if len = 0 then .done
    else if len < n + 4 then .fail
    else skip (len - (n + 4)) .done

def publishBody (qos : MqttQos) (len : Nat) : BodyGrammar :=
  .read 2 fun xs =>
    if shortOf xs = 0 then .fail
    else .read (shortOf xs) fun _ =>
      if qos ≠ .qos0 then publishIdRest len (shortOf xs) else publishRest len (shortOf xs)

/-- Topics with a QoS, `k` bytes into a body of `len` bytes. -/
def subscribeEntries (len k : Nat) : BodyGrammar :=
  .read 2 fun xs =>
    if shortOf xs = 0 then .fail
    else if len ≤ k + 2 then .fail
    else .read (shortOf xs) fun _ => .read 1 fun _ =>
      if len ≤ k + shortOf xs + 3 then .done else subscribeEntries len (k + shortOf xs + 3)
termination_by len - k

def subscribeBody (len : Nat) : BodyGrammar :=
  .read 2 fun _ => if len ≤ 2 then .fail else subscribeEntries len 2

/-- Topics, of which `past` bytes came before; they are counted again with each
further topic, so that `k` is more than what was read from the second one on. -/
def unsubscribeEntries (len k past : Nat) : BodyGrammar :=
  .read 2 fun xs =>
    if shortOf xs = 0 then .fail
    else if len ≤ k + 2 then .fail
    else .read (shortOf xs) fun _ =>
      if len ≤ k + 2 + (past + shortOf xs) then .done
      else unsubscribeEntries len (k + 2 + (past + shortOf xs)) (past + shortOf xs)
termination_by len - k

def unsubscribeBody (len : Nat) : BodyGrammar :=
  .read 2 fun _ => if len ≤ 2 then .fail else unsubscribeEntries len 2 0

/-- QoSes, `k` bytes into a body of `len` bytes. -/
def subackQoses (len k : Nat) : BodyGrammar :=
  .read 1 fun _ => if len ≤ k + 1 then .done else subackQoses len (k + 1)
termination_by len - k

def subackBody (len : Nat) : BodyGrammar :=
  .read 2 fun _ => if len ≤ 2 then .done else subackQoses len 2

/-- The body that a fixed header announces. -/
def body (header : MqttHeader) : BodyGrammar :=
  match header.getType with
  | .connect => connectBody
  | .connack | .puback | .pubrec | .pubrel | .pubcomp | .unsuback => twoBytes
  | .publish => publishBody header.getQos header.getRemainingLength.toNat
  | .subscribe => subscribeBody header.getRemainingLength.toNat
  | .suback => subackBody header.getRemainingLength.toNat
  | .unsubscribe => unsubscribeBody header.getRemainingLength.toNat
  | .pingreq | .pingresp | .disconnect => noBytes
  | .reservedMin | .reservedMax => .fail

/-! ## Layouts -/

/-- Protocol name, level, flags and keep alive, and the strings that the flags
announce. -/
def connectLayout : BodyGrammar :=
  string <| .read 4 fun xs =>
    string <|
      if xs.getD 1 0 &&& 0x04 ≠ 0 then string (string (connectUsername (xs.getD 1 0)))
      else connectUsername (xs.getD 1 0)

/-- What is left of `len` bytes behind `k` of them. -/
def payloadLayout (len k : Nat) : BodyGrammar := if k ≤ len then skip (len - k) .done else .fail

def publishLayout (qos : MqttQos) (len : Nat) : BodyGrammar :=
  .read 2 fun xs => skip (shortOf xs) <|
    if qos ≠ .qos0 then .read 2 fun _ => payloadLayout len (shortOf xs + 4)
    else payloadLayout len (shortOf xs + 2)

/-- Topics, each with `extra` bytes behind it, `k` bytes into a body of `len`. -/
def topicsLayout (extra len k : Nat) : BodyGrammar :=
  if len ≤ k then .done
  else .read 2 fun xs =>
    skip (shortOf xs + extra) (topicsLayout extra len (k + 2 + (shortOf xs + extra)))
termination_by len - k

/-- The fields of the body that a fixed header announces, with the lengths that
are written in it. -/
def layout (header : MqttHeader) : BodyGrammar :=
  match header.getType with
  | .connect => connectLayout
  | .connack | .puback | .pubrec | .pubrel | .pubcomp | .unsuback => twoBytes
  | .publish => publishLayout header.getQos header.getRemainingLength.toNat
  | .subscribe => .read 2 fun _ => topicsLayout 1 header.getRemainingLength.toNat 2
  | .suback => .read 2 fun _ => payloadLayout header.getRemainingLength.toNat 2
  | .unsubscribe => .read 2 fun _ => topicsLayout 0 header.getRemainingLength.toNat 2
  | .pingreq | .pingresp | .disconnect => noBytes
  | .reservedMin | .reservedMax => .fail

/-- The fields of a body end where the body does. -/
def LengthsFit (header : MqttHeader) (body : Bytes) : Prop := (layout header).ends body = true

instance (header : MqttHeader) (body : Bytes) : Decidable (LengthsFit header body) :=
  inferInstanceAs (Decidable (_ = true))

/-! ## Streams -/

/-- The fixed header in a type byte and the digits of a length. -/
def announced (b : UInt8) (ds : Bytes) : MqttHeader :=
  { MqttHeader.new (MqttType.ofCode (typeNibble b)) with
    hflags := flagNibble b, dlen := UInt32.ofNat (Base128.decode ds) }

/-- The fixed header at the front of a stream, and what follows it. -/
def fixedHeader : Bytes → Option (MqttHeader × Bytes)
  | [] => none
  | b :: xs =>
      if ValidType b then (Base128.split 4 xs).map fun r => (announced b r.1, r.2) else none

theorem fixedHeader_eq_some {stream rest : Bytes} {header : MqttHeader} :
    fixedHeader stream = some (header, rest) ↔
      ∃ b ds, stream = b :: (ds ++ rest) ∧ ValidType b ∧ Base128.Digits ds ∧ ds.length ≤ 4
        ∧ header = announced b ds := by
  cases stream with
  | nil => simp [fixedHeader]
  | cons b xs =>
      rw [fixedHeader]
      constructor
      · intro h
        split at h
        · rename_i hv
          cases hs : Base128.split 4 xs with
          | none => simp [hs] at h
          | some r =>
              obtain ⟨ds, rest'⟩ := r
              simp only [hs, Option.map_some, Option.some.injEq, Prod.mk.injEq] at h
              obtain ⟨rfl, rfl⟩ := h
              obtain ⟨rfl, hd, hl⟩ := Base128.split_eq_some.mp hs
              exact ⟨b, ds, rfl, hv, hd, hl, rfl⟩
        · cases h
      · rintro ⟨b', ds, hx, hv, hd, hl, rfl⟩
        simp only [List.cons.injEq] at hx
        obtain ⟨rfl, rfl⟩ := hx
        rw [if_pos hv, Base128.split_eq_some.mpr ⟨rfl, hd, hl⟩]
        rfl

/-- Behind its fixed header a packet agrees with its remaining length: the lengths
that its parser goes by do, as far as the bytes are there, and in a body that is
there as a whole and is not refused the fields end where the body does. -/
structure Agrees (header : MqttHeader) (rest : Bytes) : Prop where
  fits : (body header).Fits 0 header.getRemainingLength.toNat rest
  whole : header.getRemainingLength.toNat ≤ rest.length →
    (body header).takes (rest.take header.getRemainingLength.toNat) = true →
    LengthsFit header (rest.take header.getRemainingLength.toNat)

end Wire

end Libnio.Mqtt
