import Libnio.Mqtt.HeaderGrammar
import Libnio.Mqtt.Message

/-!
# Mqtt — acknowledgements there and back

PUBACK, PUBREC, PUBREL, PUBCOMP, UNSUBACK and CONNACK are built, encoded, cut
into reads and parsed by the message that `create_message` makes of their
header. `acks_roundTrip_iff`: every getter gives the same on both sides, but
for the session flag of a CONNACK.
-/

namespace Libnio.Mqtt

open Stream

/-! ## Receiving a message of any type -/

namespace MqttMessage

/-- Feed reads to the header until it is finished, and what is left of them to
the message made from it. -/
def receive (past : UInt8) (h : MqttHeader) (reads : List Bytes) :
    Except Stop (MqttHeader × MqttMessage × List Bytes) := do
  let (header, reads) ← feed MqttHeader.finished MqttHeader.update h reads
  match createMessage past header with
  | none => throw (.error "unknown mqtt type")
  | some m =>
      let (m, reads) ← feed finished update m reads
      return (header, m, reads)

/-- **Rule for receiving**: it is enough to run the message of a header that
announces the packet over the body. -/
theorem receive_built {past : UInt8} {h : MqttHeader} (hh : h.Ready) {t : MqttType}
    (h0 : t ≠ .reservedMin) (h1 : t ≠ .reservedMax) {f : BitVec 4} {n : Nat}
    (hn : n < 268435456) {body rest : Bytes} {reads : List Bytes}
    (hr : ∀ data ∈ reads, data ≠ [])
    (hflat : reads.flatten
      = MqttHeader.firstByte t f :: (Base128.encode n ++ body) ++ rest)
    {P : MqttMessage → Prop}
    (hrun : ∀ header : MqttHeader, header.type = t → header.hflags = f →
      ∃ m d, createMessage past header = some m ∧ m.run (body ++ rest) = .ok (d, rest)
        ∧ P d) :
    ∃ header d left, receive past h reads = .ok (header, d, left)
      ∧ header.finished = true ∧ left.flatten = rest ∧ P d := by
  obtain ⟨header, hhead, hfin, ht, hf, -⟩ :=
    MqttHeader.run_built hh h0 h1 f hn (body ++ rest)
  have hsame : reads.flatten
      = MqttHeader.firstByte t f :: (Base128.encode n ++ (body ++ rest)) := by
    rw [hflat]
    simp
  rw [← hsame] at hhead
  obtain ⟨left1, hfeed1, hleft1, hne⟩ := feed_eq_ok MqttHeader.header_lawful
    MqttHeader.update_eq_run hh.inv hr hhead
  obtain ⟨m, d, hm, hd, hP⟩ := hrun header ht hf
  rw [← hleft1] at hd
  obtain ⟨left, hfeed, hleft, -⟩ := feed_eq_ok message_lawful
    (fun m _ => update_eq_run m) (inv_createMessage hm) hne hd
  refine ⟨header, d, left, ?_, hfin, hleft, hP⟩
  simp only [receive, hfeed1, ok_bind, hm, hfeed, pure_eq_ok]

end MqttMessage

/-! ## The acknowledgements -/

/-- What the getters of an acknowledgement return. -/
structure Getters where
  type : MqttType
  headerFlags : BitVec 4
  pktId : Option UInt16
  session : Option Bool
  connackCode : Option UInt8
deriving DecidableEq

/-- The getters of `mqtt_ack` and its header. -/
def MqttAck.getters (m : MqttAck) : Getters :=
  { type := m.header.getType, headerFlags := m.header.getHeaderFlags, pktId := some m.pktId,
    session := none, connackCode := none }

/-- The getters of `mqtt_connack` and its header. -/
def MqttConnack.getters (m : MqttConnack) : Getters :=
  { type := m.header.getType, headerFlags := m.header.getHeaderFlags, pktId := none,
    session := some m.session, connackCode := some m.connackCode }

def MqttMessage.getters : MqttMessage → Option Getters
  | puback m | pubrec m | pubrel m | pubcomp m | unsuback m => some m.getters
  | connack m => some m.getters
  | _ => none

/-- The classes over `mqtt_ack`. -/
inductive AckKind where
  | puback | pubrec | pubrel | pubcomp | unsuback
deriving DecidableEq, Repr

namespace AckKind

def type : AckKind → MqttType
  | puback => .puback
  | pubrec => .pubrec
  | pubrel => .pubrel
  | pubcomp => .pubcomp
  | unsuback => .unsuback

/-- `mqtt_puback()`, `mqtt_pubrec()`, `mqtt_pubrel()` and the two like them -/
def new : AckKind → MqttAck
  | pubrel => .newPubrel
  | kind => .new kind.type

def message : AckKind → MqttAck → MqttMessage
  | puback => .puback
  | pubrec => .pubrec
  | pubrel => .pubrel
  | pubcomp => .pubcomp
  | unsuback => .unsuback

/-- The constructors over a header. -/
def ofHeader : AckKind → MqttHeader → MqttAck
  | pubrel => .pubrelOfHeader
  | _ => .ofHeader

/-- The flags of a header that is built. -/
def flags : AckKind → BitVec 4
  | pubrel => 2
  | _ => 0

theorem createMessage_eq (kind : AckKind) (past : UInt8) {header : MqttHeader}
    (ht : header.type = kind.type) :
    MqttMessage.createMessage past header = some (kind.message (kind.ofHeader header)) := by
  unfold MqttMessage.createMessage MqttHeader.getType
  rw [ht]
  cases kind <;> rfl

theorem message_run (kind : AckKind) {m d : MqttAck} {data rest : Bytes}
    (h : m.run data = .ok (d, rest)) :
    (kind.message m).run data = .ok (kind.message d, rest) := by
  have hl : (kind.message m).run data = MqttMessage.lift kind.message (m.run data) := by
    cases kind <;> rfl
  rw [hl, h]
  rfl

theorem message_toString (kind : AckKind) {m m' : MqttAck} {ok : Bool} {out out' : Bytes}
    (h : m.toString out = (ok, m', out')) :
    (kind.message m).toString out = .ok (ok, kind.message m', out') := by
  have hw : (kind.message m).toString out
      = .ok (MqttMessage.written kind.message (m.toString out)) := by
    cases kind <;> rfl
  rw [hw, h]
  rfl

@[simp] theorem message_getters (kind : AckKind) (m : MqttAck) :
    (kind.message m).getters = some m.getters := by
  cases kind <;> rfl

@[simp] theorem message_finished (kind : AckKind) (m : MqttAck) :
    (kind.message m).finished = m.finished := by
  cases kind <;> rfl

/-- The header of an object that is built. -/
theorem new_header (kind : AckKind) :
    kind.new.header.type = kind.type ∧ kind.new.header.hflags = kind.flags := by
  cases kind <;> decide

/-- The header of an object that parses: PUBREL sets its flags again. -/
theorem ofHeader_facts (kind : AckKind) {header : MqttHeader} (hf : header.hflags = kind.flags) :
    (kind.ofHeader header).header.type = header.type
      ∧ (kind.ofHeader header).header.hflags = kind.flags
      ∧ (kind.ofHeader header).hlen = 0 ∧ (kind.ofHeader header).finished = false := by
  refine ⟨?_, ?_, ?_, ?_⟩
  · cases kind <;> rfl
  · cases kind with
    | pubrel => rfl
    | puback => exact hf
    | pubrec => exact hf
    | pubcomp => exact hf
    | unsuback => exact hf
  · cases kind <;> rfl
  · cases kind <;> rfl

end AckKind

/-- An acknowledgement with the values that are set on it. -/
inductive Acknowledgement where
  | ack (kind : AckKind) (id : UInt16)
  | connack (session : Bool) (code : UInt8)
deriving DecidableEq, Repr

/-- The object that is built. -/
def Acknowledgement.message : Acknowledgement → MqttMessage
  | ack kind id => kind.message (kind.new.setPktId id)
  | connack session code =>
      .connack ((MqttConnack.new.setSession session).setConnackCode code)

/-- `to_string` succeeds, and the packet, whatever follows it and however both are
cut, is parsed to a finished message whose getters return the same; what follows
is left over. -/
def Acknowledgement.RoundTrips (a : Acknowledgement) : Prop :=
  ∀ out, ∃ m packet, a.message.toString out = .ok (true, m, out ++ packet) ∧
    ∀ (past : UInt8) (h : MqttHeader) (rest : Bytes) (reads : List Bytes), h.Ready →
      (∀ data ∈ reads, data ≠ []) → reads.flatten = packet ++ rest →
      ∃ header d left, MqttMessage.receive past h reads = .ok (header, d, left)
        ∧ header.finished = true ∧ left.flatten = rest
        ∧ d.finished = true ∧ d.getters = a.message.getters

/-! ## There and back -/

theorem MqttAck.setPktId_eq {m : MqttAck} (h0 : m.pktId = 0) (id : UInt16) :
    m.setPktId id = { m with pktId := id } := by
  unfold setPktId
  split
  · rfl
  · rename_i hid
    have hz : id = 0 := by simpa using hid
    rw [hz, ← h0]

/-- What `to_string` of an acknowledgement appends. -/
theorem MqttAck.toString_eq (m : MqttAck) (out : Bytes) :
    m.toString out = (true, { m with header := m.header.setRemaingLength 2 },
      out ++ (MqttHeader.firstByte m.header.type m.header.hflags
        :: (Base128.encode 2 ++ [msb m.pktId, lsb m.pktId]))) := by
  have hb := MqttHeader.buildHeader_of (h := m.header.setRemaingLength 2) (n := 2) rfl
    (by decide) out
  simp only [toString, hb, packAddShort]
  simp [MqttHeader.setRemaingLength]

/-- What `to_string` of a CONNACK appends. -/
theorem MqttConnack.toString_eq (m : MqttConnack) (out : Bytes) :
    m.toString out = (true, { m with header := m.header.setRemaingLength 2 },
      out ++ (MqttHeader.firstByte m.header.type m.header.hflags
        :: (Base128.encode 2 ++ [m.connFlags, m.connackCode]))) := by
  have hb := MqttHeader.buildHeader_of (h := m.header.setRemaingLength 2) (n := 2) rfl
    (by decide) out
  simp only [toString, hb, packAddChar]
  simp [MqttHeader.setRemaingLength]

namespace Acknowledgement

/-- What is encoded of a packet id. -/
theorem ack_toString (kind : AckKind) (id : UInt16) (out : Bytes) :
    ∃ m, (ack kind id).message.toString out
      = .ok (true, m, out ++ (MqttHeader.firstByte kind.type kind.flags
          :: (Base128.encode 2 ++ [msb id, lsb id]))) := by
  have hnew : kind.new.pktId = 0 := by cases kind <;> rfl
  obtain ⟨htype, hflags⟩ := kind.new_header
  have htext := kind.message_toString (MqttAck.toString_eq (kind.new.setPktId id) out)
  rw [MqttAck.setPktId_eq hnew, htype, hflags] at htext
  rw [message, MqttAck.setPktId_eq hnew]
  exact ⟨_, htext⟩

theorem ack_getters (kind : AckKind) (id : UInt16) :
    (ack kind id).message.getters
      = some { type := kind.type, headerFlags := kind.flags, pktId := some id,
               session := none, connackCode := none } := by
  have hnew : kind.new.pktId = 0 := by cases kind <;> rfl
  obtain ⟨htype, hflags⟩ := kind.new_header
  rw [message, AckKind.message_getters, MqttAck.setPktId_eq hnew]
  simp [MqttAck.getters, MqttHeader.getType, MqttHeader.getHeaderFlags, htype, hflags]

theorem ack_roundTrips (kind : AckKind) (id : UInt16) : (ack kind id).RoundTrips := by
  intro out
  obtain ⟨m, htext⟩ := ack_toString kind id out
  refine ⟨m, _, htext, ?_⟩
  intro past h rest reads hh hr hflat
  refine MqttMessage.receive_built hh (t := kind.type) (by cases kind <;> decide)
    (by cases kind <;> decide) (f := kind.flags) (n := 2) (by decide) hr hflat ?_
  intro header ht hf
  obtain ⟨ht', hf', hl', hfin'⟩ := kind.ofHeader_facts hf
  have hrun := MqttAck.run_two hl' hfin' (msb id) (lsb id) rest
  rw [short_msb_lsb, UInt16.ofNat_toNat] at hrun
  refine ⟨_, _, kind.createMessage_eq past ht, kind.message_run hrun, ?_, ?_⟩
  · rw [AckKind.message_finished]
  · rw [ack_getters, AckKind.message_getters]
    simp [MqttAck.getters, MqttHeader.getType, MqttHeader.getHeaderFlags, ht', hf', ht]

/-- What is encoded of a session flag and a code. -/
theorem connack_toString (session : Bool) (code : UInt8) (out : Bytes) :
    ∃ m, (connack session code).message.toString out
      = .ok (true, m, out ++ (MqttHeader.firstByte .connack 0
          :: (Base128.encode 2 ++ [if session then 0x01 else 0x00, code]))) := by
  have htext : (connack session code).message.toString out = .ok (MqttMessage.written _ _) :=
    rfl
  rw [MqttConnack.toString_eq] at htext
  exact ⟨_, htext⟩

/-- What is received of a CONNACK: the session flag is always false. -/
theorem connack_received (session : Bool) (code : UInt8) (past : UInt8) {h : MqttHeader}
    (hh : h.Ready) (rest : Bytes) {reads : List Bytes} (hr : ∀ data ∈ reads, data ≠ [])
    (hflat : reads.flatten = MqttHeader.firstByte .connack 0
      :: (Base128.encode 2 ++ [if session then 0x01 else 0x00, code]) ++ rest) :
    ∃ header d left, MqttMessage.receive past h reads = .ok (header, d, left)
      ∧ header.finished = true ∧ left.flatten = rest
      ∧ d.finished = true ∧ d.getters = (connack false code).message.getters := by
  refine MqttMessage.receive_built hh (t := .connack) (by decide) (by decide) (f := 0)
    (n := 2) (by decide) hr hflat ?_
  intro header ht hf
  have hrun := MqttConnack.run_two header (if session then 0x01 else 0x00) code rest
  have hcreate : MqttMessage.createMessage past header
      = some (.connack (.ofHeader header)) := by
    unfold MqttMessage.createMessage MqttHeader.getType
    rw [ht]
  refine ⟨_, .connack _, hcreate, by rw [MqttMessage.run, hrun]; rfl, rfl, ?_⟩
  have ht' : (MqttConnack.ofHeader header).header.type = .connack := ht
  have hf' : (MqttConnack.ofHeader header).header.hflags = 0 := hf
  simp only [MqttMessage.getters, MqttConnack.getters, MqttHeader.getType,
    MqttHeader.getHeaderFlags, ht', hf']
  rfl

theorem connack_roundTrips (code : UInt8) : (connack false code).RoundTrips := by
  intro out
  obtain ⟨m, htext⟩ := connack_toString false code out
  exact ⟨m, _, htext, fun past h rest reads hh hr hflat =>
    connack_received false code past hh rest hr hflat⟩

theorem not_connack_roundTrips (code : UInt8) : ¬ (connack true code).RoundTrips := by
  intro hrt
  obtain ⟨m, packet, htext, hall⟩ := hrt []
  obtain ⟨m', htext'⟩ := connack_toString true code []
  rw [htext] at htext'
  simp only [Except.ok.injEq, Prod.mk.injEq, true_and, List.nil_append] at htext'
  obtain ⟨-, rfl⟩ := htext'
  -- the packet in one read is received twice over: with `session_` set, and without
  have hr : ∀ data ∈ [MqttHeader.firstByte .connack 0
      :: (Base128.encode 2 ++ [if true then 0x01 else 0x00, code])], data ≠ [] := by
    simp
  obtain ⟨header, d, left, hrec, -, -, -, hget⟩ :=
    hall 0 _ [] _ (MqttHeader.ready_new .reservedMin) hr (by simp)
  obtain ⟨header', d', left', hrec', -, -, -, hget'⟩ :=
    connack_received true code 0 (MqttHeader.ready_new .reservedMin) [] hr (by simp)
  rw [hrec] at hrec'
  cases hrec'
  rw [hget] at hget'
  have hs := congrArg (fun g => g.bind Getters.session) hget'
  cases hs

/-- **Acknowledgements go there and back, but for the session flag.** Parsing a
CONNACK sets its flags byte and its code, and leaves `session_` as constructed. -/
theorem acks_roundTrip_iff (a : Acknowledgement) :
    a.RoundTrips ↔ ∀ code, a ≠ .connack true code := by
  cases a with
  | ack kind id => exact iff_of_true (ack_roundTrips kind id) fun code => by simp
  | connack session code =>
      cases session with
      | false => exact iff_of_true (connack_roundTrips code) fun code => by simp
      | true => exact iff_of_false (not_connack_roundTrips code) fun hc => hc code rfl

/-- A CONNACK with the session flag set. -/
theorem session_lost : ¬ ∀ a : Acknowledgement, a.RoundTrips :=
  fun hall => not_connack_roundTrips 0 (hall (.connack true 0))

end Acknowledgement

end Libnio.Mqtt
