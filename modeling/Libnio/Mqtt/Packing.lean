import Libnio.Mqtt.PublishFacts
import Libnio.Mqtt.ConnectFacts
import Libnio.Mqtt.SubscribeFacts
import Libnio.Mqtt.UnsubscribeFacts

/-!
# Mqtt — what is packed

Every `to_string` appends a fixed header and then pieces: strings, by
`pack_add`, and other bytes. `toString_framed`: whether it does, and which, for
any object, whatever it has been through and however long its strings are.
-/

namespace Libnio.Mqtt

open Stream

/-- What `pack_add` appends for a string. -/
def packed (s : Bytes) : Bytes := packAddString s []

theorem packAddString_packed (s out : Bytes) : packAddString s out = out ++ packed s := by
  unfold packed packAddString
  dsimp only
  split <;> simp

/-- Nothing of a string is appended whose length ends in sixteen zero bits. -/
theorem length_packed (s : Bytes) :
    (packed s).length = 2 + if s.length % 65536 = 0 then 0 else s.length := by
  have hn : UInt16.ofNat s.length > 0 ↔ s.length % 65536 ≠ 0 := by
    rw [gt_iff_lt, UInt16.lt_iff_toNat_lt, UInt16.toNat_ofNat', show UInt16.toNat 0 = 0 from rfl]
    omega
  unfold packed packAddString
  dsimp only
  by_cases h : s.length % 65536 = 0
  · rw [if_neg (fun hc => hn.mp hc h), if_pos h]
    rfl
  · rw [if_pos (hn.mpr h), if_neg h]
    simp
    omega

theorem packed_str {s : Bytes} (h : s.length ≤ 65535) : packed s = MqttConnect.str s :=
  MqttConnect.packAddString_str h []

theorem length_packed_le {s : Bytes} (h : s.length ≤ 65535) :
    (packed s).length = 2 + s.length := by
  rw [packed_str h, MqttConnect.str, List.length_cons, List.length_cons]
  omega

/-! ## Pieces -/

/-- What a `to_string` appends at a time. -/
inductive Piece where
  | raw (xs : Bytes)
  /-- A string, by `pack_add(const std::string&, ..)`. -/
  | str (s : Bytes)
deriving DecidableEq

namespace Piece

def bytes : Piece → Bytes
  | raw xs => xs
  | str s => packed s

/-- What the piece adds to the length that is announced. -/
def size : Piece → Nat
  | raw xs => xs.length
  | str s => 2 + s.length

/-- The pieces one after the other. -/
def emit (pieces : List Piece) : Bytes := pieces.flatMap bytes

def total (pieces : List Piece) : Nat := (pieces.map size).sum

@[simp] theorem emit_nil : emit [] = [] := rfl

@[simp] theorem emit_cons (p : Piece) (ps : List Piece) :
    emit (p :: ps) = p.bytes ++ emit ps := rfl

@[simp] theorem emit_append (ps qs : List Piece) : emit (ps ++ qs) = emit ps ++ emit qs :=
  List.flatMap_append

@[simp] theorem total_nil : total [] = 0 := rfl

@[simp] theorem total_cons (p : Piece) (ps : List Piece) :
    total (p :: ps) = p.size + total ps := by
  simp [total]

@[simp] theorem total_append (ps qs : List Piece) : total (ps ++ qs) = total ps + total qs := by
  simp [total]

/-- The strings are no longer than two bytes can say. -/
def Short (pieces : List Piece) : Prop := ∀ s, str s ∈ pieces → s.length ≤ 65535

theorem Short.length_emit {pieces : List Piece} (h : Short pieces) :
    (emit pieces).length = total pieces := by
  induction pieces with
  | nil => rfl
  | cons p ps ih =>
      rw [emit_cons, total_cons, List.length_append,
        ih fun s hs => h s (List.mem_cons_of_mem p hs)]
      cases p with
      | raw xs => rfl
      | str s => rw [bytes, size, length_packed_le (h s (by simp))]

end Piece

/-! ## Packets -/

/-- `out` followed by a fixed header and `body`, if the length `n` that the header
is to announce fits, and `out` as it was otherwise. -/
def framed (first : UInt8) (n : Nat) (body out : Bytes) : Bytes :=
  if n < 268435456 then out ++ first :: (Base128.encode n ++ body) else out

theorem framed_eq_append (first : UInt8) (n : Nat) (body out : Bytes) :
    framed first n body out = out ++ framed first n body [] := by
  unfold framed
  split <;> simp

/-- Different lengths make different packets. -/
theorem framed_inj {first first' : UInt8} {n n' : Nat} {body : Bytes}
    (h : framed first n body [] = framed first' n' body [])
    (hn : n < 268435456 ∨ n' < 268435456) : n = n' := by
  unfold framed at h
  by_cases h1 : n < 268435456
  · by_cases h2 : n' < 268435456
    · rw [if_pos h1, if_pos h2, List.nil_append, List.nil_append, List.cons.injEq] at h
      rw [← Base128.decode_encode n, List.append_cancel_right h.2, Base128.decode_encode]
    · rw [if_pos h1, if_neg h2] at h
      simp at h
  · rw [if_neg h1, if_pos (hn.resolve_left h1)] at h
    simp at h

namespace MqttHeader

/-- A length that does not fit in four digits is refused. -/
theorem buildHeader_refused {h : MqttHeader} {n : Nat} (hn : h.dlen.toNat = n)
    (hR : ¬ n < 268435456) (out : Bytes) : h.buildHeader out = (false, h, out) := by
  rw [buildHeader_eq, hn, if_neg hR]

end MqttHeader

/-! ## SUBSCRIBE -/

namespace MqttSubscribe

/-- What follows the fixed header. -/
def pieces (m : MqttSubscribe) : List Piece :=
  .raw [msb m.pktId, lsb m.pktId] ::
    (m.topics.zip m.qoses).flatMap fun p => [.str p.1, .raw [p.2.code]]

theorem packTopics_emit (topics : List Bytes) (qoses : List MqttQos) (out : Bytes) :
    packTopics topics qoses out
      = out ++ Piece.emit ((topics.zip qoses).flatMap fun p => [.str p.1, .raw [p.2.code]]) := by
  induction topics generalizing qoses out with
  | nil => simp [packTopics]
  | cons t topics ih =>
      cases qoses with
      | nil => simp [packTopics]
      | cons q qoses =>
          rw [packTopics, ih, packAddString_packed, packAddChar]
          simp [Piece.bytes]

/-- The object after a call that has found topics. -/
def afterToString (m : MqttSubscribe) : MqttSubscribe :=
  { m with bodyLen := m.bodyLen + 2,
           header := (m.header.setHeaderFlags 0x02).setRemaingLength (m.bodyLen + 2) }

theorem toString_framed {m : MqttSubscribe} (h : m.topics ≠ []) (out : Bytes) :
    m.toString out = (decide ((m.bodyLen + 2).toNat < 268435456), m.afterToString,
      framed (MqttHeader.firstByte m.header.type 2) (m.bodyLen + 2).toNat
        (Piece.emit m.pieces) out) := by
  have hdlen : ((m.header.setHeaderFlags 0x02).setRemaingLength (m.bodyLen + 2)).dlen.toNat
      = (m.bodyLen + 2).toNat := rfl
  by_cases hn : (m.bodyLen + 2).toNat < 268435456
  · simp only [toString, if_neg h, MqttHeader.buildHeader_of hdlen hn, Bool.not_true,
      Bool.false_eq_true, if_false, packAddShort, packTopics_emit, framed, if_pos hn,
      decide_eq_true hn, pieces, Piece.emit_cons, Piece.bytes, List.append_assoc,
      List.cons_append, List.nil_append]
    rfl
  · simp only [toString, if_neg h, MqttHeader.buildHeader_refused hdlen hn, Bool.not_false,
      if_true, framed, if_neg hn, decide_eq_false hn]
    rfl

end MqttSubscribe

/-! ## UNSUBSCRIBE -/

namespace MqttUnsubscribe

/-- What follows the fixed header. -/
def pieces (m : MqttUnsubscribe) : List Piece :=
  .raw [msb m.pktId, lsb m.pktId] :: m.topics.map .str

theorem packTopics_emit (topics : List Bytes) (out : Bytes) :
    packTopics topics out = out ++ Piece.emit (topics.map .str) := by
  induction topics generalizing out with
  | nil => simp [packTopics]
  | cons t topics ih =>
      rw [packTopics, ih, packAddString_packed]
      simp [Piece.bytes]

/-- The object after a call that has found topics. -/
def afterToString (m : MqttUnsubscribe) : MqttUnsubscribe :=
  { m with bodyLen := m.bodyLen + 2,
           header := (m.header.setHeaderFlags 0x02).setRemaingLength (m.bodyLen + 2) }

theorem toString_framed {m : MqttUnsubscribe} (h : m.topics ≠ []) (out : Bytes) :
    m.toString out = (decide ((m.bodyLen + 2).toNat < 268435456), m.afterToString,
      framed (MqttHeader.firstByte m.header.type 2) (m.bodyLen + 2).toNat
        (Piece.emit m.pieces) out) := by
  have hdlen : ((m.header.setHeaderFlags 0x02).setRemaingLength (m.bodyLen + 2)).dlen.toNat
      = (m.bodyLen + 2).toNat := rfl
  by_cases hn : (m.bodyLen + 2).toNat < 268435456
  · simp only [toString, if_neg h, MqttHeader.buildHeader_of hdlen hn, Bool.not_true,
      Bool.false_eq_true, if_false, packAddShort, packTopics_emit, framed, if_pos hn,
      decide_eq_true hn, pieces, Piece.emit_cons, Piece.bytes, List.append_assoc,
      List.cons_append, List.nil_append]
    rfl
  · simp only [toString, if_neg h, MqttHeader.buildHeader_refused hdlen hn, Bool.not_false,
      if_true, framed, if_neg hn, decide_eq_false hn]
    rfl

end MqttUnsubscribe

/-! ## SUBACK -/

namespace MqttSuback

/-- What follows the fixed header. -/
def pieces (m : MqttSuback) : List Piece :=
  [.raw [msb m.pktId, lsb m.pktId], .raw (m.qoses.map MqttQos.code)]

/-- The object after a call that has found QoSes. -/
def afterToString (m : MqttSuback) : MqttSuback :=
  { m with bodyLen := m.bodyLen + 2, header := m.header.setRemaingLength (m.bodyLen + 2) }

theorem toString_framed {m : MqttSuback} (h : m.qoses ≠ []) (out : Bytes) :
    m.toString out = (decide ((m.bodyLen + 2).toNat < 268435456), m.afterToString,
      framed (MqttHeader.firstByte m.header.type m.header.hflags) (m.bodyLen + 2).toNat
        (Piece.emit m.pieces) out) := by
  have hdlen : (m.header.setRemaingLength (m.bodyLen + 2)).dlen.toNat = (m.bodyLen + 2).toNat :=
    rfl
  by_cases hn : (m.bodyLen + 2).toNat < 268435456
  · simp only [toString, if_neg h, MqttHeader.buildHeader_of hdlen hn, Bool.not_true,
      Bool.false_eq_true, if_false, packAddShort, packQoses_eq, framed, if_pos hn,
      decide_eq_true hn, pieces, Piece.emit_cons, Piece.bytes, List.append_assoc,
      List.cons_append, List.nil_append, Piece.emit_nil, List.append_nil]
    rfl
  · simp only [toString, if_neg h, MqttHeader.buildHeader_refused hdlen hn, Bool.not_false,
      if_true, framed, if_neg hn, decide_eq_false hn]
    rfl

end MqttSuback

/-! ## CONNECT -/

namespace MqttConnect

/-- A string that is left out when it is empty. -/
def optPiece (s : Bytes) : List Piece := if s ≠ [] then [.str s] else []

/-- The will, left out unless it is complete. -/
def willPieces (t g : Bytes) : List Piece :=
  if t ≠ [] ∧ g ≠ [] then [.str t, .str g] else []

/-- What follows the fixed header. -/
def pieces (m : MqttConnect) : List Piece :=
  [.raw [0, 0x04, 0x4d, 0x51, 0x54, 0x54, 0x04, wireFlags m, msb m.keepAlive, lsb m.keepAlive],
    .str m.cid] ++ (willPieces m.willTopic m.willMsg ++ (optPiece m.username ++
      optPiece m.passwd))

theorem total_pieces (m : MqttConnect) : Piece.total m.pieces = m.remaining := by
  have hopt : ∀ s, Piece.total (optPiece s) = optLen s := by
    intro s
    unfold optPiece optLen
    split <;> simp [Piece.size]
  have hwill : Piece.total (willPieces m.willTopic m.willMsg)
      = optWillLen m.willTopic m.willMsg := by
    unfold willPieces optWillLen
    split <;> simp [Piece.size]
    omega
  simp only [pieces, Piece.total_append, Piece.total_cons, Piece.total_nil, hopt, hwill,
    Piece.size, List.length_cons, List.length_nil, remaining]
  omega

theorem packAddString_optPiece (s out : Bytes) :
    (if s ≠ [] then packAddString s out else out) = out ++ Piece.emit (optPiece s) := by
  unfold optPiece
  split
  · rw [packAddString_packed]
    simp [Piece.bytes]
  · simp

theorem packAddString_willPieces (t g out : Bytes) :
    (if (if t ≠ [] ∧ g ≠ [] then t else []) ≠ [] ∧ (if t ≠ [] ∧ g ≠ [] then g else []) ≠ []
      then packAddString (if t ≠ [] ∧ g ≠ [] then g else [])
        (packAddString (if t ≠ [] ∧ g ≠ [] then t else []) out)
      else out) = out ++ Piece.emit (willPieces t g) := by
  unfold willPieces
  by_cases h : t ≠ [] ∧ g ≠ []
  · simp only [if_pos h, packAddString_packed, Piece.emit_cons, Piece.bytes, Piece.emit_nil,
      List.append_assoc, List.append_nil]
  · simp only [if_neg h]
    simp

/-- The object after a call: half a will is dropped. -/
def afterToString (m : MqttConnect) : MqttConnect :=
  { m with
    connFlags := wireFlags m,
    willTopic := if m.willTopic ≠ [] ∧ m.willMsg ≠ [] then m.willTopic else [],
    willMsg := if m.willTopic ≠ [] ∧ m.willMsg ≠ [] then m.willMsg else [],
    header := m.header.setRemaingLength (UInt32.ofNat m.remaining) }

theorem toString_framed (m : MqttConnect) (out : Bytes) :
    m.toString out = (decide ((UInt32.ofNat m.remaining).toNat < 268435456), m.afterToString,
      framed (MqttHeader.firstByte m.header.type m.header.hflags)
        (UInt32.ofNat m.remaining).toNat (Piece.emit m.pieces) out) := by
  have hlen : 10 + 2 + UInt32.ofNat m.cid.length + UInt32.ofNat (optLen m.username)
      + UInt32.ofNat (optLen m.passwd) + UInt32.ofNat (optWillLen m.willTopic m.willMsg)
      = UInt32.ofNat m.remaining := by
    simp only [remaining, UInt32.ofNat_add]
    rfl
  have hdlen : (m.header.setRemaingLength (UInt32.ofNat m.remaining)).dlen.toNat
      = (UInt32.ofNat m.remaining).toNat := rfl
  by_cases hn : (UInt32.ofNat m.remaining).toNat < 268435456
  · simp only [toString, ↓opt_eq, ↓optWill_eq, hlen, MqttHeader.buildHeader_of hdlen hn,
      Bool.not_true, Bool.false_eq_true, if_false, packAddString_optPiece,
      packAddString_willPieces, packAddString_packed m.cid, framed, if_pos hn,
      decide_eq_true hn]
    refine Prod.ext rfl (Prod.ext rfl ?_)
    simp [packAddChar, packAddShort, pieces, Piece.bytes, wireFlags]
    rfl
  · simp only [toString, ↓opt_eq, ↓optWill_eq, hlen, MqttHeader.buildHeader_refused hdlen hn,
      Bool.not_false, if_true, framed, if_neg hn, decide_eq_false hn]
    rfl

end MqttConnect

/-! ## PUBLISH -/

namespace MqttPublish

/-- What follows the fixed header. -/
def pieces (m : MqttPublish) : List Piece :=
  .str m.topic :: ((if m.header.getQos ≠ .qos0 then [.raw [msb m.pktId, lsb m.pktId]] else [])
    ++ (if m.payloadLen > 0 ∧ m.payload ≠ [] then [.raw m.payload] else []))

/-- `payload_` is what `payload_len_` says, unless nothing is to be sent. -/
def PayloadGiven (m : MqttPublish) : Prop :=
  m.payloadLen ≠ 0 → m.payload.length = m.payloadLen.toNat

theorem total_pieces {m : MqttPublish} (hp : m.PayloadGiven) :
    UInt32.ofNat (Piece.total m.pieces)
      = (if m.header.getQos ≠ .qos0 then UInt32.ofNat m.topic.length + 2 + m.payloadLen + 2
        else UInt32.ofNat m.topic.length + 2 + m.payloadLen) := by
  have hpay : UInt32.ofNat (Piece.total
      (if m.payloadLen > 0 ∧ m.payload ≠ [] then [.raw m.payload] else [])) = m.payloadLen := by
    by_cases h0 : m.payloadLen = 0
    · rw [if_neg (by simp [h0]), h0]
      rfl
    · have hlen := hp h0
      have hne : m.payloadLen.toNat ≠ 0 := fun hc => h0 (UInt32.toNat_inj.mp hc)
      have hc : m.payloadLen > 0 ∧ m.payload ≠ [] :=
        ⟨UInt32.lt_iff_toNat_lt.mpr (Nat.pos_of_ne_zero hne), fun hc => hne (by
          rw [← hlen, hc]; rfl)⟩
      rw [if_pos hc]
      simp [Piece.size, hlen]
  simp only [pieces, Piece.total_cons, Piece.total_append, UInt32.ofNat_add, hpay, Piece.size]
  rw [UInt32.add_comm (UInt32.ofNat 2) (UInt32.ofNat m.topic.length)]
  split
  · rw [show UInt32.ofNat (Piece.total [.raw [msb m.pktId, lsb m.pktId]]) = 2 from rfl,
      UInt32.add_comm 2 m.payloadLen, ← UInt32.add_assoc]
    rfl
  · simp

/-- `to_string` once the packet id is there if it is needed. -/
theorem toString_framed {m : MqttPublish} (hp : m.PayloadGiven)
    (hid : m.header.getQos ≠ .qos0 → m.pktId ≠ 0) (out : Bytes) :
    ∃ m', m.toString out
      = .ok (decide ((UInt32.ofNat (Piece.total m.pieces)).toNat < 268435456), m',
        framed (MqttHeader.firstByte m.header.type (wireHeader m (Piece.total m.pieces)).hflags)
          (UInt32.ofNat (Piece.total m.pieces)).toNat (Piece.emit m.pieces) out) := by
  have hno : ¬ (m.header.getQos ≠ .qos0 ∧ m.pktId = 0) := fun hc => hid hc.1 hc.2
  have hdlen : (wireHeader m (Piece.total m.pieces)).dlen.toNat
      = (UInt32.ofNat (Piece.total m.pieces)).toNat := rfl
  have htype := (wireHeader_facts m (Piece.total m.pieces)).1
  unfold toString
  simp only [if_neg hno, ← total_pieces hp]
  rw [show ((if m.header.isDup = true ∧ m.header.getQos = .qos0 then m.header.setDup false
    else m.header).setRemaingLength (UInt32.ofNat (Piece.total m.pieces)))
      = wireHeader m (Piece.total m.pieces) from rfl]
  by_cases hn : (UInt32.ofNat (Piece.total m.pieces)).toNat < 268435456
  · simp only [MqttHeader.buildHeader_of hdlen hn, htype, Bool.not_true, Bool.false_eq_true,
      if_false, packAddString_packed, framed, if_pos hn, decide_eq_true hn]
    have hpre : ∀ pre : Bytes, (if m.header.getQos ≠ .qos0
        then packAddShort m.pktId (pre ++ packed m.topic) else pre ++ packed m.topic)
        = pre ++ (packed m.topic ++ Piece.emit
          (if m.header.getQos ≠ .qos0 then [.raw [msb m.pktId, lsb m.pktId]] else [])) := by
      intro pre
      split <;> simp [packAddShort, Piece.bytes]
    rw [hpre]
    by_cases hc : m.payloadLen > 0 ∧ m.payload ≠ []
    · have hlen := hp (fun h0 => by simp [h0] at hc)
      refine ⟨{ m with header := wireHeader m (Piece.total m.pieces) }, ?_⟩
      rw [if_pos hc, appendCStr, if_pos (by omega), ← hlen, List.take_left' rfl, ok_bind]
      simp [pieces, if_pos hc, Piece.bytes]
    · refine ⟨{ m with header := wireHeader m (Piece.total m.pieces) }, ?_⟩
      rw [if_neg hc]
      simp [pieces, if_neg hc, Piece.bytes]
  · refine ⟨{ m with header := wireHeader m (Piece.total m.pieces) }, ?_⟩
    simp only [MqttHeader.buildHeader_refused hdlen hn, Bool.not_false, if_true, framed,
      if_neg hn, decide_eq_false hn]
    rfl

end MqttPublish

end Libnio.Mqtt
