import Libnio.Mqtt.Packing

/-!
# Mqtt — packets that agree with themselves

`pack_add` cuts the length of a string to 16 bits and `to_string` sums lengths
up in 32, while the strings are appended as they are. `SelfConsistent`: a packet
announces what it has, at both levels, and what cannot be announced is refused.
`packets_consistent_iff`: of a fresh message this holds exactly when it can be
represented, or is refused for the sum that is left of its length.
-/

namespace Libnio.Mqtt

open Stream

/-- The number in the two bytes that `pack_add` puts in front of a string. -/
def announcedLen (s : Bytes) : Nat := short ((packed s).getD 0 0) ((packed s).getD 1 0)

theorem announcedLen_eq (s : Bytes) : announcedLen s = s.length % 65536 := by
  have h : announcedLen s = (UInt16.ofNat s.length).toNat := by
    rw [← short_msb_lsb]
    unfold announcedLen packed packAddString
    dsimp only
    split <;> simp
  rw [h, UInt16.toNat_ofNat']

/-- Every string fits in front of its bytes, and all of it behind a fixed header. -/
structure Representable (pieces : List Piece) : Prop where
  short : Piece.Short pieces
  total_lt : Piece.total pieces < 268435456

/-- **Packets announce what they have**; `call` is `to_string`, and `pieces` are
what it appends after the fixed header. -/
structure SelfConsistent (call : Bytes → Except Stop (Bool × Bytes)) (pieces : List Piece) :
    Prop where
  emitted : ∀ out out', call out = .ok (true, out') →
    (∃ first ds, out' = out ++ first :: (ds ++ Piece.emit pieces) ∧ Base128.Digits ds ∧
        ds.length ≤ 4 ∧ Base128.decode ds = (Piece.emit pieces).length) ∧
      ∀ s, .str s ∈ pieces → announcedLen s = ((packed s).drop 2).length
  refused : ¬ Representable pieces → ∀ out, call out = .ok (false, out)

theorem SelfConsistent.of_refused {call : Bytes → Except Stop (Bool × Bytes)}
    {pieces : List Piece} (h : ∀ out, call out = .ok (false, out)) :
    SelfConsistent call pieces where
  emitted := fun out out' hc => by
    rw [h] at hc
    cases hc
  refused := fun _ => h

theorem Representable.emitted {pieces : List Piece} (h : Representable pieces)
    (first : UInt8) (out : Bytes) :
    (∃ first' ds, framed first (UInt32.ofNat (Piece.total pieces)).toNat (Piece.emit pieces) out
          = out ++ first' :: (ds ++ Piece.emit pieces) ∧ Base128.Digits ds ∧
        ds.length ≤ 4 ∧ Base128.decode ds = (Piece.emit pieces).length) ∧
      ∀ s, .str s ∈ pieces → announcedLen s = ((packed s).drop 2).length := by
  have hn : (UInt32.ofNat (Piece.total pieces)).toNat = Piece.total pieces := by
    have := h.total_lt
    rw [UInt32.toNat_ofNat']
    omega
  refine ⟨⟨first, Base128.encode (Piece.total pieces), ?_, Base128.digits_encode _,
    Base128.length_encode_le (by decide) (by have := h.total_lt; omega), ?_⟩, fun s hs => ?_⟩
  · rw [framed, hn, if_pos h.total_lt]
  · rw [Base128.decode_encode, h.short.length_emit]
  · have hl := h.short s hs
    rw [announcedLen_eq, List.length_drop, length_packed_le hl]
    omega

/-- The sum of the lengths is all that `to_string` looks at. -/
theorem selfConsistent_iff {call : Bytes → Except Stop (Bool × Bytes)} {pieces : List Piece}
    {first : UInt8} (hcall : ∀ out, call out
      = .ok (decide ((UInt32.ofNat (Piece.total pieces)).toNat < 268435456),
        framed first (UInt32.ofNat (Piece.total pieces)).toNat (Piece.emit pieces) out)) :
    SelfConsistent call pieces ↔
      Representable pieces ∨ 268435456 ≤ Piece.total pieces % 4294967296 := by
  have hn : (UInt32.ofNat (Piece.total pieces)).toNat = Piece.total pieces % 4294967296 :=
    UInt32.toNat_ofNat'
  constructor
  · intro h
    by_cases hr : Representable pieces
    · exact .inl hr
    · have hc := h.refused hr []
      rw [hcall] at hc
      simp only [Except.ok.injEq, Prod.mk.injEq, decide_eq_false_iff_not] at hc
      exact .inr (by omega)
  · rintro (hr | hbig)
    · refine ⟨fun out out' hc => ?_, fun hn => absurd hr hn⟩
      rw [hcall] at hc
      simp only [Except.ok.injEq, Prod.mk.injEq] at hc
      rw [← hc.2]
      exact hr.emitted first out
    · refine .of_refused fun out => ?_
      rw [hcall, framed, hn, if_neg (by omega), decide_eq_false (by omega)]

/-! ## CONNECT -/

namespace MqttConnect

def call (m : MqttConnect) (out : Bytes) : Except Stop (Bool × Bytes) :=
  .ok ((m.toString out).1, (m.toString out).2.2)

theorem consistent_iff (m : MqttConnect) :
    SelfConsistent m.call m.pieces ↔
      Representable m.pieces ∨ 268435456 ≤ Piece.total m.pieces % 4294967296 :=
  selfConsistent_iff fun out => by rw [call, toString_framed, total_pieces]

end MqttConnect

/-! ## PUBLISH -/

namespace MqttPublish

def call (m : MqttPublish) (out : Bytes) : Except Stop (Bool × Bytes) :=
  (m.toString out).map fun r => (r.1, r.2.2)

theorem payloadGiven_apply {m : MqttPublish} (h : m.PayloadGiven) (s : Setter) :
    (apply m s).PayloadGiven := by
  cases s with
  | topic topic => exact h
  | pktId id =>
      simp only [apply, setPktId]
      split <;> exact h
  | payload data =>
      simp only [apply, setPayload]
      split
      · intro _
        rw [List.length_take, UInt32.toNat_ofNat']
        exact Nat.min_eq_left (Nat.mod_le _ _)
      · rename_i hpos
        intro hc
        refine absurd ?_ hpos
        rw [gt_iff_lt, UInt32.lt_iff_toNat_lt]
        exact Nat.pos_of_ne_zero fun h0 => hc (UInt32.toNat_inj.mp h0)
  | qos qos => exact h
  | dup yes => exact h
  | remain yes => exact h

theorem payloadGiven_build (setters : List Setter) : (build setters).PayloadGiven := by
  induction setters using List.reverseRecOn with
  | nil => exact fun h => absurd rfl h
  | append_singleton setters s ih =>
      simp only [build, List.foldl_append, List.foldl_cons, List.foldl_nil] at ih ⊢
      exact payloadGiven_apply ih s

theorem consistent_iff {m : MqttPublish} (hp : m.PayloadGiven) :
    SelfConsistent m.call m.pieces ↔
      Representable m.pieces ∨ 268435456 ≤ Piece.total m.pieces % 4294967296 ∨
        (m.header.getQos ≠ .qos0 ∧ m.pktId = 0) := by
  by_cases hno : m.header.getQos ≠ .qos0 ∧ m.pktId = 0
  · refine ⟨fun _ => .inr (.inr hno), fun _ => .of_refused fun out => ?_⟩
    simp only [call, toString, if_pos hno]
    rfl
  · have hcall : ∀ out, m.call out
        = .ok (decide ((UInt32.ofNat (Piece.total m.pieces)).toNat < 268435456), framed
          (MqttHeader.firstByte m.header.type (wireHeader m (Piece.total m.pieces)).hflags)
          (UInt32.ofNat (Piece.total m.pieces)).toNat (Piece.emit m.pieces) out) := by
      intro out
      obtain ⟨m', hm⟩ := toString_framed hp (fun hq hc => hno ⟨hq, hc⟩) out
      rw [call, hm]
      rfl
    rw [selfConsistent_iff hcall]
    exact or_congr_right (or_iff_left hno).symm

end MqttPublish

/-! ## SUBSCRIBE -/

namespace MqttSubscribe

/-- A call on a message being built. -/
inductive Setter where
  | pktId (id : UInt16)
  | topic (topic : Bytes) (qos : MqttQos)

def apply (m : MqttSubscribe) : Setter → MqttSubscribe
  | .pktId id => m.setPktId id
  | .topic topic qos => m.addTopic topic qos

/-- The message after some calls. -/
def after (setters : List Setter) : MqttSubscribe := setters.foldl apply new

def call (m : MqttSubscribe) (out : Bytes) : Except Stop (Bool × Bytes) :=
  .ok ((m.toString out).1, (m.toString out).2.2)

/-- `body_len_` has what the topics take, in 32 bits. -/
structure Counted (m : MqttSubscribe) : Prop where
  length_eq : m.topics.length = m.qoses.length
  bodyLen_eq : m.bodyLen + 2 = UInt32.ofNat (Piece.total m.pieces)

theorem Counted.apply {m : MqttSubscribe} (h : Counted m) (s : Setter) :
    Counted (apply m s) := by
  cases s with
  | pktId id =>
      simp only [MqttSubscribe.apply, setPktId]
      split
      · exact ⟨h.length_eq, h.bodyLen_eq⟩
      · exact h
  | topic topic qos =>
      refine ⟨by simp [MqttSubscribe.apply, addTopic, h.length_eq], ?_⟩
      have hp : Piece.total (m.addTopic topic qos).pieces
          = Piece.total m.pieces + (2 + (cString topic).length + 1) := by
        simp only [pieces, addTopic, List.zip_append h.length_eq, List.zip_cons_cons,
          List.zip_nil_right, List.flatMap_append, List.flatMap_cons, List.flatMap_nil,
          List.append_nil, Piece.total_cons, Piece.total_append, Piece.total_nil, Piece.size,
          List.length_cons, List.length_nil]
        omega
      change m.bodyLen + (2 + UInt32.ofNat (cString topic).length + 1) + 2 = _
      rw [MqttSubscribe.apply, hp, UInt32.ofNat_add, ← h.bodyLen_eq, UInt32.ofNat_add,
        UInt32.ofNat_add, UInt32.add_assoc, UInt32.add_comm _ 2, ← UInt32.add_assoc]
      rfl

theorem counted_after (setters : List Setter) : Counted (after setters) := by
  induction setters using List.reverseRecOn with
  | nil => exact ⟨rfl, rfl⟩
  | append_singleton setters s ih =>
      simp only [after, List.foldl_append, List.foldl_cons, List.foldl_nil] at ih ⊢
      exact ih.apply s

theorem Counted.consistent_iff {m : MqttSubscribe} (h : Counted m) :
    SelfConsistent m.call m.pieces ↔
      Representable m.pieces ∨ 268435456 ≤ Piece.total m.pieces % 4294967296 ∨
        m.topics = [] := by
  by_cases hno : m.topics = []
  · refine ⟨fun _ => .inr (.inr hno), fun _ => .of_refused fun out => ?_⟩
    simp only [call, toString, if_pos hno]
  · rw [selfConsistent_iff fun out => by rw [call, toString_framed hno, h.bodyLen_eq]]
    exact or_congr_right (or_iff_left hno).symm

end MqttSubscribe

/-! ## UNSUBSCRIBE -/

namespace MqttUnsubscribe

/-- A call on a message being built. -/
inductive Setter where
  | pktId (id : UInt16)
  | topic (topic : Bytes)

def apply (m : MqttUnsubscribe) : Setter → MqttUnsubscribe
  | .pktId id => m.setPktId id
  | .topic topic => m.addTopic topic

/-- The message after some calls. -/
def after (setters : List Setter) : MqttUnsubscribe := setters.foldl apply new

def call (m : MqttUnsubscribe) (out : Bytes) : Except Stop (Bool × Bytes) :=
  .ok ((m.toString out).1, (m.toString out).2.2)

/-- `body_len_` has what the topics take, in 32 bits. -/
def Counted (m : MqttUnsubscribe) : Prop :=
  m.bodyLen + 2 = UInt32.ofNat (Piece.total m.pieces)

theorem Counted.apply {m : MqttUnsubscribe} (h : Counted m) (s : Setter) :
    Counted (apply m s) := by
  cases s with
  | pktId id =>
      simp only [MqttUnsubscribe.apply, setPktId]
      split <;> exact h
  | topic topic =>
      have hp : Piece.total (m.addTopic topic).pieces
          = Piece.total m.pieces + (2 + (cString topic).length) := by
        simp only [pieces, addTopic, List.map_append, List.map_cons, List.map_nil,
          Piece.total_cons, Piece.total_append, Piece.total_nil, Piece.size]
        omega
      change m.bodyLen + (2 + UInt32.ofNat (cString topic).length) + 2 = _
      rw [MqttUnsubscribe.apply, hp, UInt32.ofNat_add, ← h, UInt32.ofNat_add, UInt32.add_assoc,
        UInt32.add_comm _ 2, ← UInt32.add_assoc]
      rfl

theorem counted_after (setters : List Setter) : Counted (after setters) := by
  induction setters using List.reverseRecOn with
  | nil => exact rfl
  | append_singleton setters s ih =>
      simp only [after, List.foldl_append, List.foldl_cons, List.foldl_nil] at ih ⊢
      exact ih.apply s

theorem Counted.consistent_iff {m : MqttUnsubscribe} (h : Counted m) :
    SelfConsistent m.call m.pieces ↔
      Representable m.pieces ∨ 268435456 ≤ Piece.total m.pieces % 4294967296 ∨
        m.topics = [] := by
  by_cases hno : m.topics = []
  · refine ⟨fun _ => .inr (.inr hno), fun _ => .of_refused fun out => ?_⟩
    simp only [call, toString, if_pos hno]
  · rw [selfConsistent_iff fun out => by rw [call, toString_framed hno, h]]
    exact or_congr_right (or_iff_left hno).symm

end MqttUnsubscribe

/-- **A fresh message is packed as it announces exactly when it can be
represented**, or is refused all the same: for the low 32 bits of its length,
for a packet id that is missing, or for want of topics. -/
theorem packets_consistent_iff (past : UInt8) (cs : List MqttConnect.Setter)
    (ps : List MqttPublish.Setter) (ss : List MqttSubscribe.Setter)
    (us : List MqttUnsubscribe.Setter) :
    (SelfConsistent (MqttConnect.build past cs).call (MqttConnect.build past cs).pieces ↔
      Representable (MqttConnect.build past cs).pieces ∨
        268435456 ≤ Piece.total (MqttConnect.build past cs).pieces % 4294967296) ∧
    (SelfConsistent (MqttPublish.build ps).call (MqttPublish.build ps).pieces ↔
      Representable (MqttPublish.build ps).pieces ∨
        268435456 ≤ Piece.total (MqttPublish.build ps).pieces % 4294967296 ∨
        ((MqttPublish.build ps).header.getQos ≠ .qos0 ∧ (MqttPublish.build ps).pktId = 0)) ∧
    (SelfConsistent (MqttSubscribe.after ss).call (MqttSubscribe.after ss).pieces ↔
      Representable (MqttSubscribe.after ss).pieces ∨
        268435456 ≤ Piece.total (MqttSubscribe.after ss).pieces % 4294967296 ∨
        (MqttSubscribe.after ss).topics = []) ∧
    (SelfConsistent (MqttUnsubscribe.after us).call (MqttUnsubscribe.after us).pieces ↔
      Representable (MqttUnsubscribe.after us).pieces ∨
        268435456 ≤ Piece.total (MqttUnsubscribe.after us).pieces % 4294967296 ∨
        (MqttUnsubscribe.after us).topics = []) :=
  ⟨(MqttConnect.build past cs).consistent_iff,
    MqttPublish.consistent_iff (MqttPublish.payloadGiven_build ps),
    (MqttSubscribe.counted_after ss).consistent_iff,
    (MqttUnsubscribe.counted_after us).consistent_iff⟩

theorem MqttConnect.inconsistent_cid {cid : Bytes} (hlen : cid.length = 65536) (hz : 0 ∉ cid) :
    ¬ SelfConsistent (build 0 [.cid (some cid)]).call (build 0 [.cid (some cid)]).pieces := by
  have hne : cid ≠ [] := List.ne_nil_of_length_eq_add_one hlen
  have hm : build 0 [.cid (some cid)] = { new 0 with cid } := by
    simp [build, apply, setCid, assignUnlessEmpty, cString_eq hz, hne]
  rw [consistent_iff, hm]
  rintro (h | h)
  · have hs := h.short cid (by simp [pieces])
    omega
  · rw [total_pieces] at h
    simp [remaining, new, hlen, optLen, optWillLen] at h

/-- A client id of 65536 bytes is announced as an empty one. -/
theorem long_cid_inconsistent :
    ¬ SelfConsistent (MqttConnect.build 0 [.cid (some (List.replicate 65536 0x61))]).call
      (MqttConnect.build 0 [.cid (some (List.replicate 65536 0x61))]).pieces :=
  MqttConnect.inconsistent_cid List.length_replicate fun h =>
    absurd (List.eq_of_mem_replicate h) (by decide)

end Libnio.Mqtt
