import Libnio.Mqtt.Packing
import Libnio.Mqtt.ConnectHeld

/-!
# Mqtt — messages that are written again

`to_string` changes its object: `body_len_`, `conn_flags_`, the will. The
constructors that parse fill the same members. `HistoryFree`: what is appended
depends on the contents of the message only, so that it is parsed back, and
appended a second time.
-/

namespace Libnio.Mqtt

open Stream Wire Grammar

/-- **Encoding does not depend on history.** `decodes` is said of a message and
of a packet that is parsed back to the same contents. -/
structure HistoryFree {σ : Type} (toString : σ → Bytes → Bool × σ × Bytes) (t : MqttType)
    (decodes : σ → Bytes → Prop) (m : σ) : Prop where
  encodes : ∀ out m' out', toString m out = (true, m', out') →
    ∃ f body, out' = out ++ MqttHeader.firstByte t f :: (Base128.encode body.length ++ body)
      ∧ body.length < 268435456
      ∧ decodes m (MqttHeader.firstByte t f :: (Base128.encode body.length ++ body))
  repeats : ∀ out out', ∃ packet, (toString m out).2.2 = out ++ packet
    ∧ (toString (toString m out).2.1 out').2.2 = out' ++ packet

/-! ## Messages that count their bodies -/

section Counted

variable {σ : Type} {toString : σ → Bytes → Bool × σ × Bytes} {t : MqttType}
  {decodes : σ → Bytes → Prop} {m m' : σ}

/-- A call that refuses, twice. -/
theorem HistoryFree.of_refused (h : ∀ out, toString m out = (false, m', out))
    (h' : ∀ out, (toString m' out).2.2 = out) : HistoryFree toString t decodes m where
  encodes := fun out m1 out' hc => by
    rw [h] at hc
    cases hc
  repeats := fun out out' => ⟨[], by rw [h, List.append_nil], by rw [h, h', List.append_nil]⟩

/-- A call after which another length is announced. -/
theorem historyFree_counted {first first' : UInt8} {n n' : Nat} {body : Bytes}
    (h : ∀ out, toString m out = (decide (n < 268435456), m', framed first n body out))
    (h' : ∀ out, (toString m' out).2.2 = framed first' n' body out) (hne : n ≠ n') :
    HistoryFree toString t decodes m ↔ 268435456 ≤ n ∧ 268435456 ≤ n' := by
  constructor
  · intro hf
    obtain ⟨packet, h1, h2⟩ := hf.repeats [] []
    rw [h] at h1 h2
    rw [h'] at h2
    refine Classical.byContradiction fun hc => hne ?_
    exact framed_inj (h1.trans h2.symm) (by omega)
  · rintro ⟨hn, hn'⟩
    have hno : ∀ out, toString m out = (false, m', out) := fun out => by
      rw [h, framed, if_neg (by omega), decide_eq_false (by omega)]
    exact .of_refused hno fun out => by rw [h', framed, if_neg (by omega)]

end Counted

theorem toNat_two_ne_four (x : UInt32) : (x + 2).toNat ≠ (x + 2 + 2).toNat := by
  simp only [UInt32.toNat_add, show UInt32.toNat 2 = 2 from rfl]
  omega

namespace MqttSubscribe

def decodes (m : MqttSubscribe) (packet : Bytes) : Prop :=
  parser.Parses packet fun d => d.topics = m.topics ∧ d.qoses = m.qoses ∧ d.pktId = m.pktId

theorem historyFree_iff (m : MqttSubscribe) :
    HistoryFree toString .subscribe decodes m ↔ m.topics = [] ∨
      (268435456 ≤ (m.bodyLen + 2).toNat ∧ 268435456 ≤ (m.bodyLen + 2 + 2).toNat) := by
  by_cases h : m.topics = []
  · have hno : ∀ out, m.toString out = (false, m, out) := fun out => by rw [toString, if_pos h]
    exact ⟨fun _ => .inl h, fun _ => .of_refused hno fun out => by rw [hno]⟩
  · rw [historyFree_counted (toString_framed h)
      (fun out => by rw [toString_framed (m := m.afterToString) h]; rfl)
      (toNat_two_ne_four m.bodyLen)]
    exact (or_iff_right h).symm

end MqttSubscribe

namespace MqttUnsubscribe

def decodes (m : MqttUnsubscribe) (packet : Bytes) : Prop :=
  parser.Parses packet fun d => d.topics = m.topics ∧ d.pktId = m.pktId

theorem historyFree_iff (m : MqttUnsubscribe) :
    HistoryFree toString .unsubscribe decodes m ↔ m.topics = [] ∨
      (268435456 ≤ (m.bodyLen + 2).toNat ∧ 268435456 ≤ (m.bodyLen + 2 + 2).toNat) := by
  by_cases h : m.topics = []
  · have hno : ∀ out, m.toString out = (false, m, out) := fun out => by rw [toString, if_pos h]
    exact ⟨fun _ => .inl h, fun _ => .of_refused hno fun out => by rw [hno]⟩
  · rw [historyFree_counted (toString_framed h)
      (fun out => by rw [toString_framed (m := m.afterToString) h]; rfl)
      (toNat_two_ne_four m.bodyLen)]
    exact (or_iff_right h).symm

end MqttUnsubscribe

namespace MqttSuback

def decodes (m : MqttSuback) (packet : Bytes) : Prop :=
  parser.Parses packet fun d => d.qoses = m.qoses ∧ d.pktId = m.pktId

theorem historyFree_iff (m : MqttSuback) :
    HistoryFree toString .suback decodes m ↔ m.qoses = [] ∨
      (268435456 ≤ (m.bodyLen + 2).toNat ∧ 268435456 ≤ (m.bodyLen + 2 + 2).toNat) := by
  by_cases h : m.qoses = []
  · have hno : ∀ out, m.toString out = (false, m, out) := fun out => by rw [toString, if_pos h]
    exact ⟨fun _ => .inl h, fun _ => .of_refused hno fun out => by rw [hno]⟩
  · rw [historyFree_counted (toString_framed h)
      (fun out => by rw [toString_framed (m := m.afterToString) h]; rfl)
      (toNat_two_ne_four m.bodyLen)]
    exact (or_iff_right h).symm

end MqttSuback

/-! ## CONNECT -/

namespace MqttConnect

/-- A CONNECT object, whatever was done to it. -/
inductive Reached : MqttConnect → Prop where
  | new (past : UInt8) : Reached (new past)
  /-- It was made for a CONNECT header, and its packet was parsed to the end. -/
  | parsed {past : UInt8} {header : MqttHeader} {m : MqttConnect} {reads reads' : List Bytes} :
      header.getType = .connect → (∀ data ∈ reads, data ≠ []) →
      feed MqttConnect.finished update (ofHeader past header) reads = .ok (m, reads') →
      m.finished = true → Reached m
  | set {m : MqttConnect} : Reached m → (s : Setter) → Reached (apply m s)
  | wrote {m : MqttConnect} : Reached m → (out : Bytes) → Reached (m.toString out).2.1

theorem apply_header (m : MqttConnect) (s : Setter) : (apply m s).header = m.header := by
  cases s with
  | willQos qos => exact (setWillQos_facts m qos).1
  | _ => rfl

theorem Reached.type_eq {m : MqttConnect} (h : Reached m) : m.header.type = .connect := by
  induction h with
  | new past => rfl
  | @parsed past header m reads reads' ht hr hp hf =>
      have hrun := run_of_feed connect_lawful (parser past).update_eq
        (inv_ofHeader past header) hr hp
      rw [(held_run hrun).header_eq]
      exact ht
  | set _ s ih =>
      rw [apply_header]
      exact ih
  | wrote _ out ih =>
      rw [toString_framed]
      exact ih

/-! ### What is written -/

/-- What is sent of the will. -/
def sentTopic (m : MqttConnect) : Bytes :=
  if m.willTopic ≠ [] ∧ m.willMsg ≠ [] then m.willTopic else []

def sentMsg (m : MqttConnect) : Bytes :=
  if m.willTopic ≠ [] ∧ m.willMsg ≠ [] then m.willMsg else []

def decodes (m : MqttConnect) (packet : Bytes) : Prop :=
  ∀ past, (parser past).Parses packet fun d =>
    d.cid = m.cid ∧ d.username = m.username ∧ d.passwd = m.passwd
      ∧ d.willTopic = m.sentTopic ∧ d.willMsg = m.sentMsg

theorem sent_iff (m : MqttConnect) :
    m.sentTopic ≠ [] ∧ m.sentMsg ≠ [] ↔ m.willTopic ≠ [] ∧ m.willMsg ≠ [] := by
  unfold sentTopic sentMsg
  by_cases h : m.willTopic ≠ [] ∧ m.willMsg ≠ []
  · simp only [if_pos h]
  · simp only [if_neg h]
    simp [h]

/-- `conn_flags_` announces no field that is empty. -/
structure FlagsKept (m : MqttConnect) : Prop where
  username : m.connFlags &&& 0x80 ≠ 0 → m.username ≠ []
  passwd : m.connFlags &&& 0x40 ≠ 0 → m.passwd ≠ []
  will : m.connFlags &&& 0x04 ≠ 0 → m.willTopic ≠ [] ∧ m.willMsg ≠ []

/-- A flag is sent when it was there, or its field is. -/
theorem wireFlags_iff (m : MqttConnect) :
    (wireFlags m &&& 0x04 ≠ 0 ↔
        (m.willTopic ≠ [] ∧ m.willMsg ≠ []) ∨ m.connFlags &&& 0x04 ≠ 0)
      ∧ (wireFlags m &&& 0x80 ≠ 0 ↔ m.username ≠ [] ∨ m.connFlags &&& 0x80 ≠ 0)
      ∧ (wireFlags m &&& 0x40 ≠ 0 ↔ m.passwd ≠ [] ∨ m.connFlags &&& 0x40 ≠ 0) := by
  have hbits : ∀ (c : UInt8) (w u p : Bool),
      (orIf w 2 (orIf p 6 (orIf u 7 c)) &&& 0x04 ≠ 0 ↔ w = true ∨ c &&& 0x04 ≠ 0)
        ∧ (orIf w 2 (orIf p 6 (orIf u 7 c)) &&& 0x80 ≠ 0 ↔ u = true ∨ c &&& 0x80 ≠ 0)
        ∧ (orIf w 2 (orIf p 6 (orIf u 7 c)) &&& 0x40 ≠ 0 ↔ p = true ∨ c &&& 0x40 ≠ 0) := by
    rintro ⟨c⟩
    revert c
    decide +kernel
  have h := hbits m.connFlags (decide (m.willTopic ≠ [] ∧ m.willMsg ≠ []))
    (decide (m.username ≠ [])) (decide (m.passwd ≠ []))
  simp only [decide_eq_true_eq] at h
  exact h

theorem FlagsKept.wireFlags_iff {m : MqttConnect} (h : FlagsKept m) :
    (wireFlags m &&& 0x04 ≠ 0 ↔ m.willTopic ≠ [] ∧ m.willMsg ≠ [])
      ∧ (wireFlags m &&& 0x80 ≠ 0 ↔ m.username ≠ [])
      ∧ (wireFlags m &&& 0x40 ≠ 0 ↔ m.passwd ≠ []) := by
  obtain ⟨hw, hu, hp⟩ := m.wireFlags_iff
  exact ⟨hw.trans (or_iff_left_of_imp h.will), hu.trans (or_iff_left_of_imp h.username),
    hp.trans (or_iff_left_of_imp h.passwd)⟩

/-- The strings of a packet. -/
def strings (m : MqttConnect) : List Bytes :=
  m.cid :: ((if m.willTopic ≠ [] ∧ m.willMsg ≠ [] then [m.willTopic, m.willMsg] else []) ++
    ((if m.username ≠ [] then [m.username] else []) ++
      (if m.passwd ≠ [] then [m.passwd] else [])))

def start (m : MqttConnect) : Bytes :=
  [0, 0x04, 0x4d, 0x51, 0x54, 0x54, 0x04, wireFlags m, msb m.keepAlive, lsb m.keepAlive]

theorem pieces_eq (m : MqttConnect) : m.pieces = .raw m.start :: m.strings.map .str := by
  unfold pieces strings start willPieces optPiece
  by_cases hw : m.willTopic ≠ [] ∧ m.willMsg ≠ [] <;> by_cases hu : m.username ≠ [] <;>
    by_cases hp : m.passwd ≠ [] <;> simp [hw, hu, hp]

theorem short_iff (m : MqttConnect) :
    Piece.Short m.pieces ↔ ∀ s ∈ m.strings, s.length ≤ 65535 := by
  rw [pieces_eq]
  simp [Piece.Short]

theorem emit_str {strings : List Bytes} (h : ∀ s ∈ strings, s.length ≤ 65535) :
    Piece.emit (strings.map .str) = strs strings := by
  induction strings with
  | nil => rfl
  | cons s strings ih =>
      rw [List.map_cons, Piece.emit_cons, Piece.bytes, packed_str (h s (by simp)),
        ih fun s hs => h s (by simp [hs])]
      rfl

theorem emit_pieces {m : MqttConnect} (h : Piece.Short m.pieces) :
    Piece.emit m.pieces = m.start ++ strs m.strings := by
  rw [pieces_eq, Piece.emit_cons, Piece.bytes, emit_str ((short_iff m).mp h)]

theorem length_strings (m : MqttConnect) :
    m.strings.length = 1 + (if m.willTopic ≠ [] ∧ m.willMsg ≠ [] then 2 else 0)
      + (if m.username ≠ [] then 1 else 0) + (if m.passwd ≠ [] then 1 else 0) := by
  unfold strings
  by_cases hw : m.willTopic ≠ [] ∧ m.willMsg ≠ [] <;> by_cases hu : m.username ≠ [] <;>
    by_cases hp : m.passwd ≠ [] <;> simp [hw, hu, hp]

theorem emit_wireBody {m : MqttConnect} (h : Piece.Short m.pieces) :
    Piece.emit m.pieces = wireBody (wireFlags m) m.keepAlive m.cid m.sentTopic m.sentMsg
      m.username m.passwd := by
  have hwill : strs (if m.willTopic ≠ [] ∧ m.willMsg ≠ [] then [m.willTopic, m.willMsg] else [])
      = optWill m.sentTopic m.sentMsg := by
    unfold optWill sentTopic sentMsg strs
    by_cases hw : m.willTopic ≠ [] ∧ m.willMsg ≠ []
    · simp [hw]
    · simp [if_neg hw]
  have hopt : ∀ s : Bytes, strs (if s ≠ [] then [s] else []) = optStr s := by
    intro s
    unfold strs optStr
    by_cases hs : s = [] <;> simp [hs]
  rw [emit_pieces h, strings, wireBody, ← hwill, ← hopt, ← hopt]
  simp [strs, start]

/-- The second call finds what the first one found. -/
theorem afterToString_idem (m : MqttConnect) :
    m.afterToString.remaining = m.remaining ∧ m.afterToString.pieces = m.pieces := by
  have hboth : (if m.willTopic ≠ [] ∧ m.willMsg ≠ [] then m.willTopic else []) ≠ [] ∧
      (if m.willTopic ≠ [] ∧ m.willMsg ≠ [] then m.willMsg else []) ≠ [] ↔
      m.willTopic ≠ [] ∧ m.willMsg ≠ [] := m.sent_iff
  have hbits : ∀ (c : UInt8) (w u p : Bool),
      orIf w 2 (orIf p 6 (orIf u 7 (orIf w 2 (orIf p 6 (orIf u 7 c)))))
        = orIf w 2 (orIf p 6 (orIf u 7 c)) := by
    rintro ⟨c⟩
    revert c
    decide +kernel
  have hflags : wireFlags m.afterToString = wireFlags m := by
    have h := hbits m.connFlags (decide (m.willTopic ≠ [] ∧ m.willMsg ≠ []))
      (decide (m.username ≠ [])) (decide (m.passwd ≠ []))
    simp only [decide_eq_true_eq] at h
    simp only [wireFlags, afterToString, hboth]
    exact h
  constructor
  · simp only [remaining, afterToString, optWillLen, hboth]
    by_cases hw : m.willTopic ≠ [] ∧ m.willMsg ≠ []
    · simp only [if_pos hw]
    · simp only [if_neg hw]
  · simp only [pieces, hflags]
    simp only [afterToString, willPieces, hboth]
    by_cases hw : m.willTopic ≠ [] ∧ m.willMsg ≠ []
    · simp only [if_pos hw]
    · simp only [if_neg hw]

theorem repeats (m : MqttConnect) (out out' : Bytes) :
    ∃ packet, (m.toString out).2.2 = out ++ packet
      ∧ ((m.toString out).2.1.toString out').2.2 = out' ++ packet := by
  obtain ⟨hrem, hpieces⟩ := m.afterToString_idem
  refine ⟨framed (MqttHeader.firstByte m.header.type m.header.hflags)
    (UInt32.ofNat m.remaining).toNat (Piece.emit m.pieces) [], ?_, ?_⟩
  · rw [toString_framed, framed_eq_append]
  · rw [m.toString_framed out]
    change (m.afterToString.toString out').2.2 = _
    rw [toString_framed, hrem, hpieces, framed_eq_append]
    rfl

theorem remaining_short {m : MqttConnect} (h : Piece.Short m.pieces) :
    m.remaining < 268435456 := by
  have hs := (short_iff m).mp h
  have hsum : ∀ strings : List Bytes, (∀ s ∈ strings, s.length ≤ 65535) →
      Piece.total (strings.map .str) ≤ 65537 * strings.length := by
    intro strings hl
    induction strings with
    | nil => exact Nat.le_refl 0
    | cons s strings ih =>
        have := ih fun s hs => hl s (by simp [hs])
        have := hl s (by simp)
        rw [List.map_cons, Piece.total_cons, Piece.size, List.length_cons]
        omega
  have h5 : m.strings.length ≤ 5 := by
    rw [length_strings]
    split <;> split <;> split <;> omega
  have := hsum m.strings hs
  rw [← total_pieces, pieces_eq, Piece.total_cons, Piece.size]
  have : m.start.length = 10 := rfl
  omega

/-- What is written can be parsed. -/
theorem decodes_of_flags {m : MqttConnect} (hs : Piece.Short m.pieces) (hf : FlagsKept m)
    (f : BitVec 4) : decodes m (MqttHeader.firstByte .connect f ::
      (Base128.encode (Piece.emit m.pieces).length ++ Piece.emit m.pieces)) := by
  intro past
  obtain ⟨hw, hu, hp⟩ := hf.wireFlags_iff
  have hl := (short_iff m).mp hs
  have hsent : m.sentTopic.length ≤ 65535 ∧ m.sentMsg.length ≤ 65535 := by
    unfold sentTopic sentMsg
    by_cases h : m.willTopic ≠ [] ∧ m.willMsg ≠ []
    · simp only [if_pos h]
      exact ⟨hl _ (by simp [strings, h]), hl _ (by simp [strings, h])⟩
    · simp only [if_neg h]
      exact ⟨Nat.zero_le _, Nat.zero_le _⟩
  have hopt : m.username.length ≤ 65535 ∧ m.passwd.length ≤ 65535 := by
    constructor
    · by_cases h : m.username = []
      · simp [h]
      · exact hl _ (by simp [strings, h])
    · by_cases h : m.passwd = []
      · simp [h]
      · exact hl _ (by simp [strings, h])
  refine MessageParser.parses_built (by simp) (by simp)
    (by rw [hs.length_emit, total_pieces]; exact remaining_short hs) fun header _ _ _ => ?_
  obtain ⟨d, hd, hrun⟩ := run_body past header m.keepAlive (hl m.cid (by simp [strings]))
    hsent.1 hsent.2 hopt.1 hopt.2 (hw.trans m.sent_iff.symm) hu hp
  have hboth := m.sent_iff
  refine ⟨d, hd.finished, ⟨hd.cid_eq, hd.username_eq, hd.passwd_eq, ?_, ?_⟩, fun rest => ?_⟩
  · rw [hd.willTopic_eq]
    by_cases h : m.willTopic ≠ [] ∧ m.willMsg ≠ []
    · rw [if_pos (hboth.mpr h)]
    · rw [if_neg fun hc => h (hboth.mp hc), sentTopic, if_neg h]
  · rw [hd.willMsg_eq]
    by_cases h : m.willTopic ≠ [] ∧ m.willMsg ≠ []
    · rw [if_pos (hboth.mpr h)]
    · rw [if_neg fun hc => h (hboth.mp hc), sentMsg, if_neg h]
  · rw [emit_wireBody hs, parser_run]
    exact hrun rest

/-- What can be parsed has short strings, and all those that the flags ask for. -/
theorem flags_of_decodes {m : MqttConnect} {f : BitVec 4} {n : Nat} (hn : n < 268435456)
    (h : decodes m (MqttHeader.firstByte .connect f ::
      (Base128.encode n ++ Piece.emit m.pieces))) :
    Piece.Short m.pieces ∧ FlagsKept m := by
  obtain ⟨header, d, -, hfin, ⟨hcid, hu, hp, ht, hg⟩, hrun⟩ :=
    MessageParser.run_of_parses (by simp) (by simp) hn (h 0)
  rw [parser_run] at hrun
  have hheld := held_run hrun
  have hshort : ∀ s ∈ m.strings, s.length ≤ 65535 := by
    have hcl := hcid ▸ hheld.cid.le
    have hul := hu ▸ hheld.username.le
    have hpl := hp ▸ hheld.passwd.le
    have htl := ht ▸ hheld.willTopic.le
    have hgl := hg ▸ hheld.willMsg.le
    have hw : ∀ s ∈ (if m.willTopic ≠ [] ∧ m.willMsg ≠ [] then [m.willTopic, m.willMsg] else []),
        s.length ≤ 65535 := by
      unfold sentTopic at htl
      unfold sentMsg at hgl
      by_cases hw : m.willTopic ≠ [] ∧ m.willMsg ≠ []
      · rw [if_pos hw] at htl hgl ⊢
        simp [htl, hgl]
      · rw [if_neg hw]
        simp
    intro s hs
    simp only [strings, List.mem_cons, List.mem_append] at hs
    rcases hs with rfl | hs | hs | hs
    · exact hcl
    · exact hw s hs
    · split at hs <;> simp at hs
      exact hs ▸ hul
    · split at hs <;> simp at hs
      exact hs ▸ hpl
  have hs := (short_iff m).mpr hshort
  refine ⟨hs, ?_⟩
  -- the grammar is completed by as many strings as there are
  have hcomp := ((follows 0 header).completes_iff (Piece.emit m.pieces)).mpr ⟨d, [], hfin, hrun⟩
  rw [emit_pieces hs, connectBody, Grammar.completes, Bool.and_eq_true] at hcomp
  have hle : 1 + (if wireFlags m &&& 0x04 ≠ 0 then 2 else 0)
      + (if wireFlags m &&& 0x80 ≠ 0 then 1 else 0)
      + (if wireFlags m &&& 0x40 ≠ 0 then 1 else 0) ≤ m.strings.length :=
    completes_strings hshort hcomp.2
  obtain ⟨hw, hu, hp⟩ := m.wireFlags_iff
  rw [length_strings] at hle
  have hmono : ∀ (a b c : Prop) [Decidable a] [Decidable b] (k : Nat), (b ↔ a ∨ c) →
      (if a then k else 0) ≤ (if b then k else 0) := by
    intro a b c _ _ k hb
    by_cases ha : a
    · rw [if_pos ha, if_pos (hb.mpr (.inl ha))]
    · rw [if_neg ha]
      exact Nat.zero_le _
  have hwle := hmono _ _ _ 2 hw
  have hule := hmono _ _ _ 1 hu
  have hple := hmono _ _ _ 1 hp
  refine ⟨fun hc => Classical.byContradiction fun hno => ?_,
    fun hc => Classical.byContradiction fun hno => ?_,
    fun hc => Classical.byContradiction fun hno => ?_⟩
  · rw [if_pos (hu.mpr (.inr hc)), if_neg hno] at hle
    omega
  · rw [if_pos (hp.mpr (.inr hc)), if_neg hno] at hle
    omega
  · rw [if_pos (hw.mpr (.inr hc)), if_neg hno] at hle
    omega

/-- For a CONNECT, reached in any way: its strings have to be short, and its flags
must not have been left by fields that a packet had empty. -/
theorem Reached.historyFree_iff {m : MqttConnect} (h : Reached m) :
    HistoryFree toString .connect decodes m ↔
      (Piece.Short m.pieces ∧ FlagsKept m) ∨ 268435456 ≤ m.remaining % 4294967296 := by
  have hn : (UInt32.ofNat m.remaining).toNat = m.remaining % 4294967296 := UInt32.toNat_ofNat'
  constructor
  · intro hf
    by_cases hbig : 268435456 ≤ m.remaining % 4294967296
    · exact .inr hbig
    · have hlt : (UInt32.ofNat m.remaining).toNat < 268435456 := by omega
      have hstr := m.toString_framed []
      rw [decide_eq_true hlt] at hstr
      obtain ⟨f, body, hout, hbody, hdec⟩ := hf.encodes _ _ _ hstr
      rw [framed, if_pos hlt, List.nil_append, List.nil_append, List.cons.injEq] at hout
      -- the same digits are in front of the same body
      have hsplit := (Base128.split_eq_some (k := 4)).mpr ⟨hout.2,
        Base128.digits_encode body.length, Base128.length_encode_le (by decide) (by omega)⟩
      rw [(Base128.split_eq_some (k := 4)).mpr ⟨rfl, Base128.digits_encode _,
        Base128.length_encode_le (by decide) (by omega)⟩] at hsplit
      simp only [Option.some.injEq, Prod.mk.injEq] at hsplit
      rw [← hsplit.2] at hdec hbody
      exact .inl (flags_of_decodes hbody hdec)
  · intro hc
    refine ⟨fun out m' out' hstr => ?_, m.repeats⟩
    rw [toString_framed, h.type_eq] at hstr
    simp only [Prod.mk.injEq, decide_eq_true_eq] at hstr
    obtain ⟨hlt, -, hout⟩ := hstr
    rcases hc with ⟨hs, hflags⟩ | hbig
    · have hlen : (Piece.emit m.pieces).length = m.remaining := by
        rw [hs.length_emit, total_pieces]
      have hrem := remaining_short hs
      refine ⟨m.header.hflags, Piece.emit m.pieces, ?_, by omega,
        decodes_of_flags hs hflags _⟩
      rw [← hout, framed, if_pos hlt, hlen, hn, Nat.mod_eq_of_lt (by omega)]
    · omega

end MqttConnect

/-- **Which messages do not show their history.** SUBSCRIBE, UNSUBSCRIBE and SUBACK
only if they are refused, since `body_len_` grows with every call; CONNECT if its
strings are short and `conn_flags_` announces no empty field. -/
theorem written_again_iff (s : MqttSubscribe) (u : MqttUnsubscribe) (a : MqttSuback)
    (c : MqttConnect) (hc : c.Reached) :
    (HistoryFree MqttSubscribe.toString .subscribe MqttSubscribe.decodes s ↔
      s.topics = [] ∨ (268435456 ≤ (s.bodyLen + 2).toNat ∧
        268435456 ≤ (s.bodyLen + 2 + 2).toNat)) ∧
    (HistoryFree MqttUnsubscribe.toString .unsubscribe MqttUnsubscribe.decodes u ↔
      u.topics = [] ∨ (268435456 ≤ (u.bodyLen + 2).toNat ∧
        268435456 ≤ (u.bodyLen + 2 + 2).toNat)) ∧
    (HistoryFree MqttSuback.toString .suback MqttSuback.decodes a ↔
      a.qoses = [] ∨ (268435456 ≤ (a.bodyLen + 2).toNat ∧
        268435456 ≤ (a.bodyLen + 2 + 2).toNat)) ∧
    (HistoryFree MqttConnect.toString .connect MqttConnect.decodes c ↔
      (Piece.Short c.pieces ∧ c.FlagsKept) ∨ 268435456 ≤ c.remaining % 4294967296) :=
  ⟨s.historyFree_iff, u.historyFree_iff, a.historyFree_iff, hc.historyFree_iff⟩

/-- A client id of one byte, and lists without an entry. -/
theorem written_again_cid :
    HistoryFree MqttSubscribe.toString .subscribe MqttSubscribe.decodes MqttSubscribe.new ∧
      HistoryFree MqttConnect.toString .connect MqttConnect.decodes
        (MqttConnect.apply (MqttConnect.new 0) (.cid (some [0x61]))) := by
  obtain ⟨hs, -, -, hc⟩ := written_again_iff MqttSubscribe.new MqttUnsubscribe.new
    MqttSuback.new _ (.set (.new 0) (.cid (some [0x61])))
  refine ⟨hs.mpr (.inl rfl), hc.mpr (.inl ⟨?_, by decide, by decide, by decide⟩)⟩
  rw [MqttConnect.short_iff]
  decide

/-- A SUBSCRIBE with a topic of one byte: the second call announces two bytes more. -/
theorem subscribe_again_longer :
    ¬ HistoryFree MqttSubscribe.toString .subscribe MqttSubscribe.decodes
      (MqttSubscribe.new.addTopic [0x61] .qos0) := by
  rw [MqttSubscribe.historyFree_iff]
  decide +kernel

end Libnio.Mqtt
