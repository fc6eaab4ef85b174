import Libnio.Mqtt.Suback
import Libnio.Mqtt.Packet

/-!
# Mqtt — SUBSCRIBE and SUBACK round trips

The parsers run over whole fields, from that over one entry of the list, and
by induction over the list: the bytes counted by the parser meet the length
counted by the setters at the last entry and not before.
-/

namespace Libnio.Mqtt

open Stream

namespace MqttSubscribe

def parser : MessageParser MqttSubscribe :=
  { ofHeader, finished := MqttSubscribe.finished, update, run, Inv
    update_eq := fun _ _ hd => if_neg hd
    lawful := subscribe_lawful
    inv_ofHeader }

theorem parser_run (header : MqttHeader) (data : Bytes) :
    parser.run (parser.ofHeader header) data = run (ofHeader header) data := rfl

/-! ## Runs over the fields -/

theorem fills_headerVar (header : MqttHeader) :
    Fills (fun m : MqttSubscribe => m.nread < 2) putHeaderVar
      (fun xs => { ofHeader header with
        buff := fill (Vector.replicate 2 0) xs, nread := UInt32.ofNat xs.length }) 2 :=
  .of_counter (f := fun buff nread => { ofHeader header with buff, nread }) (Nat.le_refl 2)
    (by decide) (fun _ _ => rfl) (fun _ _ b hk => putHeaderVar_eq hk b) _

theorem fills_topicLen (m : MqttSubscribe) :
    Fills (fun m : MqttSubscribe => m.dlen < 2) putTopicLen
      (fun xs => { m with buff := fill m.buff xs, dlen := xs.length,
                          nread := m.nread + UInt32.ofNat xs.length }) 2 :=
  .of_store (f := fun buff k => { m with buff, dlen := k, nread := m.nread + UInt32.ofNat k })
    (Nat.le_refl 2) (fun _ _ _ => rfl) (fun _ k b hk => by
      rw [putTopicLen_eq hk]
      simp [UInt32.add_assoc]) m.buff

theorem fills_topic (m : MqttSubscribe) (n : Nat) :
    Fills (fun m : MqttSubscribe => m.dlen > 0) putTopic
      (fun xs => { m with topic := m.topic ++ xs, dlen := n - xs.length }) n :=
  .of_countdown (f := fun xs dlen => { m with topic := m.topic ++ xs, dlen }) (fun _ _ => rfl)
    (fun xs b d => by rw [putTopic, List.append_assoc]) n

/-- Where the parser is once it has read a packet id. -/
def afterPktId (header : MqttHeader) (i0 i1 : UInt8) : MqttSubscribe :=
  { ofHeader header with
    buff := fill (Vector.replicate 2 0) [i0, i1], nread := 2,
    pktId := UInt16.ofNat (short i0 i1), status := .topicLen }

theorem run_pktId (header : MqttHeader) (i0 i1 : UInt8) (rest : Bytes) :
    run (ofHeader header) (i0 :: i1 :: rest)
      = if header.dlen.toNat ≤ 2 then .error (.error "no payload!")
        else run (afterPktId header i0 i1) rest := by
  have hnext : headerVarNext { ofHeader header with
        buff := fill (Vector.replicate 2 0) [i0, i1], nread := UInt32.ofNat 2 }
      = if 0 + UInt32.ofNat 2 ≥ header.dlen then .error (.error "no payload!")
        else .ok (afterPktId header i0 i1) := by
    simp only [headerVarNext, unpackShort_fill (n := 2) _ 0 1 rfl rfl]
    rfl
  exact (fills_headerVar header).run_counted (by simp [ofHeader]) subscribe_resumable
    (inv_ofHeader header) rfl (fun _ _ => rfl) rfl rfl rfl (by decide) hnext rest

/-- Between two entries: `k` bytes are counted, `n` are announced. -/
structure AtEntry (n k : Nat) (m : MqttSubscribe) : Prop where
  status_eq : m.status = .topicLen
  dlen_eq : m.dlen = 0
  topic_eq : m.topic = []
  unfinished : m.finished = false
  nread_eq : m.nread.toNat = k
  bodyLen_eq : m.bodyLen.toNat = n

theorem atEntry_afterPktId (header : MqttHeader) (i0 i1 : UInt8) :
    AtEntry header.dlen.toNat 2 (afterPktId header i0 i1) :=
  ⟨rfl, rfl, rfl, rfl, rfl, rfl⟩

theorem AtEntry.inv {n k : Nat} {m : MqttSubscribe} (h : AtEntry n k m) : Inv m := by
  intro _
  rw [h.status_eq, h.dlen_eq]
  exact Nat.zero_lt_two

theorem run_topicLen {n k : Nat} {m : MqttSubscribe} (h : AtEntry n k m)
    (hk : k + 2 < 4294967296) (hi lo : UInt8) (rest : Bytes) :
    run m (hi :: lo :: rest)
      = if short hi lo = 0 then .error (.error "invalid topic len")
        else if n ≤ k + 2 then .error (.error "overflow")
        else run { m with buff := fill m.buff [hi, lo], dlen := short hi lo,
                          nread := m.nread + UInt32.ofNat 2, status := .topicVal } rest := by
  refine (fills_topicLen m).run_length (by simp; rw [← h.dlen_eq]) subscribe_resumable h.inv
    h.unfinished (fun data _ => by rw [handlers, h.status_eq]; rfl) rfl h.nread_eq h.bodyLen_eq hk
    ?_ rest
  simp only [topicLenNext, unpackShort_fill (n := 2) _ 0 1 rfl rfl, toNat_short]
  rfl

theorem run_topicVal {m : MqttSubscribe} (hst : m.status = .topicVal)
    (hf : m.finished = false) (ht : m.topic = []) {topic : Bytes} (h0 : topic ≠ [])
    (hd : m.dlen = topic.length) (rest : Bytes) :
    run m (topic ++ rest)
      = run { m with topic, dlen := 0, nread := m.nread + UInt32.ofNat topic.length,
                     status := .topicQos } rest := by
  have hpos : m.dlen > 0 := by
    rw [hd]
    exact List.length_pos_iff.mpr h0
  have hall := (fills_topic m m.dlen).run_all .timeout _ _ (s := m) (by simp)
    subscribe_resumable (fun _ => by rw [hst]; exact hpos) hf
    (fun data _ => by rw [handlers, hst]; rfl) (assertThat_true hpos) hd.symm hpos rest
  refine hall.trans ?_
  simp only [topicValNext, ok_bind, ht, List.nil_append]
  rfl

theorem run_topicQos {m : MqttSubscribe} (hst : m.status = .topicQos)
    (hf : m.finished = false) (ht : m.topic ≠ []) (b : UInt8) (rest : Bytes) :
    run m (b :: rest)
      = if m.nread + 1 ≥ m.bodyLen
        then .ok ({ m with nread := m.nread + 1, topics := m.topics ++ [m.topic],
                           topic := [], qoses := m.qoses ++ [decodeQos b],
                           finished := true }, rest)
        else run { m with nread := m.nread + 1, topics := m.topics ++ [m.topic],
                          topic := [], qoses := m.qoses ++ [decodeQos b], dlen := 0,
                          status := .topicLen } rest := by
  rw [run, subscribe_resumable.run_go (fun _ => by rw [hst]; trivial) hf (by simp)]
  simp only [handlers, hst, updateTopicQos, if_neg ht]
  split
  · exact run_stop (.inr rfl)
  · rfl

/-- **One entry of the list.** -/
theorem run_entry {n k : Nat} {m : MqttSubscribe} (h : AtEntry n k m)
    (hn : n < 268435456) (h2 : k + 2 < n) {hi lo : UInt8} {topic : Bytes}
    (h0 : topic ≠ []) (hl : topic.length = short hi lo) (b : UInt8) :
    ∃ m', m'.topics = m.topics ++ [topic] ∧ m'.qoses = m.qoses ++ [decodeQos b]
      ∧ m'.pktId = m.pktId
      ∧ if n ≤ k + topic.length + 3
        then m'.finished = true ∧
          ∀ rest, run m (hi :: lo :: (topic ++ b :: rest)) = .ok (m', rest)
        else AtEntry n (k + topic.length + 3) m' ∧
          ∀ rest, run m (hi :: lo :: (topic ++ b :: rest)) = run m' rest := by
  have hlt := short_lt hi lo
  have hs : short hi lo ≠ 0 := by
    rw [← hl]
    exact fun hc => h0 (List.eq_nil_of_length_eq_zero hc)
  have hread : (m.nread + UInt32.ofNat 2 + UInt32.ofNat topic.length + 1).toNat
      = k + topic.length + 3 := by
    have h1 : (m.nread + UInt32.ofNat 2).toNat = k + 2 := by
      rw [toNat_add_ofNat (by rw [h.nread_eq]; omega), h.nread_eq]
    have h3 : (m.nread + UInt32.ofNat 2 + UInt32.ofNat topic.length).toNat
        = k + 2 + topic.length := by
      rw [toNat_add_ofNat (by omega), h1]
    rw [show (1 : UInt32) = UInt32.ofNat 1 from rfl, toNat_add_ofNat (by omega), h3]
    omega
  -- before the QoS
  obtain ⟨s, hs'⟩ : ∃ s : MqttSubscribe, s =
      { m with buff := fill m.buff [hi, lo], topic, dlen := 0,
               nread := m.nread + UInt32.ofNat 2 + UInt32.ofNat topic.length,
               status := .topicQos } := ⟨_, rfl⟩
  have hgo : ∀ rest, run m (hi :: lo :: (topic ++ b :: rest)) = run s (b :: rest) := by
    intro rest
    rw [run_topicLen h (by omega), if_neg hs, if_neg (by omega), hs']
    exact run_topicVal (m := { m with
      buff := fill m.buff [hi, lo], dlen := short hi lo, nread := m.nread + UInt32.ofNat 2,
      status := .topicVal }) rfl h.unfinished h.topic_eq h0 hl.symm (b :: rest)
  have hqos := run_topicQos (m := s) (by rw [hs']) (by rw [hs']; exact h.unfinished)
    (by rw [hs']; exact h0) b
  have hge : (s.nread + 1 ≥ s.bodyLen) ↔ n ≤ k + topic.length + 3 := by
    rw [hs', ge_iff_le, UInt32.le_iff_toNat_le, hread, h.bodyLen_eq]
  simp only [hge] at hqos
  by_cases hend : n ≤ k + topic.length + 3
  · simp only [if_pos hend] at hqos ⊢
    exact ⟨_, by rw [hs'], by rw [hs'], by rw [hs'], rfl,
      fun rest => (hgo rest).trans (hqos rest)⟩
  · simp only [if_neg hend] at hqos ⊢
    refine ⟨_, by rw [hs'], by rw [hs'], by rw [hs'], ⟨rfl, rfl, rfl, ?_, ?_, ?_⟩,
      fun rest => (hgo rest).trans (hqos rest)⟩
    · rw [hs']
      exact h.unfinished
    · rw [hs']
      exact hread
    · rw [hs']
      exact h.bodyLen_eq

/-! ## Lists of entries -/

/-- A topic and its QoS as they are written. -/
def entry (p : Bytes × MqttQos) : Bytes :=
  msb (UInt16.ofNat p.1.length) :: lsb (UInt16.ofNat p.1.length) :: (p.1 ++ [p.2.code])

/-- The bytes that entries take. -/
def total (pairs : List (Bytes × MqttQos)) : Nat :=
  (pairs.map fun p => p.1.length + 3).sum

/-- **The whole list**: the bytes counted reach the length at the last entry. -/
theorem run_entries {n k : Nat} {m : MqttSubscribe} (h : AtEntry n k m)
    (hn : n < 268435456) {pairs : List (Bytes × MqttQos)} (hne : pairs ≠ [])
    (hp : ∀ p ∈ pairs, p.1 ≠ [] ∧ p.1.length ≤ 65535) (hsum : k + total pairs = n) :
    ∃ m', m'.finished = true ∧ m'.topics = m.topics ++ pairs.map Prod.fst
      ∧ m'.qoses = m.qoses ++ pairs.map Prod.snd ∧ m'.pktId = m.pktId
      ∧ ∀ rest, run m (pairs.flatMap entry ++ rest) = .ok (m', rest) := by
  induction pairs generalizing k m with
  | nil => exact absurd rfl hne
  | cons p pairs ih =>
      obtain ⟨h0, hle⟩ := hp p (by simp)
      have hl : p.1.length = short (msb (UInt16.ofNat p.1.length))
          (lsb (UInt16.ofNat p.1.length)) := short_length hle
      have htot : total (p :: pairs) = p.1.length + 3 + total pairs := by simp [total]
      obtain ⟨m1, ht, hq, hid, hrun⟩ := run_entry h hn (by omega) h0 hl p.2.code
      rw [decodeQos_code] at hq
      have hbytes : ∀ rest, (p :: pairs).flatMap entry ++ rest
          = msb (UInt16.ofNat p.1.length) :: lsb (UInt16.ofNat p.1.length) ::
            (p.1 ++ p.2.code :: (pairs.flatMap entry ++ rest)) := by
        intro rest
        simp [entry]
      by_cases hlast : pairs = []
      · subst hlast
        rw [if_pos (by simp [total] at htot hsum; omega)] at hrun
        exact ⟨m1, hrun.1, by simpa using ht, by simpa using hq, hid,
          fun rest => by rw [hbytes, hrun.2]; rfl⟩
      · have hmore : 0 < total pairs := by
          obtain ⟨p', pairs', rfl⟩ := List.exists_cons_of_ne_nil hlast
          simp [total]
        rw [if_neg (by omega)] at hrun
        obtain ⟨m', hf, ht', hq', hid', hrun'⟩ := ih hrun.1 hlast
          (fun p hm => hp p (by simp [hm])) (by omega)
        exact ⟨m', hf, by rw [ht', ht]; simp, by rw [hq', hq]; simp, hid'.trans hid,
          fun rest => by rw [hbytes, hrun.2, hrun']⟩

/-! ## Writing -/

/-- A fresh message with a packet id and entries. -/
def build (id : UInt16) (pairs : List (Bytes × MqttQos)) : MqttSubscribe :=
  (pairs.foldl (fun m p => m.addTopic p.1 p.2) new).setPktId id

theorem foldl_addTopic (pairs : List (Bytes × MqttQos)) (hp : ∀ p ∈ pairs, 0 ∉ p.1)
    (m : MqttSubscribe) :
    pairs.foldl (fun m p => m.addTopic p.1 p.2) m
      = { m with topics := m.topics ++ pairs.map Prod.fst,
                 qoses := m.qoses ++ pairs.map Prod.snd,
                 bodyLen := m.bodyLen + UInt32.ofNat (total pairs) } := by
  induction pairs generalizing m with
  | nil => simp [total]
  | cons p pairs ih =>
      have htot : UInt32.ofNat (total (p :: pairs))
          = 2 + UInt32.ofNat p.1.length + 1 + UInt32.ofNat (total pairs) := by
        rw [show total (p :: pairs) = 2 + p.1.length + 1 + total pairs by
          simp [total]; omega]
        simp only [UInt32.ofNat_add]
        rfl
      rw [List.foldl_cons, ih (fun p hm => hp p (by simp [hm]))]
      simp [addTopic, cString_eq (hp p (by simp)), htot, UInt32.add_assoc]

theorem build_eq (id : UInt16) {pairs : List (Bytes × MqttQos)}
    (hp : ∀ p ∈ pairs, 0 ∉ p.1) :
    build id pairs = { new with pktId := id, topics := pairs.map Prod.fst,
                                qoses := pairs.map Prod.snd,
                                bodyLen := UInt32.ofNat (total pairs) } := by
  rw [build, foldl_addTopic pairs hp, setPktId]
  split
  · simp [new]
  · rename_i h
    have h0 : id = 0 := UInt16.le_antisymm (UInt16.not_lt.mp h) UInt16.zero_le
    simp [new, h0]

theorem packTopics_eq (pairs : List (Bytes × MqttQos))
    (hp : ∀ p ∈ pairs, p.1.length ≤ 65535) (out : Bytes) :
    packTopics (pairs.map Prod.fst) (pairs.map Prod.snd) out
      = out ++ pairs.flatMap entry := by
  induction pairs generalizing out with
  | nil => simp [packTopics]
  | cons p pairs ih =>
      have hl := hp p (by simp)
      rw [List.map_cons, List.map_cons, packTopics, ih (fun p hm => hp p (by simp [hm])),
        packAddChar, packAddString_eq (by omega)]
      simp [entry]

/-- What `to_string` appends for a fresh message. -/
theorem toString_build (id : UInt16) {pairs : List (Bytes × MqttQos)} (hne : pairs ≠ [])
    (hp : ∀ p ∈ pairs, 0 ∉ p.1 ∧ p.1 ≠ [] ∧ p.1.length ≤ 65535)
    (hn : 2 + total pairs < 268435456) (out : Bytes) :
    ∃ m', (build id pairs).toString out = (true, m',
      out ++ MqttHeader.firstByte .subscribe 2 :: (Base128.encode (2 + total pairs) ++
        (msb id :: lsb id :: pairs.flatMap entry))) := by
  have hlen : (UInt32.ofNat (total pairs) + 2).toNat = 2 + total pairs := by
    rw [UInt32.toNat_add, UInt32.toNat_ofNat', show UInt32.toNat 2 = 2 from rfl]
    omega
  have hbuild := MqttHeader.buildHeader_of (h := ((MqttHeader.new .subscribe).setHeaderFlags
    0x02).setRemaingLength (UInt32.ofNat (total pairs) + 2)) hlen hn out
  rw [build_eq id fun p hm => (hp p hm).1]
  simp only [toString, List.map_eq_nil_iff, hne, if_false, new, hbuild, Bool.not_true,
    Bool.false_eq_true, packTopics_eq pairs fun p hm => (hp p hm).2.2, packAddShort]
  refine ⟨_, Prod.ext rfl (Prod.ext rfl ?_)⟩
  simp only [List.append_assoc, List.cons_append, List.nil_append]
  rfl

/-- A fresh message with a packet id and entries is written, and parsed back. -/
def RoundTrips (id : UInt16) (pairs : List (Bytes × MqttQos)) : Prop :=
  ∃ packet, (∀ out, ∃ m', (build id pairs).toString out = (true, m', out ++ packet)) ∧
    parser.Parses packet fun d =>
      d.pktId = id ∧ d.topics = pairs.map Prod.fst ∧ d.qoses = pairs.map Prod.snd

theorem roundTrips (id : UInt16) {pairs : List (Bytes × MqttQos)} (hne : pairs ≠ [])
    (hp : ∀ p ∈ pairs, 0 ∉ p.1 ∧ p.1 ≠ [] ∧ p.1.length ≤ 65535)
    (hn : 2 + total pairs < 268435456) : RoundTrips id pairs := by
  refine ⟨_, toString_build id hne hp hn, MessageParser.parses_built (by simp) (by simp) hn
    fun header _ _ hdlen => ?_⟩
  have hat := atEntry_afterPktId header (msb id) (lsb id)
  rw [hdlen] at hat
  obtain ⟨m, hf, ht, hq, hid, hrun⟩ := run_entries hat hn hne (fun p hm => (hp p hm).2) rfl
  have hpos : 0 < total pairs := by
    obtain ⟨p, pairs, rfl⟩ := List.exists_cons_of_ne_nil hne
    simp [total]
  refine ⟨m, hf, ⟨?_, ht, hq⟩, fun rest => ?_⟩
  · rw [hid, afterPktId, short_msb_lsb, UInt16.ofNat_toNat]
  · rw [parser_run, List.cons_append, List.cons_append, run_pktId,
      if_neg (by rw [hdlen]; omega), hrun]

end MqttSubscribe

namespace MqttSuback

def parser : MessageParser MqttSuback :=
  { ofHeader, finished := MqttSuback.finished, update, run, Inv
    update_eq := fun _ _ hd => if_neg hd
    lawful := suback_lawful
    inv_ofHeader }

theorem parser_run (header : MqttHeader) (data : Bytes) :
    parser.run (parser.ofHeader header) data = run (ofHeader header) data := rfl

/-! ## Runs over the fields -/

theorem fills_headerVar (header : MqttHeader) :
    Fills (fun m : MqttSuback => m.nread < 2) putHeaderVar
      (fun xs => { ofHeader header with
        buff := fill (Vector.replicate 2 0) xs, nread := UInt32.ofNat xs.length }) 2 :=
  .of_counter (f := fun buff nread => { ofHeader header with buff, nread }) (Nat.le_refl 2)
    (by decide) (fun _ _ => rfl) (fun _ _ b hk => putHeaderVar_eq hk b) _

/-- Where the parser is once it has read a packet id. -/
def afterPktId (header : MqttHeader) (i0 i1 : UInt8) : MqttSuback :=
  { ofHeader header with
    buff := fill (Vector.replicate 2 0) [i0, i1], nread := 2,
    pktId := UInt16.ofNat (short i0 i1), status := .topicQos }

theorem run_pktId (header : MqttHeader) (i0 i1 : UInt8) (rest : Bytes) :
    run (ofHeader header) (i0 :: i1 :: rest)
      = if header.dlen.toNat ≤ 2
        then .ok ({ afterPktId header i0 i1 with status := .hdrVar, finished := true }, rest)
        else run (afterPktId header i0 i1) rest := by
  have hnext : headerVarNext { ofHeader header with
        buff := fill (Vector.replicate 2 0) [i0, i1], nread := UInt32.ofNat 2 }
      = if 0 + UInt32.ofNat 2 ≥ header.dlen
        then .ok { afterPktId header i0 i1 with status := .hdrVar, finished := true }
        else .ok (afterPktId header i0 i1) := by
    simp only [headerVarNext, unpackShort_fill (n := 2) _ 0 1 rfl rfl]
    rfl
  have hall : run (ofHeader header) (i0 :: i1 :: rest)
      = if header.dlen.toNat ≤ 2
        then run { afterPktId header i0 i1 with status := .hdrVar, finished := true } rest
        else run (afterPktId header i0 i1) rest :=
    (fills_headerVar header).run_counted (by simp [ofHeader]) suback_resumable
      (inv_ofHeader header) rfl (fun _ _ => rfl) rfl rfl rfl (by decide) hnext rest
  rw [hall]
  split
  · exact run_stop (.inr rfl)
  · rfl

/-- Between two QoSes: `k` bytes are counted, `n` are announced. -/
structure AtQos (n k : Nat) (m : MqttSuback) : Prop where
  status_eq : m.status = .topicQos
  unfinished : m.finished = false
  nread_eq : m.nread.toNat = k
  bodyLen_eq : m.bodyLen.toNat = n

theorem atQos_afterPktId (header : MqttHeader) (i0 i1 : UInt8) :
    AtQos header.dlen.toNat 2 (afterPktId header i0 i1) := ⟨rfl, rfl, rfl, rfl⟩

theorem run_topicQos {n k : Nat} {m : MqttSuback} (h : AtQos n k m) (b : UInt8)
    (rest : Bytes) :
    run m (b :: rest)
      = if m.nread + 1 ≥ m.bodyLen
        then .ok ({ m with nread := m.nread + 1, qoses := m.qoses ++ [decodeQos b],
                           finished := true }, rest)
        else run { m with nread := m.nread + 1, qoses := m.qoses ++ [decodeQos b], dlen := 0,
                          status := .topicQos } rest := by
  rw [run, suback_resumable.run_go (fun _ => by rw [h.status_eq]; trivial) h.unfinished
    (by simp)]
  simp only [handlers, h.status_eq, updateTopicQos]
  split
  · exact run_stop (.inr rfl)
  · rfl

/-- **One QoS of the list.** -/
theorem run_qos {n k : Nat} {m : MqttSuback} (h : AtQos n k m) (hk : k + 1 < 4294967296)
    (b : UInt8) :
    ∃ m', m'.qoses = m.qoses ++ [decodeQos b] ∧ m'.pktId = m.pktId
      ∧ if n ≤ k + 1
        then m'.finished = true ∧ ∀ rest, run m (b :: rest) = .ok (m', rest)
        else AtQos n (k + 1) m' ∧ ∀ rest, run m (b :: rest) = run m' rest := by
  have hread : (m.nread + 1).toNat = k + 1 := by
    rw [show (1 : UInt32) = UInt32.ofNat 1 from rfl,
      toNat_add_ofNat (by rw [h.nread_eq]; exact hk), h.nread_eq]
  have hge : (m.nread + 1 ≥ m.bodyLen) ↔ n ≤ k + 1 := by
    rw [ge_iff_le, UInt32.le_iff_toNat_le, hread, h.bodyLen_eq]
  have hgo := run_topicQos h b
  simp only [hge] at hgo
  by_cases hend : n ≤ k + 1
  · simp only [if_pos hend] at hgo ⊢
    exact ⟨{ m with nread := m.nread + 1, qoses := m.qoses ++ [decodeQos b],
                    finished := true }, rfl, rfl, rfl, hgo⟩
  · simp only [if_neg hend] at hgo ⊢
    exact ⟨{ m with nread := m.nread + 1, qoses := m.qoses ++ [decodeQos b], dlen := 0,
                    status := .topicQos }, rfl, rfl,
      ⟨rfl, h.unfinished, hread, h.bodyLen_eq⟩, hgo⟩

/-- **The whole list**: the bytes counted reach the length at the last QoS. -/
theorem run_qoses {n k : Nat} {m : MqttSuback} (h : AtQos n k m) (hn : n < 268435456)
    {bs : Bytes} (hne : bs ≠ []) (hsum : k + bs.length = n) :
    ∃ m', m'.finished = true ∧ m'.qoses = m.qoses ++ bs.map decodeQos
      ∧ m'.pktId = m.pktId ∧ ∀ rest, run m (bs ++ rest) = .ok (m', rest) := by
  induction bs generalizing k m with
  | nil => exact absurd rfl hne
  | cons b bs ih =>
      have hlen : (b :: bs).length = bs.length + 1 := rfl
      obtain ⟨m1, hq, hid, hrun⟩ := run_qos h (by omega) b
      by_cases hlast : bs = []
      · subst hlast
        rw [if_pos (by simp at hlen hsum; omega)] at hrun
        exact ⟨m1, hrun.1, hq, hid, hrun.2⟩
      · have hpos := List.length_pos_iff.mpr hlast
        rw [if_neg (by omega)] at hrun
        obtain ⟨m', hf, hq', hid', hrun'⟩ := ih hrun.1 hlast (by omega)
        exact ⟨m', hf, by rw [hq', hq]; simp, hid'.trans hid,
          fun rest => by rw [List.cons_append, hrun.2, hrun']⟩

/-! ## Writing -/

/-- A fresh message with a packet id and QoSes. -/
def build (id : UInt16) (qoses : List MqttQos) : MqttSuback :=
  (qoses.foldl addTopicQos new).setPktId id

theorem foldl_addTopicQos (qoses : List MqttQos) (m : MqttSuback) :
    qoses.foldl addTopicQos m
      = { m with qoses := m.qoses ++ qoses,
                 bodyLen := m.bodyLen + UInt32.ofNat qoses.length } := by
  induction qoses generalizing m with
  | nil => simp
  | cons q qoses ih =>
      have hlen : UInt32.ofNat (q :: qoses).length = 1 + UInt32.ofNat qoses.length := by
        rw [List.length_cons, Nat.add_comm, UInt32.ofNat_add]
        rfl
      rw [List.foldl_cons, ih, hlen]
      simp [addTopicQos, UInt32.add_assoc]

theorem packQoses_eq (qoses : List MqttQos) (out : Bytes) :
    packQoses qoses out = out ++ qoses.map MqttQos.code := by
  induction qoses generalizing out with
  | nil => simp [packQoses]
  | cons q qoses ih =>
      rw [packQoses, ih, packAddChar]
      simp

/-- What `to_string` appends for a fresh message. -/
theorem toString_build (id : UInt16) {qoses : List MqttQos} (hne : qoses ≠ [])
    (hn : 2 + qoses.length < 268435456) (out : Bytes) :
    ∃ m', (build id qoses).toString out = (true, m',
      out ++ MqttHeader.firstByte .suback 0 :: (Base128.encode (2 + qoses.length) ++
        (msb id :: lsb id :: qoses.map MqttQos.code))) := by
  have hlen : (UInt32.ofNat qoses.length + 2).toNat = 2 + qoses.length := by
    rw [UInt32.toNat_add, UInt32.toNat_ofNat', show UInt32.toNat 2 = 2 from rfl]
    omega
  have hbuild := MqttHeader.buildHeader_of (h := (MqttHeader.new .suback).setRemaingLength
    (UInt32.ofNat qoses.length + 2)) hlen hn out
  rw [build, foldl_addTopicQos]
  simp only [toString, setPktId, new, List.nil_append, hne, if_false, UInt32.zero_add, hbuild,
    Bool.not_true, Bool.false_eq_true, packQoses_eq, packAddShort]
  refine ⟨_, Prod.ext rfl (Prod.ext rfl ?_)⟩
  simp only [List.append_assoc, List.cons_append, List.nil_append]
  rfl

/-- A fresh message with a packet id and QoSes is written, and parsed back. -/
def RoundTrips (id : UInt16) (qoses : List MqttQos) : Prop :=
  ∃ packet, (∀ out, ∃ m', (build id qoses).toString out = (true, m', out ++ packet)) ∧
    parser.Parses packet fun d => d.pktId = id ∧ d.qoses = qoses

theorem roundTrips (id : UInt16) {qoses : List MqttQos} (hne : qoses ≠ [])
    (hn : 2 + qoses.length < 268435456) : RoundTrips id qoses := by
  refine ⟨_, toString_build id hne hn, MessageParser.parses_built (by simp) (by simp) hn
    fun header _ _ hdlen => ?_⟩
  have hat := atQos_afterPktId header (msb id) (lsb id)
  rw [hdlen] at hat
  obtain ⟨m, hf, hq, hid, hrun⟩ := run_qoses hat hn
    (show qoses.map MqttQos.code ≠ [] by simpa using hne) (by simp)
  have hpos := List.length_pos_iff.mpr hne
  refine ⟨m, hf, ⟨?_, ?_⟩, fun rest => ?_⟩
  · rw [hid, afterPktId, short_msb_lsb, UInt16.ofNat_toNat]
  · rw [hq]
    simp [afterPktId, ofHeader, Function.comp_def, decodeQos_code]
  · rw [parser_run, List.cons_append, List.cons_append, run_pktId,
      if_neg (by rw [hdlen]; omega), hrun]

end MqttSuback

/-- **SUBSCRIBE and SUBACK are parsed back**: packet id and lists, in order. -/
theorem subscribe_suback_roundTrip (id : UInt16) :
    (∀ pairs : List (Bytes × MqttQos), pairs ≠ [] →
      (∀ p ∈ pairs, 0 ∉ p.1 ∧ p.1 ≠ [] ∧ p.1.length ≤ 65535) →
      2 + MqttSubscribe.total pairs < 268435456 → MqttSubscribe.RoundTrips id pairs) ∧
    ∀ qoses : List MqttQos, qoses ≠ [] → 2 + qoses.length < 268435456 →
      MqttSuback.RoundTrips id qoses :=
  ⟨fun _ hne hp hn => MqttSubscribe.roundTrips id hne hp hn,
    fun _ hne hn => MqttSuback.roundTrips id hne hn⟩

theorem subscribe_suback_roundTrip_small :
    MqttSubscribe.RoundTrips 7 [([0x61], .qos1), ([0x62, 0x63], .qos0)]
      ∧ MqttSuback.RoundTrips 7 [.qos2, .qos0] :=
  ⟨(subscribe_suback_roundTrip 7).1 _ (by decide) (by decide) (by decide),
    (subscribe_suback_roundTrip 7).2 _ (by decide) (by decide)⟩

end Libnio.Mqtt
