import Libnio.Mqtt.Unsubscribe
import Libnio.Mqtt.Packet

/-!
# Mqtt — the UNSUBSCRIBE round trip

The scratch string of the parser keeps its characters from one topic to the
next. A list of one topic is parsed back; any longer list is not, since its
second topic comes back with the first one in front.
-/

namespace Libnio.Mqtt

open Stream

namespace MqttUnsubscribe

def parser : MessageParser MqttUnsubscribe :=
  { ofHeader, finished := MqttUnsubscribe.finished, update, run, Inv
    update_eq := fun _ _ hd => if_neg hd
    lawful := unsubscribe_lawful
    inv_ofHeader }

theorem parser_run (header : MqttHeader) (data : Bytes) :
    parser.run (parser.ofHeader header) data = run (ofHeader header) data := rfl

/-! ## Runs over the fields -/

theorem fills_headerVar (header : MqttHeader) :
    Fills (fun m : MqttUnsubscribe => m.nread < 2) putHeaderVar
      (fun xs => { ofHeader header with
        buff := fill (Vector.replicate 2 0) xs, nread := UInt32.ofNat xs.length }) 2 :=
  .of_counter (f := fun buff nread => { ofHeader header with buff, nread }) (Nat.le_refl 2)
    (by decide) (fun _ _ => rfl) (fun _ _ b hk => putHeaderVar_eq hk b) _

theorem fills_topicLen (m : MqttUnsubscribe) :
    Fills (fun m : MqttUnsubscribe => m.dlen < 2) putTopicLen
      (fun xs => { m with buff := fill m.buff xs, dlen := xs.length,
                          nread := m.nread + UInt32.ofNat xs.length }) 2 :=
  .of_store (f := fun buff k => { m with buff, dlen := k, nread := m.nread + UInt32.ofNat k })
    (Nat.le_refl 2) (fun _ _ _ => rfl) (fun _ k b hk => by
      rw [putTopicLen_eq hk]
      simp [UInt32.add_assoc]) m.buff

theorem fills_topic (m : MqttUnsubscribe) (n : Nat) :
    Fills (fun m : MqttUnsubscribe => m.dlen > 0) putTopic
      (fun xs => { m with topic := m.topic ++ xs, dlen := n - xs.length }) n :=
  .of_countdown (f := fun xs dlen => { m with topic := m.topic ++ xs, dlen }) (fun _ _ => rfl)
    (fun xs b d => by rw [putTopic, List.append_assoc]) n

/-- Where the parser is once it has read a packet id. -/
def afterPktId (header : MqttHeader) (i0 i1 : UInt8) : MqttUnsubscribe :=
  { ofHeader header with
    buff := fill (Vector.replicate 2 0) [i0, i1], nread := 2,
    pktId := UInt16.ofNat (short i0 i1), status := .topicLen }

theorem run_pktId (header : MqttHeader) (i0 i1 : UInt8) (rest : Bytes) :
    run (ofHeader header) (i0 :: i1 :: rest)
      = if header.dlen.toNat ≤ 2 then .error (.error "no payload!")
        else run (afterPktId header i0 i1) rest := by
  have hnext : headerVarNext { ofHeader header with
        buff := fill (Vector.replicate 2 0) [i0, i1], nread := UInt32.ofNat 2 }
      = if 0 + UInt32.ofNat 2 ≥ header.dlen then .error (.error "no payload!")
        else .ok (afterPktId header i0 i1) := by
    simp only [headerVarNext, unpackShort_fill (n := 2) _ 0 1 rfl rfl]
    rfl
  exact (fills_headerVar header).run_counted (by simp [ofHeader]) unsubscribe_resumable
    (inv_ofHeader header) rfl (fun _ _ => rfl) rfl rfl rfl (by decide) hnext rest

/-- Between two topics: `k` bytes are counted, `n` are announced, and `past` is
what the scratch string still holds. -/
structure AtEntry (n k : Nat) (past : Bytes) (m : MqttUnsubscribe) : Prop where
  status_eq : m.status = .topicLen
  dlen_eq : m.dlen = 0
  topic_eq : m.topic = past
  unfinished : m.finished = false
  nread_eq : m.nread.toNat = k
  bodyLen_eq : m.bodyLen.toNat = n

theorem atEntry_afterPktId (header : MqttHeader) (i0 i1 : UInt8) :
    AtEntry header.dlen.toNat 2 [] (afterPktId header i0 i1) :=
  ⟨rfl, rfl, rfl, rfl, rfl, rfl⟩

theorem AtEntry.inv {n k : Nat} {past : Bytes} {m : MqttUnsubscribe}
    (h : AtEntry n k past m) : Inv m := by
  intro _
  rw [h.status_eq, h.dlen_eq]
  exact Nat.zero_lt_two

theorem run_topicLen {n k : Nat} {past : Bytes} {m : MqttUnsubscribe}
    (h : AtEntry n k past m) (hk : k + 2 < 4294967296) (hi lo : UInt8) (rest : Bytes) :
    run m (hi :: lo :: rest)
      = if short hi lo = 0 then .error (.error "invalid topic len")
        else if n ≤ k + 2 then .error (.error "overflow")
        else run { m with buff := fill m.buff [hi, lo], dlen := short hi lo,
                          nread := m.nread + UInt32.ofNat 2, status := .topicVal } rest := by
  refine (fills_topicLen m).run_length (by simp; rw [← h.dlen_eq]) unsubscribe_resumable h.inv
    h.unfinished (fun data _ => by rw [handlers, h.status_eq]; rfl) rfl h.nread_eq h.bodyLen_eq hk
    ?_ rest
  simp only [topicLenNext, unpackShort_fill (n := 2) _ 0 1 rfl rfl, toNat_short]
  rfl

theorem run_topicVal {m : MqttUnsubscribe} (hst : m.status = .topicVal)
    (hf : m.finished = false) {topic : Bytes} (h0 : topic ≠ [])
    (hd : m.dlen = topic.length) (rest : Bytes) :
    run m (topic ++ rest)
      = if m.nread + UInt32.ofNat (m.topic ++ topic).length ≥ m.bodyLen
        then .ok ({ m with topic := m.topic ++ topic, dlen := 0,
                           nread := m.nread + UInt32.ofNat (m.topic ++ topic).length,
                           topics := m.topics ++ [m.topic ++ topic],
                           finished := true }, rest)
        else run { m with topic := m.topic ++ topic, dlen := 0,
                          nread := m.nread + UInt32.ofNat (m.topic ++ topic).length,
                          topics := m.topics ++ [m.topic ++ topic],
                          status := .topicLen } rest := by
  have hpos : m.dlen > 0 := by
    rw [hd]
    exact List.length_pos_iff.mpr h0
  have hall := (fills_topic m m.dlen).run_all .timeout _ _ (s := m) (by simp)
    unsubscribe_resumable (fun _ => by rw [hst]; exact hpos) hf
    (fun data _ => by rw [handlers, hst]; rfl) (assertThat_true hpos) hd.symm hpos rest
  refine hall.trans ?_
  simp only [topicValNext, hd, Nat.sub_self]
  split
  · exact run_stop (.inr rfl)
  · rfl

/-- **One topic of the list.** It is counted and stored with what was in the
scratch string before. -/
theorem run_entry {n k : Nat} {past : Bytes} {m : MqttUnsubscribe} (h : AtEntry n k past m)
    (hn : n < 268435456) (h2 : k + 2 < n) (hpast : past.length ≤ k) {hi lo : UInt8}
    {topic : Bytes} (h0 : topic ≠ []) (hl : topic.length = short hi lo) :
    ∃ m', m'.topics = m.topics ++ [past ++ topic] ∧ m'.pktId = m.pktId
      ∧ if n ≤ k + 2 + (past ++ topic).length
        then m'.finished = true ∧
          ∀ rest, run m (hi :: lo :: (topic ++ rest)) = .ok (m', rest)
        else AtEntry n (k + 2 + (past ++ topic).length) (past ++ topic) m' ∧
          ∀ rest, run m (hi :: lo :: (topic ++ rest)) = run m' rest := by
  have hlt := short_lt hi lo
  have hs : short hi lo ≠ 0 := by
    rw [← hl]
    exact fun hc => h0 (List.eq_nil_of_length_eq_zero hc)
  -- after the topic length
  obtain ⟨s, hs'⟩ : ∃ s : MqttUnsubscribe, s =
      { m with buff := fill m.buff [hi, lo], dlen := short hi lo,
               nread := m.nread + UInt32.ofNat 2, status := .topicVal } := ⟨_, rfl⟩
  have hgo : ∀ rest, run m (hi :: lo :: (topic ++ rest)) = run s (topic ++ rest) := by
    intro rest
    rw [run_topicLen h (by omega), if_neg hs, if_neg (by omega), hs']
  have htop : s.topic = past := by rw [hs', ← h.topic_eq]
  have hread : (s.nread + UInt32.ofNat (past ++ topic).length).toNat
      = k + 2 + (past ++ topic).length := by
    have h1 : (m.nread + UInt32.ofNat 2).toNat = k + 2 := by
      rw [toNat_add_ofNat (by rw [h.nread_eq]; omega), h.nread_eq]
    rw [hs', List.length_append, toNat_add_ofNat (by rw [h1]; omega), h1]
  have hval := run_topicVal (m := s) (by rw [hs']) (by rw [hs']; exact h.unfinished) h0
    (by rw [hs', hl])
  have hge : (s.nread + UInt32.ofNat (past ++ topic).length ≥ s.bodyLen)
      ↔ n ≤ k + 2 + (past ++ topic).length := by
    rw [ge_iff_le, UInt32.le_iff_toNat_le, hread, hs', h.bodyLen_eq]
  simp only [htop, hge] at hval
  by_cases hend : n ≤ k + 2 + (past ++ topic).length
  · simp only [if_pos hend] at hval ⊢
    exact ⟨_, by rw [hs'], by rw [hs'], rfl, fun rest => (hgo rest).trans (hval rest)⟩
  · simp only [if_neg hend] at hval ⊢
    refine ⟨_, by rw [hs'], by rw [hs'], ⟨rfl, rfl, rfl, ?_, hread, ?_⟩,
      fun rest => (hgo rest).trans (hval rest)⟩
    · rw [hs']
      exact h.unfinished
    · rw [hs']
      exact h.bodyLen_eq

/-! ## Topics are only added -/

/-- A loop that leaves the topics alone, and a step after it that adds to them. -/
theorem field_topics {guard : MqttUnsubscribe → Except Stop Unit}
    {more : MqttUnsubscribe → Bool} {put : MqttUnsubscribe → UInt8 → Except Stop MqttUnsubscribe}
    {next : MqttUnsubscribe → Except Stop MqttUnsubscribe}
    (hput : ∀ s b s', more s = true → put s b = .ok s' → s'.topics = s.topics)
    (hnext : ∀ s s', next s = .ok s' → s.topics <+: s'.topics) {m m' : MqttUnsubscribe}
    {data rest : Bytes} (hd : data ≠ []) (h : field guard more put next m data = .ok (m', rest)) :
    m.topics <+: m'.topics :=
  field_induct guard more put next hd h (fun s => s.topics = m.topics)
    (fun s => m.topics <+: s.topics) (fun s b s' hs hm hp => (hput s b s' hm hp).trans hs)
    (fun _ hs _ => hs ▸ List.prefix_refl _) (fun s s' hs _ hn => hs ▸ hnext s s' hn) rfl

theorem handlers_topics {m m' : MqttUnsubscribe} {data rest : Bytes} (hd : data ≠ [])
    (h : handlers m data = .ok (m', rest)) : m.topics <+: m'.topics := by
  unfold handlers at h
  split at h
  · refine field_topics ?_ ?_ hd h
    · intro s b s' hm hput
      rw [putHeaderVar_eq (UInt32.lt_iff_toNat_lt.mp (by simpa using hm))] at hput
      cases hput
      rfl
    · intro s s' hn
      rw [headerVarNext, unpackShort_two] at hn
      simp only at hn
      split at hn <;> cases hn
      exact List.prefix_refl _
  · refine field_topics ?_ ?_ hd h
    · intro s b s' hm hput
      rw [putTopicLen_eq (by simpa using hm)] at hput
      cases hput
      rfl
    · intro s s' hn
      rw [topicLenNext, unpackShort_two] at hn
      simp only at hn
      split at hn
      · cases hn
      · split at hn <;> cases hn
        exact List.prefix_refl _
  · refine field_topics ?_ ?_ hd h
    · intro s b s' _ hput
      cases hput
      rfl
    · intro s s' hn
      simp only [topicValNext] at hn
      split at hn <;> cases hn <;> exact List.prefix_append _ _

theorem run_topics {m m' : MqttUnsubscribe} {data rest : Bytes} (hi : Inv m)
    (h : run m data = .ok (m', rest)) : m.topics <+: m'.topics :=
  (unsubscribe_resumable.run_induct (P := fun s _ => m.topics <+: s.topics)
    (fun _ _ hd hh hp => hp.trans (handlers_topics hd hh)) hi (List.prefix_refl _) h).2.1

/-! ## Writing -/

/-- A fresh message with a packet id and topics. -/
def build (id : UInt16) (topics : List Bytes) : MqttUnsubscribe :=
  (topics.foldl addTopic new).setPktId id

/-- A topic as it is written. -/
def entry (topic : Bytes) : Bytes :=
  msb (UInt16.ofNat topic.length) :: lsb (UInt16.ofNat topic.length) :: topic

/-- The bytes that topics take. -/
def total (topics : List Bytes) : Nat := (topics.map fun t => t.length + 2).sum

theorem foldl_addTopic (topics : List Bytes) (ht : ∀ t ∈ topics, 0 ∉ t)
    (m : MqttUnsubscribe) :
    topics.foldl addTopic m
      = { m with topics := m.topics ++ topics,
                 bodyLen := m.bodyLen + UInt32.ofNat (total topics) } := by
  induction topics generalizing m with
  | nil => simp [total]
  | cons t topics ih =>
      have htot : UInt32.ofNat (total (t :: topics))
          = 2 + UInt32.ofNat t.length + UInt32.ofNat (total topics) := by
        rw [show total (t :: topics) = 2 + t.length + total topics by simp [total]; omega]
        simp only [UInt32.ofNat_add]
        rfl
      rw [List.foldl_cons, ih (fun t hm => ht t (by simp [hm])), htot]
      simp [addTopic, cString_eq (ht t (by simp)), UInt32.add_assoc]

theorem build_eq (id : UInt16) {topics : List Bytes} (ht : ∀ t ∈ topics, 0 ∉ t) :
    build id topics
      = { new with pktId := id, topics, bodyLen := UInt32.ofNat (total topics) } := by
  rw [build, foldl_addTopic topics ht, setPktId]
  split
  · simp [new]
  · rename_i h
    have h0 : id = 0 := UInt16.le_antisymm (UInt16.not_lt.mp h) UInt16.zero_le
    simp [new, h0]

theorem packTopics_eq (topics : List Bytes) (ht : ∀ t ∈ topics, t.length ≤ 65535)
    (out : Bytes) : packTopics topics out = out ++ topics.flatMap entry := by
  induction topics generalizing out with
  | nil => simp [packTopics]
  | cons t topics ih =>
      have hl := ht t (by simp)
      rw [packTopics, ih (fun t hm => ht t (by simp [hm])), packAddString_eq (by omega)]
      simp [entry]

/-- What the setters and the writer ask of the topics. -/
structure Sendable (topics : List Bytes) : Prop where
  ne_nil : topics ≠ []
  topic_ok : ∀ t ∈ topics, 0 ∉ t ∧ t ≠ [] ∧ t.length ≤ 65535
  length_lt : 2 + total topics < 268435456

/-- What `to_string` appends for a fresh message. -/
theorem toString_build (id : UInt16) {topics : List Bytes} (hs : Sendable topics)
    (out : Bytes) :
    ∃ m', (build id topics).toString out = (true, m',
      out ++ MqttHeader.firstByte .unsubscribe 2 :: (Base128.encode (2 + total topics) ++
        (msb id :: lsb id :: topics.flatMap entry))) := by
  have hlen : (UInt32.ofNat (total topics) + 2).toNat = 2 + total topics := by
    have := hs.length_lt
    rw [UInt32.toNat_add, UInt32.toNat_ofNat', show UInt32.toNat 2 = 2 from rfl]
    omega
  have hbuild := MqttHeader.buildHeader_of (h := ((MqttHeader.new .unsubscribe).setHeaderFlags
    0x02).setRemaingLength (UInt32.ofNat (total topics) + 2)) hlen hs.length_lt out
  rw [build_eq id fun t hm => (hs.topic_ok t hm).1]
  simp only [toString, hs.ne_nil, if_false, new, hbuild, Bool.not_true, Bool.false_eq_true,
    packTopics_eq topics fun t hm => (hs.topic_ok t hm).2.2, packAddShort]
  refine ⟨_, Prod.ext rfl (Prod.ext rfl ?_)⟩
  simp only [List.append_assoc, List.cons_append, List.nil_append]
  rfl

/-! ## The round trip -/

/-- A fresh message with a packet id and topics is written, and parsed back. -/
def RoundTrips (id : UInt16) (topics : List Bytes) : Prop :=
  ∃ packet, (∀ out, ∃ m', (build id topics).toString out = (true, m', out ++ packet)) ∧
    parser.Parses packet fun d => d.topics = topics

/-- The first topic is parsed as it was written. -/
theorem run_first (header : MqttHeader) (id : UInt16) {t : Bytes} {topics : List Bytes}
    (hs : Sendable (t :: topics)) (hdlen : header.dlen.toNat = 2 + total (t :: topics)) :
    ∃ m', m'.topics = [t] ∧ if topics = []
      then m'.finished = true ∧
        ∀ rest, run (ofHeader header) (msb id :: lsb id :: (entry t ++ rest)) = .ok (m', rest)
      else AtEntry (2 + total (t :: topics)) (4 + t.length) t m' ∧
        ∀ rest, run (ofHeader header) (msb id :: lsb id :: (entry t ++ rest)) = run m' rest := by
  have hat := atEntry_afterPktId header (msb id) (lsb id)
  rw [hdlen] at hat
  obtain ⟨-, h0, hl⟩ := hs.topic_ok t (by simp)
  have hpos := List.length_pos_iff.mpr h0
  have hn := hs.length_lt
  have htot : total (t :: topics) = t.length + 2 + total topics := by simp [total]
  obtain ⟨m1, ht, -, hrun⟩ := run_entry hat hn (by omega) (by simp) h0 (short_length hl)
  have hgo : ∀ rest, run (ofHeader header) (msb id :: lsb id :: (entry t ++ rest))
      = run (afterPktId header (msb id) (lsb id)) (msb (UInt16.ofNat t.length) ::
          lsb (UInt16.ofNat t.length) :: (t ++ rest)) := by
    intro rest
    rw [run_pktId, if_neg (by rw [hdlen]; omega)]
    rfl
  have hk : 2 + 2 + ([] ++ t : Bytes).length = 4 + t.length := by simp
  rw [hk] at hrun
  refine ⟨m1, ht, ?_⟩
  by_cases hlast : topics = []
  · subst hlast
    rw [if_pos (by simp [total] at htot ⊢; omega)] at hrun
    rw [if_pos rfl]
    exact ⟨hrun.1, fun rest => (hgo rest).trans (hrun.2 rest)⟩
  · have hmore : 0 < total topics := by
      obtain ⟨t', topics', rfl⟩ := List.exists_cons_of_ne_nil hlast
      simp [total]
    rw [if_neg (by omega)] at hrun
    rw [if_neg hlast]
    exact ⟨hrun.1, fun rest => (hgo rest).trans (hrun.2 rest)⟩

theorem Sendable.roundTrips (id : UInt16) {t : Bytes} (hs : Sendable [t]) :
    RoundTrips id [t] := by
  refine ⟨_, toString_build id hs, MessageParser.parses_built (by simp) (by simp) hs.length_lt
    fun header _ _ hdlen => ?_⟩
  obtain ⟨m, ht, hrun⟩ := run_first header id hs hdlen
  rw [if_pos rfl] at hrun
  refine ⟨m, hrun.1, ht, fun rest => ?_⟩
  rw [parser_run]
  simpa using hrun.2 rest

/-- A second topic comes back with the first one in front. -/
theorem Sendable.not_roundTrips (id : UInt16) {t u : Bytes} {topics : List Bytes}
    (hs : Sendable (t :: u :: topics)) : ¬ RoundTrips id (t :: u :: topics) := by
  rintro ⟨packet, hout, hparse⟩
  obtain ⟨m', hm'⟩ := hout []
  obtain ⟨m'', hm''⟩ := toString_build id hs []
  rw [hm''] at hm'
  simp only [Prod.mk.injEq, List.nil_append, true_and] at hm'
  obtain ⟨-, hpacket⟩ := hm'
  have hne : packet ≠ [] := by
    rw [← hpacket]
    simp
  -- the packet alone, in one read
  obtain ⟨header, d, reads', hp, -, -, -, hd⟩ := hparse (MqttHeader.new .reservedMin) []
    [packet] (MqttHeader.ready_new _) (by simpa using hne) (by simp)
  obtain ⟨header', -, -, -, hdlen, ho⟩ := parser.outcome_built
    (MqttHeader.ready_new .reservedMin) (t := .unsubscribe) (by simp) (by simp) 2
    hs.length_lt (by simpa using hne)
    (show [packet].flatten = _ from List.flatten_singleton.trans hpacket.symm)
  have hn := hs.length_lt
  rw [MessageParser.outcome_of_parse hp, parser_run] at ho
  obtain ⟨-, h0, -⟩ := hs.topic_ok t (by simp)
  obtain ⟨-, h0u, hlu⟩ := hs.topic_ok u (by simp)
  have hposu := List.length_pos_iff.mpr h0u
  obtain ⟨m1, ht1, hrun1⟩ := run_first header' id hs
    (by rw [hdlen, UInt32.toNat_ofNat']; omega)
  rw [if_neg (by simp)] at hrun1
  have htot : total (t :: u :: topics) = t.length + 2 + (u.length + 2 + total topics) := by
    simp [total]
  obtain ⟨m2, ht2, -, hrun2⟩ := run_entry hrun1.1 hn (by omega) (by omega) h0u
    (short_length hlu)
  rw [List.flatMap_cons, hrun1.2, List.flatMap_cons, entry, List.cons_append,
    List.cons_append] at ho
  have hgrow : ∀ m' rest, run m1 (msb (UInt16.ofNat u.length) ::
      lsb (UInt16.ofNat u.length) :: (u ++ topics.flatMap entry)) = .ok (m', rest) →
      m2.topics <+: m'.topics := by
    intro m' rest hr
    split at hrun2
    · rw [hrun2.2] at hr
      cases hr
      exact List.prefix_refl _
    · rw [hrun2.2] at hr
      exact run_topics hrun2.1.inv hr
  cases hrun : run m1 (msb (UInt16.ofNat u.length) ::
      lsb (UInt16.ofNat u.length) :: (u ++ topics.flatMap entry)) with
  | error e => simp [hrun, Except.map] at ho
  | ok r =>
      simp only [hrun, Except.map, Except.ok.injEq, Prod.mk.injEq] at ho
      have hpre := hgrow r.1 r.2 hrun
      rw [← ho.2.1, hd, ht2, ht1] at hpre
      have heq : t ++ u = u := by
        obtain ⟨tail, htail⟩ := hpre
        simp only [List.cons_append, List.nil_append, List.cons.injEq, true_and] at htail
        exact htail.1
      have := congrArg List.length heq
      simp only [List.length_append] at this
      exact h0 (List.eq_nil_of_length_eq_zero (by omega))

/-- **An UNSUBSCRIBE is parsed back exactly when it has one topic.** -/
theorem unsubscribe_roundTrips_iff (id : UInt16) (topics : List Bytes)
    (hs : Sendable topics) : RoundTrips id topics ↔ topics.length = 1 := by
  match topics, hs with
  | [], hs => exact absurd rfl hs.ne_nil
  | [t], hs => exact ⟨fun _ => rfl, fun _ => hs.roundTrips id⟩
  | t :: u :: topics, hs => exact ⟨fun h => absurd h (hs.not_roundTrips id), fun h => by simp at h⟩

theorem unsubscribe_roundTrips_one : RoundTrips 7 [[0x61, 0x62]] :=
  (unsubscribe_roundTrips_iff 7 [[0x61, 0x62]]
    ⟨by decide, by decide, by decide⟩).mpr rfl

/-- Two topics of one byte. -/
theorem second_topic_wrong :
    Sendable [[0x61], [0x62]] ∧ ¬ RoundTrips 7 [[0x61], [0x62]] := by
  have hs : Sendable [[0x61], [0x62]] := ⟨by decide, by decide, by decide⟩
  exact ⟨hs, hs.not_roundTrips 7⟩

end MqttUnsubscribe

end Libnio.Mqtt
