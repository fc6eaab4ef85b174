import Libnio.Mqtt.PublishFacts

/-!
# Mqtt — the payload length of a PUBLISH

What is left of the announced length once the variable header is read.
`lengthKept_iff`: this is right for the packets whose variable header fits. One
that does not fit is never refused in time: without a packet id it is not
checked at all, and the subtraction wraps; with one it is checked when the
whole of it has been read, bytes of the next packet included, and not at all
against an announced length of zero.
-/

namespace Libnio.Mqtt

open Stream

namespace MqttPublish

/-- The topic length that a body announces. -/
def topicLen (body : Bytes) : Nat := short (body.getD 0 0) (body.getD 1 0)

/-- The bytes of its variable header: the topic with its length, and a packet id
for QoS 1 and 2. -/
def varLen (header : MqttHeader) (body : Bytes) : Nat :=
  2 + topicLen body + if header.getQos ≠ .qos0 then 2 else 0

/-- In the payload state, or finished. -/
def PastVar (m : MqttPublish) : Prop := m.status = .payload ∨ m.finished = true

/-- The payload length is what the variable header left of the length. -/
structure Exact (header : MqttHeader) (body : Bytes) (m : MqttPublish) : Prop where
  fits : varLen header body ≤ header.dlen.toNat
  payloadLen_eq : m.payloadLen.toNat = header.dlen.toNat - varLen header body

/-- However the bytes behind the fixed header are cut into reads, and after each of
them: past the variable header the payload length is exact, and a variable
header that does not fit is rejected once the bytes of the packet are there. -/
structure LengthKept (header : MqttHeader) (body : Bytes) : Prop where
  exact : ∀ reads : List Bytes, (∀ data ∈ reads, data ≠ []) → reads.flatten <+: body →
    ∀ m left, feed MqttPublish.finished update (ofHeader header) reads = .ok (m, left) →
      PastVar m → Exact header reads.flatten m
  rejects : ∀ reads : List Bytes, (∀ data ∈ reads, data ≠ []) → reads.flatten <+: body →
    header.dlen.toNat ≤ reads.flatten.length →
    header.dlen.toNat < varLen header reads.flatten →
    ∃ text, feed MqttPublish.finished update (ofHeader header) reads = .error (.error text)

theorem update_eq_run (m : MqttPublish) (data : Bytes) (hd : data ≠ []) :
    update m data = run m data := if_neg hd

/-- `LengthKept` of the bytes `part` that have come in so far. -/
structure KeptOn (header : MqttHeader) (part : Bytes) : Prop where
  exact : ∀ m rest, run (ofHeader header) part = .ok (m, rest) → PastVar m → Exact header part m
  rejects : header.dlen.toNat ≤ part.length → header.dlen.toNat < varLen header part →
    ∃ text, run (ofHeader header) part = .error (.error text)

/-- The runs over the parts of the body decide it. -/
theorem lengthKept_run {header : MqttHeader} {body : Bytes} :
    LengthKept header body ↔ ∀ part, part <+: body → KeptOn header part := by
  have hi := inv_ofHeader header
  constructor
  · intro h part hpart
    -- the part in one read, unless it is empty
    obtain ⟨reads, hr, rfl⟩ : ∃ reads : List Bytes, (∀ data ∈ reads, data ≠ [])
        ∧ reads.flatten = part := by
      by_cases h0 : part = []
      · exact ⟨[], by simp, h0.symm⟩
      · exact ⟨[part], by simpa using h0, by simp⟩
    refine ⟨fun m rest hrun hp => ?_, fun hlen hlt => ?_⟩
    · obtain ⟨left, hfeed, -, -⟩ := feed_eq_ok publish_lawful update_eq_run hi hr hrun
      exact h.exact reads hr hpart m left hfeed hp
    · obtain ⟨text, hfeed⟩ := h.rejects reads hr hpart hlen hlt
      have hf := feed_flatten publish_lawful update_eq_run hi reads hr
      rw [hfeed] at hf
      exact ⟨text, hf.symm⟩
  · intro h
    refine ⟨fun reads hr hpart m left hfeed hp => ?_, fun reads hr hpart hlen hlt => ?_⟩
    · exact (h _ hpart).exact m _ (run_of_feed publish_lawful update_eq_run hi hr hfeed) hp
    · obtain ⟨text, hrun⟩ := (h _ hpart).rejects hlen hlt
      exact ⟨text, feed_eq_error publish_lawful update_eq_run hi hr hrun⟩

/-! ## The payload state -/

/-- A call in the payload state leaves the payload length alone. -/
theorem updatePayload_keeps {m m' : MqttPublish} {data rest : Bytes} (hd : data ≠ [])
    (h : updatePayload m data = .ok (m', rest)) :
    m'.payloadLen = m.payloadLen ∧ m'.status = m.status := by
  rw [updatePayload_eq m hd] at h
  let P : MqttPublish → Prop := fun s => s.payloadLen = m.payloadLen ∧ s.status = m.status
  refine field_induct payloadGuard payloadMore putPayload payloadNext hd h P P ?_
    (fun s hs _ => hs) ?_ ⟨rfl, rfl⟩
  · intro s b s' hs _ hput
    cases hput
    exact hs
  · intro s s' hs _ hn
    cases hn
    exact hs

/-- So does a run from there. -/
theorem run_payload_keeps {m m' : MqttPublish} {data rest : Bytes} (hst : m.status = .payload)
    (h : run m data = .ok (m', rest)) :
    m'.payloadLen = m.payloadLen ∧ m'.status = .payload := by
  have hi : Inv m := fun _ => by rw [hst]; trivial
  refine (publish_resumable.run_induct
    (P := fun s _ => s.payloadLen = m.payloadLen ∧ s.status = .payload) ?_ hi
    ⟨rfl, hst⟩ h).2.1
  rintro s s' data rest - - hd hh ⟨hl, hs⟩
  rw [handlers, hs] at hh
  obtain ⟨hl', hs'⟩ := updatePayload_keeps hd hh
  exact ⟨hl'.trans hl, hs'.trans hs⟩

/-! ## Bodies and their variable header -/

/-- A body is rejected for its topic length, ends inside of its variable header, or
covers it. -/
theorem body_cases (header : MqttHeader) (body : Bytes) :
    (topicLen body = 0 ∧ 2 ≤ body.length) ∨ body.length < varLen header body ∨
      ∃ hi lo i0 i1 topic rest, body = hi :: lo :: (topic ++
          ((if header.getQos ≠ .qos0 then [i0, i1] else []) ++ rest))
        ∧ topicLen body = short hi lo ∧ topic.length = short hi lo ∧ topic ≠ [] := by
  obtain _ | ⟨hi, _ | ⟨lo, rest⟩⟩ := body
  · exact .inr (.inl (by simp only [varLen, List.length_nil]; omega))
  · exact .inr (.inl (by simp only [varLen, List.length_cons, List.length_nil]; omega))
  have htl : topicLen (hi :: lo :: rest) = short hi lo := rfl
  by_cases hs : short hi lo = 0
  · exact .inl ⟨htl.trans hs, by simp⟩
  refine .inr ?_
  by_cases hv : (hi :: lo :: rest).length < varLen header (hi :: lo :: rest)
  · exact .inl hv
  refine .inr ?_
  rw [varLen, htl, List.length_cons, List.length_cons] at hv
  obtain ⟨topic, more, rfl, hl⟩ : ∃ topic more, rest = topic ++ more
      ∧ topic.length = short hi lo :=
    ⟨rest.take (short hi lo), rest.drop (short hi lo), (List.take_append_drop _ _).symm,
      by simp only [List.length_take]; omega⟩
  have h0 : topic ≠ [] := by
    rintro rfl
    exact hs hl.symm
  rw [List.length_append, hl] at hv
  by_cases hq : header.getQos ≠ .qos0
  · rw [if_pos hq] at hv
    obtain _ | ⟨i0, _ | ⟨i1, payload⟩⟩ := more
    · simp only [List.length_nil] at hv
      omega
    · simp only [List.length_cons, List.length_nil] at hv
      omega
    · exact ⟨hi, lo, i0, i1, topic, payload, by rw [if_pos hq]; rfl, rfl, hl, h0⟩
  · exact ⟨hi, lo, 0, 0, topic, more, by rw [if_neg hq]; rfl, rfl, hl, h0⟩

/-- A topic of length zero is rejected. -/
theorem run_topicLen_zero {header : MqttHeader} {body : Bytes} (h0 : topicLen body = 0)
    (h2 : 2 ≤ body.length) :
    run (ofHeader header) body = .error (.error "invalid topic len") := by
  obtain _ | ⟨hi, _ | ⟨lo, rest⟩⟩ := body
  · simp at h2
  · simp at h2
  · have hs : short hi lo = 0 := h0
    rw [run_topicLen, if_pos hs]

/-- A run over a part of the variable header waits, unless it has seen a topic
length of zero. -/
theorem run_var_waits {header : MqttHeader} {body : Bytes}
    (hv : body.length < varLen header body) (hz : 2 ≤ body.length → topicLen body ≠ 0) :
    ∃ m, run (ofHeader header) body = .ok (m, []) ∧ m.finished = false ∧ m.status ≠ .payload := by
  obtain _ | ⟨hi, _ | ⟨lo, more⟩⟩ := body
  · exact run_topicLen_part header (by simp)
  · exact run_topicLen_part header (by simp)
  have hs : short hi lo ≠ 0 := hz (by simp)
  have htl : topicLen (hi :: lo :: more) = short hi lo := rfl
  rw [varLen, htl, List.length_cons, List.length_cons] at hv
  by_cases htop : more.length < short hi lo
  · rw [run_topicLen, if_neg hs]
    obtain ⟨m', hm', hf, hst⟩ :=
      run_topicVal_part (m := atTopic header hi lo) rfl rfl (by simpa [atTopic] using htop)
    exact ⟨m', hm', hf, by simp [hst]⟩
  · have hq : header.getQos ≠ .qos0 := by
      intro hq
      rw [if_neg (by simp [hq])] at hv
      omega
    rw [if_pos hq] at hv
    obtain ⟨topic, id, rfl, hl⟩ : ∃ topic id, more = topic ++ id
        ∧ topic.length = short hi lo :=
      ⟨more.take (short hi lo), more.drop (short hi lo), (List.take_append_drop _ _).symm,
        by simp only [List.length_take]; omega⟩
    have h0 : topic ≠ [] := by
      rintro rfl
      exact hs hl.symm
    rw [run_qos12 hq hi lo h0 hl]
    rw [List.length_append, hl] at hv
    obtain ⟨m', hm', hf, hst⟩ := run_pktid_part
      (m := { afterTopic header hi lo topic with status := .pktid }) rfl rfl rfl
      (show id.length < 2 by omega)
    exact ⟨m', hm', hf, by simp [hst]⟩

/-- A run that ends inside of the variable header is not past it. -/
theorem run_var_part {header : MqttHeader} {body : Bytes}
    (hv : body.length < varLen header body) {m : MqttPublish} {rest : Bytes}
    (hrun : run (ofHeader header) body = .ok (m, rest)) : ¬ PastVar m := by
  by_cases hz : 2 ≤ body.length → topicLen body ≠ 0
  · obtain ⟨m', hrun', hf, hst⟩ := run_var_waits hv hz
    rw [hrun] at hrun'
    cases hrun'
    rintro (hp | hp)
    · exact hst hp
    · rw [hf] at hp
      cases hp
  · obtain ⟨h2, h0⟩ := Classical.not_imp.mp hz
    rw [run_topicLen_zero (not_not.mp h0) h2] at hrun
    cases hrun

/-! ## Where the length is kept -/

/-- Room for a payload: the run takes what it gets. -/
theorem run_payload_ok {m : MqttPublish} (hst : m.status = .payload)
    (hf : m.finished = false) (hp : m.payload = []) (hl : 0 < m.payloadLen.toNat)
    (data : Bytes) : ∃ m' rest, run m data = .ok (m', rest) := by
  by_cases hlt : data.length < m.payloadLen.toNat
  · have hpart : m.payload.length + data.length < m.payloadLen.toNat := by simpa [hp] using hlt
    obtain ⟨m', hrun, -⟩ := run_payload_part hst hf hpart
    exact ⟨m', [], hrun⟩
  · have htake : (data.take m.payloadLen.toNat).length = m.payloadLen.toNat := by
      simp only [List.length_take]
      omega
    have hne : data.take m.payloadLen.toNat ≠ [] := List.ne_nil_of_length_pos (by omega)
    have hrun := run_payload hst hf hne (by rw [hp, htake]; simp)
      (data.drop m.payloadLen.toNat)
    rw [List.take_append_drop] at hrun
    exact ⟨_, _, hrun⟩

/-- Without a packet id the subtraction is not guarded: on a topic that does not
fit the payload state is reached with a length of nearly 2^32. -/
theorem payloadLen_wraps (header : MqttHeader) (hq : header.getQos = .qos0) (hi lo : UInt8)
    {topic : Bytes} (h0 : topic ≠ []) (hl : topic.length = short hi lo) (rest : Bytes)
    (hlt : header.dlen.toNat < short hi lo + 2) :
    ∃ m left, run (ofHeader header) (hi :: lo :: (topic ++ rest)) = .ok (m, left) ∧
      m.status = .payload ∧
      m.payloadLen.toNat = 4294967296 + header.dlen.toNat - (short hi lo + 2) := by
  have hs := short_lt hi lo
  have hwrap : (header.dlen - (UInt32.ofNat (short hi lo) + 2)).toNat
      = 4294967296 + header.dlen.toNat - (short hi lo + 2) := by
    rw [UInt32.toNat_sub, toNat_hlenVar]
    omega
  rw [run_qos0 hq hi lo h0 hl]
  obtain ⟨m, left, hrun⟩ := run_payload_ok
    (m := { afterTopic header hi lo topic with
      payloadLen := header.dlen - (UInt32.ofNat (short hi lo) + 2), status := .payload })
    rfl rfl rfl (by rw [hwrap]; omega) rest
  obtain ⟨hlen, hst⟩ := run_payload_keeps rfl hrun
  exact ⟨m, left, hrun, hst, by rw [hlen]; exact hwrap⟩

theorem exact_qos0 {header : MqttHeader} (hq : header.getQos = .qos0) (hi lo : UInt8)
    {topic : Bytes} (h0 : topic ≠ []) (hl : topic.length = short hi lo) (rest : Bytes)
    (hle : varLen header (hi :: lo :: (topic ++ rest)) ≤ header.dlen.toNat)
    {m : MqttPublish} {left : Bytes}
    (hrun : run (ofHeader header) (hi :: lo :: (topic ++ rest)) = .ok (m, left)) :
    Exact header (hi :: lo :: (topic ++ rest)) m := by
  have hv : varLen header (hi :: lo :: (topic ++ rest)) = 2 + short hi lo := by
    simp [varLen, topicLen, hq]
  refine ⟨hle, ?_⟩
  rw [hv] at hle ⊢
  rw [run_qos0 hq hi lo h0 hl] at hrun
  rw [(run_payload_keeps rfl hrun).1, toNat_sub (by rw [toNat_hlenVar]; omega), toNat_hlenVar]
  omega

/-- With a packet id the check is made, though late. -/
theorem exact_qos12 {header : MqttHeader} (hq : header.getQos ≠ .qos0)
    (hi lo i0 i1 : UInt8) {topic : Bytes} (h0 : topic ≠ []) (hl : topic.length = short hi lo)
    (rest : Bytes) (hle : varLen header (hi :: lo :: (topic ++ i0 :: i1 :: rest)) ≤
      header.dlen.toNat) {m : MqttPublish} {left : Bytes}
    (hrun : run (ofHeader header) (hi :: lo :: (topic ++ i0 :: i1 :: rest)) = .ok (m, left)) :
    Exact header (hi :: lo :: (topic ++ i0 :: i1 :: rest)) m := by
  have hv : varLen header (hi :: lo :: (topic ++ i0 :: i1 :: rest)) = short hi lo + 4 := by
    simp only [varLen, topicLen, if_pos hq, List.getD_cons_zero, List.getD_cons_succ]
    omega
  refine ⟨hle, ?_⟩
  rw [hv] at hle ⊢
  have hsub : (header.dlen - (UInt32.ofNat (short hi lo) + 2 + 2)).toNat
      = header.dlen.toNat - (short hi lo + 4) := by
    rw [toNat_sub (by rw [toNat_hlenVar_id]; omega), toNat_hlenVar_id]
  rw [run_id_eq hq hi lo i0 i1 h0 hl, if_neg (by omega), if_neg (by omega)] at hrun
  split at hrun
  · cases hrun
    exact hsub
  · rw [(run_payload_keeps rfl hrun).1]
    exact hsub

/-- A variable header that fits leaves its payload. -/
theorem exact_of_fits {header : MqttHeader} {body : Bytes} {m : MqttPublish} {rest : Bytes}
    (hrun : run (ofHeader header) body = .ok (m, rest)) (hp : PastVar m)
    (hle : varLen header body ≤ body.length → varLen header body ≤ header.dlen.toNat) :
    Exact header body m := by
  by_cases hv : body.length < varLen header body
  · exact absurd hp (run_var_part hv hrun)
  have hfits := hle (Nat.le_of_not_lt hv)
  rcases body_cases header body with
    ⟨hz, h2⟩ | hv' | ⟨hi, lo, i0, i1, topic, more, rfl, -, hl, h0⟩
  · rw [run_topicLen_zero hz h2] at hrun
    cases hrun
  · exact absurd hv' hv
  · by_cases hq : header.getQos = .qos0
    · simp only [hq, ne_eq, not_true_eq_false, if_false, List.nil_append] at hrun hfits ⊢
      exact exact_qos0 hq hi lo h0 hl more hfits hrun
    · simp only [ne_eq, hq, not_false_eq_true, if_true, List.cons_append, List.nil_append]
        at hrun hfits ⊢
      exact exact_qos12 hq hi lo i0 i1 h0 hl more hfits hrun

/-- Behind its length the topic does not depend on how many bytes there are. -/
theorem varLen_part (header : MqttHeader) {part body : Bytes} (hpart : part <+: body)
    (h2 : 2 ≤ part.length) :
    topicLen part = topicLen body ∧ varLen header part = varLen header body := by
  obtain ⟨more, rfl⟩ := hpart
  obtain _ | ⟨hi, _ | ⟨lo, rest⟩⟩ := part
  · simp at h2
  · simp at h2
  · exact ⟨rfl, rfl⟩

/-- **The payload length is kept exactly on the packets whose variable header
fits**, and on those that announce an empty topic, which are rejected; as long as
the packet is not there as a whole nothing is wrong yet. -/
theorem lengthKept_iff (header : MqttHeader) (body : Bytes) :
    LengthKept header body ↔
      body.length < header.dlen.toNat ∨
        (2 ≤ header.dlen.toNat ∧
          (topicLen body = 0 ∨ varLen header body ≤ header.dlen.toNat)) := by
  rw [lengthKept_run]
  constructor
  · intro h
    by_contra hc
    obtain ⟨hlen, hc⟩ := not_or.mp hc
    -- the bytes of the packet and no more: the run waits, or was over at the topic length
    have htake : (body.take header.dlen.toNat).length = header.dlen.toNat := by
      rw [List.length_take]
      omega
    have hlt : header.dlen.toNat < varLen header (body.take header.dlen.toNat) := by
      by_cases h2 : 2 ≤ header.dlen.toNat
      · rw [(varLen_part header (List.take_prefix _ _) (by omega)).2]
        have := not_or.mp (fun ho => hc ⟨h2, ho⟩)
        omega
      · rw [varLen]
        omega
    obtain ⟨text, hrej⟩ := (h _ (List.take_prefix _ _)).rejects (by omega) hlt
    have htopic : 2 ≤ (body.take header.dlen.toNat).length →
        topicLen (body.take header.dlen.toNat) ≠ 0 := by
      intro h2
      rw [(varLen_part header (List.take_prefix _ _) h2).1]
      exact fun h0 => hc ⟨by omega, .inl h0⟩
    have hpart : (body.take header.dlen.toNat).length <
        varLen header (body.take header.dlen.toNat) := by omega
    obtain ⟨m, hrun, -⟩ := run_var_waits hpart htopic
    rw [hrej] at hrun
    cases hrun
  · intro hc part hpart
    have hle := hpart.length_le
    refine ⟨fun m rest hrun hp => exact_of_fits hrun hp fun hv => ?_, fun hlen hlt => ?_⟩
    · rcases hc with hshort | ⟨-, h0 | hfits⟩
      · omega
      · have h2 : 2 ≤ part.length := by
          rw [varLen] at hv
          omega
        rw [run_topicLen_zero ((varLen_part header hpart h2).1.trans h0) h2] at hrun
        cases hrun
      · rw [(varLen_part header hpart (by rw [varLen] at hv; omega)).2]
        exact hfits
    · rcases hc with hshort | ⟨h2, h0 | hfits⟩
      · omega
      · exact ⟨_, run_topicLen_zero
          ((varLen_part header hpart (by omega)).1.trans h0) (by omega)⟩
      · rw [(varLen_part header hpart (by omega)).2] at hlt
        omega

/-- A QoS 0 PUBLISH of length 2 that announces a topic of one byte. -/
theorem length_wraps : ¬ ∀ (header : MqttHeader) (body : Bytes), LengthKept header body := by
  intro hall
  have hk := hall ((MqttHeader.new .publish).setRemaingLength 2) [0x00, 0x01, 0x61]
  have hne : ([0x61] : Bytes) ≠ [] := by simp
  obtain ⟨m, left, hrun, hst, -⟩ := payloadLen_wraps
    ((MqttHeader.new .publish).setRemaingLength 2) rfl 0x00 0x01 hne rfl [] (by decide)
  have hfits := ((lengthKept_run.mp hk _ (List.prefix_refl _)).exact m left hrun (.inl hst)).fits
  exact absurd hfits (by decide)

end MqttPublish

end Libnio.Mqtt
