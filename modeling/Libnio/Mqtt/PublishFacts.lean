import Mathlib.Data.List.Induction
import Libnio.Mqtt.Publish
import Libnio.Mqtt.Packet

/-!
# Mqtt — PUBLISH round trips

The parser run over whole fields (`run_topicLen` .. `run_payload`) and over
input that ends inside of one, and from these: a packet written by
`toString` is parsed back, and a parsed packet is written back.
-/

namespace Libnio.Mqtt

open Stream

namespace MqttPublish

def parser : MessageParser MqttPublish :=
  { ofHeader, finished := MqttPublish.finished, update, run, Inv
    update_eq := fun _ _ hd => if_neg hd
    lawful := publish_lawful
    inv_ofHeader }

theorem parser_run (header : MqttHeader) (data : Bytes) :
    parser.run (parser.ofHeader header) data = run (ofHeader header) data := rfl

/-! ## Runs over the fields -/

theorem fills_buff (m : MqttPublish) :
    Fills (fun m : MqttPublish => m.dlen < 2) putBuff
      (fun xs => { m with buff := fill m.buff xs, dlen := xs.length }) 2 :=
  .of_store (f := fun buff dlen => { m with buff, dlen }) (Nat.le_refl 2) (fun _ _ _ => rfl)
    (fun _ _ b hk => putBuff_eq hk b) m.buff

theorem fills_topic (m : MqttPublish) (n : Nat) :
    Fills (fun m : MqttPublish => m.dlen > 0) putTopic
      (fun xs => { m with topic := m.topic ++ xs, dlen := n - xs.length }) n :=
  .of_countdown (f := fun xs dlen => { m with topic := m.topic ++ xs, dlen }) (fun _ _ => rfl)
    (fun xs b d => by rw [putTopic, List.append_assoc]) n

theorem fills_payload (m : MqttPublish) {n : Nat}
    (hn : m.payloadLen.toNat = m.payload.length + n) :
    Fills payloadMore putPayload (fun xs => { m with payload := m.payload ++ xs }) n where
  more_lt := fun xs h => by
    simp only [payloadMore, List.length_append, decide_eq_true_eq]
    omega
  stop := fun xs h => by
    simp only [payloadMore, List.length_append, decide_eq_false_iff_not]
    omega
  put_eq := fun xs b h => by simp [putPayload]

/-- Where the parser is once it has read a topic length. -/
def atTopic (header : MqttHeader) (hi lo : UInt8) : MqttPublish :=
  { ofHeader header with
    buff := fill (Vector.replicate 2 0) [hi, lo], dlen := short hi lo,
    hlenVar := UInt32.ofNat (short hi lo) + 2, status := .topicVal }

/-- The parser as it waits for the topic length. -/
def atStart (header : MqttHeader) : MqttPublish :=
  { ofHeader header with status := .topicLen }

theorem run_hdrVar (header : MqttHeader) {data : Bytes} (hd : data ≠ []) :
    run (ofHeader header) data = run (atStart header) data := by
  have hh : handlers (ofHeader header) data = .ok (atStart header, data) := by
    simp only [handlers, ofHeader, updateHeaderVar, assertThat_true hd, ok_bind]
    rfl
  rw [run, publish_resumable.run_go (inv_ofHeader header) rfl hd, hh, ok_bind]
  rfl

theorem inv_atStart (header : MqttHeader) : Inv (atStart header) :=
  fun _ => Nat.zero_lt_two

theorem run_topicLen (header : MqttHeader) (hi lo : UInt8) (rest : Bytes) :
    run (ofHeader header) (hi :: lo :: rest)
      = if short hi lo = 0 then .error (.error "invalid topic len")
        else run (atTopic header hi lo) rest := by
  have hall := (fills_buff (atStart header)).run_all .timeout
    (fun _ => .ok ()) topicLenNext (s := atStart header) rfl
    publish_resumable (inv_atStart header) rfl (fun _ _ => rfl) rfl
    (show [hi, lo].length = 2 from rfl) (by decide) rest
  rw [run_hdrVar header (by simp)]
  refine hall.trans ?_
  simp only [topicLenNext, unpackShort_fill (n := 2) _ 0 1 rfl rfl, short_eq_zero, toNat_short,
    toUInt32_short]
  split <;> rfl

/-- The topic ends where its length says. -/
theorem run_topicVal {m : MqttPublish} (hst : m.status = .topicVal)
    (hf : m.finished = false) {topic : Bytes} (h0 : topic ≠ [])
    (hd : m.dlen = topic.length) (rest : Bytes) :
    run m (topic ++ rest)
      = topicValNext { m with topic := m.topic ++ topic, dlen := 0 }
          >>= fun m => run m rest := by
  have hpos : m.dlen > 0 := by
    rw [hd]
    exact List.length_pos_iff.mpr h0
  have hall := (fills_topic m m.dlen).run_all .timeout _ _ (s := m) (by simp)
    publish_resumable (fun _ => by rw [hst]; exact hpos) hf
    (fun data _ => by rw [handlers, hst]; rfl) (assertThat_true hpos) hd.symm hpos rest
  refine hall.trans ?_
  simp only [hd, Nat.sub_self]
  rfl

theorem run_pktid {m : MqttPublish} (hst : m.status = .pktid) (hf : m.finished = false)
    (hd : m.dlen = 0) (hi lo : UInt8) (rest : Bytes) :
    run m (hi :: lo :: rest)
      = pktidNext { m with buff := fill m.buff [hi, lo], dlen := 2 }
          >>= fun m => run m rest :=
  (fills_buff m).run_all .timeout pktidGuard _ (s := m) (by simp [← hd])
    publish_resumable (fun _ => by rw [hst, hd]; exact Nat.zero_lt_two) hf
    (fun data _ => by rw [handlers, hst]; rfl) (if_neg (by omega))
    (show [hi, lo].length = 2 from rfl) (by decide) rest

theorem run_payload {m : MqttPublish} (hst : m.status = .payload)
    (hf : m.finished = false) {payload : Bytes} (h0 : payload ≠ [])
    (hn : m.payloadLen.toNat = m.payload.length + payload.length) (rest : Bytes) :
    run m (payload ++ rest)
      = .ok ({ m with payload := m.payload ++ payload, finished := true }, rest) := by
  have hpos := List.length_pos_iff.mpr h0
  have hall := (fills_payload m hn).run_all .timeout payloadGuard payloadNext (s := m)
    (by simp) publish_resumable (fun _ => by rw [hst]; trivial) hf
    (fun data hd => ?_) (if_neg (by omega)) rfl hpos rest
  · exact hall.trans (run_stop (.inr rfl))
  · rw [handlers, hst]
    exact updatePayload_eq m hd

/-! ## Runs that end inside of a field -/

theorem run_topicLen_part (header : MqttHeader) {xs : Bytes} (hx : xs.length < 2) :
    ∃ m, run (ofHeader header) xs = .ok (m, []) ∧ m.finished = false
      ∧ m.status ≠ .payload := by
  by_cases h0 : xs = []
  · subst h0
    exact ⟨_, run_stop (.inl rfl), rfl, by simp [ofHeader]⟩
  · rw [run_hdrVar header h0]
    exact ⟨_, (fills_buff (atStart header)).run_part .timeout (fun _ => .ok ())
      topicLenNext (s := atStart header) rfl publish_resumable
      (inv_atStart header) rfl (fun _ _ => rfl) rfl hx, rfl, by simp [atStart]⟩

theorem run_topicVal_part {m : MqttPublish} (hst : m.status = .topicVal)
    (hf : m.finished = false) {xs : Bytes} (hx : xs.length < m.dlen) :
    ∃ m', run m xs = .ok (m', []) ∧ m'.finished = false ∧ m'.status = .topicVal := by
  have hpos : m.dlen > 0 := by omega
  exact ⟨_, (fills_topic m m.dlen).run_part .timeout _ _ (s := m) (by simp) publish_resumable
    (fun _ => by rw [hst]; exact hpos) hf (fun data _ => by rw [handlers, hst]; rfl)
    (assertThat_true hpos) hx, hf, hst⟩

theorem run_pktid_part {m : MqttPublish} (hst : m.status = .pktid)
    (hf : m.finished = false) (hd : m.dlen = 0) {xs : Bytes} (hx : xs.length < 2) :
    ∃ m', run m xs = .ok (m', []) ∧ m'.finished = false ∧ m'.status = .pktid :=
  ⟨_, (fills_buff m).run_part .timeout pktidGuard _ (s := m) (by simp [← hd])
    publish_resumable (fun _ => by rw [hst, hd]; exact Nat.zero_lt_two) hf
    (fun data _ => by rw [handlers, hst]; rfl) (if_neg (by omega)) hx, hf, hst⟩

theorem run_payload_part {m : MqttPublish} (hst : m.status = .payload)
    (hf : m.finished = false) {xs : Bytes}
        (hx : m.payload.length + xs.length < m.payloadLen.toNat) :
    ∃ m', run m xs = .ok (m', []) ∧ m'.finished = false := by
  refine ⟨_, (fills_payload m (n := m.payloadLen.toNat - m.payload.length) (by omega)).run_part
    .timeout payloadGuard payloadNext (s := m) (by simp) publish_resumable
    (fun _ => by rw [hst]; trivial) hf (fun data hd => ?_) (if_neg (by omega)) (by omega), hf⟩
  rw [handlers, hst]
  exact updatePayload_eq m hd

/-! ## Bodies -/

/-- The bytes after the fixed header. -/
def wireBody (topic : Bytes) (qos : MqttQos) (id : UInt16) (payload : Bytes) : Bytes :=
  msb (UInt16.ofNat topic.length) :: lsb (UInt16.ofNat topic.length) ::
    (topic ++ ((if qos ≠ .qos0 then [msb id, lsb id] else []) ++ payload))

/-- Where the parser is once it has read a topic. -/
def afterTopic (header : MqttHeader) (hi lo : UInt8) (topic : Bytes) : MqttPublish :=
  { atTopic header hi lo with topic, dlen := 0 }

theorem run_topic (header : MqttHeader) (hi lo : UInt8) {topic : Bytes} (h0 : topic ≠ [])
    (hl : topic.length = short hi lo) (rest : Bytes) :
    run (ofHeader header) (hi :: lo :: (topic ++ rest))
      = topicValNext (afterTopic header hi lo topic) >>= fun m => run m rest := by
  have hs : short hi lo ≠ 0 := by
    rw [← hl]
    exact fun hc => h0 (List.eq_nil_of_length_eq_zero hc)
  rw [run_topicLen, if_neg hs, run_topicVal (m := atTopic header hi lo) rfl rfl h0 hl.symm]
  rfl

theorem toNat_hlenVar (hi lo : UInt8) :
    (UInt32.ofNat (short hi lo) + 2).toNat = short hi lo + 2 := by
  have hs := short_lt hi lo
  rw [UInt32.toNat_add, UInt32.toNat_ofNat', show UInt32.toNat 2 = 2 from rfl]
  omega

theorem toNat_hlenVar_id (hi lo : UInt8) :
    (UInt32.ofNat (short hi lo) + 2 + 2).toNat = short hi lo + 4 := by
  have hs := short_lt hi lo
  rw [UInt32.toNat_add, toNat_hlenVar, show UInt32.toNat 2 = 2 from rfl]
  omega

/-- `payload_len_ -= hlen_var_`, when the variable header fits. -/
theorem toNat_sub {len v : UInt32} (h : v.toNat ≤ len.toNat) :
    (len - v).toNat = len.toNat - v.toNat :=
  UInt32.toNat_sub_of_le _ _ (UInt32.le_iff_toNat_le.mpr h)

/-- What the parser holds after a packet. -/
structure Decoded (header : MqttHeader) (topic : Bytes) (id : UInt16) (payload : Bytes)
    (m : MqttPublish) : Prop where
  finished : m.finished = true
  header_eq : m.header = header.copy
  topic_eq : m.topic = topic
  payload_eq : m.payload = payload
  payloadLen_eq : m.payloadLen.toNat = payload.length
  pktId_eq : header.getQos ≠ .qos0 → m.pktId = id

/-- Without a packet id the topic is followed by the payload. -/
theorem run_qos0 {header : MqttHeader} (hq : header.getQos = .qos0) (hi lo : UInt8)
    {topic : Bytes} (h0 : topic ≠ []) (hl : topic.length = short hi lo) (rest : Bytes) :
    run (ofHeader header) (hi :: lo :: (topic ++ rest))
      = run { afterTopic header hi lo topic with
                payloadLen := header.dlen - (UInt32.ofNat (short hi lo) + 2),
                status := .payload } rest := by
  have hq' : ¬ (afterTopic header hi lo topic).header.getQos ≠ .qos0 := by
    rw [show (afterTopic header hi lo topic).header.getQos = header.getQos from rfl, hq]
    simp
  rw [run_topic header hi lo h0 hl, topicValNext, if_neg hq']
  rfl

/-- With a packet id the topic is followed by the id. -/
theorem run_qos12 {header : MqttHeader} (hq : header.getQos ≠ .qos0) (hi lo : UInt8)
    {topic : Bytes} (h0 : topic ≠ []) (hl : topic.length = short hi lo) (rest : Bytes) :
    run (ofHeader header) (hi :: lo :: (topic ++ rest))
      = run { afterTopic header hi lo topic with status := .pktid } rest := by
  have hq' : (afterTopic header hi lo topic).header.getQos ≠ .qos0 := hq
  rw [run_topic header hi lo h0 hl, topicValNext, if_pos hq']
  rfl

/-- Where the parser is once it has read a packet id. -/
def afterPktid (header : MqttHeader) (hi lo i0 i1 : UInt8) (topic : Bytes) : MqttPublish :=
  { afterTopic header hi lo topic with
    buff := fill (atTopic header hi lo).buff [i0, i1], dlen := 2,
    pktId := UInt16.ofNat (short i0 i1), hlenVar := UInt32.ofNat (short hi lo) + 2 + 2,
    payloadLen := header.dlen - (UInt32.ofNat (short hi lo) + 2 + 2), status := .pktid }

/-- After the packet id the payload length is what is left: an announced length of
zero is not looked at, and one that is too small is rejected. -/
theorem pktidNext_eq (header : MqttHeader) (hi lo i0 i1 : UInt8) (topic : Bytes) :
    pktidNext { afterTopic header hi lo topic with
        buff := fill (afterTopic header hi lo topic).buff [i0, i1], dlen := 2,
        status := .pktid }
      = (if header.dlen.toNat = 0 then
          .ok { afterPktid header hi lo i0 i1 topic with
                payloadLen := header.dlen, finished := true }
        else if header.dlen.toNat < short hi lo + 4 then
          .error (.error "invalid payload len")
        else if header.dlen.toNat = short hi lo + 4 then
          .ok { afterPktid header hi lo i0 i1 topic with finished := true }
        else .ok { afterPktid header hi lo i0 i1 topic with status := .payload }) := by
  have hv := toNat_hlenVar_id hi lo
  have h0 : header.dlen = 0 ↔ header.dlen.toNat = 0 := UInt32.toNat_inj.symm
  have hlt : header.dlen < UInt32.ofNat (short hi lo) + 2 + 2
      ↔ header.dlen.toNat < short hi lo + 4 := by
    rw [UInt32.lt_iff_toNat_lt, hv]
  simp only [pktidNext, unpackShort_fill (n := 2) _ 0 1 rfl rfl]
  change (if header.dlen = 0 then _ else
    if header.dlen < UInt32.ofNat (short hi lo) + 2 + 2 then _ else
    if header.dlen - (UInt32.ofNat (short hi lo) + 2 + 2) = 0 then _ else _) = _
  by_cases hz : header.dlen.toNat = 0
  · rw [if_pos (h0.mpr hz), if_pos hz]
    rfl
  by_cases hl : header.dlen.toNat < short hi lo + 4
  · rw [if_neg (fun hc => hz (h0.mp hc)), if_pos (hlt.mpr hl), if_neg hz, if_pos hl]
  have hsub : header.dlen - (UInt32.ofNat (short hi lo) + 2 + 2) = 0
      ↔ header.dlen.toNat = short hi lo + 4 := by
    rw [← UInt32.toNat_inj, toNat_sub (by omega), hv, show UInt32.toNat 0 = 0 from rfl]
    omega
  rw [if_neg (fun hc => hz (h0.mp hc)), if_neg (fun hc => hl (hlt.mp hc)), if_neg hz,
    if_neg hl]
  by_cases he : header.dlen.toNat = short hi lo + 4
  · rw [if_pos (hsub.mpr he), if_pos he]
    rfl
  · rw [if_neg (fun hc => he (hsub.mp hc)), if_neg he]
    rfl

/-- The run over a packet id. -/
theorem run_id_eq {header : MqttHeader} (hq : header.getQos ≠ .qos0) (hi lo i0 i1 : UInt8)
    {topic : Bytes} (h0 : topic ≠ []) (hl : topic.length = short hi lo) (rest : Bytes) :
    run (ofHeader header) (hi :: lo :: (topic ++ i0 :: i1 :: rest))
      = if header.dlen.toNat = 0 then
          .ok ({ afterPktid header hi lo i0 i1 topic with
                  payloadLen := header.dlen, finished := true }, rest)
        else if header.dlen.toNat < short hi lo + 4 then
          .error (.error "invalid payload len")
        else if header.dlen.toNat = short hi lo + 4 then
          .ok ({ afterPktid header hi lo i0 i1 topic with finished := true }, rest)
        else run { afterPktid header hi lo i0 i1 topic with status := .payload } rest := by
  rw [run_qos12 hq hi lo h0 hl,
    run_pktid (m := { afterTopic header hi lo topic with status := .pktid }) rfl rfl rfl,
    pktidNext_eq]
  split
  · exact run_stop (.inr rfl)
  split
  · rfl
  split
  · exact run_stop (.inr rfl)
  · rfl

/-- The packet id ends the message when the length is used up. -/
theorem run_id {header : MqttHeader} (hq : header.getQos ≠ .qos0) (hi lo i0 i1 : UInt8)
    {topic : Bytes} (h0 : topic ≠ []) (hl : topic.length = short hi lo)
    (hlen : short hi lo + 4 ≤ header.dlen.toNat) (rest : Bytes) :
    run (ofHeader header) (hi :: lo :: (topic ++ i0 :: i1 :: rest))
      = if header.dlen.toNat = short hi lo + 4
        then .ok ({ afterPktid header hi lo i0 i1 topic with finished := true }, rest)
        else run { afterPktid header hi lo i0 i1 topic with status := .payload } rest := by
  rw [run_id_eq hq hi lo i0 i1 h0 hl, if_neg (by omega), if_neg (by omega)]

/-- The body of a packet as its header announces it is decoded, and what
follows it is left over. Without a packet id the payload must not be empty. -/
theorem run_body (header : MqttHeader) (hi lo i0 i1 : UInt8) {topic : Bytes}
    (h0 : topic ≠ []) (hl : topic.length = short hi lo) (payload : Bytes)
    (hlen : header.dlen.toNat = topic.length + 2
      + (if header.getQos ≠ .qos0 then 2 else 0) + payload.length)
    (hp : header.getQos = .qos0 → payload ≠ []) :
    ∃ m, Decoded header topic (UInt16.ofNat (short i0 i1)) payload m ∧
      ∀ rest, run (ofHeader header) (hi :: lo :: (topic ++
        ((if header.getQos ≠ .qos0 then [i0, i1] else []) ++ (payload ++ rest))))
          = .ok (m, rest) := by
  by_cases hq : header.getQos = .qos0
  · rw [if_neg (by simp [hq])] at hlen ⊢
    have hlen' : (header.dlen - (UInt32.ofNat (short hi lo) + 2)).toNat = payload.length := by
      rw [toNat_sub (by rw [toNat_hlenVar]; omega), toNat_hlenVar]
      omega
    refine ⟨{ afterTopic header hi lo topic with
        payloadLen := header.dlen - (UInt32.ofNat (short hi lo) + 2), status := .payload,
        payload, finished := true },
      ⟨rfl, rfl, rfl, rfl, hlen', fun hc => absurd hq hc⟩, fun rest => ?_⟩
    rw [List.nil_append, run_qos0 hq hi lo h0 hl]
    exact run_payload rfl rfl (hp hq) (hlen'.trans (Nat.zero_add _).symm) rest
  · rw [if_pos hq] at hlen ⊢
    have hlen' : (header.dlen - (UInt32.ofNat (short hi lo) + 2 + 2)).toNat
        = payload.length := by
      rw [toNat_sub (by rw [toNat_hlenVar_id]; omega), toNat_hlenVar_id]
      omega
    by_cases hpay : payload = []
    · subst hpay
      refine ⟨{ afterPktid header hi lo i0 i1 topic with finished := true },
        ⟨rfl, rfl, rfl, rfl, hlen', fun _ => rfl⟩, fun rest => ?_⟩
      rw [List.cons_append, List.cons_append, List.nil_append,
        run_id hq hi lo i0 i1 h0 hl (by omega), if_pos (by simpa [hl] using hlen)]
      rfl
    · have hpos := List.length_pos_iff.mpr hpay
      refine ⟨{ afterPktid header hi lo i0 i1 topic with
          status := .payload, payload, finished := true },
        ⟨rfl, rfl, rfl, rfl, hlen', fun _ => rfl⟩, fun rest => ?_⟩
      rw [List.cons_append, List.cons_append, List.nil_append,
        run_id hq hi lo i0 i1 h0 hl (by omega), if_neg (by omega)]
      exact run_payload rfl rfl hpay (hlen'.trans (Nat.zero_add _).symm) rest

/-- Without a packet id and without a payload the parser does not finish. -/
theorem run_body_empty {header : MqttHeader} (hq : header.getQos = .qos0) (hi lo : UInt8)
    {topic : Bytes} (h0 : topic ≠ []) (hl : topic.length = short hi lo) :
    ∃ m, run (ofHeader header) (hi :: lo :: topic) = .ok (m, [])
      ∧ m.finished = false := by
  have hrun := run_qos0 hq hi lo h0 hl []
  rw [List.append_nil] at hrun
  rw [hrun]
  exact ⟨_, run_stop (.inl rfl), rfl⟩

/-- What the bytes of a finished packet are. -/
theorem body_of_run {header : MqttHeader} {body : Bytes} {m : MqttPublish}
    (hlen : header.dlen.toNat = body.length)
    (h : run (ofHeader header) body = .ok (m, [])) (hf : m.finished = true) :
    ∃ hi lo i0 i1 topic payload, body = hi :: lo :: (topic ++
        ((if header.getQos ≠ .qos0 then [i0, i1] else []) ++ payload))
      ∧ topic.length = short hi lo ∧ topic ≠ []
      ∧ Decoded header topic (UInt16.ofNat (short i0 i1)) payload m := by
  -- a run that ends inside of a field is not finished
  have hpart : ∀ {Q : MqttPublish → Prop}, ¬ ∃ m', run (ofHeader header) body = .ok (m', [])
      ∧ m'.finished = false ∧ Q m' := by
    rintro Q ⟨m', hm', hf', -⟩
    rw [h] at hm'
    cases hm'
    rw [hf] at hf'
    cases hf'
  obtain ⟨hi, lo, rest, rfl⟩ : ∃ hi lo rest, body = hi :: lo :: rest := by
    rcases body with _ | ⟨hi, _ | ⟨lo, rest⟩⟩
    · exact absurd (run_topicLen_part header (by simp)) hpart
    · exact absurd (run_topicLen_part header (by simp)) hpart
    · exact ⟨hi, lo, rest, rfl⟩
  have hs : short hi lo ≠ 0 := by
    intro hs
    rw [run_topicLen, if_pos hs] at h
    cases h
  have htop : short hi lo ≤ rest.length := by
    by_contra hc
    refine hpart (Q := fun m => m.status = .topicVal) ?_
    rw [run_topicLen, if_neg hs]
    exact run_topicVal_part (m := atTopic header hi lo) rfl rfl (by simpa [atTopic] using hc)
  obtain ⟨topic, rest, rfl, hl⟩ : ∃ topic rest', rest = topic ++ rest'
      ∧ topic.length = short hi lo :=
    ⟨rest.take (short hi lo), rest.drop (short hi lo), (List.take_append_drop _ _).symm,
      by simpa using htop⟩
  have h0 : topic ≠ [] := by
    rintro rfl
    exact hs hl.symm
  by_cases hq : header.getQos = .qos0
  · have hbody := run_body header hi lo 0 0 h0 hl rest
      (by simpa [hq, Nat.add_assoc, Nat.add_comm, Nat.add_left_comm] using hlen) ?_
    · obtain ⟨m', hdec, hm'⟩ := hbody
      specialize hm' []
      simp only [hq, ne_eq, not_true_eq_false, if_false, List.nil_append, List.append_nil]
        at hm'
      rw [h] at hm'
      cases hm'
      exact ⟨hi, lo, 0, 0, topic, rest, by simp [hq], hl, h0, hdec⟩
    · rintro - rfl
      rw [List.append_nil] at hpart
      obtain ⟨m', hm', hf'⟩ := run_body_empty hq hi lo h0 hl
      exact hpart (Q := fun _ => True) ⟨m', hm', hf', trivial⟩
  · obtain ⟨i0, i1, payload, rfl⟩ : ∃ i0 i1 payload, rest = i0 :: i1 :: payload := by
      have hid : ¬ rest.length < 2 := by
        intro hc
        refine hpart (Q := fun m => m.status = .pktid) ?_
        rw [run_qos12 hq hi lo h0 hl]
        exact run_pktid_part rfl rfl rfl hc
      rcases rest with _ | ⟨i0, _ | ⟨i1, payload⟩⟩
      · simp at hid
      · simp at hid
      · exact ⟨i0, i1, payload, rfl⟩
    have hbody := run_body header hi lo i0 i1 h0 hl payload
      (by simp [hq] at hlen ⊢; omega) (fun hc => absurd hc hq)
    obtain ⟨m', hdec, hm'⟩ := hbody
    specialize hm' []
    simp only [if_pos hq, List.append_nil, List.cons_append, List.nil_append] at hm'
    rw [h] at hm'
    cases hm'
    exact ⟨hi, lo, i0, i1, topic, payload, by simp [hq], hl, h0, hdec⟩

/-! ## Writing -/

theorem length_wireBody (topic : Bytes) (qos : MqttQos) (id : UInt16) (payload : Bytes) :
    (wireBody topic qos id payload).length
      = topic.length + 2 + (if qos ≠ .qos0 then 2 else 0) + payload.length := by
  unfold wireBody
  split <;> simp <;> omega

/-- The header as `toString` leaves it. -/
def wireHeader (m : MqttPublish) (n : Nat) : MqttHeader :=
  (if m.header.isDup ∧ m.header.getQos = .qos0 then m.header.setDup false
    else m.header).setRemaingLength (UInt32.ofNat n)

theorem wireHeader_facts (m : MqttPublish) (n : Nat) :
    (wireHeader m n).type = m.header.type
      ∧ (wireHeader m n).getQos = m.header.getQos
      ∧ (wireHeader m n).isRemain = m.header.isRemain
      ∧ (wireHeader m n).isDup = (m.header.isDup && m.header.getQos != .qos0) := by
  unfold wireHeader
  obtain ⟨hq, hd, hr⟩ := m.header.setDup_flags false
  split
  · rename_i h
    refine ⟨rfl, hq, hr, hd.trans ?_⟩
    rw [h.2]
    simp
  · rename_i h
    refine ⟨rfl, rfl, rfl, ?_⟩
    cases hdup : m.header.isDup
    · exact hdup
    · have hq : m.header.getQos ≠ .qos0 := fun hc => h ⟨hdup, hc⟩
      refine hdup.trans ?_
      simpa using hq

/-- **What `to_string` appends**, for a payload that its length matches. -/
theorem toString_eq {m : MqttPublish} {payload : Bytes} {n : Nat}
    (hl : m.topic.length < 65536) (hid : m.header.getQos ≠ .qos0 → m.pktId ≠ 0)
    (hlen : m.payloadLen.toNat = payload.length) (hp : payload ≠ [] → m.payload = payload)
    (hn : n = (wireBody m.topic m.header.getQos m.pktId payload).length)
    (hR : n < 268435456) (out : Bytes) :
    m.toString out = .ok (true, { m with header := wireHeader m n },
      out ++ MqttHeader.firstByte m.header.type (wireHeader m n).hflags ::
        (Base128.encode n ++ wireBody m.topic m.header.getQos m.pktId payload)) := by
  have hwb := length_wireBody m.topic m.header.getQos m.pktId payload
  rw [← hn] at hwb
  -- the length computed in 32 bits
  have hlen32 : (if m.header.getQos ≠ .qos0
      then UInt32.ofNat m.topic.length + 2 + m.payloadLen + 2
      else UInt32.ofNat m.topic.length + 2 + m.payloadLen) = UInt32.ofNat n := by
    apply UInt32.toNat_inj.mp
    split at hwb <;> rename_i hq
    · rw [if_pos hq, UInt32.toNat_add, UInt32.toNat_add, UInt32.toNat_add, hlen,
        UInt32.toNat_ofNat', UInt32.toNat_ofNat', show UInt32.toNat 2 = 2 from rfl]
      omega
    · rw [if_neg hq, UInt32.toNat_add, UInt32.toNat_add, hlen, UInt32.toNat_ofNat',
        UInt32.toNat_ofNat', show UInt32.toNat 2 = 2 from rfl]
      omega
  have hdlen : (wireHeader m n).dlen.toNat = n := by
    change (UInt32.ofNat n).toNat = n
    rw [UInt32.toNat_ofNat']
    omega
  have hbuild := (wireHeader m n).buildHeader_eq out
  rw [if_pos (by rw [hdlen]; exact hR), hdlen, (wireHeader_facts m n).1] at hbuild
  have hno : ¬ (m.header.getQos ≠ .qos0 ∧ m.pktId = 0) := fun hc => hid hc.1 hc.2
  unfold toString
  simp only [if_neg hno, hlen32]
  rw [show ((if m.header.isDup = true ∧ m.header.getQos = .qos0 then m.header.setDup false
    else m.header).setRemaingLength (UInt32.ofNat n)) = wireHeader m n from rfl]
  simp only [hbuild, packAddString_eq hl, Bool.not_true, Bool.false_eq_true, if_false]
  have hwire : ∀ pre : Bytes, (if m.header.getQos ≠ .qos0
      then packAddShort m.pktId (pre ++ (msb (UInt16.ofNat m.topic.length) ::
        lsb (UInt16.ofNat m.topic.length) :: m.topic))
      else pre ++ (msb (UInt16.ofNat m.topic.length) ::
        lsb (UInt16.ofNat m.topic.length) :: m.topic)) ++ payload
        = pre ++ wireBody m.topic m.header.getQos m.pktId payload := by
    intro pre
    unfold wireBody packAddShort
    split <;> simp
  by_cases hpay : payload = []
  · have h0 : m.payloadLen = 0 := by
      apply UInt32.toNat_inj.mp
      rw [hlen, hpay]
      rfl
    subst hpay
    rw [if_neg (by simp [h0]), ← List.append_nil (ite _ _ _), hwire]
    simp
  · have hpos := List.length_pos_iff.mpr hpay
    have hc : m.payloadLen > 0 ∧ m.payload ≠ [] := by
      rw [hp hpay]
      exact ⟨UInt32.lt_iff_toNat_lt.mpr (by rw [hlen]; exact hpos), hpay⟩
    rw [if_pos hc, appendCStr, if_pos (by rw [hlen, hp hpay]; omega), hlen, hp hpay,
      List.take_left' rfl, ok_bind, hwire]
    simp

/-! ## The round trip of a message built with the setters -/

/-- A call on a message being built: `set_topic`, `set_pkt_id`, `set_payload` with
the length of its data, and `set_qos`, `set_dup` and `set_remain` of its
header. -/
inductive Setter where
  | topic (topic : Bytes)
  | pktId (id : UInt16)
  | payload (data : Bytes)
  | qos (qos : MqttQos)
  | dup (yes : Bool)
  | remain (yes : Bool)

def apply (m : MqttPublish) : Setter → MqttPublish
  | .topic topic => m.setTopic topic
  | .pktId id => m.setPktId id
  | .payload data => m.setPayload (UInt32.ofNat data.length) (some data)
  | .qos qos => { m with header := m.header.setQos qos }
  | .dup yes => { m with header := m.header.setDup yes }
  | .remain yes => { m with header := m.header.setRemain yes }

/-- The message after some calls. -/
def build (setters : List Setter) : MqttPublish := setters.foldl apply new

/-- The payload that was given last. -/
def given (setters : List Setter) : Bytes :=
  setters.foldl (fun old s => match s with | .payload data => data | _ => old) []

/-- The setters keep the type, and the last payload when it is given by a length
that fits. -/
theorem build_facts (setters : List Setter) :
    (build setters).header.type = .publish
      ∧ (build setters).payloadLen = UInt32.ofNat (given setters).length
      ∧ ((given setters).length < 4294967296 → given setters ≠ [] →
          (build setters).payload = given setters) := by
  induction setters using List.reverseRecOn with
  | nil => exact ⟨rfl, rfl, fun _ h => absurd rfl h⟩
  | append_singleton setters s ih =>
      simp only [build, given, List.foldl_append, List.foldl_cons, List.foldl_nil] at ih ⊢
      obtain ⟨ht, hl, hp⟩ := ih
      cases s with
      | topic topic => exact ⟨ht, hl, hp⟩
      | pktId id =>
          simp only [apply, setPktId]
          split <;> exact ⟨ht, hl, hp⟩
      | payload data =>
          simp only [apply, setPayload]
          split
          · rename_i hpos
            refine ⟨ht, rfl, fun hlt _ => ?_⟩
            rw [UInt32.toNat_ofNat', Nat.mod_eq_of_lt hlt, List.take_length]
          · rename_i hpos
            refine ⟨ht, rfl, fun hlt hne => absurd ?_ hpos⟩
            have := List.length_pos_iff.mpr hne
            rw [gt_iff_lt, UInt32.lt_iff_toNat_lt, UInt32.toNat_ofNat', Nat.mod_eq_of_lt hlt]
            exact this
      | qos qos => exact ⟨by cases qos <;> exact ht, hl, hp⟩
      | dup yes => exact ⟨by cases yes <;> exact ht, hl, hp⟩
      | remain yes => exact ⟨by cases yes <;> exact ht, hl, hp⟩

namespace Setter

def givenTopic : Setter → Option Bytes
  | topic s => some (cString s)
  | _ => none

/-- An id of zero is ignored. -/
def givenId : Setter → Option UInt16
  | pktId id => if id > 0 then some id else none
  | _ => none

def givenQos : Setter → Option MqttQos
  | qos q => some q
  | _ => none

def givenDup : Setter → Option Bool
  | dup yes => some yes
  | _ => none

def givenRemain : Setter → Option Bool
  | remain yes => some yes
  | _ => none

end Setter

/-- **The setters store what they are given**, the last one of each kind. -/
theorem build_stores (setters : List Setter) :
    (build setters).topic = (setters.filterMap Setter.givenTopic).getLast?.getD []
      ∧ (build setters).pktId = (setters.filterMap Setter.givenId).getLast?.getD 0
      ∧ (build setters).header.getQos
          = (setters.filterMap Setter.givenQos).getLast?.getD .qos0
      ∧ (build setters).header.isDup
          = (setters.filterMap Setter.givenDup).getLast?.getD false
      ∧ (build setters).header.isRemain
          = (setters.filterMap Setter.givenRemain).getLast?.getD false := by
  have hkeeps : ∀ (m : MqttPublish) (data : Bytes),
      (m.setPayload (UInt32.ofNat data.length) (some data)).topic = m.topic
        ∧ (m.setPayload (UInt32.ofNat data.length) (some data)).pktId = m.pktId
        ∧ (m.setPayload (UInt32.ofNat data.length) (some data)).header = m.header := by
    intro m data
    simp only [setPayload]
    split <;> exact ⟨rfl, rfl, rfl⟩
  have hid : ∀ (m : MqttPublish) (id : UInt16), (m.setPktId id).topic = m.topic
      ∧ (m.setPktId id).pktId = (Setter.givenId (.pktId id)).getD m.pktId
      ∧ (m.setPktId id).header = m.header := by
    intro m id
    simp only [setPktId, Setter.givenId]
    split <;> exact ⟨rfl, rfl, rfl⟩
  have hstep : ∀ m s, (apply m s).topic = (Setter.givenTopic s).getD m.topic
      ∧ (apply m s).pktId = (Setter.givenId s).getD m.pktId
      ∧ (apply m s).header.getQos = (Setter.givenQos s).getD m.header.getQos
      ∧ (apply m s).header.isDup = (Setter.givenDup s).getD m.header.isDup
      ∧ (apply m s).header.isRemain = (Setter.givenRemain s).getD m.header.isRemain := by
    intro m s
    cases s with
    | topic topic => exact ⟨rfl, rfl, rfl, rfl, rfl⟩
    | pktId id =>
        obtain ⟨ht, hi, hh⟩ := hid m id
        rw [apply, ht, hi, hh]
        exact ⟨rfl, rfl, rfl, rfl, rfl⟩
    | payload data =>
        obtain ⟨ht, hi, hh⟩ := hkeeps m data
        rw [apply, ht, hi, hh]
        exact ⟨rfl, rfl, rfl, rfl, rfl⟩
    | qos qos => exact ⟨rfl, rfl, m.header.setQos_flags qos⟩
    | dup yes => exact ⟨rfl, rfl, m.header.setDup_flags yes⟩
    | remain yes => exact ⟨rfl, rfl, m.header.setRemain_flags yes⟩
  exact ⟨get_foldl (fun m => m.topic) (fun m s => (hstep m s).1) new setters,
    get_foldl (fun m => m.pktId) (fun m s => (hstep m s).2.1) new setters,
    get_foldl (fun m => m.header.getQos) (fun m s => (hstep m s).2.2.1) new setters,
    get_foldl (fun m => m.header.isDup) (fun m s => (hstep m s).2.2.2.1) new setters,
    get_foldl (fun m => m.header.isRemain) (fun m s => (hstep m s).2.2.2.2) new setters⟩

/-- What is written is parsed back, with `payload` for the payload. The dup flag
is lost with QoS 0. -/
def RoundTrips (m : MqttPublish) (payload : Bytes) : Prop :=
  ∃ packet, (∀ out, ∃ m', m.toString out = .ok (true, m', out ++ packet)) ∧
    parser.Parses packet fun d =>
      d.topic = m.topic ∧ d.payload = payload ∧ d.payloadLen = m.payloadLen
        ∧ d.header.getQos = m.header.getQos
        ∧ d.header.isRemain = m.header.isRemain
        ∧ d.header.isDup = (m.header.isDup && m.header.getQos != .qos0)
        ∧ (m.header.getQos ≠ .qos0 → d.pktId = m.pktId)

/-- A message with a topic that its length can announce, with a packet id where
one is sent, and with a remaining length that the header can announce. -/
structure Sendable (setters : List Setter) : Prop where
  topic_ne : (build setters).topic ≠ []
  topic_le : (build setters).topic.length ≤ 65535
  pktId_ne : (build setters).header.getQos ≠ .qos0 → (build setters).pktId ≠ 0
  length_lt : (wireBody (build setters).topic (build setters).header.getQos
    (build setters).pktId (given setters)).length < 268435456

/-- What a sendable message is written as. -/
theorem Sendable.toString_eq {setters : List Setter} (hs : Sendable setters) {n : Nat}
    (hn : n = (wireBody (build setters).topic (build setters).header.getQos
      (build setters).pktId (given setters)).length) (out : Bytes) :
    (build setters).toString out
      = .ok (true, { build setters with header := wireHeader (build setters) n },
          out ++ MqttHeader.firstByte .publish (wireHeader (build setters) n).hflags ::
            (Base128.encode n ++ wireBody (build setters).topic
              (build setters).header.getQos (build setters).pktId (given setters))) := by
  obtain ⟨htype, hlen, hpay⟩ := build_facts setters
  have hR := hs.length_lt
  have hwb := length_wireBody (build setters).topic (build setters).header.getQos
    (build setters).pktId (given setters)
  have hlen' : (build setters).payloadLen.toNat = (given setters).length := by
    rw [hlen, UInt32.toNat_ofNat']
    omega
  have htop := hs.topic_le
  have hstr := MqttPublish.toString_eq (m := build setters) (by omega) hs.pktId_ne hlen'
    (hpay (by omega)) hn (by omega) out
  rwa [htype] at hstr

theorem getQos_hflags {h h' : MqttHeader} (hf : h.hflags = h'.hflags) :
    h.getQos = h'.getQos := by
  unfold MqttHeader.getQos
  rw [hf]

theorem Sendable.roundTrips {setters : List Setter} (hs : Sendable setters)
    (hp : ¬ ((build setters).header.getQos = .qos0 ∧ given setters = [])) :
    RoundTrips (build setters) (given setters) := by
  have hstr := hs.toString_eq rfl
  have hR := hs.length_lt
  obtain ⟨-, hlen, -⟩ := build_facts setters
  have hshort := short_length hs.topic_le
  have h0 := hs.topic_ne
  generalize build setters = m at *
  generalize given setters = payload at *
  set n := (wireBody m.topic m.header.getQos m.pktId payload).length with hn
  have hwb := length_wireBody m.topic m.header.getQos m.pktId payload
  obtain ⟨-, hqos, hremain, hdup⟩ := wireHeader_facts m n
  refine ⟨_, fun out => ⟨_, hstr out⟩, MessageParser.parses_built (by simp) (by simp) hR
    fun header _ hflags hdlen => ?_⟩
  have hq : header.getQos = m.header.getQos := (getQos_hflags hflags).trans hqos
  have hbody : ∀ rest, wireBody m.topic m.header.getQos m.pktId payload ++ rest
      = msb (UInt16.ofNat m.topic.length) :: lsb (UInt16.ofNat m.topic.length) ::
        (m.topic ++ ((if header.getQos ≠ .qos0 then [msb m.pktId, lsb m.pktId] else [])
          ++ (payload ++ rest))) := by
    intro rest
    simp [wireBody, hq]
  obtain ⟨d, hd, hrun⟩ := run_body header
    (msb (UInt16.ofNat m.topic.length)) (lsb (UInt16.ofNat m.topic.length))
    (msb m.pktId) (lsb m.pktId) h0 hshort payload
    (by rw [hdlen, hq, ← hwb])
    (fun hc hpay => hp ⟨hq ▸ hc, hpay⟩)
  have hdflags : d.header.hflags = (wireHeader m n).hflags := by
    rw [hd.header_eq]
    exact hflags
  refine ⟨d, hd.finished, ⟨hd.topic_eq, hd.payload_eq, ?_, ?_, ?_, ?_, fun hc => ?_⟩,
    fun rest => by rw [hbody]; exact hrun rest⟩
  · apply UInt32.toNat_inj.mp
    rw [hd.payloadLen_eq, hlen, UInt32.toNat_ofNat']
    omega
  · rw [hd.header_eq]
    exact hq
  · rw [← hremain]
    unfold MqttHeader.isRemain
    rw [hdflags]
  · rw [← hdup]
    unfold MqttHeader.isDup
    rw [hdflags]
  · rw [hd.pktId_eq (by rw [hq]; exact hc), short_msb_lsb, UInt16.ofNat_toNat]

/-- With QoS 0 and an empty payload the parser waits at the end of the packet. -/
theorem Sendable.not_roundTrips {setters : List Setter} (hs : Sendable setters)
    (hq : (build setters).header.getQos = .qos0) (hp : given setters = []) :
    ¬ RoundTrips (build setters) (given setters) := by
  have hstr := hs.toString_eq rfl []
  have hR := hs.length_lt
  have hshort := short_length hs.topic_le
  have h0 := hs.topic_ne
  generalize build setters = m at *
  rw [hp] at hstr hR ⊢
  set n := (wireBody m.topic m.header.getQos m.pktId []).length with hn
  rintro ⟨packet, hout, hparse⟩
  obtain ⟨m', hm'⟩ := hout []
  rw [hstr] at hm'
  simp only [Except.ok.injEq, Prod.mk.injEq, List.nil_append, true_and] at hm'
  obtain ⟨-, hpacket⟩ := hm'
  have hne : packet ≠ [] := by
    rw [← hpacket]
    simp
  -- the packet alone, in one read
  obtain ⟨header, d, reads', hpr, -, hfin, -⟩ := hparse (MqttHeader.new .reservedMin) []
    [packet] (MqttHeader.ready_new _) (by simpa using hne) (by simp)
  obtain ⟨header', -, -, hflags, -, ho⟩ := parser.outcome_built
    (MqttHeader.ready_new .reservedMin) (t := .publish) (by simp) (by simp)
    (wireHeader m n).hflags hR (by simpa using hne)
    (show [packet].flatten = _ by simpa using hpacket.symm)
  have hq' : header'.getQos = .qos0 :=
    (getQos_hflags hflags).trans ((wireHeader_facts m n).2.1.trans hq)
  obtain ⟨m1, hrun, hf1⟩ := run_body_empty hq' _ _ h0 hshort
  have hbody : wireBody m.topic m.header.getQos m.pktId []
      = msb (UInt16.ofNat m.topic.length) :: lsb (UInt16.ofNat m.topic.length)
        :: m.topic := by
    simp [wireBody, hq]
  rw [MessageParser.outcome_of_parse hpr, hbody, parser_run, hrun] at ho
  simp only [Except.map, Except.ok.injEq, Prod.mk.injEq] at ho
  have hm1 : m1.finished = true := by
    rw [← ho.2.1]
    exact hfin
  rw [hf1] at hm1
  cases hm1

/-- **A PUBLISH built with the setters is parsed back, except for QoS 0 with an
empty payload**: there the parser never finishes. -/
theorem publish_roundTrips_iff (setters : List Setter) (hs : Sendable setters) :
    RoundTrips (build setters) (given setters)
      ↔ ¬ ((build setters).header.getQos = .qos0 ∧ given setters = []) :=
  ⟨fun h hc => hs.not_roundTrips hc.1 hc.2 h, hs.roundTrips⟩

/-- One byte of topic and of payload. -/
theorem publish_roundTrips_small :
    RoundTrips (build [.topic [0x61], .payload [0x62]]) [0x62] :=
  (publish_roundTrips_iff [.topic [0x61], .payload [0x62]]
    ⟨by decide, by decide, by decide, by decide⟩).mpr (by decide)

/-- One byte of topic and no payload. -/
theorem empty_payload_lost :
    Sendable [.topic [0x61], .payload []]
      ∧ ¬ RoundTrips (build [.topic [0x61], .payload []]) (given [.topic [0x61], .payload []]) := by
  have hs : Sendable [.topic [0x61], .payload []] :=
    ⟨by decide, by decide, by decide, by decide⟩
  exact ⟨hs, hs.not_roundTrips (by decide) rfl⟩

/-! ## The round trip of a packet -/

/-- Writing a message that holds the fields of a packet and whose dup flag is
meant to stay. -/
theorem toString_decoded {m : MqttPublish} {payload : Bytes} {n : Nat}
    (htype : m.header.type = .publish) (hl : m.topic.length < 65536)
    (hid : m.header.getQos ≠ .qos0 → m.pktId ≠ 0)
    (hdup : m.header.getQos = .qos0 → m.header.isDup = false)
    (hlen : m.payloadLen.toNat = payload.length) (hp : m.payload = payload)
    (hn : n = (wireBody m.topic m.header.getQos m.pktId payload).length)
    (hR : n < 268435456) (out : Bytes) :
    m.toString out
      = .ok (true, { m with header := m.header.setRemaingLength (UInt32.ofNat n) },
          out ++ MqttHeader.firstByte .publish m.header.hflags ::
            (Base128.encode n ++ wireBody m.topic m.header.getQos m.pktId payload)) := by
  have hw : wireHeader m n = m.header.setRemaingLength (UInt32.ofNat n) := by
    unfold wireHeader
    rw [if_neg]
    rintro ⟨hd, hq⟩
    rw [hdup hq] at hd
    cases hd
  have hstr := toString_eq hl hid hlen (fun _ => hp) hn hR out
  rwa [hw, htype] at hstr

/-- **Forwarding a PUBLISH is the identity.** A parsed packet, with a packet id
where QoS asks for one and no dup flag where it does not, is written back byte
for byte, by the first call of `to_string` and by every later one. -/
theorem publish_forward (h : MqttHeader) (b : UInt8) (body : Bytes) (reads reads' : List Bytes)
    (header : MqttHeader) (m : MqttPublish) (hh : h.Ready)
    (hb : typeNibble b = MqttType.publish.code) (hlen : body.length < 268435456)
    (hr : ∀ data ∈ reads, data ≠ [])
    (hflat : reads.flatten = b :: (Base128.encode body.length ++ body))
    (hp : parser.parse h reads = .ok (header, m, reads')) (hf : m.finished = true)
    (hleft : reads'.flatten = [])
    (hid : m.header.getQos ≠ .qos0 → m.pktId ≠ 0)
    (hdup : m.header.getQos = .qos0 → m.header.isDup = false) :
    ∃ m', (∀ out, m.toString out
        = .ok (true, m', out ++ b :: (Base128.encode body.length ++ body)))
      ∧ ∀ out, m'.toString out
        = .ok (true, m', out ++ b :: (Base128.encode body.length ++ body)) := by
  have hv : ValidType b := by
    unfold ValidType
    rw [hb]
    decide
  obtain ⟨header', -, htype, hflags, hdlen, ho⟩ := parser.outcome_packet hh hv
    (Base128.digits_encode _) (Base128.length_encode_le (by decide) (by omega)) hr hflat
  rw [hb] at htype
  rw [Base128.decode_encode] at hdlen
  rw [MessageParser.outcome_of_parse hp, hleft, parser_run] at ho
  cases hrun : run (ofHeader header') body with
  | error e => simp [hrun, Except.map] at ho
  | ok r =>
      simp only [hrun, Except.map, Except.ok.injEq, Prod.mk.injEq] at ho
      obtain ⟨rfl, rfl, hr2⟩ := ho
      obtain ⟨hi, lo, i0, i1, topic, payload, hbody, htop, -, hd⟩ := body_of_run (m := r.1)
        (by rw [hdlen, UInt32.toNat_ofNat']; omega) (hrun.trans (by rw [hr2])) hf
      generalize r.1 = m at *
      have hq : m.header.getQos = header.getQos := by
        rw [hd.header_eq]
        rfl
      have hmtype : m.header.type = .publish := by
        rw [hd.header_eq]
        exact htype
      have hwire : wireBody m.topic m.header.getQos m.pktId payload = body := by
        rw [hbody, wireBody, hd.topic_eq, htop, msb_short, lsb_short, hq]
        split
        · rename_i hqne
          rw [hd.pktId_eq hqne, msb_short, lsb_short]
        · rfl
      have hlt := short_lt hi lo
      have hfirst : MqttHeader.firstByte .publish m.header.hflags = b := by
        have hnib := MqttHeader.firstByte_nibbles hv
        rw [hb, ← hflags] at hnib
        rw [hd.header_eq]
        exact hnib
      have hstr := toString_decoded hmtype (by rw [hd.topic_eq]; omega) hid hdup
        hd.payloadLen_eq hd.payload_eq (n := body.length) (by rw [hwire]) hlen
      rw [hwire, hfirst] at hstr
      refine ⟨_, hstr, ?_⟩
      -- the message left behind differs in the length of its header only
      generalize hm' : ({ m with
        header := m.header.setRemaingLength (UInt32.ofNat body.length) } : MqttPublish) = m'
      have hstr' := toString_decoded (m := m') (n := body.length)
        (by rw [← hm']; exact hmtype) (by rw [← hm', hd.topic_eq]; omega)
        (by rw [← hm']; exact hid) (by rw [← hm']; exact hdup)
        (by rw [← hm']; exact hd.payloadLen_eq) (by rw [← hm']; exact hd.payload_eq)
        (by rw [← hm']; exact (congrArg List.length hwire).symm) hlen
      subst hm'
      intro out
      refine (hstr' out).trans ?_
      rw [show wireBody m.topic (m.header.setRemaingLength (UInt32.ofNat body.length)).getQos
        m.pktId payload = body from hwire]
      rw [show (m.header.setRemaingLength (UInt32.ofNat body.length)).hflags
        = m.header.hflags from rfl, hfirst]
      rfl

/-- A packet with QoS 1, retain and dup flags. -/
theorem publish_forward_small :
    ∃ m', (∀ out, (MqttPublish.mk
          (MqttHeader.mk (.replicate 4 0) 0 6 .hdrType .publish 0xb false) 0x0102
          (fill (.replicate 2 0) [0x01, 0x02]) 2 .payload 5 [0x61] [0x62] 1 true).toString out
        = .ok (true, m', out ++ [0x3b, 6, 0, 1, 0x61, 1, 2, 0x62]))
      ∧ ∀ out, m'.toString out
        = .ok (true, m', out ++ [0x3b, 6, 0, 1, 0x61, 1, 2, 0x62]) := by
  have hbody : Base128.encode ([0, 1, 0x61, 1, 2, 0x62] : Bytes).length = [6] :=
    Base128.encode_small (by decide)
  have hall := publish_forward (MqttHeader.new .reservedMin) 0x3b [0, 1, 0x61, 1, 2, 0x62]
    [[0x3b, 6, 0], [1, 0x61, 1, 2, 0x62]] []
  rw [hbody] at hall
  exact hall _ _ (MqttHeader.ready_new _) (by decide) (by decide) (by decide) rfl rfl rfl rfl
    (by decide) (by decide)

end MqttPublish

end Libnio.Mqtt
