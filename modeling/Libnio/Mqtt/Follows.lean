import Libnio.Mqtt.Wire
import Libnio.Mqtt.Message
import Libnio.Mqtt.PublishFacts
import Libnio.Mqtt.ConnectFacts
import Libnio.Mqtt.SubscribeFacts
import Libnio.Mqtt.UnsubscribeFacts

/-!
# Mqtt — every message parser follows its grammar

One rule for a field handler (`Fills.follows`), then each parser field by
field: from what its state says is read next to what the grammar says.
-/

namespace Libnio.Mqtt

open Stream Grammar Wire

/-! ## Rules -/

section Rules

variable {σ : Type} {finished : σ → Bool} {run : Bytes → Except Stop (σ × Bytes)}

/-- A field of two bytes. -/
theorem follows_two {next : Bytes → BodyGrammar}
    (hpart : ∀ xs : Bytes, xs.length < 2 → Waits finished run xs)
    (hnext : ∀ hi lo, Follows finished (next [hi, lo]) fun rest => run (hi :: lo :: rest)) :
    Follows finished (.read 2 next) run := by
  refine ⟨Nat.zero_lt_two, hpart, fun xs hx => ?_⟩
  obtain ⟨hi, lo, rfl⟩ := List.length_eq_two.mp hx
  exact hnext hi lo

theorem follows_done {s : σ} (hf : finished s = true) (hr : ∀ rest, run rest = .ok (s, rest)) :
    Follows finished (.done : BodyGrammar) run := ⟨s, hf, hr⟩

variable {guard : σ → Except Stop Unit} {more : σ → Bool}
  {put : σ → UInt8 → Except Stop σ} {next : σ → Except Stop σ} {late : Stop}
  {handler : Handler σ} {Inv : σ → Prop} {rank : σ → Nat}

/-- **A field handler reads its field**, and then goes on as `next` says. -/
theorem Fills.follows {f : Bytes → σ} {n : Nat} (h : Fills more put f n) {s : σ}
    (hs : f [] = s) (hr : Resumable finished handler Inv rank) (hi : Inv s)
    (hf : ∀ xs : Bytes, xs.length < n → finished (f xs) = false)
    (hh : ∀ data, data ≠ [] → handler s data = field guard more put next s data)
    (hg : guard s = .ok ()) (h0 : 0 < n) {g : Bytes → BodyGrammar}
    (hnext : ∀ xs : Bytes, xs.length = n → Follows finished (g xs) fun rest =>
      next (f xs) >>= fun s => Stream.run late finished handler s rest) :
    Follows finished (.read n g) (Stream.run late finished handler s) := by
  have hfs : finished s = false := by
    rw [← hs]
    exact hf [] h0
  refine ⟨h0, fun xs hx => ?_, fun xs hx => ?_⟩
  · exact ⟨f xs, hf xs hx, h.run_part late guard next hs hr hi hfs hh hg hx⟩
  · rw [show (fun rest => Stream.run late finished handler s (xs ++ rest)) = _ from
      funext fun rest => h.run_all late guard next hs hr hi hfs hh hg hx h0 rest]
    exact hnext xs hx

end Rules

/-! ## Messages of a fixed size -/

theorem MqttBare.follows (m : MqttBare) : Follows MqttBare.finished noBytes m.update :=
  follows_done (s := m) rfl fun _ => rfl

namespace MqttAck

theorem follows {m : MqttAck} (hl : m.hlen = 0) (hf : m.finished = false) :
    Follows MqttAck.finished twoBytes m.run := by
  refine (fills_hbuf m).follows (by simp [← hl]) ack_resumable (fun _ => by omega) (fun _ _ => hf)
    (fun _ _ => rfl) (if_neg (by omega)) Nat.zero_lt_two fun xs hx => ?_
  obtain ⟨hi, lo, rfl⟩ := List.length_eq_two.mp hx
  simp only [headerVarNext, unpackShort_two, ok_bind]
  exact follows_done rfl fun _ => run_stop (.inr rfl)

end MqttAck

namespace MqttConnack

theorem follows (header : MqttHeader) :
    Follows MqttConnack.finished twoBytes (ofHeader header).run := by
  refine (fills_buff (ofHeader header)).follows (by simp [ofHeader]) connack_resumable
      (inv_ofHeader header)
    (fun _ _ => rfl) (fun _ _ => rfl) rfl Nat.zero_lt_two fun xs _ => ?_
  exact follows_done rfl fun _ => run_stop (.inr rfl)

end MqttConnack

/-! ## PUBLISH -/

namespace MqttPublish

theorem follows_payload {m : MqttPublish} (hst : m.status = .payload)
    (hf : m.finished = false) (hm : m.payload = []) {n : Nat} (hn : m.payloadLen.toNat = n)
    (h0 : n ≠ 0) :
    Follows MqttPublish.finished (.read n fun _ => .done) (run m) := by
  refine ⟨by omega, fun xs hx => ?_, fun xs hx => ?_⟩
  · have hpart : m.payload.length + xs.length < m.payloadLen.toNat := by
      rw [hm]
      simpa [hn] using hx
    obtain ⟨m', hr, hf'⟩ := run_payload_part hst hf hpart
    exact waits_of hr hf'
  · have hne : xs ≠ [] := by
      rintro rfl
      exact h0 hx.symm
    exact follows_done rfl
      fun rest => run_payload hst hf hne (by rw [hn, hm, ← hx]; simp) rest

theorem follows_stuck {m : MqttPublish} (hst : m.status = .payload)
    (hf : m.finished = false) (hn : m.payloadLen = 0) :
    Follows MqttPublish.finished .stuck (run m) := by
  refine ⟨⟨m, hf, run_stop (.inl rfl)⟩, fun b xs => ⟨.error "finished", ?_⟩⟩
  rw [run, publish_resumable.run_go (fun _ => by rw [hst]; trivial) hf (by simp)]
  simp [handlers, hst, updatePayload, payloadGuard, hn]

theorem follows (header : MqttHeader) :
    Follows MqttPublish.finished (publishBody header.getQos header.dlen.toNat)
      (run (ofHeader header)) := by
  refine follows_two (fun xs hx => ?_) fun hi lo => ?_
  · obtain ⟨m, hr, hf, -⟩ := run_topicLen_part header hx
    exact waits_of hr hf
  rw [show shortOf [hi, lo] = short hi lo from rfl]
  simp only [run_topicLen]
  by_cases hs : short hi lo = 0
  · rw [if_pos hs]
    exact fun rest => ⟨_, if_pos hs⟩
  simp only [if_neg hs]
  refine ⟨by omega, fun xs hx => ?_, fun xs hx => ?_⟩
  · obtain ⟨m, hr, hf, -⟩ := run_topicVal_part (m := atTopic header hi lo) rfl rfl hx
    exact waits_of hr hf
  have hne : xs ≠ [] := by
    rintro rfl
    exact hs hx.symm
  have htop := fun rest => run_topicVal (m := atTopic header hi lo) rfl rfl hne hx.symm rest
  simp only [htop]
  change Follows _ _ fun rest => topicValNext (afterTopic header hi lo xs) >>= fun m => run m rest
  by_cases hq : header.getQos ≠ .qos0
  · simp only [if_pos hq, topicValNext]
    rw [show (afterTopic header hi lo xs).header.getQos = header.getQos from rfl]
    simp only [if_pos hq, ok_bind]
    change Follows _ _ (run { afterTopic header hi lo xs with status := .pktid })
    refine follows_two (fun ys hy => ?_) fun i0 i1 => ?_
    · obtain ⟨m, hr, hf, -⟩ := run_pktid_part
        (m := { afterTopic header hi lo xs with status := .pktid }) rfl rfl rfl hy
      exact ⟨m, hf, hr⟩
    have hnext := pktidNext_eq header hi lo i0 i1 xs
    have hid := fun rest => run_pktid
      (m := { afterTopic header hi lo xs with status := .pktid }) rfl rfl rfl i0 i1 rest
    simp only [hid, hnext]
    split
    · exact follows_done rfl fun rest => run_stop (.inr rfl)
    split
    · exact fun rest => ⟨_, rfl⟩
    rename_i hlt
    by_cases he : header.dlen.toNat = short hi lo + 4
    · simp only [if_pos he, ok_bind]
      rw [skip, if_pos (by omega)]
      exact follows_done rfl fun rest => run_stop (.inr rfl)
    · simp only [if_neg he, ok_bind]
      rw [skip, if_neg (by omega)]
      have hv := toNat_hlenVar_id hi lo
      refine follows_payload (m := { afterPktid header hi lo i0 i1 xs with
        status := .payload }) rfl rfl rfl ?_ (by omega)
      rw [afterPktid, toNat_sub (by omega), hv]
  · simp only [if_neg hq, topicValNext]
    rw [show (afterTopic header hi lo xs).header.getQos = header.getQos from rfl]
    simp only [if_neg hq, ok_bind]
    have hlen : (header.dlen - (UInt32.ofNat (short hi lo) + 2)).toNat
        = (4294967296 - (short hi lo + 2) + header.dlen.toNat) % 4294967296 := by
      rw [UInt32.toNat_sub, toNat_hlenVar]
    unfold publishRest
    split
    · rename_i h0
      rw [← hlen] at h0
      exact follows_stuck rfl rfl (UInt32.toNat_inj.mp h0)
    · rename_i h0
      exact follows_payload rfl rfl rfl hlen h0

end MqttPublish

/-! ## CONNECT -/

namespace MqttConnect

theorem AtLen.follows {go : MqttConnect → MqttConnect} {m : MqttConnect} (h : AtLen go m)
    {next : Bytes → BodyGrammar}
    (hnext : ∀ hi lo, Follows MqttConnect.finished (next [hi, lo])
      (run (go { m with buff := fill m.buff [hi, lo], dlen := short hi lo }))) :
    Follows MqttConnect.finished (.read 2 next) (run m) := by
  refine follows_two (fun xs hx => ?_) fun hi lo => ?_
  · obtain ⟨m', hr, hf⟩ := run_len_part h hx
    exact waits_of hr hf
  · simp only [run_len h]
    exact hnext hi lo

theorem AtVal.follows {go : MqttConnect → MqttConnect} {add : Bytes → MqttConnect}
    {n : Nat} {m : MqttConnect} (h : AtVal go add n m) (h0 : n ≠ 0) {g : BodyGrammar}
    (hnext : ∀ xs, Follows MqttConnect.finished g (run (go { add xs with dlen := 0 }))) :
    Follows MqttConnect.finished (.read n fun _ => g) (run m) := by
  refine ⟨by omega, fun xs hx => ?_, fun xs hx => ?_⟩
  · obtain ⟨m', hr, hf⟩ := run_val_part h hx
    exact waits_of hr hf
  · subst hx
    have hne : xs ≠ [] := fun hc => h0 (by rw [hc]; rfl)
    simp only [run_val h hne]
    exact hnext xs

/-- What the handlers after a field rely on. -/
structure Ready (flags : UInt8) (m : MqttConnect) : Prop where
  unfinished : m.finished = false
  dlen_eq : m.dlen = 0
  flags_eq : m.connFlags = flags

/-- A string read by a pair of handlers. -/
theorem follows_string {valSt : ConnectStatus} {go : MqttConnect → MqttConnect}
    {flags : UInt8} {g : BodyGrammar}
    (hgo : ∀ m, Ready flags m → Follows MqttConnect.finished g (run (go m)))
    {m : MqttConnect} (hm : Ready flags m) (hlen : AtLen (goVal valSt go) m)
    (hval : ∀ buff n, 0 < n → ∃ add : Bytes → MqttConnect,
      AtVal go add n { m with buff, dlen := n, status := valSt } ∧
        ∀ xs, Ready flags { add xs with dlen := 0 }) :
    Follows MqttConnect.finished (string g) (run m) := by
  refine hlen.follows fun hi lo => ?_
  rw [show shortOf [hi, lo] = short hi lo from rfl, skip, goVal]
  by_cases h0 : short hi lo = 0
  · rw [if_pos h0, if_neg (Nat.not_lt.mpr (Nat.le_of_eq h0))]
    exact hgo _ ⟨hm.unfinished, h0, hm.flags_eq⟩
  · rw [if_neg h0, if_pos (Nat.pos_of_ne_zero h0)]
    obtain ⟨add, hat, hadd⟩ := hval (fill m.buff [hi, lo]) (short hi lo) (by omega)
    exact hat.follows h0 fun xs => hgo _ (hadd xs)

theorem follows_goPasswd {flags : UInt8} {m : MqttConnect} (h : Ready flags m) :
    Follows MqttConnect.finished (connectPasswd flags) (run (goPasswd m)) := by
  obtain rfl := h.flags_eq
  rw [connectPasswd, goPasswd]
  by_cases hp : m.connFlags &&& 0x40 ≠ 0
  · rw [if_pos hp, if_pos hp]
    refine follows_string (fun m _ => ?_)
      (m := { m with status := .passwdLen }) ⟨h.unfinished, h.dlen_eq, rfl⟩
      (atLen_passwd rfl h.dlen_eq h.unfinished)
      fun buff n hn => ⟨_, atVal_passwd rfl rfl hn h.unfinished,
        fun _ => ⟨h.unfinished, rfl, rfl⟩⟩
    exact follows_done rfl fun _ => run_stop (.inr rfl)
  · rw [if_neg hp, if_neg hp]
    exact follows_done rfl fun _ => run_stop (.inr rfl)

theorem follows_goUsername {flags : UInt8} {m : MqttConnect} (h : Ready flags m) :
    Follows MqttConnect.finished (connectUsername flags) (run (goUsername m)) := by
  obtain rfl := h.flags_eq
  rw [connectUsername, goUsername]
  by_cases hu : m.connFlags &&& 0x80 ≠ 0
  · rw [if_pos hu, if_pos hu]
    exact follows_string (fun m => follows_goPasswd)
      (m := { m with status := .usernameLen }) ⟨h.unfinished, h.dlen_eq, rfl⟩
      (atLen_username rfl h.dlen_eq h.unfinished)
      fun buff n hn => ⟨_, atVal_username rfl rfl hn h.unfinished,
        fun _ => ⟨h.unfinished, rfl, rfl⟩⟩
  · rw [if_neg hu, if_neg hu]
    exact follows_goPasswd h

/-- The will topic is read without a test of its length. -/
theorem follows_willTopicVal {flags : UInt8} {m : MqttConnect}
    (hst : m.status = .willTopicVal) (hf : m.finished = false) (hc : m.connFlags = flags) :
    Follows MqttConnect.finished
      (if m.dlen = 0 then .stuck else .read m.dlen fun _ => string (connectUsername flags))
      (run m) := by
  by_cases h0 : m.dlen = 0
  · rw [if_pos h0]
    refine ⟨⟨m, hf, run_stop (.inl rfl)⟩, fun b xs => ⟨.error "invalid dlen_", ?_⟩⟩
    have hi : Inv m := fun _ => by rw [hst]; trivial
    rw [run, connect_resumable.run_go hi hf (by simp), handlers, hst]
    simp [updateWillTopicVal, saveData, field, saveDataGuard, h0]
  · rw [if_neg h0]
    refine (atVal_willTopic hst rfl hf).follows h0 fun xs => ?_
    exact follows_string (fun m => follows_goUsername)
      (m := { m with willTopic := m.willTopic ++ xs, dlen := 0, status := .willMsgLen })
      ⟨hf, rfl, hc⟩ (atLen_willMsg rfl rfl hf)
      fun buff n hn => ⟨_, atVal_willMsg rfl rfl hn hf, fun _ => ⟨hf, rfl, hc⟩⟩

theorem follows_goWill {flags : UInt8} {m : MqttConnect} (h : Ready flags m) :
    Follows MqttConnect.finished (connectWill flags) (run (goWill m)) := by
  obtain rfl := h.flags_eq
  rw [connectWill, goWill]
  by_cases hw : m.connFlags &&& 0x04 ≠ 0
  · rw [if_pos hw, if_pos hw]
    refine (atLen_willTopic (m := { m with status := .willTopicLen }) rfl h.dlen_eq
      h.unfinished).follows fun hi lo => ?_
    exact follows_willTopicVal (m := { m with
      buff := fill m.buff [hi, lo], dlen := short hi lo, status := .willTopicVal }) rfl
      h.unfinished rfl
  · rw [if_neg hw, if_neg hw]
    exact follows_goUsername h

theorem follows (past : UInt8) (header : MqttHeader) :
    Follows MqttConnect.finished connectBody (run (ofHeader past header)) := by
  refine ⟨by decide, fun xs hx => ?_, fun xs hx => ?_⟩
  · exact ⟨_, rfl, (fills_buff (ofHeader past header) (n := 10) (by decide)).run_part .timeout
      headerVarGuard headerVarNext (s := ofHeader past header) (by simp [ofHeader])
      connect_resumable (inv_ofHeader past header) rfl (fun _ _ => rfl) rfl hx⟩
  · simp only [run_headerVar past header hx]
    exact follows_string (fun m => follows_goWill) (m := afterHeaderVar past header xs)
      ⟨rfl, rfl, rfl⟩ (atLen_cid rfl rfl rfl)
      fun buff n hn => ⟨_, atVal_cid rfl rfl hn rfl, fun _ => ⟨rfl, rfl, rfl⟩⟩

end MqttConnect

/-! ## SUBSCRIBE -/

namespace MqttSubscribe

theorem follows_topicVal {m : MqttSubscribe} (hst : m.status = .topicVal)
    (hf : m.finished = false) (ht : m.topic = []) (h0 : m.dlen ≠ 0) {g : BodyGrammar}
    (hnext : ∀ topic : Bytes, topic ≠ [] → topic.length = m.dlen →
      Follows MqttSubscribe.finished g (run { m with
        topic, dlen := 0, nread := m.nread + UInt32.ofNat topic.length,
        status := .topicQos })) :
    Follows MqttSubscribe.finished (.read m.dlen fun _ => g) (run m) := by
  refine ⟨by omega, fun xs hx => ?_, fun xs hx => ?_⟩
  · exact waits_of ((fills_topic m m.dlen).run_part .timeout _ _ (s := m) (by simp)
      subscribe_resumable (fun _ => by rw [hst]; exact Nat.pos_of_ne_zero h0) hf
      (fun data _ => by rw [handlers, hst]; rfl) (assertThat_true (Nat.pos_of_ne_zero h0)) hx)
      hf
  · have hne : xs ≠ [] := fun hc => h0 (by rw [← hx, hc]; rfl)
    simp only [run_topicVal hst hf ht hne hx.symm]
    exact hnext xs hne hx

theorem follows_topicQos {m : MqttSubscribe} (hf : m.finished = false) {g : BodyGrammar}
    (hnext : ∀ b, Follows MqttSubscribe.finished g fun rest => run m (b :: rest)) :
    Follows MqttSubscribe.finished (.read 1 fun _ => g) (run m) := by
  refine ⟨Nat.zero_lt_one, fun xs hx => ?_, fun xs hx => ?_⟩
  · obtain rfl : xs = [] := List.eq_nil_of_length_eq_zero (by omega)
    exact ⟨m, hf, run_stop (.inl rfl)⟩
  · obtain ⟨b, rfl⟩ := List.length_eq_one_iff.mp hx
    exact hnext b

theorem follows_entries {len k : Nat} {m : MqttSubscribe} (h : AtEntry len k m)
    (hk : k < len) (hlen : len < 268435456) :
    Follows MqttSubscribe.finished (subscribeEntries len k) (run m) := by
  induction hr : len - k using Nat.strongRecOn generalizing k m with
  | ind r ih =>
      rw [subscribeEntries]
      refine follows_two (fun xs hx => ?_) fun hi lo => ?_
      · exact waits_of ((fills_topicLen m).run_part .timeout (fun _ => .ok ())
          topicLenNext (s := m) (by simp; rw [← h.dlen_eq]) subscribe_resumable h.inv
          h.unfinished (fun data _ => by rw [handlers, h.status_eq]; rfl) rfl hx) h.unfinished
      rw [show shortOf [hi, lo] = short hi lo from rfl]
      simp only [run_topicLen h (by omega)]
      split
      · exact fun rest => ⟨_, rfl⟩
      rename_i h0
      split
      · exact fun rest => ⟨_, rfl⟩
      rename_i h2
      refine follows_topicVal (m := { m with
        buff := fill m.buff [hi, lo], dlen := short hi lo,
        nread := m.nread + UInt32.ofNat 2, status := .topicVal }) rfl h.unfinished h.topic_eq
        h0 fun topic hne hl => ?_
      refine follows_topicQos (m := { m with
        buff := fill m.buff [hi, lo], topic, dlen := 0,
        nread := m.nread + UInt32.ofNat 2 + UInt32.ofNat topic.length,
        status := .topicQos }) h.unfinished fun b => ?_
      have hgo : ∀ rest, run { m with
            buff := fill m.buff [hi, lo], topic, dlen := 0,
            nread := m.nread + UInt32.ofNat 2 + UInt32.ofNat topic.length,
            status := .topicQos } (b :: rest)
          = run m (hi :: lo :: (topic ++ b :: rest)) := by
        intro rest
        rw [run_topicLen h (by omega), if_neg h0, if_neg h2]
        exact (run_topicVal (m := { m with
          buff := fill m.buff [hi, lo], dlen := short hi lo,
          nread := m.nread + UInt32.ofNat 2, status := .topicVal }) rfl h.unfinished
          h.topic_eq hne hl.symm (b :: rest)).symm
      simp only [hgo]
      obtain ⟨m', -, -, -, hm'⟩ := run_entry h hlen (by omega) hne hl b
      change topic.length = short hi lo at hl
      rw [hl] at hm'
      split
      · rename_i hend
        rw [if_pos hend] at hm'
        exact follows_done hm'.1 hm'.2
      · rename_i hend
        rw [if_neg hend] at hm'
        simp only [hm'.2]
        exact ih (len - (k + short hi lo + 3)) (by omega) hm'.1 (by omega) rfl

theorem follows {header : MqttHeader} (hlen : header.dlen.toNat < 268435456) :
    Follows MqttSubscribe.finished (subscribeBody header.dlen.toNat)
      (run (ofHeader header)) := by
  refine follows_two (fun xs hx => ?_) fun i0 i1 => ?_
  · exact ⟨_, rfl, (fills_headerVar header).run_part .timeout headerVarGuard headerVarNext
      (s := ofHeader header) (by simp [ofHeader]) subscribe_resumable (inv_ofHeader header)
      rfl (fun _ _ => rfl) rfl hx⟩
  · simp only [run_pktId]
    split
    · exact fun rest => ⟨_, rfl⟩
    · exact follows_entries (atEntry_afterPktId header i0 i1) (by omega) hlen

end MqttSubscribe

/-! ## UNSUBSCRIBE -/

namespace MqttUnsubscribe

theorem waits_topicVal {m : MqttUnsubscribe} (hst : m.status = .topicVal)
    (hf : m.finished = false) {xs : Bytes} (hx : xs.length < m.dlen) :
    Waits MqttUnsubscribe.finished (run m) xs := by
  have hpos : 0 < m.dlen := by omega
  exact waits_of ((fills_topic m m.dlen).run_part .timeout _ _ (s := m) (by simp)
    unsubscribe_resumable (fun _ => by rw [hst]; exact hpos) hf
    (fun data _ => by rw [handlers, hst]; rfl) (assertThat_true hpos) hx) hf

theorem follows_entries {len k : Nat} {past : Bytes} {m : MqttUnsubscribe}
    (h : AtEntry len k past m) (hk : k < len) (hpast : past.length ≤ k)
    (hlen : len < 268435456) :
    Follows MqttUnsubscribe.finished (unsubscribeEntries len k past.length) (run m) := by
  induction hr : len - k using Nat.strongRecOn generalizing k past m with
  | ind r ih =>
      rw [unsubscribeEntries]
      refine follows_two (fun xs hx => ?_) fun hi lo => ?_
      · exact waits_of ((fills_topicLen m).run_part .timeout (fun _ => .ok ())
          topicLenNext (s := m) (by simp; rw [← h.dlen_eq]) unsubscribe_resumable h.inv
          h.unfinished (fun data _ => by rw [handlers, h.status_eq]; rfl) rfl hx) h.unfinished
      rw [show shortOf [hi, lo] = short hi lo from rfl]
      by_cases h0 : short hi lo = 0
      · simp only [run_topicLen h (by omega), if_pos h0]
        exact fun rest => ⟨_, rfl⟩
      by_cases h2 : len ≤ k + 2
      · simp only [run_topicLen h (by omega), if_neg h0, if_pos h2]
        exact fun rest => ⟨_, rfl⟩
      rw [if_neg h0, if_neg h2]
      refine ⟨by omega, fun xs hx => ?_, fun topic hl => ?_⟩
      · simp only [run_topicLen h (by omega), if_neg h0, if_neg h2]
        exact waits_topicVal (m := { m with
          buff := fill m.buff [hi, lo], dlen := short hi lo,
          nread := m.nread + UInt32.ofNat 2, status := .topicVal }) rfl h.unfinished hx
      · have hne : topic ≠ [] := fun hc => h0 (by rw [← hl, hc]; rfl)
        obtain ⟨m', -, -, hm'⟩ := run_entry h hlen (by omega) hpast hne hl
        rw [List.length_append, hl] at hm'
        split
        · rename_i hend
          rw [if_pos hend] at hm'
          exact follows_done hm'.1 hm'.2
        · rename_i hend
          rw [if_neg hend] at hm'
          simp only [hm'.2]
          have hlast := ih (len - (k + 2 + (past.length + short hi lo))) (by omega) hm'.1
            (by omega) (by simp only [List.length_append]; omega) rfl
          rwa [List.length_append, hl] at hlast

theorem follows {header : MqttHeader} (hlen : header.dlen.toNat < 268435456) :
    Follows MqttUnsubscribe.finished (unsubscribeBody header.dlen.toNat)
      (run (ofHeader header)) := by
  refine follows_two (fun xs hx => ?_) fun i0 i1 => ?_
  · exact ⟨_, rfl, (fills_headerVar header).run_part .timeout headerVarGuard headerVarNext
      (s := ofHeader header) (by simp [ofHeader]) unsubscribe_resumable
      (inv_ofHeader header) rfl (fun _ _ => rfl) rfl hx⟩
  · simp only [run_pktId]
    split
    · exact fun rest => ⟨_, rfl⟩
    · have hentry := atEntry_afterPktId header i0 i1
      exact follows_entries hentry (by omega) (Nat.zero_le _) hlen

end MqttUnsubscribe

/-! ## SUBACK -/

namespace MqttSuback

theorem follows_qoses {len k : Nat} {m : MqttSuback} (h : AtQos len k m) (hk : k < len)
    (hlen : len < 268435456) :
    Follows MqttSuback.finished (subackQoses len k) (run m) := by
  induction hr : len - k using Nat.strongRecOn generalizing k m with
  | ind r ih =>
      rw [subackQoses]
      refine ⟨Nat.zero_lt_one, fun xs hx => ?_, fun xs hx => ?_⟩
      · obtain rfl : xs = [] := List.eq_nil_of_length_eq_zero (by omega)
        exact ⟨m, h.unfinished, run_stop (.inl rfl)⟩
      · obtain ⟨b, rfl⟩ := List.length_eq_one_iff.mp hx
        obtain ⟨m', -, -, hm'⟩ := run_qos h (by omega) b
        split
        · rename_i hend
          rw [if_pos hend] at hm'
          exact follows_done hm'.1 hm'.2
        · rename_i hend
          rw [if_neg hend] at hm'
          simp only [List.cons_append, List.nil_append, hm'.2]
          exact ih (len - (k + 1)) (by omega) hm'.1 (by omega) rfl

theorem follows {header : MqttHeader} (hlen : header.dlen.toNat < 268435456) :
    Follows MqttSuback.finished (subackBody header.dlen.toNat) (run (ofHeader header)) := by
  refine follows_two (fun xs hx => ?_) fun i0 i1 => ?_
  · exact ⟨_, rfl, (fills_headerVar header).run_part .timeout headerVarGuard headerVarNext
      (s := ofHeader header) (by simp [ofHeader]) suback_resumable (inv_ofHeader header)
      rfl (fun _ _ => rfl) rfl hx⟩
  · simp only [run_pktId]
    split
    · exact follows_done rfl fun _ => rfl
    · exact follows_qoses (atQos_afterPktId header i0 i1) (by omega) hlen

end MqttSuback

/-- **Every message reads its body as the fixed header announces it.** -/
theorem MqttMessage.follows {past : UInt8} {header : MqttHeader} {m : MqttMessage}
    (h : createMessage past header = some m) (hlen : header.dlen.toNat < 268435456) :
    Follows MqttMessage.finished (Wire.body header) m.run := by
  have hack : ∀ (e : MqttAck → MqttMessage) (m : MqttAck), m.hlen = 0 → m.finished = false →
      (∀ m, MqttMessage.finished (e m) = m.finished) →
      Follows MqttMessage.finished twoBytes fun data => lift e (m.run data) :=
    fun e m hl hf he => (MqttAck.follows hl hf).map e he
  have hbare : ∀ (e : MqttBare → MqttMessage) (m : MqttBare),
      (∀ m, MqttMessage.finished (e m) = MqttBare.finished m) →
      Follows MqttMessage.finished noBytes fun data => lift e (m.update data) :=
    fun e m he => (MqttBare.follows m).map e he
  unfold createMessage at h
  unfold Wire.body
  split at h <;> rename_i ht <;> cases h <;> simp only [ht]
  case h_1 => exact (MqttConnect.follows past header).map connect fun _ => rfl
  case h_2 => exact (MqttConnack.follows header).map connack fun _ => rfl
  case h_3 => exact (MqttPublish.follows header).map publish fun _ => rfl
  case h_4 => exact hack puback _ rfl rfl fun _ => rfl
  case h_5 => exact hack pubrec _ rfl rfl fun _ => rfl
  case h_6 => exact hack pubrel _ rfl rfl fun _ => rfl
  case h_7 => exact hack pubcomp _ rfl rfl fun _ => rfl
  case h_8 => exact (MqttSubscribe.follows hlen).map subscribe fun _ => rfl
  case h_9 => exact (MqttSuback.follows hlen).map suback fun _ => rfl
  case h_10 => exact (MqttUnsubscribe.follows hlen).map unsubscribe fun _ => rfl
  case h_11 => exact hack unsuback _ rfl rfl fun _ => rfl
  case h_12 => exact hbare pingreq _ fun _ => rfl
  case h_13 => exact hbare pingresp _ fun _ => rfl
  case h_14 => exact hbare disconnect _ fun _ => rfl

end Libnio.Mqtt
