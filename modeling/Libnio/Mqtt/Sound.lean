import Libnio.Mqtt.Client
import Libnio.Mqtt.Packet

/-!
# Mqtt — how parsers fail

A parser that fails returns -1 for what it read (`Stop.Rejects`): from any state
its runs go through no assertion fails, no byte is stored outside of a buffer,
and no branch for an unexpected state is taken.
-/

namespace Libnio.Mqtt

open Stream

/-- The texts of the branches for states that are not expected. -/
def unexpected : List String :=
  ["invalid header var", "invalid pkt id", "unknown mqtt type"]

/-- -1 is returned, and not from a branch for states that are not expected. -/
def Stop.Rejects (e : Stop) : Prop := ∃ text, e = .error text ∧ text ∉ unexpected

theorem rejects_error {text : String} {e : Stop} (h : .error text = e)
    (ht : text ∉ unexpected) : e.Rejects := ⟨text, h.symm, ht⟩

/-! ## The fixed header -/

namespace MqttHeader

theorem lenNext_rejects {h : MqttHeader} (h0 : h.hlen > 0) (h4 : h.hlen ≤ 4) {e : Stop}
    (hn : lenNext h = .error e) : e.Rejects := by
  rw [lenNext, assertThat_true ⟨h0, h4⟩, ok_bind, getD_last h4 h0, ok_bind] at hn
  split at hn <;> cases hn
  exact rejects_error rfl (by decide)

theorem handlers_rejects {h : MqttHeader} (hi : Inv h) (hf : h.finished = false)
    {data : Bytes} (hd : data ≠ []) {e : Stop} (hh : handlers h data = .error e) :
    e.Rejects := by
  cases hst : h.status with
  | hdrType =>
      obtain ⟨b, data, rfl⟩ := List.exists_cons_of_ne_nil hd
      simp only [handlers, hst, updateHeaderType_cons] at hh
      split at hh <;> cases hh
      exact rejects_error rfl (by decide)
  | hdrLen =>
      have hm := hi hst hf
      simp only [handlers, hst, updateHeaderLen_eq hm] at hh
      rcases field_error lenGuard more putLen lenNext
        (fun s b hs => ⟨_, putLen_eq (more_lt hs) b⟩) hd hh with hg | ⟨s, rest, he, -, hn⟩
      · have hlt := more_lt hm
        rw [lenGuard, if_neg (by omega)] at hg
        cases hg
      · obtain ⟨h0, h4⟩ := eatWhile_hlen hm hd he
        exact lenNext_rejects h0 h4 hn

theorem run_rejects {h : MqttHeader} (hi : Inv h) {data : Bytes} {e : Stop}
    (hrun : run h data = .error e) : e.Rejects :=
  header_resumable.run_error (fun hi hf hd hh => handlers_rejects hi hf hd hh) hi hrun

end MqttHeader

/-! ## The messages -/

namespace MqttAck

/-- An acknowledgement is taken as it comes. -/
theorem run_rejects {m : MqttAck} (hi : Inv m) {data : Bytes} {e : Stop}
    (hrun : run m data = .error e) : e.Rejects := by
  refine ack_resumable.run_error ?_ hi hrun
  intro m data e hi hf hd hh
  have hlt := hi hf
  rcases field_error headerVarGuard (fun m : MqttAck => m.hlen < 2) putHbuf headerVarNext
    (fun s b hs => ⟨_, putHbuf_eq (of_decide_eq_true hs) b⟩) hd hh with
    hg | ⟨s, -, -, -, hn⟩
  · rw [headerVarGuard, if_neg (by omega)] at hg
    cases hg
  · rw [headerVarNext, unpackShort_two] at hn
    cases hn

end MqttAck

namespace MqttConnack

theorem run_rejects {m : MqttConnack} (hi : Inv m) {data : Bytes} {e : Stop}
    (hrun : run m data = .error e) : e.Rejects := by
  refine connack_resumable.run_error ?_ hi hrun
  intro m data e hi hf hd hh
  have hlt := hi hf
  rcases field_error headerVarGuard (fun m : MqttConnack => m.dlen < 2) putBuff headerVarNext
    (fun s b hs => ⟨_, putBuff_eq (of_decide_eq_true hs) b⟩) hd hh with
    hg | ⟨s, -, -, -, hn⟩
  · rw [headerVarGuard, if_neg (by omega)] at hg
    cases hg
  · cases hn

end MqttConnack

namespace MqttConnect

/-- A length field is taken as it comes. -/
theorem saveLength_rejects {go : MqttConnect → MqttConnect} {m : MqttConnect} {data : Bytes}
    (hd : data ≠ []) {e : Stop} (hh : saveLength go m data = .error e) : e.Rejects := by
  rcases field_error (fun _ : MqttConnect => .ok ()) (fun m : MqttConnect => m.dlen < 2)
    putBuff (saveLengthNext go)
    (fun s b hs => ⟨_, putBuff_eq (Nat.lt_trans (of_decide_eq_true hs) (by decide)) b⟩) hd
    hh with hg | ⟨s, -, -, -, hn⟩
  · cases hg
  · rw [saveLengthNext, unpackShort_two] at hn
    cases hn

/-- A value field fails when it is called for no bytes. -/
theorem saveData_rejects {add : MqttConnect → UInt8 → MqttConnect}
    {go : MqttConnect → MqttConnect} {m : MqttConnect} {data : Bytes} (hd : data ≠ [])
    {e : Stop} (hh : saveData add go m data = .error e) : e.Rejects := by
  rcases field_error saveDataGuard (fun m : MqttConnect => m.dlen > 0) (putData add)
    (fun m => .ok (go m))    (fun s b _ => ⟨_, rfl⟩) hd hh with hg | ⟨s, -, -, -, hn⟩
  · rw [saveDataGuard] at hg
    split at hg <;> cases hg
    exact rejects_error rfl (by decide)
  · cases hn

theorem run_rejects {m : MqttConnect} (hi : Inv m) {data : Bytes} {e : Stop}
    (hrun : run m data = .error e) : e.Rejects := by
  refine connect_resumable.run_error ?_ hi hrun
  intro m data e hi hf hd hh
  have hi' := hi hf
  unfold handlers at hh
  cases hst : m.status <;> rw [hst] at hh hi'
  case hdrVar =>
    rcases field_error headerVarGuard (fun m : MqttConnect => m.dlen < 10) putBuff headerVarNext
      (fun s b hs => ⟨_, putBuff_eq (of_decide_eq_true hs) b⟩) hd hh with
      hg | ⟨s, -, -, -, hn⟩
    · have hlt : m.dlen < 10 := hi'
      rw [headerVarGuard, if_neg (by omega)] at hg
      cases hg
    · rw [headerVarNext] at hn
      simp only [unpackShort_two] at hn
      cases hn
  case cidLen => exact saveLength_rejects hd hh
  case usernameLen => exact saveLength_rejects hd hh
  case passwdLen => exact saveLength_rejects hd hh
  case willTopicLen => exact saveLength_rejects hd hh
  case willMsgLen => exact saveLength_rejects hd hh
  case cidVal => exact saveData_rejects hd hh
  case usernameVal => exact saveData_rejects hd hh
  case passwdVal => exact saveData_rejects hd hh
  case willTopicVal => exact saveData_rejects hd hh
  case willMsgVal => exact saveData_rejects hd hh

end MqttConnect

namespace MqttPublish

theorem run_rejects {m : MqttPublish} (hi : Inv m) {data : Bytes} {e : Stop}
    (hrun : run m data = .error e) : e.Rejects := by
  refine publish_resumable.run_error ?_ hi hrun
  intro m data e hi hf hd hh
  have hi' := hi hf
  unfold handlers at hh
  cases hst : m.status <;> rw [hst] at hh hi'
  case hdrVar =>
    rw [updateHeaderVar, assertThat_true hd] at hh
    cases hh
  case topicLen =>
    rcases field_error (fun _ : MqttPublish => .ok ()) (fun m : MqttPublish => m.dlen < 2)
      putBuff topicLenNext (fun s b hs => ⟨_, putBuff_eq (of_decide_eq_true hs) b⟩) hd hh with
      hg | ⟨s, -, -, -, hn⟩
    · cases hg
    · rw [topicLenNext, unpackShort_two] at hn
      simp only at hn
      split at hn <;> cases hn
      exact rejects_error rfl (by decide)
  case topicVal =>
    rcases field_error (fun m : MqttPublish => assertThat (m.dlen > 0))
      (fun m : MqttPublish => m.dlen > 0) putTopic topicValNext (fun s b _ => ⟨_, rfl⟩) hd
      hh with hg | ⟨s, -, -, -, hn⟩
    · rw [assertThat_true hi'] at hg
      cases hg
    · simp only [topicValNext] at hn
      split at hn <;> cases hn
  case pktid =>
    rcases field_error pktidGuard (fun m : MqttPublish => m.dlen < 2) putBuff pktidNext
      (fun s b hs => ⟨_, putBuff_eq (of_decide_eq_true hs) b⟩) hd hh with
      hg | ⟨s, -, -, -, hn⟩
    · have hlt : m.dlen < 2 := hi'
      rw [pktidGuard, if_neg (by omega)] at hg
      cases hg
    · rw [pktidNext, unpackShort_two] at hn
      simp only at hn
      split at hn
      · cases hn
      · split at hn
        · cases hn
          exact rejects_error rfl (by decide)
        · split at hn <;> cases hn
  case payload =>
    rw [updatePayload_eq m hd] at hh
    rcases field_error payloadGuard payloadMore putPayload payloadNext
      (fun s b _ => ⟨_, rfl⟩) hd hh with hg | ⟨s, -, -, -, hn⟩
    · rw [payloadGuard] at hg
      split at hg <;> cases hg
      exact rejects_error rfl (by decide)
    · cases hn

end MqttPublish

namespace MqttSubscribe

theorem headerVarNext_rejects {m : MqttSubscribe} {e : Stop} (hn : headerVarNext m = .error e) :
    e.Rejects := by
  rw [headerVarNext, unpackShort_two] at hn
  simp only at hn
  split at hn <;> cases hn
  exact rejects_error rfl (by decide)

theorem topicLenNext_rejects {m : MqttSubscribe} {e : Stop} (hn : topicLenNext m = .error e) :
    e.Rejects := by
  rw [topicLenNext, unpackShort_two] at hn
  simp only at hn
  split at hn
  · cases hn
    exact rejects_error rfl (by decide)
  · split at hn <;> cases hn
    exact rejects_error rfl (by decide)

theorem run_rejects {m : MqttSubscribe} (hi : Inv m) {data : Bytes} {e : Stop}
    (hrun : run m data = .error e) : e.Rejects := by
  refine subscribe_resumable.run_error ?_ hi hrun
  intro m data e hi hf hd hh
  have hi' := hi hf
  unfold handlers at hh
  cases hst : m.status <;> rw [hst] at hh hi'
  case hdrVar =>
    rcases field_error headerVarGuard (fun m : MqttSubscribe => m.nread < 2) putHeaderVar
      headerVarNext (fun s b hs => ⟨_, putHeaderVar_eq
        (UInt32.lt_iff_toNat_lt.mp (of_decide_eq_true hs)) b⟩) hd hh with
      hg | ⟨s, -, -, -, hn⟩
    · rw [headerVarGuard, if_neg (UInt32.not_le.mpr hi')] at hg
      cases hg
    · exact headerVarNext_rejects hn
  case topicLen =>
    rcases field_error (fun _ : MqttSubscribe => .ok ()) (fun m : MqttSubscribe => m.dlen < 2)
      putTopicLen topicLenNext (fun s b hs => ⟨_, putTopicLen_eq (of_decide_eq_true hs) b⟩) hd
      hh with hg | ⟨s, -, -, -, hn⟩
    · cases hg
    · exact topicLenNext_rejects hn
  case topicVal =>
    rcases field_error (fun m : MqttSubscribe => assertThat (m.dlen > 0))
      (fun m : MqttSubscribe => m.dlen > 0) putTopic topicValNext (fun s b _ => ⟨_, rfl⟩) hd
      hh with hg | ⟨s, -, -, -, hn⟩
    · rw [assertThat_true hi'] at hg
      cases hg
    · cases hn
  case topicQos =>
    obtain ⟨b, data, rfl⟩ := List.exists_cons_of_ne_nil hd
    simp only [updateTopicQos] at hh
    split at hh
    · cases hh
      exact rejects_error rfl (by decide)
    · split at hh <;> cases hh

end MqttSubscribe

namespace MqttUnsubscribe

theorem headerVarNext_rejects {m : MqttUnsubscribe} {e : Stop} (hn : headerVarNext m = .error e) :
    e.Rejects := by
  rw [headerVarNext, unpackShort_two] at hn
  simp only at hn
  split at hn <;> cases hn
  exact rejects_error rfl (by decide)

theorem topicLenNext_rejects {m : MqttUnsubscribe} {e : Stop} (hn : topicLenNext m = .error e) :
    e.Rejects := by
  rw [topicLenNext, unpackShort_two] at hn
  simp only at hn
  split at hn
  · cases hn
    exact rejects_error rfl (by decide)
  · split at hn <;> cases hn
    exact rejects_error rfl (by decide)

theorem run_rejects {m : MqttUnsubscribe} (hi : Inv m) {data : Bytes} {e : Stop}
    (hrun : run m data = .error e) : e.Rejects := by
  refine unsubscribe_resumable.run_error ?_ hi hrun
  intro m data e hi hf hd hh
  have hi' := hi hf
  unfold handlers at hh
  cases hst : m.status <;> rw [hst] at hh hi'
  case hdrVar =>
    rcases field_error headerVarGuard (fun m : MqttUnsubscribe => m.nread < 2) putHeaderVar
      headerVarNext (fun s b hs => ⟨_, putHeaderVar_eq
        (UInt32.lt_iff_toNat_lt.mp (of_decide_eq_true hs)) b⟩) hd hh with
      hg | ⟨s, -, -, -, hn⟩
    · rw [headerVarGuard, if_neg (UInt32.not_le.mpr hi')] at hg
      cases hg
    · exact headerVarNext_rejects hn
  case topicLen =>
    rcases field_error (fun _ : MqttUnsubscribe => .ok ()) (fun m : MqttUnsubscribe => m.dlen < 2)
      putTopicLen topicLenNext (fun s b hs => ⟨_, putTopicLen_eq (of_decide_eq_true hs) b⟩) hd
      hh with hg | ⟨s, -, -, -, hn⟩
    · cases hg
    · exact topicLenNext_rejects hn
  case topicVal =>
    rcases field_error (fun m : MqttUnsubscribe => assertThat (m.dlen > 0))
      (fun m : MqttUnsubscribe => m.dlen > 0) putTopic topicValNext (fun s b _ => ⟨_, rfl⟩) hd
      hh with hg | ⟨s, -, -, -, hn⟩
    · rw [assertThat_true hi'] at hg
      cases hg
    · simp only [topicValNext] at hn
      split at hn <;> cases hn

end MqttUnsubscribe

namespace MqttSuback

/-- A SUBACK is taken as it comes. -/
theorem run_rejects {m : MqttSuback} (hi : Inv m) {data : Bytes} {e : Stop}
    (hrun : run m data = .error e) : e.Rejects := by
  refine suback_resumable.run_error ?_ hi hrun
  intro m data e hi hf hd hh
  have hi' := hi hf
  unfold handlers at hh
  cases hst : m.status <;> rw [hst] at hh hi'
  case hdrVar =>
    rcases field_error headerVarGuard (fun m : MqttSuback => m.nread < 2) putHeaderVar
      headerVarNext (fun s b hs => ⟨_, putHeaderVar_eq
        (UInt32.lt_iff_toNat_lt.mp (of_decide_eq_true hs)) b⟩) hd hh with
      hg | ⟨s, -, -, -, hn⟩
    · rw [headerVarGuard, if_neg (UInt32.not_le.mpr hi')] at hg
      cases hg
    · rw [headerVarNext, unpackShort_two] at hn
      simp only at hn
      split at hn <;> cases hn
  case topicQos =>
    obtain ⟨b, data, rfl⟩ := List.exists_cons_of_ne_nil hd
    simp only [updateTopicQos] at hh
    split at hh <;> cases hh

end MqttSuback

namespace MqttMessage

/-- **Every message parser fails for what it read.** -/
theorem run_rejects {m : MqttMessage} (hi : m.Inv) {data : Bytes} {e : Stop}
    (hrun : m.run data = .error e) : e.Rejects := by
  have hlift : ∀ {σ : Type} {f : σ → MqttMessage} {r : Except Stop (σ × Bytes)},
      lift f r = .error e → r = .error e := by
    intro σ f r h
    cases r with
    | error e' => simpa [lift, Except.map] using h
    | ok r => simp [lift, Except.map] at h
  cases m with
  | connect m => exact MqttConnect.run_rejects hi (hlift hrun)
  | connack m => exact MqttConnack.run_rejects hi (hlift hrun)
  | publish m => exact MqttPublish.run_rejects hi (hlift hrun)
  | puback m => exact MqttAck.run_rejects hi (hlift hrun)
  | pubrec m => exact MqttAck.run_rejects hi (hlift hrun)
  | pubrel m => exact MqttAck.run_rejects hi (hlift hrun)
  | pubcomp m => exact MqttAck.run_rejects hi (hlift hrun)
  | subscribe m => exact MqttSubscribe.run_rejects hi (hlift hrun)
  | suback m => exact MqttSuback.run_rejects hi (hlift hrun)
  | unsubscribe m => exact MqttUnsubscribe.run_rejects hi (hlift hrun)
  | unsuback m => exact MqttAck.run_rejects hi (hlift hrun)
  | pingreq m => cases hlift hrun
  | pingresp m => cases hlift hrun
  | disconnect m => cases hlift hrun

end MqttMessage

end Libnio.Mqtt
