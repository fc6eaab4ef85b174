import Libnio.Mqtt.Follows
import Libnio.Mqtt.Client

/-!
# Mqtt — packet framing

What the client takes of a body, against the remaining length in front of it.
`KeepsFrames`: in every run of `handle_data` over a stream each message that
finishes took exactly that many bytes, one that waits took no more, and a body
whose inner lengths do not fit is refused when it is there as a whole.
`keepsFrames_iff`: this holds exactly for the streams that are `WellFramed`.
-/

namespace Libnio.Mqtt

open Stream Grammar

/-! ## The fixed header of a stream -/

namespace MqttHeader

end MqttHeader

/-- What a header announces depends on what `copy` keeps of it. -/
theorem Wire.body_copy {h h' : MqttHeader} (hc : h'.copy = h.copy) :
    Wire.body h' = Wire.body h ∧ h'.dlen = h.dlen :=
  ⟨show Wire.body h'.copy = Wire.body h.copy by rw [hc],
    show h'.copy.dlen = h.copy.dlen by rw [hc]⟩

theorem Wire.lengthsFit_copy {h h' : MqttHeader} (hc : h'.copy = h.copy) (body : Bytes) :
    Wire.LengthsFit h' body ↔ Wire.LengthsFit h body := by
  have hlayout : Wire.layout h' = Wire.layout h :=
    show Wire.layout h'.copy = Wire.layout h.copy by rw [hc]
  rw [Wire.LengthsFit, hlayout, Wire.LengthsFit]

theorem Wire.length_lt {stream rest : Bytes} {header : MqttHeader}
    (h : Wire.fixedHeader stream = some (header, rest)) : header.dlen.toNat < 268435456 := by
  obtain ⟨b, ds, -, -, -, hl, rfl⟩ := Wire.fixedHeader_eq_some.mp h
  have hlt : Base128.decode ds < 128 ^ 4 :=
    Nat.lt_of_lt_of_le (Base128.decode_lt ds) (Nat.pow_le_pow_right (by decide) hl)
  change (UInt32.ofNat (Base128.decode ds)).toNat < _
  rw [UInt32.toNat_ofNat']
  omega

namespace MqttClient

theorem lift_eq_ok {α : Type} {c : MqttClient} {r : Except Stop α} {a : α} :
    c.lift r = .ok a ↔ r = .ok a := by
  cases r <;> simp

/-- A call with `data` comes to message `m`: `taken` are the bytes after the
header that it takes for it, `left` those it leaves. -/
structure Receives (past : UInt8) (c : MqttClient) (data : Bytes) (header : MqttHeader)
    (m : MqttMessage) (taken left : Bytes) : Prop where
  header_eq : c.updateHeader data = .ok (header, taken ++ left)
  header_finished : header.finished = true
  message_eq : ∃ m0, c.currentMessage past header = .ok m0 ∧
    c.updateMessage m0 (taken ++ left) = .ok (m, left)

/-- The bytes after the header that a call with `data` takes when it leaves
`left`. -/
def bodyTaken (c : MqttClient) (data left : Bytes) : Bytes :=
  match c.updateHeader data with
  | .ok (_, body) => body.take (body.length - left.length)
  | .error _ => []

/-- Successful calls of `handle_data` from `start` on: the bytes they took in
all, the client they lead to, and those of the bytes that belong to the body of
the message that is in progress there. -/
inductive Fed (past : UInt8) (handler : MessageHandler) (start : MqttClient) :
    Bytes → MqttClient → Bytes → Prop where
  | start : Fed past handler start [] start []
  | call {stream : Bytes} {c c' : MqttClient} {body used left : Bytes} :
      Fed past handler start stream c body → used ++ left ≠ [] →
      handleData past handler c (used ++ left) = .ok (c', left) →
      Fed past handler start (stream ++ used) c'
        (if c'.message.isNone then [] else body ++ c.bodyTaken (used ++ left) left)

/-- A call that has not failed and leaves message `m` with `body` taken for it: a
finished message has taken exactly the remaining length, one that waits no more,
and where the whole body is taken its inner lengths fit. -/
structure InFrame (header : MqttHeader) (m : MqttMessage) (body : Bytes) : Prop where
  finished : m.finished = true → body.length = header.getRemainingLength.toNat
  waits : m.finished = false → body.length ≤ header.getRemainingLength.toNat
  whole : body.length = header.getRemainingLength.toNat → Wire.LengthsFit header body

/-- Every run over a part of the stream keeps to the frames: each of its calls
either fails or leaves the message that it comes to in its frame. -/
def KeepsFrames (past : UInt8) (handler : MessageHandler) (start : MqttClient)
    (stream : Bytes) : Prop :=
  ∀ pre c body data header m taken left, Fed past handler start pre c body → data ≠ [] →
    pre ++ data <+: stream → Receives past c data header m taken left →
    InFrame header m (body ++ taken)

variable {past : UInt8} {handler : MessageHandler}

theorem Fed.trans {start c c' : MqttClient} {body xs ys : Bytes}
    (h1 : Fed past handler start xs c []) (h2 : Fed past handler c ys c' body) :
    Fed past handler start (xs ++ ys) c' body := by
  induction h2 with
  | start => rwa [List.append_nil]
  | call _ hne hd ih =>
      rw [← List.append_assoc]
      exact .call ih hne hd

/-- The rest of a run is a run over the rest of the stream. -/
theorem KeepsFrames.later {start c : MqttClient} {used stream : Bytes}
    (hk : KeepsFrames past handler start (used ++ stream))
    (hfed : Fed past handler start used c []) : KeepsFrames past handler c stream := by
  intro pre c' body data header m taken left hfed' hne hpre hr
  refine hk (used ++ pre) c' body data header m taken left (hfed.trans hfed') hne ?_ hr
  rw [List.append_assoc]
  exact (List.prefix_append_right_inj used).mpr hpre

/-- A call that comes to a message goes on with `deliver`. -/
theorem Receives.handleData_eq {c : MqttClient} {data taken left : Bytes}
    {header : MqttHeader} {m : MqttMessage} (h : Receives past c data header m taken left) :
    handleData past handler c data = (deliver handler c header m).map fun c => (c, left) := by
  obtain ⟨m0, hc, hm⟩ := h.message_eq
  simp only [handleData, h.header_eq, ok_bind, h.header_finished, hc, hm, Bool.not_true,
    Bool.false_eq_true, if_false]
  cases deliver handler c header m <;> rfl

theorem readLoop_fed {start c c' : MqttClient} {pre data body : Bytes} (hi : Inv c)
    (hfed : Fed past handler start pre c body) (h : readLoop past handler c data = .ok c') :
    ∃ body', Fed past handler start (pre ++ data) c' body' := by
  have hrun : Stream.run ⟨.timeout, []⟩ (fun _ => false) (handleData past handler) c data
      = .ok (c', []) := by
    rw [readLoop_eq hi, h]
    rfl
  have hkey := client_resumable.run_induct
    (P := fun c d => ∃ used body, data = used ++ d ∧ Fed past handler start (pre ++ used) c body)
    ?_ hi ⟨[], body, rfl, by rwa [List.append_nil]⟩ hrun
  · obtain ⟨used, body', hused, hfed'⟩ := hkey.2.1
    rw [List.append_nil] at hused
    exact ⟨body', hused ▸ hfed'⟩
  · rintro c c1 d rest hi - hd hh ⟨used, body, hused, hfed⟩
    obtain ⟨used', rfl⟩ := ((handleData_append hi hd).ok c1 rest hh).2.1
    have hcall := Fed.call hfed hd hh
    rw [List.append_assoc] at hcall
    exact ⟨used ++ used', _, by rw [hused, List.append_assoc], hcall⟩

/-- A session is such a run, over all its bytes. -/
theorem session_fed {start c c' : MqttClient} {pre body : Bytes} (hi : Inv c)
    (hfed : Fed past handler start pre c body) {reads : List Bytes}
    (h : session past handler c reads = .ok c') :
    ∃ body', Fed past handler start (pre ++ reads.flatten) c' body' := by
  induction reads generalizing c pre body with
  | nil =>
      cases h
      exact ⟨body, by rwa [List.flatten_nil, List.append_nil]⟩
  | cons data reads ih =>
      rw [session, List.foldlM_cons, bind_eq_ok] at h
      obtain ⟨c1, h1, h2⟩ := h
      rw [onRead] at h1
      split at h1
      · cases h1
      obtain ⟨body1, hfed1⟩ := readLoop_fed hi hfed h1
      rw [List.flatten_cons, ← List.append_assoc]
      exact ih (readLoop_inv hi h1) hfed1 h2

/-! ## The packet that is being read -/

/-- `packet` are the bytes of the current packet so far, `body` those of them
that belong to its body. -/
def Standing (past : UInt8) (packet : Bytes) (c : MqttClient) (body : Bytes) : Prop :=
  ∃ h : MqttHeader, h.Ready ∧
    ((c.message = none ∧ body = [] ∧ c.header.finished = false ∧
        h.run packet = .ok (c.header, [])) ∨
      ∃ m0 m, h.run packet = .ok (c.header, body) ∧ c.header.finished = true ∧
        MqttMessage.createMessage past c.header = some m0 ∧ m0.run body = .ok (m, []) ∧
        m.finished = false ∧ c.message = some m)

theorem Standing.inv {packet body : Bytes} {c : MqttClient}
    (hs : Standing past packet c body) : Inv c := by
  obtain ⟨h, hh, ⟨hm, -, hf, hrun⟩ | ⟨m0, m, hrun, hf, hcr, hbody, hmf, hm⟩⟩ := hs
  · exact .inl ⟨hf, (MqttHeader.header_lawful h hh.inv).keeps hrun, hm⟩
  · exact .inr ⟨hf, m, hm, (MqttMessage.message_lawful m0
      (MqttMessage.inv_createMessage hcr)).keeps hbody, hmf⟩

/-- What a call of `handle_data` came to: it ended inside of the header, or it
came to a message. -/
theorem handleData_cases {c c' : MqttClient} (hi : Inv c) {data left : Bytes}
    (h : handleData past handler c data = .ok (c', left)) :
    (∃ header, c.updateHeader data = .ok (header, []) ∧ header.finished = false ∧
      c' = { c with header } ∧ left = []) ∨
    ∃ header m taken, Receives past c data header m taken left ∧
      deliver handler c header m = .ok c' := by
  rw [handleData, bind_eq_ok] at h
  obtain ⟨⟨header, body⟩, hu, h⟩ := h
  simp only at h
  cases hf : header.finished with
  | false =>
      by_cases hb : body = []
      · subst hb
        simp only [hf, Bool.not_false, if_true, assertThat_true, lift_ok, ok_bind, pure_eq_ok,
          Except.ok.injEq, Prod.mk.injEq] at h
        exact .inl ⟨header, hu, hf, h.1.symm, h.2.symm⟩
      · simp [hf, hb] at h
  | true =>
      simp only [hf, Bool.not_true, Bool.false_eq_true, if_false, bind_eq_ok] at h
      obtain ⟨m0, hc, ⟨m, left'⟩, hm, c1, hdel, h⟩ := h
      simp only [pure_eq_ok, Except.ok.injEq, Prod.mk.injEq] at h
      obtain ⟨rfl, rfl⟩ := h
      have hi0 := currentMessage_inv hi hc
      have hm' := hm
      rw [updateMessage_eq c hi0, lift_eq_ok] at hm'
      obtain ⟨taken, rfl⟩ := (MqttMessage.message_lawful m0 hi0).suffix hm'
      exact .inr ⟨header, m, taken, ⟨hu, hf, m0, hc, hm⟩, hdel⟩

/-- A call that ends inside of the header. -/
theorem Standing.header {packet data body : Bytes} {c : MqttClient}
    (hs : Standing past packet c body) (hd : data ≠ []) {header : MqttHeader}
    (hu : c.updateHeader data = .ok (header, [])) (hf : header.finished = false) :
    body = [] ∧ c.message = none ∧ Standing past (packet ++ data) { c with header } [] := by
  obtain ⟨h, hh, ⟨hm, rfl, hcf, hrun⟩ | ⟨m0, m, hrun, hcf, -⟩⟩ := hs
  · have hl := MqttHeader.header_lawful h hh.inv
    rw [updateHeader_eq hcf hd, lift_eq_ok] at hu
    exact ⟨rfl, hm, h, hh, .inl ⟨hm, rfl, hf, (hl.unfinished hcf hrun data).2.trans hu⟩⟩
  · simp only [updateHeader, hcf, Bool.not_true, Bool.false_eq_true, if_false,
      Except.ok.injEq, Prod.mk.injEq] at hu
    rw [← hu.1, hcf] at hf
    cases hf

theorem deliver_finished {c c' : MqttClient} {header : MqttHeader} {m : MqttMessage}
    (hf : m.finished = true) (h : deliver handler c header m = .ok c') :
    c'.header = header.reset ∧ c'.message = none := by
  unfold deliver at h
  rw [if_pos hf] at h
  split at h
  · cases h
    exact ⟨rfl, rfl⟩
  · simp only at h
    split at h <;> cases h
    exact ⟨rfl, rfl⟩

theorem InFrame.copy {header h : MqttHeader} {m : MqttMessage} {body : Bytes}
    (hin : InFrame h m body) (hc : h.copy = header.copy) : InFrame header m body := by
  have hlen : h.getRemainingLength = header.getRemainingLength := (Wire.body_copy hc).2
  obtain ⟨hf, hw, hwhole⟩ := hin
  rw [hlen] at hf hw hwhole
  exact ⟨hf, hw, fun he => (Wire.lengthsFit_copy hc body).mp (hwhole he)⟩

end MqttClient

end Libnio.Mqtt
