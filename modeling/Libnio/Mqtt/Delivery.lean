import Libnio.Mqtt.HeaderGrammar
import Libnio.Mqtt.Framing
import Libnio.Stream.Receiver

/-!
# Mqtt — what is delivered

The client as a receiver of packets: what it makes of a stream it makes of it in any
cut, and what it has handed to `message_handler_` stays handed over. `Carried` is said
of a packet that a client between two packets takes whole, as one message.
-/

namespace Libnio.Mqtt

open Stream

namespace MqttClient

variable {past : UInt8} {handler : MessageHandler}

/-! ## What has been delivered stays delivered -/

/-- What a call may make of what has been delivered: nothing, or one more message. If
it goes on the handler has taken the message. -/
def Handed (handler : MessageHandler) (ds : List MqttMessage) :
    Except Failure (List MqttMessage) → Prop
  | .ok ds' => ds' = ds ∨ ∃ m, ds' = ds ++ [m] ∧ ∀ h ∈ handler, h ds' = true
  | .error e => e.delivered = ds ∨ ∃ m, e.delivered = ds ++ [m]

theorem Handed.grows {ds : List MqttMessage} {r : Except Failure MqttClient}
    (h : Handed handler ds (r.map delivered)) : ds <+: outs delivered Failure.delivered r := by
  cases r with
  | error e =>
      obtain h | ⟨m, h⟩ : e.delivered = ds ∨ ∃ m, e.delivered = ds ++ [m] := h
      · rw [outs_error, h]
      · rw [outs_error, h]
        exact List.prefix_append _ _
  | ok c =>
      obtain h | ⟨m, h, -⟩ : c.delivered = ds ∨ ∃ m, c.delivered = ds ++ [m] ∧ _ := h
      · rw [outs_ok, h]
      · rw [outs_ok, h]
        exact List.prefix_append _ _

theorem deliver_handed (c : MqttClient) (header : MqttHeader) (m : MqttMessage) :
    Handed handler c.delivered ((deliver handler c header m).map delivered) := by
  unfold deliver
  split
  · cases handler with
    | none => exact .inl rfl
    | some h =>
        dsimp only
        split
        · exact .inr ⟨m, rfl⟩
        · rename_i htaken
          refine .inr ⟨m, rfl, ?_⟩
          rintro h' ⟨⟩
          simpa using htaken
  · exact .inl rfl

/-- What fails in front of `deliver` fails with what has been delivered before. -/
theorem lift_delivered {α : Type} {c : MqttClient} {r : Except Stop α} {e : Failure}
    (h : c.lift r = .error e) : e.delivered = c.delivered := by
  cases r with
  | ok a => cases h
  | error stop =>
      cases h
      rfl

theorem updateHeader_delivered {c : MqttClient} {data : Bytes} {e : Failure}
    (h : c.updateHeader data = .error e) : e.delivered = c.delivered := by
  unfold updateHeader at h
  split at h
  · exact lift_delivered h
  · cases h

theorem currentMessage_delivered {c : MqttClient} {header : MqttHeader} {e : Failure}
    (h : c.currentMessage past header = .error e) : e.delivered = c.delivered := by
  unfold currentMessage at h
  split at h
  · cases h
  · split at h
    · cases h
    · exact lift_delivered h

theorem updateMessage_delivered {c : MqttClient} {m : MqttMessage} {data : Bytes} {e : Failure}
    (h : c.updateMessage m data = .error e) : e.delivered = c.delivered := by
  unfold updateMessage at h
  split at h
  · exact lift_delivered h
  · cases h

/-- A chain of which a first part that fails has delivered nothing. -/
theorem handed_bind {α β : Type} {ds : List MqttMessage} {x : Except Failure α}
    {f : α → Except Failure β} {out : β → List MqttMessage}
    (hx : ∀ e, x = .error e → e.delivered = ds)
    (hf : ∀ a, Handed handler ds ((f a).map out)) : Handed handler ds ((x >>= f).map out) := by
  cases x with
  | error e => exact .inl (hx e rfl)
  | ok a => exact hf a

/-- **One call** of `handle_data` delivers one message at most. -/
theorem handleData_handed (c : MqttClient) (data : Bytes) :
    Handed handler c.delivered ((handleData past handler c data).map fun r => r.1.delivered) := by
  refine handed_bind (fun e => updateHeader_delivered) ?_
  rintro ⟨header, body⟩
  dsimp only
  split
  · exact handed_bind (fun e => lift_delivered) fun _ => .inl rfl
  · refine handed_bind (fun e => currentMessage_delivered) fun m0 => ?_
    refine handed_bind (fun e => updateMessage_delivered) ?_
    rintro ⟨m, left⟩
    have hhanded := @deliver_handed handler c header m
    cases hdel : deliver handler c header m with
    | error e =>
        rw [hdel] at hhanded
        exact hhanded
    | ok c' =>
        rw [hdel] at hhanded
        exact hhanded

/-- **A read**: what each call keeps of what has been delivered, and what a call that
fails makes of it. -/
theorem readLoop_induct {J E : List MqttMessage → Prop}
    (hstep : ∀ ds r, J ds → Handed handler ds r →
      (∀ ds', r = .ok ds' → J ds') ∧ ∀ e, r = .error e → E e.delivered)
    {c : MqttClient} (hi : Inv c) (hj : J c.delivered) (data : Bytes) :
    (∀ c', readLoop past handler c data = .ok c' → J c'.delivered) ∧
    ∀ e, readLoop past handler c data = .error e → E e.delivered := by
  have hres := (@client_resumable past handler).and
    (J := fun s => J s.delivered) ?_
  · have hrun := @readLoop_eq past handler c hi data
    refine ⟨?_, ?_⟩
    · intro c' h
      rw [h] at hrun
      exact (hres.run_inv ⟨hi, hj⟩ hrun).2
    · intro e h
      rw [h] at hrun
      refine hres.run_error (E := fun e => E e.delivered) ?_ ⟨hi, hj⟩ hrun
      intro s d e' hs _ _ he
      have hhanded := @handleData_handed past handler s d
      rw [he] at hhanded
      exact (hstep s.delivered _ hs.2 hhanded).2 e' rfl
  · intro s s' d rest _ hs _ h
    have hhanded := @handleData_handed past handler s d
    rw [h] at hhanded
    exact (hstep s.delivered _ hs hhanded).1 s'.delivered rfl

/-- A read takes no message back. -/
theorem readLoop_grows {c : MqttClient} (hi : Inv c) (data : Bytes) :
    c.delivered <+: outs delivered Failure.delivered (readLoop past handler c data) := by
  obtain ⟨hok, herr⟩ := @readLoop_induct past handler
    (fun ds => c.delivered <+: ds) (fun ds => c.delivered <+: ds) (fun ds r hj h => by
      refine ⟨?_, ?_⟩
      · rintro ds' rfl
        obtain rfl | ⟨m, rfl, -⟩ := h
        · exact hj
        · exact hj.trans (List.prefix_append _ _)
      · rintro e rfl
        obtain h | ⟨m, h⟩ := h
        · exact h ▸ hj
        · exact h ▸ hj.trans (List.prefix_append _ _)) c hi (List.prefix_refl _) data
  cases h : readLoop past handler c data with
  | ok c' => exact hok c' h
  | error e => exact herr e h

/-- The handler has taken each of these messages. -/
def Taken (handler : List MqttMessage → Bool) (ds : List MqttMessage) : Prop :=
  ∀ n, 0 < n → n ≤ ds.length → handler (ds.take n) = true

theorem Taken.concat {handler : List MqttMessage → Bool} {ds : List MqttMessage}
    (h : Taken handler ds) {m : MqttMessage} (hm : handler (ds ++ [m]) = true) :
    Taken handler (ds ++ [m]) := by
  intro n hn hle
  rw [List.length_append, List.length_singleton] at hle
  rcases Nat.lt_or_ge ds.length n with hlt | hge
  · obtain rfl : n = (ds ++ [m]).length := by
      rw [List.length_append, List.length_singleton]
      omega
    rw [List.take_length]
    exact hm
  · rw [List.take_append_of_le_length hge]
    exact h n hn hge

theorem Taken.dropLast {handler : List MqttMessage → Bool} {ds : List MqttMessage}
    (h : Taken handler ds) : Taken handler ds.dropLast := by
  intro n hn hle
  rw [List.length_dropLast] at hle
  rw [List.dropLast_eq_take, List.take_take, Nat.min_eq_left hle]
  exact h n hn (by omega)

/-- **The handler has taken** every message that a client has delivered which goes on,
and every one but the last that a client has delivered which has stopped. -/
theorem readLoop_taken {handler : List MqttMessage → Bool} {c : MqttClient} (hi : Inv c)
    (ht : Taken handler c.delivered) (data : Bytes) :
    (∀ c', readLoop past (some handler) c data = .ok c' → Taken handler c'.delivered) ∧
    ∀ e, readLoop past (some handler) c data = .error e → Taken handler e.delivered.dropLast := by
  refine readLoop_induct (J := Taken handler) (E := fun ds => Taken handler ds.dropLast) ?_ hi ht
    data
  intro ds r hj h
  refine ⟨?_, ?_⟩
  · rintro ds' rfl
    obtain rfl | ⟨m, rfl, hm⟩ := h
    · exact hj
    · exact hj.concat (hm handler rfl)
  · rintro e rfl
    obtain h | ⟨m, h⟩ := h
    · rw [h]
      exact hj.dropLast
    · rw [h, List.dropLast_concat]
      exact hj

theorem readLoop_nil (c : MqttClient) : readLoop past handler c [] = .ok c := by
  rw [readLoop, run_stop (.inl rfl)]
  rfl

/-- **The client receives**: reads may be cut anywhere, and what has been delivered
stays delivered. -/
theorem readLoop_receiver (past : UInt8) (handler : MessageHandler) :
    Receiver (readLoop past handler) delivered Failure.delivered Inv where
  nil := readLoop_nil
  keeps := fun hi h => readLoop_inv hi h
  append := readLoop_append
  grows := readLoop_grows

/-! ## A packet at a time -/

/-- The client stands between two packets. -/
structure Idle (c : MqttClient) : Prop where
  ready : c.header.Ready
  message : c.message = none

theorem idle_new : Idle new := ⟨MqttHeader.ready_new _, rfl⟩

theorem Idle.inv {c : MqttClient} (h : Idle c) : Inv c :=
  .inl ⟨h.ready.2, h.ready.inv, h.message⟩

/-- A client between two packets takes the packet as one message with `P`, and
stands between two packets behind it, unless its handler refuses the message. -/
structure Carried (past : UInt8) (handler : List MqttMessage → Bool) (packet : Bytes)
    (P : MqttMessage → Prop) : Prop where
  carries : Carries (readLoop past (some handler)) delivered Failure.delivered Idle packet P
  runs_on : (∀ ds, handler ds = true) → ∀ c, Idle c →
    ∃ c', readLoop past (some handler) c packet = .ok c' ∧ Idle c'

/-- A call that uses its input up is a read. -/
theorem readLoop_of_call {c : MqttClient} (hi : Inv c) {data : Bytes} (hd : data ≠ [])
    {r : Except Failure MqttClient}
    (h : handleData past handler c data = r.map fun c => (c, [])) :
    readLoop past handler c data = r := by
  rw [readLoop, client_resumable.run_go hi rfl hd, h]
  cases r with
  | error e => rfl
  | ok c' => rw [Except.map, ok_bind, run_stop (.inl rfl)]; rfl

/-- **What carries a packet**: its message runs over its body to the end. -/
theorem carried_built (past : UInt8) (handler : List MqttMessage → Bool) {t : MqttType}
    (h0 : t ≠ .reservedMin) (h1 : t ≠ .reservedMax) {f : BitVec 4} {n : Nat}
    (hn : n < 268435456) {body : Bytes} {P : MqttMessage → Prop}
    (hrun : ∀ header : MqttHeader, header.type = t → header.hflags = f →
      header.dlen = UInt32.ofNat n → ∃ m0 m, MqttMessage.createMessage past header = some m0 ∧
        m0.run body = .ok (m, []) ∧ m.finished = true ∧ P m) :
    Carried past handler (MqttHeader.firstByte t f :: (Base128.encode n ++ body)) P := by
  have hread : ∀ c, Idle c → ∃ (header : MqttHeader) (m : MqttMessage), m.finished = true ∧ P m ∧
      readLoop past (some handler) c (MqttHeader.firstByte t f :: (Base128.encode n ++ body))
        = deliver (some handler) c header m := by
    intro c hc
    obtain ⟨header, hhead, hfin, ht, hf, hl⟩ := MqttHeader.run_built hc.ready h0 h1 f hn body
    obtain ⟨m0, m, hcr, hbody, hmf, hP⟩ := hrun header ht hf hl
    have hne : MqttHeader.firstByte t f :: (Base128.encode n ++ body) ≠ [] := by simp
    have hrec : Receives past c (MqttHeader.firstByte t f :: (Base128.encode n ++ body)) header m
        body [] := by
      rw [← List.append_nil body] at hbody
      refine ⟨?_, hfin, m0, ?_, ?_⟩
      · rw [updateHeader_eq hc.ready.2 hne, hhead, List.append_nil]
        rfl
      · simp [currentMessage, hc.message, hcr]
      · rw [updateMessage_eq c (MqttMessage.inv_createMessage hcr), hbody]
        rfl
    exact ⟨header, m, hmf, hP,
      readLoop_of_call hc.inv hne hrec.handleData_eq⟩
  have hidle : ∀ {c c' : MqttClient} {header : MqttHeader} {m : MqttMessage},
      m.finished = true → deliver (some handler) c header m = .ok c' → Idle c' := by
    intro c c' header m hmf hc'
    obtain ⟨hhead', hmsg⟩ := deliver_finished hmf hc'
    exact ⟨hhead' ▸ header.ready_reset, hmsg⟩
  refine ⟨?_, ?_⟩
  · intro c hc
    obtain ⟨header, m, hmf, hP, hread⟩ := hread c hc
    refine ⟨m, hP, ?_, fun c' hc' => hidle hmf (hread ▸ hc')⟩
    rw [hread, deliver, if_pos hmf]
    dsimp only
    split
    · rfl
    · rfl
  · intro haccept c hc
    obtain ⟨header, m, hmf, -, hread⟩ := hread c hc
    have hok : deliver (some handler) c header m
        = .ok { header := header.reset, message := none, delivered := c.delivered ++ [m] } := by
      rw [deliver, if_pos hmf]
      dsimp only
      rw [haccept, if_neg (by simp)]
    exact ⟨_, hread.trans hok, hidle hmf hok⟩

end MqttClient

end Libnio.Mqtt
