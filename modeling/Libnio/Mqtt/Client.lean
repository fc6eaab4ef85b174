import Libnio.Mqtt.Message

/-!
# Mqtt — the client session

`mqtt_client::handle_data` and the loop of `read_await` around it: the fixed
header and the message in progress, the calls of the message handler, and
what the session comes to when its bytes arrive cut into reads.
-/

namespace Libnio.Mqtt

open Stream

/-- `message_handler_`, as a function of the messages delivered so far, the
current one last. -/
abbrev MessageHandler := Option (List MqttMessage → Bool)

/-- The state between two reads, with the messages handed to
`message_handler_` so far. -/
structure MqttClient where
  header : MqttHeader
  message : Option MqttMessage
  delivered : List MqttMessage
deriving DecidableEq

/-- `handle_data` returned -1: why, and what was delivered before. -/
structure Failure where
  stop : Stop
  delivered : List MqttMessage
deriving DecidableEq

namespace MqttClient

/-- `mqtt_client(client_socket&)` -/
def new : MqttClient :=
  { header := MqttHeader.new .reservedMin, message := none, delivered := [] }

/-- A failure of a parser, while `c` has delivered its messages. -/
def lift {α : Type} (c : MqttClient) (r : Except Stop α) : Except Failure α :=
  r.mapError fun stop => ⟨stop, c.delivered⟩

/-- `if (message_->finished()) ..`: the handler is called, header and message
start afresh. -/
def deliver (handler : MessageHandler) (c : MqttClient) (header : MqttHeader)
    (message : MqttMessage) : Except Failure MqttClient :=
  if message.finished then
    match handler with
    | none => .ok { c with header := header.reset, message := none }
    | some handler =>
        let delivered := c.delivered ++ [message]
        if !handler delivered then .error ⟨.error "", delivered⟩
        else .ok { header := header.reset, message := none, delivered }
  else .ok { c with header, message := some message }

/-- `if (!header_->finished()) left = header_->update(data, len);` -/
def updateHeader (c : MqttClient) (data : Bytes) : Except Failure (MqttHeader × Bytes) :=
  if !c.header.finished then c.lift (c.header.update data) else .ok (c.header, data)

/-- `if (message_ == nullptr) message_ = create_message(*header_);` -/
def currentMessage (past : UInt8) (c : MqttClient) (header : MqttHeader) :
    Except Failure MqttMessage :=
  match c.message with
  | some message => .ok message
  | none =>
      match MqttMessage.createMessage past header with
      | some message => .ok message
      | none => c.lift (.error (.error "unknown mqtt type"))

/-- `if (len > 0) left = message_->update(data, len);` -/
def updateMessage (c : MqttClient) (message : MqttMessage) (data : Bytes) :
    Except Failure (MqttMessage × Bytes) :=
  if data ≠ [] then c.lift (message.update data) else .ok (message, data)

/-- `ssize_t handle_data(char* data, ssize_t len)` -/
def handleData (past : UInt8) (handler : MessageHandler) (c : MqttClient)
    (data : Bytes) : Except Failure (MqttClient × Bytes) := do
  let (header, data) ← c.updateHeader data
  if !header.finished then
    c.lift (assertThat (data = []))
    return ({ c with header }, data)
  let message ← c.currentMessage past header
  let (message, data) ← c.updateMessage message data
  let c ← deliver handler c header message
  return (c, data)

/-- The loop of `read_await`: `handle_data` is called until it returns 0 or -1. -/
def readLoop (past : UInt8) (handler : MessageHandler) (c : MqttClient) (data : Bytes) :
    Except Failure MqttClient :=
  (Stream.run ⟨.timeout, []⟩ (fun _ => false) (handleData past handler) c data).map
    fun r => r.1

/-- The callback of `read_await`, with what `read` has put into the buffer. The
connection is closed when that is nothing. -/
def onRead (past : UInt8) (handler : MessageHandler) (c : MqttClient) (data : Bytes) :
    Except Failure MqttClient :=
  if data = [] then .error ⟨.error "", c.delivered⟩ else readLoop past handler c data

/-- The reads of a connection, up to the first failure. -/
def session (past : UInt8) (handler : MessageHandler) (c : MqttClient)
    (reads : List Bytes) : Except Failure MqttClient :=
  reads.foldlM (onRead past handler) c

/-! ## The session may be cut anywhere -/

/-- Between two calls there is a message in progress exactly when its header
is complete. -/
def Inv (c : MqttClient) : Prop :=
  (c.header.finished = false ∧ c.header.Inv ∧ c.message = none) ∨
  (c.header.finished = true ∧ ∃ m, c.message = some m ∧ m.Inv ∧ m.finished = false)

theorem inv_new : Inv new := .inl ⟨rfl, MqttHeader.inv_new _, rfl⟩

variable {past : UInt8} {handler : MessageHandler}

@[simp] theorem lift_ok {α : Type} (c : MqttClient) (a : α) :
    c.lift (.ok a) = .ok a := rfl

@[simp] theorem lift_error {α : Type} (c : MqttClient) (e : Stop) :
    c.lift (.error e : Except Stop α) = .error ⟨e, c.delivered⟩ := rfl

/-- `deliver`, of a message that goes on. -/
theorem deliver_unfinished {c : MqttClient} {header : MqttHeader} {m : MqttMessage}
    (hf : m.finished = false) :
    deliver handler c header m = .ok { c with header, message := some m } := by
  unfold deliver
  rw [if_neg (by simp [hf])]

theorem deliver_inv {c c' : MqttClient} {header : MqttHeader} {m : MqttMessage}
    (hh : header.finished = true) (hm : m.Inv)
    (h : deliver handler c header m = .ok c') : Inv c' := by
  unfold deliver at h
  split at h
  · have hreset : ∀ delivered, Inv { header := header.reset, message := none, delivered } :=
      fun _ => .inl ⟨rfl, header.inv_reset, rfl⟩
    split at h
    · cases h
      exact hreset _
    · simp only at h
      split at h <;> cases h
      exact hreset _
  · rename_i hf
    cases h
    exact .inr ⟨hh, m, rfl, hm, by simpa using hf⟩

/-- What `handle_data` does once it has a message. -/
def step (handler : MessageHandler) (c : MqttClient) (header : MqttHeader)
    (m : MqttMessage) (data : Bytes) : Except Failure (MqttClient × Bytes) :=
  c.lift (m.run data) >>= fun r =>
    (deliver handler c header r.1).map fun c => (c, r.2)

/-- Whether there is input for it or not, `handle_data` runs the message. -/
theorem updateMessage_eq (c : MqttClient) {m : MqttMessage} (hm : m.Inv)
    (data : Bytes) : c.updateMessage m data = c.lift (m.run data) := by
  unfold updateMessage
  by_cases hd : data = []
  · subst hd
    rw [(MqttMessage.message_lawful m hm).stop (.inl rfl)]
    rfl
  · rw [if_pos hd, MqttMessage.update_eq_run m hd]

/-- `handle_data` from where its header is finished. -/
theorem handleData_finished {c : MqttClient} {header : MqttHeader} {data rest : Bytes}
    (hu : c.updateHeader data = .ok (header, rest)) (hf : header.finished = true)
    {m : MqttMessage} (hc : c.currentMessage past header = .ok m) (hm : m.Inv) :
    handleData past handler c data = step handler c header m rest := by
  simp only [handleData, hu, ok_bind, hf, Bool.not_true, Bool.false_eq_true, if_false, hc,
    updateMessage_eq c hm, step]
  cases m.run rest with
  | error e => rfl
  | ok r =>
      simp only [lift_ok, ok_bind]
      cases deliver handler c header r.1 <;> rfl

/-- A call that comes to a message in progress. -/
theorem handleData_message {c : MqttClient} {m : MqttMessage}
    (hf : c.header.finished = true) (hc : c.message = some m) (hm : m.Inv)
    (data : Bytes) :
    handleData past handler c data = step handler c c.header m data :=
  handleData_finished (by simp [updateHeader, hf]) hf (by simp [currentMessage, hc]) hm

/-- A call of which the header takes the whole input. -/
theorem handleData_header {c : MqttClient} {header : MqttHeader} {data : Bytes}
    (hu : c.updateHeader data = .ok (header, [])) (hf : header.finished = false) :
    handleData past handler c data = .ok ({ c with header }, []) := by
  simp [handleData, hu, hf]

theorem handleData_error {c : MqttClient} {data : Bytes} {e : Failure}
    (hu : c.updateHeader data = .error e) :
    handleData past handler c data = .error e := by
  simp [handleData, hu]

/-- A call whose header announces no message. -/
theorem handleData_unknown {c : MqttClient} {header : MqttHeader} {data rest : Bytes}
    (hu : c.updateHeader data = .ok (header, rest)) (hf : header.finished = true)
    {e : Failure} (hc : c.currentMessage past header = .error e) :
    handleData past handler c data = .error e := by
  simp [handleData, hu, hf, hc]

/-- The header phase of a call, of an unfinished header. -/
theorem updateHeader_eq {c : MqttClient} (hf : c.header.finished = false) {data : Bytes}
    (hd : data ≠ []) : c.updateHeader data = c.lift (c.header.run data) := by
  rw [updateHeader, hf, Bool.not_false, if_pos rfl, MqttHeader.update, if_neg hd]

/-- More input after what a message took. -/
theorem step_append (past : UInt8) (handler : MessageHandler) (c : MqttClient)
    {header : MqttHeader} {m : MqttMessage} (hh : header.finished = true) (hm : m.Inv)
    (xs : Bytes) :
    (∀ e, step handler c header m xs = .error e →
      ∀ ys, step handler c header m (xs ++ ys) = .error e) ∧
    (∀ c' rest, step handler c header m xs = .ok (c', rest) →
      Inv c' ∧ rest <:+ xs ∧ (m.finished = false → xs ≠ [] → rest ≠ xs) ∧
      ((∀ ys, step handler c header m (xs ++ ys) = .ok (c', rest ++ ys)) ∨
       (rest = [] ∧ ∀ ys, step handler c header m (xs ++ ys)
          = handleData past handler c' ys))) := by
  have hl := MqttMessage.message_lawful m hm
  cases hrun : m.run xs with
  | error e =>
      have happ := hl.error hrun
      refine ⟨fun e' he ys => ?_, fun c' rest h => ?_⟩
      · simpa [step, hrun, happ ys] using he
      · simp [step, hrun] at h
  | ok r =>
      obtain ⟨m', rest⟩ := r
      have hm' := hl.keeps hrun
      cases hf : m'.finished with
      | true =>
          -- the message is complete: what follows it stays behind
          have happ := MqttMessage.message_lawful.leaves hm hf hrun
          refine ⟨fun e he ys => ?_, fun c' rest' h => ?_⟩
          · simp only [step, happ ys, hrun, lift_ok, ok_bind] at he ⊢
            cases hdel : deliver handler c header m' with
            | error e' => simpa [hdel, Except.map] using he
            | ok c1 => simp [hdel, Except.map] at he
          · simp only [step, hrun, lift_ok, ok_bind] at h
            cases hdel : deliver handler c header m' with
            | error e' => simp [hdel, Except.map] at h
            | ok c1 =>
                simp only [hdel, Except.map, Except.ok.injEq, Prod.mk.injEq] at h
                obtain ⟨rfl, rfl⟩ := h
                refine ⟨deliver_inv hh hm' hdel, hl.suffix hrun, ?_, .inl fun ys => ?_⟩
                · intro hmf hx hc
                  have hlt := hl.progress hmf hx hrun
                  rw [hc] at hlt
                  exact Nat.lt_irrefl _ hlt
                · simp [step, happ ys, hdel, Except.map]
      | false =>
          -- it goes on with what follows
          obtain ⟨rfl, -⟩ := hl.unfinished hf hrun []
          have hgo := fun ys => (hl.unfinished hf hrun ys).2
          have hdel : deliver handler c header m' = .ok { c with header, message := some m' } :=
            deliver_unfinished hf
          refine ⟨fun e he => ?_, fun c' rest h => ?_⟩
          · simp [step, hrun, hdel, Except.map] at he
          · simp only [step, hrun, lift_ok, ok_bind, hdel, Except.map, Except.ok.injEq,
              Prod.mk.injEq] at h
            obtain ⟨rfl, rfl⟩ := h
            refine ⟨deliver_inv hh hm' hdel, List.nil_suffix, fun _ hx hc => hx hc.symm,
              .inr ⟨rfl, fun ys => ?_⟩⟩
            rw [handleData_message hh rfl hm' ys]
            simp only [step, hgo ys]
            rfl

theorem currentMessage_inv {c : MqttClient} (hi : Inv c) {header : MqttHeader}
    {m : MqttMessage} (h : c.currentMessage past header = .ok m) : m.Inv := by
  unfold currentMessage at h
  cases hcm : c.message with
  | some m' =>
      simp only [hcm, Except.ok.injEq] at h
      rcases hi with ⟨-, -, hn⟩ | ⟨-, m'', hm, hi, -⟩
      · rw [hcm] at hn
        cases hn
      · rw [hcm] at hm
        cases hm
        exact h ▸ hi
  | none =>
      cases hcr : MqttMessage.createMessage past header with
      | none => simp [hcm, hcr] at h
      | some m' =>
          simp only [hcm, hcr, Except.ok.injEq] at h
          exact h ▸ MqttMessage.inv_createMessage hcr

/-- What a call of `handle_data` on `xs` says of a call on more input. -/
structure Cut (past : UInt8) (handler : MessageHandler) (c : MqttClient) (xs : Bytes) : Prop where
  error : ∀ e, handleData past handler c xs = .error e →
    ∀ ys, handleData past handler c (xs ++ ys) = .error e
  ok : ∀ c' rest, handleData past handler c xs = .ok (c', rest) →
    Inv c' ∧ rest <:+ xs ∧ rest ≠ xs ∧
    ((∀ ys, handleData past handler c (xs ++ ys) = .ok (c', rest ++ ys)) ∨
     (rest = [] ∧ ∀ ys, ys ≠ [] → handleData past handler c (xs ++ ys)
        = handleData past handler c' ys))

namespace Cut

variable {c : MqttClient} {xs rest : Bytes} {header : MqttHeader}

/-- The header fails. -/
theorem of_error (hf : c.header.finished = false) (hih : c.header.Inv) (hx : xs ≠ []) {e : Stop}
    (hrun : c.header.run xs = .error e) : Cut past handler c xs := by
  have hl := MqttHeader.header_lawful c.header hih
  have hu : ∀ ys, c.updateHeader (xs ++ ys) = .error ⟨e, c.delivered⟩ := fun ys => by
    rw [updateHeader_eq hf (by simp [hx]), hl.error hrun ys]
    rfl
  have hu0 : c.updateHeader xs = .error ⟨e, c.delivered⟩ := by simpa using hu []
  refine ⟨fun e' he ys => ?_, fun c' rest h => ?_⟩
  · rw [handleData_error hu0] at he
    rw [handleData_error (hu ys), he]
  · rw [handleData_error hu0] at h
    cases h

/-- The input ends inside of the header. -/
theorem of_header (hf : c.header.finished = false) (hih : c.header.Inv) (hc : c.message = none)
    (hx : xs ≠ []) (hrun : c.header.run xs = .ok (header, rest))
    (hhf : header.finished = false) : Cut past handler c xs := by
  have hl := MqttHeader.header_lawful c.header hih
  have hih' := hl.keeps hrun
  obtain ⟨rfl, -⟩ := hl.unfinished hhf hrun []
  have hu0 : c.updateHeader xs = .ok (header, []) := by
    rw [updateHeader_eq hf hx, hrun]
    rfl
  refine ⟨fun e he => ?_, fun c' rest h => ?_⟩
  · rw [handleData_header hu0 hhf] at he
    cases he
  · rw [handleData_header hu0 hhf] at h
    cases h
    refine ⟨.inl ⟨hhf, hih', hc⟩, List.nil_suffix, hx.symm, .inr ⟨rfl, fun ys hy => ?_⟩⟩
    have hgo := (hl.unfinished hhf hrun ys).2
    have hsame : c.updateHeader (xs ++ ys) = updateHeader { c with header } ys := by
      rw [updateHeader_eq hf (by simp [hx]), updateHeader_eq hhf hy, hgo]
      rfl
    rw [handleData, handleData, hsame]
    rfl

/-- The header is complete, and a message begins. -/
theorem of_new (hf : c.header.finished = false) (hih : c.header.Inv) (hc : c.message = none)
    (hx : xs ≠ []) (hrun : c.header.run xs = .ok (header, rest))
    (hhf : header.finished = true) : Cut past handler c xs := by
  have hl := MqttHeader.header_lawful c.header hih
  have hleave := MqttHeader.header_lawful.leaves hih hhf hrun
  have hu : ∀ ys, c.updateHeader (xs ++ ys) = .ok (header, rest ++ ys) := fun ys => by
    rw [updateHeader_eq hf (by simp [hx]), hleave ys]
    rfl
  have hu0 : c.updateHeader xs = .ok (header, rest) := by simpa using hu []
  cases hcm : c.currentMessage past header with
  | error e =>
      refine ⟨fun e' he ys => ?_, fun c' rest' h => ?_⟩
      · rw [handleData_unknown hu0 hhf hcm] at he
        rw [handleData_unknown (hu ys) hhf hcm, he]
      · rw [handleData_unknown hu0 hhf hcm] at h
        cases h
  | ok m =>
      have hm := currentMessage_inv (.inl ⟨hf, hih, hc⟩) hcm
      have hlt := hl.progress hf hx hrun
      have hstep := step_append past handler c hhf hm rest
      have heq : ∀ ys, handleData past handler c (xs ++ ys) = step handler c header m (rest ++ ys) :=
        fun ys => handleData_finished (hu ys) hhf hcm hm
      have heq0 : handleData past handler c xs = step handler c header m rest :=
        handleData_finished hu0 hhf hcm hm
      refine ⟨fun e he ys => ?_, fun c' rest' h => ?_⟩
      · rw [heq ys]
        exact hstep.1 e (heq0.symm.trans he) ys
      · obtain ⟨hi', hsuf, -, happ⟩ := hstep.2 c' rest' (heq0.symm.trans h)
        refine ⟨hi', hsuf.trans (hl.suffix hrun), ?_, ?_⟩
        · intro hc'
          have hle := hsuf.length_le
          rw [hc'] at hle
          omega
        · rcases happ with hb | ⟨h0, hgo⟩
          · exact .inl fun ys => by rw [heq ys, hb ys]
          · exact .inr ⟨h0, fun ys _ => by rw [heq ys, hgo ys]⟩

/-- A message is in progress. -/
theorem of_message (hf : c.header.finished = true) {m : MqttMessage} (hc : c.message = some m)
    (hm : m.Inv) (hmf : m.finished = false) (hx : xs ≠ []) : Cut past handler c xs := by
  have heq : ∀ ys, handleData past handler c ys = step handler c c.header m ys :=
    handleData_message hf hc hm
  have hstep := step_append past handler c hf hm xs
  refine ⟨fun e he ys => ?_, fun c' rest h => ?_⟩
  · rw [heq]
    exact hstep.1 e ((heq xs).symm.trans he) ys
  · obtain ⟨hi', hsuf, hne, happ⟩ := hstep.2 c' rest ((heq xs).symm.trans h)
    refine ⟨hi', hsuf, hne hmf hx, ?_⟩
    rcases happ with hb | ⟨h0, hgo⟩
    · exact .inl fun ys => by rw [heq, hb ys]
    · exact .inr ⟨h0, fun ys _ => by rw [heq, hgo ys]⟩

end Cut

/-- **More input** after what a call of `handle_data` took. -/
theorem handleData_append {c : MqttClient} (hi : Inv c) {xs : Bytes} (hx : xs ≠ []) :
    Cut past handler c xs := by
  rcases hi with ⟨hf, hih, hc⟩ | ⟨hf, m, hc, hm, hmf⟩
  · cases hrun : c.header.run xs with
    | error e => exact .of_error hf hih hx hrun
    | ok r =>
        obtain ⟨header, rest⟩ := r
        cases hhf : header.finished with
        | false => exact .of_header hf hih hc hx hrun hhf
        | true => exact .of_new hf hih hc hx hrun hhf
  · exact .of_message hf hc hm hmf hx

/-- `handle_data` as a consumer that is never finished. -/
theorem client_resumable :
    Resumable (fun _ => false) (handleData past handler) Inv (fun _ => 0) where
  rank_le := fun _ => Nat.zero_le _
  resumesAt := fun c hi _ =>
    { keeps := fun hd h => ((handleData_append hi hd).ok _ _ h).1
      suffix := fun hd h => ((handleData_append hi hd).ok _ _ h).2.1
      progress := fun hd h => .inl ((handleData_append hi hd).ok _ _ h).2.2.1
      error_append := fun hd h => (handleData_append hi hd).error _ h
      ok_append := by
        intro c' xs rest hd h
        rcases ((handleData_append hi hd).ok _ _ h).2.2.2 with hb | ⟨h0, hgo⟩
        · exact .inl hb
        · exact .inr ⟨h0, rfl, hgo⟩ }

/-- A read takes all its bytes or fails. -/
theorem readLoop_eq {c : MqttClient} (hi : Inv c) (data : Bytes) :
    Stream.run ⟨.timeout, []⟩ (fun _ => false) (handleData past handler) c data
      = (readLoop past handler c data).map fun c => (c, []) := by
  unfold readLoop
  cases h : Stream.run ⟨.timeout, []⟩ (fun _ => false) (handleData past handler) c data with
  | error e => rfl
  | ok r =>
      have hrest := client_resumable.run_rest hi h
      simp only [Bool.false_eq_true, or_false] at hrest
      simp [Except.map, ← hrest]

theorem readLoop_inv {c c' : MqttClient} (hi : Inv c) {data : Bytes}
    (h : readLoop past handler c data = .ok c') : Inv c' := by
  have heq : Stream.run ⟨.timeout, []⟩ (fun _ => false) (handleData past handler) c data = _ :=
    readLoop_eq hi data
  rw [h] at heq
  exact client_resumable.run_inv hi heq

private theorem map_pair_inj {ε α β : Type} {b : β} {x y : Except ε α}
    (h : (x.map fun a => (a, b)) = y.map fun a => (a, b)) : x = y := by
  cases x <;> cases y <;> simp_all [Except.map]

/-- Two reads are one. -/
theorem readLoop_append {c : MqttClient} (hi : Inv c) (xs ys : Bytes) :
    readLoop past handler c (xs ++ ys)
      = readLoop past handler c xs >>= fun c => readLoop past handler c ys := by
  have happ : Stream.run ⟨.timeout, []⟩ (fun _ => false) (handleData past handler) c
      (xs ++ ys) = _ := client_resumable.run_append hi xs ys
  apply map_pair_inj (b := ([] : Bytes))
  rw [readLoop_eq hi, readLoop_eq hi] at happ
  rw [happ]
  cases hx : readLoop past handler c xs with
  | error e => rfl
  | ok c1 =>
      simp only [Except.map, ok_bind, List.nil_append]
      exact readLoop_eq (readLoop_inv hi hx) ys

/-- A session is one read of all its bytes. -/
theorem session_flatten {c : MqttClient} (hi : Inv c) (reads : List Bytes)
    (hr : ∀ data ∈ reads, data ≠ []) :
    session past handler c reads = readLoop past handler c reads.flatten := by
  induction reads generalizing c with
  | nil => rfl
  | cons data reads ih =>
      rw [List.flatten_cons, readLoop_append hi, session, List.foldlM_cons, onRead,
        if_neg (hr data (by simp))]
      cases h : readLoop past handler c data with
      | error e => rfl
      | ok c1 => exact ih (readLoop_inv hi h) fun d hd => hr d (by simp [hd])

/-- **It does not matter how a session was cut into reads**: the messages
delivered and the outcome, a failure or the state it waits in, are the same. -/
theorem session_chunking (past : UInt8) (handler : MessageHandler)
    (reads₁ reads₂ : List Bytes) (h₁ : ∀ data ∈ reads₁, data ≠ [])
    (h₂ : ∀ data ∈ reads₂, data ≠ []) (h : reads₁.flatten = reads₂.flatten) :
    session past handler new reads₁ = session past handler new reads₂ := by
  rw [session_flatten inv_new reads₁ h₁, session_flatten inv_new reads₂ h₂, h]

/-- A PINGREQ in one read, and cut inside of its header. -/
theorem session_chunking_ping :
    session 0 (some fun _ => true) new [[0xc0], [0x00]]
      = session 0 (some fun _ => true) new [[0xc0, 0x00]] :=
  session_chunking 0 (some fun _ => true) [[0xc0], [0x00]] [[0xc0, 0x00]] (by simp)
    (by simp) rfl

end MqttClient

end Libnio.Mqtt
