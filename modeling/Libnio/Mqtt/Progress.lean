import Libnio.Mqtt.Framing
import Libnio.Mqtt.Sound

/-!
# Mqtt — progress of the read loop

`Steady` is what holds between two calls of `handle_data`. From it: a call
fails for what it read or takes at least one byte, what it leaves comes after a
message that it finished, and no assertion, store or branch for an unexpected
state goes wrong.
-/

namespace Libnio.Mqtt

open Stream

/-! ## Types that are announced -/

theorem ofCode_typeNibble {b : UInt8} (h : ValidType b) :
    MqttType.ofCode (typeNibble b) ≠ .reservedMin
      ∧ MqttType.ofCode (typeNibble b) ≠ .reservedMax := by
  obtain ⟨b⟩ := b
  revert b
  decide +kernel

namespace MqttHeader

/-- A header that has read its type byte has a type that is not reserved. -/
structure Announced (h : MqttHeader) : Prop where
  type_of_len : h.status = .hdrLen → h.type ≠ .reservedMin ∧ h.type ≠ .reservedMax
  len_of_finished : h.finished = true → h.status = .hdrLen

theorem announced_new (t : MqttType) : (new t).Announced :=
  ⟨fun hs => by simp [new] at hs, fun hf => by simp [new] at hf⟩

theorem announced_reset (h : MqttHeader) : h.reset.Announced :=
  ⟨fun hs => by simp [reset] at hs, fun hf => by simp [reset] at hf⟩

theorem Announced.type_ne {h : MqttHeader} (ha : h.Announced) (hf : h.finished = true) :
    h.type ≠ .reservedMin ∧ h.type ≠ .reservedMax :=
  ha.type_of_len (ha.len_of_finished hf)

/-- A call of the length parser leaves type and status alone. -/
theorem updateHeaderLen_keeps {h h' : MqttHeader} (hm : h.more = true) {data rest : Bytes}
    (hd : data ≠ []) (hh : updateHeaderLen h data = .ok (h', rest)) :
    h'.type = h.type ∧ h'.status = h.status := by
  rw [updateHeaderLen_eq hm] at hh
  let P : MqttHeader → Prop := fun s => s.type = h.type ∧ s.status = h.status
  refine field_induct lenGuard more putLen lenNext hd hh P P ?_ (fun s hs _ => hs) ?_
    ⟨rfl, rfl⟩
  · intro s b s' hs hms hput
    rw [putLen_eq (more_lt hms)] at hput
    cases hput
    exact hs
  · intro s s' hs _ hn
    simp only [lenNext, bind_eq_ok] at hn
    obtain ⟨-, -, last, -, hn⟩ := hn
    split at hn
    · simp at hn
    · cases hn
      exact hs

theorem run_announced {h h' : MqttHeader} (hi : Inv h) (ha : h.Announced)
    {data rest : Bytes} (hrun : run h data = .ok (h', rest)) : h'.Announced := by
  refine (header_resumable.run_induct (P := fun s _ => s.Announced) ?_ hi ha hrun).2.1
  intro s s' data rest hi hf hd hh ha
  cases hst : s.status with
  | hdrType =>
      obtain ⟨b, data, rfl⟩ := List.exists_cons_of_ne_nil hd
      simp only [handlers, hst, updateHeaderType_cons] at hh
      split at hh <;> cases hh
      rename_i hv
      exact ⟨fun _ => ofCode_typeNibble hv, fun hf' => absurd (hf.symm.trans hf') (by decide)⟩
  | hdrLen =>
      simp only [handlers, hst] at hh
      obtain ⟨ht, hs⟩ := updateHeaderLen_keeps (hi hst hf) hd hh
      exact ⟨fun _ => by rw [ht]; exact ha.type_of_len hst, fun _ => hs.trans hst⟩

end MqttHeader

namespace MqttMessage

/-- The type whose class a message is of. -/
def kind : MqttMessage → MqttType
  | connect _ => .connect
  | connack _ => .connack
  | publish _ => .publish
  | puback _ => .puback
  | pubrec _ => .pubrec
  | pubrel _ => .pubrel
  | pubcomp _ => .pubcomp
  | subscribe _ => .subscribe
  | suback _ => .suback
  | unsubscribe _ => .unsubscribe
  | unsuback _ => .unsuback
  | pingreq _ => .pingreq
  | pingresp _ => .pingresp
  | disconnect _ => .disconnect

theorem createMessage_kind {past : UInt8} {header : MqttHeader} {m : MqttMessage}
    (h : createMessage past header = some m) : m.kind = header.getType := by
  unfold createMessage at h
  split at h <;> cases h <;> rename_i ht <;> exact ht.symm

/-- Only a reserved type makes no message. -/
theorem createMessage_none {past : UInt8} {header : MqttHeader}
    (h : createMessage past header = none) :
    header.getType = .reservedMin ∨ header.getType = .reservedMax := by
  unfold createMessage at h
  split at h
  case h_15 ht => exact .inl ht
  case h_16 ht => exact .inr ht
  all_goals cases h

theorem run_kind {m m' : MqttMessage} {data rest : Bytes} (h : m.run data = .ok (m', rest)) :
    m'.kind = m.kind := by
  have hlift : ∀ {σ : Type} {f : σ → MqttMessage} {r : Except Stop (σ × Bytes)},
      lift f r = .ok (m', rest) → ∃ s, m' = f s := by
    intro σ f r hr
    cases r with
    | error e => simp [lift, Except.map] at hr
    | ok r =>
        simp only [lift, Except.map, Except.ok.injEq, Prod.mk.injEq] at hr
        exact ⟨r.1, hr.1.symm⟩
  cases m <;> obtain ⟨s, rfl⟩ := hlift h <;> rfl

end MqttMessage

/-! ## Between two calls -/

namespace MqttClient

/-- The clients that calls of `handle_data` lead to; the handler may be set anew, and
the memory behind a buffer may differ, from call to call. -/
inductive Reached : MqttClient → Prop where
  | new : Reached new
  | call {c c' : MqttClient} {data left : Bytes} (past : UInt8) (handler : MessageHandler) :
      Reached c → data ≠ [] → handleData past handler c data = .ok (c', left) → Reached c'

/-- What holds between two calls. -/
structure Steady (c : MqttClient) : Prop where
  inv : Inv c
  announced : c.header.Announced
  kind_eq : ∀ m, c.message = some m → m.kind = c.header.getType

theorem steady_new : Steady new :=
  ⟨inv_new, MqttHeader.announced_new _, fun m hm => by simp [new] at hm⟩

variable {past : UInt8} {handler : MessageHandler}

/-- The header that a call goes on with. -/
theorem updateHeader_announced {c : MqttClient} (hs : Steady c) {data rest : Bytes}
    (hd : data ≠ []) {header : MqttHeader} (hu : c.updateHeader data = .ok (header, rest)) :
    header.Announced := by
  cases hf : c.header.finished with
  | true =>
      simp only [updateHeader, hf, Bool.not_true, Bool.false_eq_true, if_false, Except.ok.injEq,
        Prod.mk.injEq] at hu
      rw [← hu.1]
      exact hs.announced
  | false =>
      rcases hs.inv with ⟨-, hi, -⟩ | ⟨hf', -⟩
      · rw [updateHeader_eq hf hd, lift_eq_ok] at hu
        exact MqttHeader.run_announced hi hs.announced hu
      · rw [hf] at hf'
        cases hf'

/-- The message that a call comes to is of the type of its header. -/
theorem currentMessage_kind {c : MqttClient} (hs : Steady c) {data rest : Bytes}
    {header : MqttHeader} (hu : c.updateHeader data = .ok (header, rest)) {m : MqttMessage}
    (hm : c.currentMessage past header = .ok m) : m.kind = header.getType := by
  unfold currentMessage at hm
  cases hcm : c.message with
  | some m' =>
      simp only [hcm, Except.ok.injEq] at hm
      have hf : c.header.finished = true := by
        rcases hs.inv with ⟨-, -, hn⟩ | ⟨hf, -⟩
        · rw [hcm] at hn
          cases hn
        · exact hf
      simp only [updateHeader, hf, Bool.not_true, Bool.false_eq_true, if_false, Except.ok.injEq,
        Prod.mk.injEq] at hu
      rw [← hm, ← hu.1]
      exact hs.kind_eq m' hcm
  | none =>
      cases hcr : MqttMessage.createMessage past header with
      | none => simp [hcm, hcr] at hm
      | some m' =>
          simp only [hcm, hcr, Except.ok.injEq] at hm
          rw [← hm]
          exact MqttMessage.createMessage_kind hcr

/-- **A call keeps it.** -/
theorem Steady.call {c c' : MqttClient} (hs : Steady c) {data left : Bytes} (hd : data ≠ [])
    (h : handleData past handler c data = .ok (c', left)) : Steady c' := by
  refine ⟨((handleData_append hs.inv hd).ok _ _ h).1, ?_, ?_⟩
  · rcases handleData_cases hs.inv h with
      ⟨header, hu, -, rfl, -⟩ | ⟨header, m, taken, hr, hdel⟩
    · exact updateHeader_announced hs hd hu
    · cases hf : m.finished with
      | true =>
          rw [(deliver_finished hf hdel).1]
          exact MqttHeader.announced_reset header
      | false =>
          rw [deliver_unfinished hf] at hdel
          cases hdel
          exact updateHeader_announced hs hd hr.header_eq
  · intro m' hm'
    rcases handleData_cases hs.inv h with
      ⟨header, hu, hf, rfl, -⟩ | ⟨header, m, taken, hr, hdel⟩
    · -- the header is not finished, so that there is no message
      rcases ((handleData_append hs.inv hd).ok _ _ h).1 with ⟨-, -, hn⟩ | ⟨hf', -⟩
      · rw [hn] at hm'
        cases hm'
      · rw [hf] at hf'
        cases hf'
    · cases hf : m.finished with
      | true =>
          rw [(deliver_finished hf hdel).2] at hm'
          cases hm'
      | false =>
          rw [deliver_unfinished hf] at hdel
          cases hdel
          cases hm'
          obtain ⟨m0, hc, hup⟩ := hr.message_eq
          rw [updateMessage_eq c (currentMessage_inv hs.inv hc), lift_eq_ok] at hup
          rw [MqttMessage.run_kind hup]
          exact currentMessage_kind hs hr.header_eq hc

theorem Reached.steady {c : MqttClient} (hc : Reached c) : Steady c := by
  induction hc with
  | new => exact steady_new
  | call past handler _ hd h ih => exact ih.call hd h

/-! ## How a call ends -/

theorem lift_eq_error {α : Type} {c : MqttClient} {r : Except Stop α} {f : Failure} :
    c.lift r = .error f ↔ ∃ e, r = .error e ∧ f = ⟨e, c.delivered⟩ := by
  cases r with
  | error e => simp [eq_comm]
  | ok a => simp

/-- The header phase fails for what it read. -/
theorem updateHeader_rejects {c : MqttClient} (hs : Steady c) {data : Bytes} (hd : data ≠ [])
    {f : Failure} (hu : c.updateHeader data = .error f) : f.stop.Rejects := by
  cases hf : c.header.finished with
  | true => simp [updateHeader, hf] at hu
  | false =>
      rcases hs.inv with ⟨-, hi, -⟩ | ⟨hf', -⟩
      · rw [updateHeader_eq hf hd, lift_eq_error] at hu
        obtain ⟨e, he, rfl⟩ := hu
        exact MqttHeader.run_rejects hi he
      · rw [hf] at hf'
        cases hf'

/-- A header that is not finished has used the input up. -/
theorem updateHeader_rest {c : MqttClient} (hs : Steady c) {data rest : Bytes}
    (hd : data ≠ []) {header : MqttHeader} (hu : c.updateHeader data = .ok (header, rest))
    (hh : header.finished = false) : rest = [] := by
  cases hf : c.header.finished with
  | true =>
      simp only [updateHeader, hf, Bool.not_true, Bool.false_eq_true, if_false, Except.ok.injEq,
        Prod.mk.injEq] at hu
      rw [← hu.1, hf] at hh
      cases hh
  | false =>
      rcases hs.inv with ⟨-, hi, -⟩ | ⟨hf', -⟩
      · rw [updateHeader_eq hf hd, lift_eq_ok] at hu
        simpa [hh] using (MqttHeader.header_lawful c.header hi).rest hu
      · rw [hf] at hf'
        cases hf'

/-- A finished header has a message. -/
theorem currentMessage_isOk (past : UInt8) {c : MqttClient} (hs : Steady c) {data rest : Bytes}
    (hd : data ≠ []) {header : MqttHeader} (hu : c.updateHeader data = .ok (header, rest))
    (hh : header.finished = true) : ∃ m, c.currentMessage past header = .ok m := by
  unfold currentMessage
  cases c.message with
  | some m => exact ⟨m, rfl⟩
  | none =>
      cases hcr : MqttMessage.createMessage past header with
      | some m => exact ⟨m, rfl⟩
      | none =>
          have hne := (updateHeader_announced hs hd hu).type_ne hh
          rcases MqttMessage.createMessage_none hcr with ht | ht
          · exact absurd ht hne.1
          · exact absurd ht hne.2

theorem deliver_rejects {c : MqttClient} {header : MqttHeader} {m : MqttMessage} {f : Failure}
    (h : deliver handler c header m = .error f) : f.stop.Rejects := by
  unfold deliver at h
  split at h
  · split at h
    · cases h
    · simp only at h
      split at h <;> cases h
      exact rejects_error rfl (by decide)
  · cases h

/-- **A call fails for what it read.** -/
theorem handleData_rejects {c : MqttClient} (hs : Steady c) {data : Bytes} (hd : data ≠ [])
    {f : Failure} (h : handleData past handler c data = .error f) : f.stop.Rejects := by
  cases hu : c.updateHeader data with
  | error f' =>
      rw [handleData_error hu] at h
      cases h
      exact updateHeader_rejects hs hd hu
  | ok r =>
      obtain ⟨header, rest⟩ := r
      cases hh : header.finished with
      | false =>
          obtain rfl := updateHeader_rest hs hd hu hh
          rw [handleData_header hu hh] at h
          cases h
      | true =>
          obtain ⟨m, hm⟩ := currentMessage_isOk past hs hd hu hh
          have hi := currentMessage_inv hs.inv hm
          rw [handleData_finished hu hh hm hi, step] at h
          cases hrun : m.run rest with
          | error e =>
              rw [hrun, lift_error, error_bind] at h
              cases h
              exact MqttMessage.run_rejects hi hrun
          | ok r =>
              rw [hrun, lift_ok, ok_bind] at h
              cases hdel : deliver handler c header r.1 with
              | error f' =>
                  rw [hdel] at h
                  cases h
                  exact deliver_rejects hdel
              | ok c' => simp [hdel, Except.map] at h

/-- A call finished a message: it was handed to the handler, if there is one, and
header and message start afresh. -/
def Finished (handler : MessageHandler) (c c' : MqttClient) : Prop :=
  ∃ (header : MqttHeader) (m : MqttMessage), m.finished = true
    ∧ c' = { header := header.reset, message := none,
             delivered := c.delivered ++ if handler.isSome then [m] else [] }

theorem deliver_eq_ok {c c' : MqttClient} {header : MqttHeader} {m : MqttMessage}
    (hf : m.finished = true) (h : deliver handler c header m = .ok c') :
    Finished handler c c' := by
  refine ⟨header, m, hf, ?_⟩
  unfold deliver at h
  rw [if_pos hf] at h
  cases handler with
  | none =>
      cases h
      simp
  | some handler =>
      simp only at h
      split at h <;> cases h
      rfl

/-- **A call takes something.** It fails for what it read, or leaves less than it was
given, and nothing unless it finished a message. -/
theorem handleData_takes (past : UInt8) (handler : MessageHandler) {c : MqttClient}
    (hs : Steady c) {data : Bytes} (hd : data ≠ []) :
    (∃ text delivered, handleData past handler c data = .error ⟨.error text, delivered⟩) ∨
    ∃ c' left, handleData past handler c data = .ok (c', left)
      ∧ left.length < data.length ∧ (left ≠ [] → Finished handler c c') := by
  cases h : handleData past handler c data with
  | error f =>
      obtain ⟨text, ht, -⟩ := handleData_rejects hs hd h
      exact .inl ⟨text, f.delivered, by rw [← ht]⟩
  | ok r =>
      obtain ⟨c', left⟩ := r
      obtain ⟨-, hsuf, hne, -⟩ := (handleData_append hs.inv hd).ok _ _ h
      have hlt : left.length < data.length :=
        Nat.lt_of_le_of_ne hsuf.length_le fun hc => hne (hsuf.eq_of_length hc)
      refine .inr ⟨c', left, rfl, hlt, fun hl => ?_⟩
      rcases handleData_cases hs.inv h with
        ⟨header, -, -, -, h0⟩ | ⟨header, m, taken, hr, hdel⟩
      · exact absurd h0 hl
      · -- a message that is not finished takes all there is
        obtain ⟨m0, hc, hup⟩ := hr.message_eq
        have hi := currentMessage_inv hs.inv hc
        rw [updateMessage_eq c hi, lift_eq_ok] at hup
        rcases (MqttMessage.message_lawful m0 hi).rest hup with h0 | hf
        · exact absurd h0 hl
        · exact deliver_eq_ok hf hdel

/-! ## The loop -/

/-- The loop of `read_await`, cut off after `n` iterations. -/
def loopFor (past : UInt8) (handler : MessageHandler) (n : Nat) (c : MqttClient)
    (data : Bytes) : Except Failure (MqttClient × Bytes) :=
  Stream.drive ⟨.timeout, []⟩ (fun _ => false) (handleData past handler) n c data

/-- As many iterations as there are bytes end the loop. -/
theorem loopFor_ends {c : MqttClient} (hs : Steady c) {n : Nat} {data : Bytes}
    (hn : data.length ≤ n) :
    (∃ text delivered, loopFor past handler n c data = .error ⟨.error text, delivered⟩) ∨
    ∃ c', loopFor past handler n c data = .ok (c', []) := by
  induction n generalizing c data with
  | zero =>
      obtain rfl : data = [] := List.eq_nil_of_length_eq_zero (by omega)
      exact .inr ⟨c, drive_stop (.inl rfl)⟩
  | succ n ih =>
      by_cases hd : data = []
      · subst hd
        exact .inr ⟨c, drive_stop (.inl rfl)⟩
      rw [loopFor, drive_go hd rfl]
      rcases handleData_takes past handler hs hd with
        ⟨text, delivered, h⟩ | ⟨c', left, h, hlt, -⟩
      · rw [h]
        exact .inl ⟨text, delivered, rfl⟩
      · rw [h]
        have hle : left.length ≤ n := by omega
        exact ih (hs.call hd h) hle

/-- More iterations change nothing. -/
theorem loopFor_eq {c : MqttClient} (hs : Steady c) {n m : Nat} {data : Bytes}
    (hn : data.length ≤ n) (hm : data.length ≤ m) :
    loopFor past handler n c data = loopFor past handler m c data := by
  induction n generalizing m c data with
  | zero =>
      obtain rfl : data = [] := List.eq_nil_of_length_eq_zero (by omega)
      exact (drive_stop (.inl rfl)).trans (drive_stop (.inl rfl)).symm
  | succ n ih =>
      by_cases hd : data = []
      · subst hd
        exact (drive_stop (.inl rfl)).trans (drive_stop (.inl rfl)).symm
      have hpos := List.length_pos_iff.mpr hd
      obtain ⟨m, rfl⟩ : ∃ k, m = k + 1 := ⟨m - 1, by omega⟩
      rw [loopFor, loopFor, drive_go hd rfl, drive_go hd rfl]
      rcases handleData_takes past handler hs hd with
        ⟨text, delivered, h⟩ | ⟨c', left, h, hlt, -⟩
      · rw [h]
        rfl
      · rw [h]
        have hln : left.length ≤ n := by omega
        have hlm : left.length ≤ m := by omega
        exact ih (hs.call hd h) hln hlm

/-- The loop of `read_await` is as long as the read at most. -/
theorem readLoop_eq_loopFor {c : MqttClient} (hs : Steady c) (data : Bytes) :
    readLoop past handler c data
      = (loopFor past handler data.length c data).map fun r => r.1 := by
  rw [loopFor_eq hs (Nat.le_refl _) (show data.length ≤ 2 * data.length + 1 by omega)]
  rfl

/-- **The read loop always makes progress.** Between two calls a message of the type
of the header is in progress exactly when the header is finished; a call fails or
leaves less than it was given, and nothing unless it finished a message and reset
the header; and the loop ends after as many iterations as there are bytes. -/
theorem handleData_progress (c : MqttClient) (hc : Reached c) :
    ((c.header.finished = false ∧ c.message = none) ∨
      (c.header.finished = true ∧ ∃ m, c.message = some m ∧ m.finished = false
        ∧ m.kind = c.header.getType)) ∧
    (∀ (past : UInt8) (handler : MessageHandler) (data : Bytes), data ≠ [] →
      (∃ text delivered, handleData past handler c data = .error ⟨.error text, delivered⟩) ∨
      ∃ c' left, handleData past handler c data = .ok (c', left)
        ∧ left.length < data.length ∧ (left ≠ [] → Finished handler c c')) ∧
    ∀ (past : UInt8) (handler : MessageHandler) (data : Bytes),
      readLoop past handler c data
          = ((loopFor past handler data.length c data).map fun r => r.1) ∧
        ((∃ text delivered, loopFor past handler data.length c data
            = .error ⟨.error text, delivered⟩) ∨
          ∃ c', loopFor past handler data.length c data = .ok (c', [])) := by
  have hs := hc.steady
  refine ⟨?_, fun past handler data hd => handleData_takes past handler hs hd,
    fun past handler data => ⟨readLoop_eq_loopFor hs data, loopFor_ends hs (Nat.le_refl _)⟩⟩
  rcases hs.inv with ⟨hf, -, hm⟩ | ⟨hf, m, hm, -, hmf⟩
  · exact .inl ⟨hf, hm⟩
  · exact .inr ⟨hf, m, hm, hmf, hs.kind_eq m hm⟩

/-- A client that has been given the beginning of a packet. -/
def given (packet : Bytes) : MqttClient :=
  ((handleData 0 none new packet).toOption.map fun r => r.1).getD new

theorem reached_given {packet : Bytes} (hd : packet ≠ [])
    (h : handleData 0 none new packet = .ok (given packet, [])) : Reached (given packet) :=
  .call 0 none .new hd h

/-- Within a PUBLISH: the rest of its topic and its payload finish it, and what comes
behind them is left. -/
theorem handleData_progress_publish :
    let c := given [0x30, 7, 0, 3, 97]
    let data : Bytes := [98, 99, 1, 2, 0xe0, 0]
    (c.header.finished = true ∧ ∃ m, c.message = some m ∧ m.finished = false ∧
        m.kind = c.header.getType) ∧
      ∃ c', handleData 0 none c data = .ok (c', [0xe0, 0]) ∧ Finished none c c' := by
  intro c data
  have hc : Reached c := reached_given (by decide) rfl
  obtain ⟨hstate, htakes, -⟩ := handleData_progress c hc
  have hopen : c.header.finished = true := by decide +kernel
  refine ⟨hstate.resolve_left fun hs => absurd (hopen.symm.trans hs.1) (by decide), ?_⟩
  rcases htakes 0 none data (by decide) with ⟨text, delivered, herr⟩ | ⟨c', left, hok, -, hfin⟩
  · have hok : (handleData 0 none c data).isOk = true := by decide +kernel
    rw [herr] at hok
    cases hok
  · have hleft : (handleData 0 none c data).toOption.map (fun r => r.2) = some [0xe0, 0] := by
      decide +kernel
    rw [hok] at hleft
    obtain rfl : left = [0xe0, 0] := Option.some.inj hleft
    exact ⟨c', hok, hfin (by decide)⟩

/-- **Assertions and stores are sound.** A call that fails returns -1 for what it
read: no assertion fails, no byte is stored outside of a buffer, and the branches
for unexpected states are not taken. -/
theorem handleData_sound (c : MqttClient) (hc : Reached c) (past : UInt8)
    (handler : MessageHandler) (data : Bytes) (hd : data ≠ []) (f : Failure)
    (h : handleData past handler c data = .error f) : f.stop.Rejects :=
  handleData_rejects hc.steady hd h

/-- Within a PUBLISH whose packet id does not fit in its length. -/
theorem handleData_sound_publish :
    ∃ f, handleData 0 none (given [0x32, 4, 0, 1, 97]) [0, 7] = .error f ∧ f.stop.Rejects := by
  have hc : Reached (given [0x32, 4, 0, 1, 97]) := reached_given (by decide) rfl
  cases h : handleData 0 none (given [0x32, 4, 0, 1, 97]) [0, 7] with
  | error f => exact ⟨f, rfl, handleData_sound _ hc 0 none [0, 7] (by decide) f h⟩
  | ok r =>
      have herr : (handleData 0 none (given [0x32, 4, 0, 1, 97]) [0, 7]).isOk = false := by
        decide +kernel
      rw [h] at herr
      cases herr

end MqttClient

end Libnio.Mqtt
