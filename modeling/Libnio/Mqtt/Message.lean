import Libnio.Mqtt.Connect
import Libnio.Mqtt.Unsubscribe
import Libnio.Mqtt.Suback
import Libnio.Mqtt.Ack

/-!
# Mqtt — messages of any type

`mqtt_message` with its virtual functions, as a sum over its subclasses, and
`create_message`.
-/

namespace Libnio.Mqtt

open Stream

inductive MqttMessage where
  | connect (m : MqttConnect)
  | connack (m : MqttConnack)
  | publish (m : MqttPublish)
  | puback (m : MqttAck)
  | pubrec (m : MqttAck)
  | pubrel (m : MqttAck)
  | pubcomp (m : MqttAck)
  | subscribe (m : MqttSubscribe)
  | suback (m : MqttSuback)
  | unsubscribe (m : MqttUnsubscribe)
  | unsuback (m : MqttAck)
  | pingreq (m : MqttBare)
  | pingresp (m : MqttBare)
  | disconnect (m : MqttBare)
deriving DecidableEq

namespace MqttMessage

/-- `mqtt_message::create_message(const mqtt_header&)`; `past` is the byte of
memory after the buffer of an `mqtt_connect`. -/
def createMessage (past : UInt8) (header : MqttHeader) : Option MqttMessage :=
  match header.getType with
  | .connect => some (connect (.ofHeader past header))
  | .connack => some (connack (.ofHeader header))
  | .publish => some (publish (.ofHeader header))
  | .puback => some (puback (.ofHeader header))
  | .pubrec => some (pubrec (.ofHeader header))
  | .pubrel => some (pubrel (.pubrelOfHeader header))
  | .pubcomp => some (pubcomp (.ofHeader header))
  | .subscribe => some (subscribe (.ofHeader header))
  | .suback => some (suback (.ofHeader header))
  | .unsubscribe => some (unsubscribe (.ofHeader header))
  | .unsuback => some (unsuback (.ofHeader header))
  | .pingreq => some (pingreq (.ofHeader header))
  | .pingresp => some (pingresp (.ofHeader header))
  | .disconnect => some (disconnect (.ofHeader header))
  | .reservedMin | .reservedMax => none

/-- A result of a subclass, as a result of the message. -/
def lift {σ : Type} (e : σ → MqttMessage) (r : Except Stop (σ × Bytes)) :
    Except Stop (MqttMessage × Bytes) :=
  r.map fun p => (e p.1, p.2)

/-- `virtual int update(const char* data, int dlen)` -/
def update (m : MqttMessage) (data : Bytes) : Except Stop (MqttMessage × Bytes) :=
  match m with
  | connect m => lift connect (m.update data)
  | connack m => lift connack (m.update data)
  | publish m => lift publish (m.update data)
  | puback m => lift puback (m.update data)
  | pubrec m => lift pubrec (m.update data)
  | pubrel m => lift pubrel (m.update data)
  | pubcomp m => lift pubcomp (m.update data)
  | subscribe m => lift subscribe (m.update data)
  | suback m => lift suback (m.update data)
  | unsubscribe m => lift unsubscribe (m.update data)
  | unsuback m => lift unsuback (m.update data)
  | pingreq m => lift pingreq (m.update data)
  | pingresp m => lift pingresp (m.update data)
  | disconnect m => lift disconnect (m.update data)

/-- `virtual bool finished() const` -/
def finished : MqttMessage → Bool
  | connect m => m.finished
  | connack m => m.finished
  | publish m => m.finished
  | puback m => m.finished
  | pubrec m => m.finished
  | pubrel m => m.finished
  | pubcomp m => m.finished
  | subscribe m => m.finished
  | suback m => m.finished
  | unsubscribe m => m.finished
  | unsuback m => m.finished
  | pingreq m => m.finished
  | pingresp m => m.finished
  | disconnect m => m.finished

/-- `get_header()` -/
def getHeader : MqttMessage → MqttHeader
  | connect m => m.header
  | connack m => m.header
  | publish m => m.header
  | puback m => m.header
  | pubrec m => m.header
  | pubrel m => m.header
  | pubcomp m => m.header
  | subscribe m => m.header
  | suback m => m.header
  | unsubscribe m => m.header
  | unsuback m => m.header
  | pingreq m => m.header
  | pingresp m => m.header
  | disconnect m => m.header

/-- What the `to_string` of a subclass leaves, as that of the message. -/
def written {σ : Type} (e : σ → MqttMessage) (r : Bool × σ × Bytes) : Bool × MqttMessage × Bytes :=
  (r.1, e r.2.1, r.2.2)

/-- `virtual bool to_string(std::string& out)` -/
def toString (m : MqttMessage) (out : Bytes) : Except Stop (Bool × MqttMessage × Bytes) :=
  match m with
  | connect m => .ok (written connect (m.toString out))
  | connack m => .ok (written connack (m.toString out))
  | publish m => (m.toString out).map (written publish)
  | puback m => .ok (written puback (m.toString out))
  | pubrec m => .ok (written pubrec (m.toString out))
  | pubrel m => .ok (written pubrel (m.toString out))
  | pubcomp m => .ok (written pubcomp (m.toString out))
  | subscribe m => .ok (written subscribe (m.toString out))
  | suback m => .ok (written suback (m.toString out))
  | unsubscribe m => .ok (written unsubscribe (m.toString out))
  | unsuback m => .ok (written unsuback (m.toString out))
  | pingreq m => .ok (written pingreq (m.toString out))
  | pingresp m => .ok (written pingresp (m.toString out))
  | disconnect m => .ok (written disconnect (m.toString out))

/-! ## Every message parser may be cut anywhere -/

/-- The loop of `update`, of whichever subclass. -/
def run (m : MqttMessage) (data : Bytes) : Except Stop (MqttMessage × Bytes) :=
  match m with
  | connect m => lift connect (m.run data)
  | connack m => lift connack (m.run data)
  | publish m => lift publish (m.run data)
  | puback m => lift puback (m.run data)
  | pubrec m => lift pubrec (m.run data)
  | pubrel m => lift pubrel (m.run data)
  | pubcomp m => lift pubcomp (m.run data)
  | subscribe m => lift subscribe (m.run data)
  | suback m => lift suback (m.run data)
  | unsubscribe m => lift unsubscribe (m.run data)
  | unsuback m => lift unsuback (m.run data)
  | pingreq m => lift pingreq (m.update data)
  | pingresp m => lift pingresp (m.update data)
  | disconnect m => lift disconnect (m.update data)

def Inv : MqttMessage → Prop
  | connect m => m.Inv
  | connack m => m.Inv
  | publish m => m.Inv
  | puback m => m.Inv
  | pubrec m => m.Inv
  | pubrel m => m.Inv
  | pubcomp m => m.Inv
  | subscribe m => m.Inv
  | suback m => m.Inv
  | unsubscribe m => m.Inv
  | unsuback m => m.Inv
  | pingreq _ => True
  | pingresp _ => True
  | disconnect _ => True

theorem update_eq_run (m : MqttMessage) {data : Bytes} (hd : data ≠ []) :
    m.update data = m.run data := by
  cases m <;> simp only [update, run]
  case connect m => rw [MqttConnect.update, if_neg hd]
  case connack m => rw [MqttConnack.update, if_neg hd]
  case publish m => rw [MqttPublish.update, if_neg hd]
  case subscribe m => rw [MqttSubscribe.update, if_neg hd]
  case suback m => rw [MqttSuback.update, if_neg hd]
  case unsubscribe m => rw [MqttUnsubscribe.update, if_neg hd]
  case puback m => rw [MqttAck.update, if_neg hd]
  case pubrec m => rw [MqttAck.update, if_neg hd]
  case pubrel m => rw [MqttAck.update, if_neg hd]
  case pubcomp m => rw [MqttAck.update, if_neg hd]
  case unsuback m => rw [MqttAck.update, if_neg hd]

/-- A subclass under its constructor. -/
private theorem lawfulAt {σ : Type} {fin : σ → Bool}
    {runOf : σ → Bytes → Except Stop (σ × Bytes)} {InvOf : σ → Prop}
    (hl : Lawful fin runOf InvOf) (e : σ → MqttMessage)
    (hf : ∀ s, finished (e s) = fin s) (hr : ∀ s d, run (e s) d = lift e (runOf s d))
    (hi : ∀ s, Inv (e s) ↔ InvOf s) {s : σ} (h : Inv (e s)) :
    LawfulAt finished run Inv (e s) :=
  .map e hf hr (fun s => (hi s).mpr) (hl s ((hi s).mp h))

/-- **Every message parser may be cut anywhere.** -/
theorem message_lawful : Lawful finished run Inv := by
  intro m h
  cases m with
  | connect m =>
      exact lawfulAt MqttConnect.connect_lawful connect (fun _ => rfl) (fun _ _ => rfl)
        (fun _ => Iff.rfl) h
  | connack m =>
      exact lawfulAt MqttConnack.connack_lawful connack (fun _ => rfl) (fun _ _ => rfl)
        (fun _ => Iff.rfl) h
  | publish m =>
      exact lawfulAt MqttPublish.publish_lawful publish (fun _ => rfl) (fun _ _ => rfl)
        (fun _ => Iff.rfl) h
  | puback m =>
      exact lawfulAt MqttAck.ack_lawful puback (fun _ => rfl) (fun _ _ => rfl)
        (fun _ => Iff.rfl) h
  | pubrec m =>
      exact lawfulAt MqttAck.ack_lawful pubrec (fun _ => rfl) (fun _ _ => rfl)
        (fun _ => Iff.rfl) h
  | pubrel m =>
      exact lawfulAt MqttAck.ack_lawful pubrel (fun _ => rfl) (fun _ _ => rfl)
        (fun _ => Iff.rfl) h
  | pubcomp m =>
      exact lawfulAt MqttAck.ack_lawful pubcomp (fun _ => rfl) (fun _ _ => rfl)
        (fun _ => Iff.rfl) h
  | subscribe m =>
      exact lawfulAt MqttSubscribe.subscribe_lawful subscribe (fun _ => rfl)
        (fun _ _ => rfl) (fun _ => Iff.rfl) h
  | suback m =>
      exact lawfulAt MqttSuback.suback_lawful suback (fun _ => rfl) (fun _ _ => rfl)
        (fun _ => Iff.rfl) h
  | unsubscribe m =>
      exact lawfulAt MqttUnsubscribe.unsubscribe_lawful unsubscribe (fun _ => rfl)
        (fun _ _ => rfl) (fun _ => Iff.rfl) h
  | unsuback m =>
      exact lawfulAt MqttAck.ack_lawful unsuback (fun _ => rfl) (fun _ _ => rfl)
        (fun _ => Iff.rfl) h
  | pingreq m =>
      exact lawfulAt MqttBare.bare_lawful pingreq (fun _ => rfl) (fun _ _ => rfl)
        (fun _ => Iff.rfl) h
  | pingresp m =>
      exact lawfulAt MqttBare.bare_lawful pingresp (fun _ => rfl) (fun _ _ => rfl)
        (fun _ => Iff.rfl) h
  | disconnect m =>
      exact lawfulAt MqttBare.bare_lawful disconnect (fun _ => rfl) (fun _ _ => rfl)
        (fun _ => Iff.rfl) h

theorem inv_createMessage {past : UInt8} {header : MqttHeader} {m : MqttMessage}
    (h : createMessage past header = some m) : m.Inv := by
  unfold createMessage at h
  split at h <;> cases h
  case h_1 => exact MqttConnect.inv_ofHeader past header
  case h_2 => exact MqttConnack.inv_ofHeader header
  case h_3 => exact MqttPublish.inv_ofHeader header
  case h_6 => exact MqttAck.inv_pubrelOfHeader header
  case h_8 => exact MqttSubscribe.inv_ofHeader header
  case h_9 => exact MqttSuback.inv_ofHeader header
  case h_10 => exact MqttUnsubscribe.inv_ofHeader header
  all_goals first | exact MqttAck.inv_ofHeader header | trivial

end MqttMessage

end Libnio.Mqtt
