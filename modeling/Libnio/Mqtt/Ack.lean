import Libnio.Mqtt.HeaderFacts

/-!
# Mqtt — acknowledgements and messages without a body

`mqtt_ack`, the base of PUBACK, PUBREC, PUBREL, PUBCOMP and UNSUBACK;
`mqtt_connack`; and PINGREQ, PINGRESP and DISCONNECT, which have nothing to
parse.
-/

namespace Libnio.Mqtt

open Stream

/-! ## Acknowledgements with a packet id -/

structure MqttAck where
  header : MqttHeader
  pktId : UInt16
  hbuf : Vector UInt8 2
  hlen : Nat
  finished : Bool
deriving DecidableEq

namespace MqttAck

/-- `mqtt_ack(mqtt_type_t)` -/
def new (type : MqttType) : MqttAck :=
  { header := MqttHeader.new type, pktId := 0, hbuf := Vector.replicate 2 0, hlen := 0,
    finished := false }

/-- `mqtt_ack(const mqtt_header&)`, inherited by `mqtt_puback`, `mqtt_pubrec`,
`mqtt_pubcomp` and `mqtt_unsuback` -/
def ofHeader (header : MqttHeader) : MqttAck :=
  { header := header.copy, pktId := 0, hbuf := Vector.replicate 2 0, hlen := 0,
    finished := false }

/-- `mqtt_pubrel()` -/
def newPubrel : MqttAck :=
  let m := new .pubrel
  { m with header := m.header.setHeaderFlags 0x02 }

/-- `mqtt_pubrel(const mqtt_header&)` -/
def pubrelOfHeader (header : MqttHeader) : MqttAck :=
  let m := ofHeader header
  { m with header := m.header.setHeaderFlags 0x02 }

def setPktId (m : MqttAck) (id : UInt16) : MqttAck :=
  if id > 0 then { m with pktId := id } else m

/-- `bool to_string(std::string& out)` -/
def toString (m : MqttAck) (out : Bytes) : Bool × MqttAck × Bytes :=
  let header := m.header.setRemaingLength 2
  let (ok, header, out) := header.buildHeader out
  let m := { m with header }
  if !ok then (false, m, out) else (true, m, packAddShort m.pktId out)

def headerVarGuard (m : MqttAck) : Except Stop Unit :=
  if m.hlen ≥ 2 then .error (.error "invalid header var") else .ok ()

/-- `hbuf_[hlen_++] = *data++` -/
def putHbuf (m : MqttAck) (b : UInt8) : Except Stop MqttAck := do
  let hbuf ← store m.hbuf m.hlen b
  return { m with hbuf, hlen := m.hlen + 1 }

def headerVarNext (m : MqttAck) : Except Stop MqttAck :=
  match unpackShort (m.hbuf.get 0) (m.hbuf.get 1) 2 with
  | none => .error (.error "unpack pkt id error")
  | some pktId => .ok { m with pktId, finished := true }

def updateHeaderVar : Handler MqttAck :=
  field headerVarGuard (fun m => m.hlen < 2) putHbuf headerVarNext

/-- The loop of `update`. -/
def run (m : MqttAck) (data : Bytes) : Except Stop (MqttAck × Bytes) :=
  Stream.run .timeout MqttAck.finished updateHeaderVar m data

/-- `int update(const char* data, int dlen)` -/
def update (m : MqttAck) (data : Bytes) : Except Stop (MqttAck × Bytes) :=
  if data = [] then .error (.error "invalid input") else run m data

/-- The fill counter is in the range of the buffer. -/
def Inv (m : MqttAck) : Prop := m.finished = false → m.hlen < 2

theorem putHbuf_eq {m : MqttAck} (hk : m.hlen < 2) (b : UInt8) :
    putHbuf m b = .ok { m with hbuf := m.hbuf.set m.hlen b hk, hlen := m.hlen + 1 } := by
  simp [putHbuf, store_eq hk]

theorem ack_resumable : Resumable MqttAck.finished updateHeaderVar Inv (fun _ => 0) where
  rank_le := fun _ => Nat.zero_le _
  resumesAt := by
    intro m hi hf
    refine field_resumesAt headerVarGuard (fun m => m.hlen < 2) putHbuf headerVarNext
      (fun m => m.finished = false) ?_ ?_ ?_ ?_ hf (.inl (decide_eq_true (hi hf)))
    · rintro s - - data -
      rfl
    · rintro s b s' hq hm hput
      rw [putHbuf_eq (by simpa using hm)] at hput
      cases hput
      exact hq
    · rintro s hfs hm
      have hlt : s.hlen < 2 := by simpa using hm
      exact ⟨if_neg (by omega), hfs, fun _ => hlt⟩
    · rintro s s' - - hn hc
      rw [headerVarNext, unpackShort_two] at hn
      cases hn
      cases hc

/-- **The acknowledgement parser may be cut anywhere.** -/
theorem ack_lawful : Lawful MqttAck.finished run Inv := ack_resumable.lawful

theorem inv_ofHeader (header : MqttHeader) : Inv (ofHeader header) :=
  fun _ => Nat.zero_lt_two

theorem inv_pubrelOfHeader (header : MqttHeader) : Inv (pubrelOfHeader header) :=
  fun _ => Nat.zero_lt_two

theorem fills_hbuf (m : MqttAck) :
    Fills (fun m : MqttAck => m.hlen < 2) putHbuf
      (fun xs => { m with hbuf := fill m.hbuf xs, hlen := xs.length }) 2 :=
  .of_store (f := fun hbuf hlen => { m with hbuf, hlen }) (Nat.le_refl 2) (fun _ _ _ => rfl)
    (fun _ _ b hk => putHbuf_eq hk b) m.hbuf

/-- The run over a packet id. -/
theorem run_two {m : MqttAck} (hl : m.hlen = 0) (hf : m.finished = false)
    (hi lo : UInt8) (rest : Bytes) :
    run m ([hi, lo] ++ rest)
      = .ok ({ m with hbuf := fill m.hbuf [hi, lo], hlen := 2,
                      pktId := UInt16.ofNat (short hi lo), finished := true }, rest) := by
  have hrun := (fills_hbuf m).run_all .timeout headerVarGuard headerVarNext (s := m)
    (by simp [← hl]) ack_resumable (fun _ => by omega) hf (fun _ _ => rfl)
    (if_neg (by omega)) (show [hi, lo].length = 2 from rfl)
    Nat.zero_lt_two rest
  simp only [headerVarNext, unpackShort_fill m.hbuf 0 1 rfl rfl, ok_bind] at hrun
  exact hrun.trans (run_stop (.inr rfl))

end MqttAck

/-! ## CONNACK -/

structure MqttConnack where
  header : MqttHeader
  dlen : Nat
  buff : Vector UInt8 2
  connFlags : UInt8
  connackCode : UInt8
  session : Bool
  finished : Bool
deriving DecidableEq

namespace MqttConnack

/-- `mqtt_connack()` -/
def new : MqttConnack :=
  { header := MqttHeader.new .connack, dlen := 0, buff := Vector.replicate 2 0,
    connFlags := 0, connackCode := 0, session := false, finished := false }

/-- `mqtt_connack(const mqtt_header&)` -/
def ofHeader (header : MqttHeader) : MqttConnack :=
  { header := header.copy, dlen := 0, buff := Vector.replicate 2 0, connFlags := 0,
    connackCode := 0, session := false, finished := false }

def setSession (m : MqttConnack) (on : Bool) : MqttConnack :=
  { m with session := on, connFlags := if on then 0x01 else 0x00 }

def setConnackCode (m : MqttConnack) (code : UInt8) : MqttConnack :=
  { m with connackCode := code }

/-- `bool to_string(std::string& out)` -/
def toString (m : MqttConnack) (out : Bytes) : Bool × MqttConnack × Bytes :=
  let header := m.header.setRemaingLength 2
  let (ok, header, out) := header.buildHeader out
  let m := { m with header }
  if !ok then (false, m, out)
  else (true, m, packAddChar m.connackCode (packAddChar m.connFlags out))

def headerVarGuard (m : MqttConnack) : Except Stop Unit :=
  if m.dlen ≥ 2 then .error (.error "invalid header var") else .ok ()

/-- `buff_[dlen_++] = *data++` -/
def putBuff (m : MqttConnack) (b : UInt8) : Except Stop MqttConnack := do
  let buff ← store m.buff m.dlen b
  return { m with buff, dlen := m.dlen + 1 }

/-- `session_` is left as it was constructed. -/
def headerVarNext (m : MqttConnack) : Except Stop MqttConnack :=
  .ok { m with connFlags := m.buff.get 0, connackCode := m.buff.get 1, finished := true }

def updateHeaderVar : Handler MqttConnack :=
  field headerVarGuard (fun m => m.dlen < 2) putBuff headerVarNext

/-- The loop of `update`. -/
def run (m : MqttConnack) (data : Bytes) : Except Stop (MqttConnack × Bytes) :=
  Stream.run .timeout MqttConnack.finished updateHeaderVar m data

/-- `int update(const char* data, int dlen)` -/
def update (m : MqttConnack) (data : Bytes) : Except Stop (MqttConnack × Bytes) :=
  if data = [] then .error (.error "invalid input") else run m data

/-- The fill counter is in the range of the buffer. -/
def Inv (m : MqttConnack) : Prop := m.finished = false → m.dlen < 2

theorem putBuff_eq {m : MqttConnack} (hk : m.dlen < 2) (b : UInt8) :
    putBuff m b = .ok { m with buff := m.buff.set m.dlen b hk, dlen := m.dlen + 1 } := by
  simp [putBuff, store_eq hk]

theorem connack_resumable :
    Resumable MqttConnack.finished updateHeaderVar Inv (fun _ => 0) where
  rank_le := fun _ => Nat.zero_le _
  resumesAt := by
    intro m hi hf
    refine field_resumesAt headerVarGuard (fun m => m.dlen < 2) putBuff headerVarNext
      (fun m => m.finished = false) ?_ ?_ ?_ ?_ hf (.inl (decide_eq_true (hi hf)))
    · rintro s - - data -
      rfl
    · rintro s b s' hq hm hput
      rw [putBuff_eq (by simpa using hm)] at hput
      cases hput
      exact hq
    · rintro s hfs hm
      have hlt : s.dlen < 2 := by simpa using hm
      exact ⟨if_neg (by omega), hfs, fun _ => hlt⟩
    · rintro s s' - - hn hc
      cases hn
      cases hc

/-- **The CONNACK parser may be cut anywhere.** -/
theorem connack_lawful : Lawful MqttConnack.finished run Inv := connack_resumable.lawful

theorem inv_ofHeader (header : MqttHeader) : Inv (ofHeader header) :=
  fun _ => Nat.zero_lt_two

theorem fills_buff (m : MqttConnack) :
    Fills (fun m : MqttConnack => m.dlen < 2) putBuff
      (fun xs => { m with buff := fill m.buff xs, dlen := xs.length }) 2 :=
  .of_store (f := fun buff dlen => { m with buff, dlen }) (Nat.le_refl 2) (fun _ _ _ => rfl)
    (fun _ _ b hk => putBuff_eq hk b) m.buff

/-- The run over flags and code. -/
theorem run_two (header : MqttHeader) (flags code : UInt8) (rest : Bytes) :
    run (ofHeader header) ([flags, code] ++ rest)
      = .ok ({ ofHeader header with
                buff := fill (ofHeader header).buff [flags, code], dlen := 2,
                connFlags := flags, connackCode := code, finished := true }, rest) := by
  have hrun := (fills_buff (ofHeader header)).run_all .timeout headerVarGuard headerVarNext
    (s := ofHeader header) (by simp [ofHeader]) connack_resumable (inv_ofHeader header) rfl
    (fun _ _ => rfl) rfl (show [flags, code].length = 2 from rfl)
    Nat.zero_lt_two rest
  have h0 : (0 : Fin 2).val < [flags, code].length := by simp
  have h1 : (1 : Fin 2).val < [flags, code].length := by simp
  simp only [headerVarNext, get_fill _ _ h0, get_fill _ _ h1, ok_bind] at hrun
  exact hrun.trans (run_stop (.inr rfl))

end MqttConnack

/-! ## Messages without a body -/

/-- `mqtt_pingreq`, `mqtt_pingresp`, `mqtt_disconnect` -/
structure MqttBare where
  header : MqttHeader
deriving DecidableEq

namespace MqttBare

/-- `mqtt_pingreq()`, `mqtt_pingresp()`, `mqtt_disconnect()` -/
def new (type : MqttType) : MqttBare := { header := MqttHeader.new type }

/-- `mqtt_pingreq(const mqtt_header&)` and the two like it -/
def ofHeader (header : MqttHeader) : MqttBare := { header := header.copy }

/-- `bool to_string(std::string& out)` -/
def toString (m : MqttBare) (out : Bytes) : Bool × MqttBare × Bytes :=
  let header := m.header.setRemaingLength 0
  let (ok, header, out) := header.buildHeader out
  (ok, { m with header }, out)

/-- `bool finished() const { return true; }` -/
def finished (_ : MqttBare) : Bool := true

/-- `int update(const char*, int dlen) { return dlen; }` -/
def update (m : MqttBare) (data : Bytes) : Except Stop (MqttBare × Bytes) :=
  .ok (m, data)

theorem bare_lawful : Lawful MqttBare.finished update (fun _ => True) := by
  intro m _
  refine ⟨fun _ => rfl, fun _ => trivial, fun _ => .inr rfl, ?_, ?_, fun xs ys => rfl⟩
  · intro s' data rest h
    cases h
    exact List.suffix_refl data
  · intro s' data rest hf
    cases hf

end MqttBare

end Libnio.Mqtt
