import Libnio.Mqtt.Publish

/-!
# Mqtt — CONNECT

`mqtt_connect`: its setters, `toString`, and the eleven parsing handlers.
The source's macros `SAVE_LENGTH` and `SAVE_DATA` are `saveLength` and
`saveData`.
-/

namespace Libnio.Mqtt

open Stream

/-- `MQTT_STAT_HDR_VAR` .. `MQTT_STAT_WILL_MSG_VAL` -/
inductive ConnectStatus where
  | hdrVar | cidLen | cidVal | usernameLen | usernameVal | passwdLen | passwdVal
  | willTopicLen | willTopicVal | willMsgLen | willMsgVal
deriving DecidableEq, Repr

structure MqttConnect where
  header : MqttHeader
  status : ConnectStatus
  finished : Bool
  buff : Vector UInt8 10
  /-- The byte of memory after `buff_`. -/
  past : UInt8
  dlen : Nat
  willQos : MqttQos
  connFlags : UInt8
  keepAlive : UInt16
  cid : Bytes
  username : Bytes
  passwd : Bytes
  willTopic : Bytes
  willMsg : Bytes
deriving DecidableEq

namespace MqttConnect

/-- `mqtt_connect()` -/
def new (past : UInt8) : MqttConnect :=
  { header := MqttHeader.new .connect, status := .hdrVar, finished := false,
    buff := Vector.replicate 10 0, past, dlen := 0, willQos := .qos0, connFlags := 0,
    keepAlive := 300, cid := [], username := [], passwd := [], willTopic := [],
    willMsg := [] }

/-- `mqtt_connect(const mqtt_header&)` -/
def ofHeader (past : UInt8) (header : MqttHeader) : MqttConnect :=
  { header := header.copy, status := .hdrVar, finished := false,
    buff := Vector.replicate 10 0, past, dlen := 0, willQos := .qos0, connFlags := 0,
    keepAlive := 300, cid := [], username := [], passwd := [], willTopic := [],
    willMsg := [] }

def setKeepAlive (m : MqttConnect) (keepAlive : UInt16) : MqttConnect :=
  { m with keepAlive }

/-- `if (s && *s) { field = s; }`: NULL and the empty string are ignored. -/
def assignUnlessEmpty (s : Option Bytes) (old : Bytes) : Bytes :=
  match s with
  | some p => if cString p = [] then old else cString p
  | none => old

def setCid (m : MqttConnect) (cid : Option Bytes) : MqttConnect :=
  { m with cid := assignUnlessEmpty cid m.cid }

def setUsername (m : MqttConnect) (name : Option Bytes) : MqttConnect :=
  { m with username := assignUnlessEmpty name m.username }

def setPasswd (m : MqttConnect) (passwd : Option Bytes) : MqttConnect :=
  { m with passwd := assignUnlessEmpty passwd m.passwd }

/-- `1 << i` -/
def bit (i : UInt8) : UInt8 := 1 <<< i

def setWillQos (m : MqttConnect) (qos : MqttQos) : MqttConnect :=
  let m : MqttConnect := { m with willQos := qos }
  match qos with
  | .qos0 => { m with connFlags := m.connFlags &&& ~~~(bit 4 ||| bit 3) }
  | .qos1 => { m with connFlags := (m.connFlags &&& ~~~(bit 4)) ||| bit 3 }
  | .qos2 => { m with connFlags := (m.connFlags &&& ~~~(bit 3)) ||| bit 4 }

def setWillTopic (m : MqttConnect) (topic : Option Bytes) : MqttConnect :=
  { m with willTopic := assignUnlessEmpty topic m.willTopic }

def setWillMsg (m : MqttConnect) (msg : Option Bytes) : MqttConnect :=
  { m with willMsg := assignUnlessEmpty msg m.willMsg }

def cleanSession (m : MqttConnect) : MqttConnect :=
  { m with connFlags := m.connFlags ||| 0x02 }

def hasSession (m : MqttConnect) : Bool := m.connFlags &&& 0x02 ≠ 0

/-- `bool to_string(std::string& out)` -/
def toString (m : MqttConnect) (out : Bytes) : Bool × MqttConnect × Bytes :=
  let len : UInt32 := 10
  let len := len + 2
  let len := len + UInt32.ofNat m.cid.length
  let (m, len) :=
    if m.username ≠ [] then
      ({ m with connFlags := m.connFlags ||| bit 7 },
        len + 2 + UInt32.ofNat m.username.length)
    else (m, len)
  let (m, len) :=
    if m.passwd ≠ [] then
      ({ m with connFlags := m.connFlags ||| bit 6 },
        len + 2 + UInt32.ofNat m.passwd.length)
    else (m, len)
  let (m, len) :=
    if m.willTopic ≠ [] ∧ m.willMsg ≠ [] then
      ({ m with connFlags := m.connFlags ||| bit 2 },
        len + 2 + UInt32.ofNat m.willTopic.length + 2 + UInt32.ofNat m.willMsg.length)
    else ({ m with willTopic := [], willMsg := [] }, len)
  let header := m.header.setRemaingLength len
  let (ok, header, out) := header.buildHeader out
  let m := { m with header }
  if !ok then (false, m, out)
  else
    let out := packAddChar 0 out
    let out := packAddChar 0x04 out
    let out := packAddChar 0x4d out  -- 'M'
    let out := packAddChar 0x51 out  -- 'Q'
    let out := packAddChar 0x54 out  -- 'T'
    let out := packAddChar 0x54 out  -- 'T'
    let out := packAddChar 0x04 out
    let out := packAddChar m.connFlags out
    let out := packAddShort m.keepAlive out
    let out := packAddString m.cid out
    let out :=
      if m.willTopic ≠ [] ∧ m.willMsg ≠ [] then
        packAddString m.willMsg (packAddString m.willTopic out)
      else out
    let out := if m.username ≠ [] then packAddString m.username out else out
    let out := if m.passwd ≠ [] then packAddString m.passwd out else out
    (true, m, out)

/-! ## Parsing -/

/-- `buff_[dlen_++] = *data++` -/
def putBuff (m : MqttConnect) (b : UInt8) : Except Stop MqttConnect := do
  let buff ← store m.buff m.dlen b
  return { m with buff, dlen := m.dlen + 1 }

def headerVarGuard (m : MqttConnect) : Except Stop Unit :=
  if m.dlen ≥ 10 then .error (.error "invalid header var") else .ok ()

/-- The label `buff_[2..6)` is only warned about. The keep-alive is unpacked
from `buff_[9]` and the byte after the buffer. -/
def headerVarNext (m : MqttConnect) : Except Stop MqttConnect :=
  let m := { m with connFlags := m.buff.get 7 }
  match unpackShort (m.buff.get 9) m.past 2 with
  | none => .error (.error "unpack keep_alive error")
  | some keepAlive => .ok { m with keepAlive, dlen := 0, status := .cidLen }

def updateHeaderVar : Handler MqttConnect :=
  field headerVarGuard (fun m => m.dlen < 10) putBuff headerVarNext

/-- What `SAVE_LENGTH` does with its two bytes; `go` chooses the next status. -/
def saveLengthNext (go : MqttConnect → MqttConnect) (m : MqttConnect) :
    Except Stop MqttConnect :=
  match unpackShort (m.buff.get 0) (m.buff.get 1) 2 with
  | none => .error (.error "unpack cid len error")
  | some n => .ok (go { m with dlen := n.toNat })

/-- `SAVE_LENGTH(dlen_)` and the choice of the next status -/
def saveLength (go : MqttConnect → MqttConnect) : Handler MqttConnect :=
  field (fun _ => .ok ()) (fun m => m.dlen < 2) putBuff (saveLengthNext go)

def saveDataGuard (m : MqttConnect) : Except Stop Unit :=
  if m.dlen ≤ 0 then .error (.error "invalid dlen_") else .ok ()

/-- `buff += *data++; --dlen_;`, where `add` appends to the field. -/
def putData (add : MqttConnect → UInt8 → MqttConnect) (m : MqttConnect) (b : UInt8) :
    Except Stop MqttConnect :=
  .ok { add m b with dlen := m.dlen - 1 }

/-- `SAVE_DATA(buff)` and the choice of the next status -/
def saveData (add : MqttConnect → UInt8 → MqttConnect) (go : MqttConnect → MqttConnect) :
    Handler MqttConnect :=
  field saveDataGuard (fun m => m.dlen > 0) (putData add) (fun m => .ok (go m))

/-- `if ((conn_flags_ & 0x40)) .. else finished_ = true;` -/
def goPasswd (m : MqttConnect) : MqttConnect :=
  if m.connFlags &&& 0x40 ≠ 0 then { m with status := .passwdLen }
  else { m with finished := true }

/-- `if ((conn_flags_ & 0x80)) ..` and the tests after it -/
def goUsername (m : MqttConnect) : MqttConnect :=
  if m.connFlags &&& 0x80 ≠ 0 then { m with status := .usernameLen } else goPasswd m

/-- `if ((conn_flags_ & 0x04)) ..` and the tests after it -/
def goWill (m : MqttConnect) : MqttConnect :=
  if m.connFlags &&& 0x04 ≠ 0 then { m with status := .willTopicLen } else goUsername m

/-- `if (dlen_ > 0) { status_ = st; } else ..` -/
def goVal (st : ConnectStatus) (go : MqttConnect → MqttConnect) (m : MqttConnect) :
    MqttConnect :=
  if m.dlen > 0 then { m with status := st } else go m

def addCid (m : MqttConnect) (b : UInt8) : MqttConnect := { m with cid := m.cid ++ [b] }

def addUsername (m : MqttConnect) (b : UInt8) : MqttConnect :=
  { m with username := m.username ++ [b] }

def addPasswd (m : MqttConnect) (b : UInt8) : MqttConnect :=
  { m with passwd := m.passwd ++ [b] }

def addWillTopic (m : MqttConnect) (b : UInt8) : MqttConnect :=
  { m with willTopic := m.willTopic ++ [b] }

def addWillMsg (m : MqttConnect) (b : UInt8) : MqttConnect :=
  { m with willMsg := m.willMsg ++ [b] }

def updateCidLen : Handler MqttConnect := saveLength (goVal .cidVal goWill)

def updateCidVal : Handler MqttConnect := saveData addCid goWill

/-- No test of the length: an empty will topic fails in the next handler. -/
def updateWillTopicLen : Handler MqttConnect :=
  saveLength fun m => { m with status := .willTopicVal }

def updateWillTopicVal : Handler MqttConnect :=
  saveData addWillTopic fun m => { m with status := .willMsgLen }

def updateWillMsgLen : Handler MqttConnect := saveLength (goVal .willMsgVal goUsername)

def updateWillMsgVal : Handler MqttConnect := saveData addWillMsg goUsername

def updateUsernameLen : Handler MqttConnect := saveLength (goVal .usernameVal goPasswd)

def updateUsernameVal : Handler MqttConnect := saveData addUsername goPasswd

def updatePasswdLen : Handler MqttConnect :=
  saveLength (goVal .passwdVal fun m => { m with finished := true })

def updatePasswdVal : Handler MqttConnect :=
  saveData addPasswd fun m => { m with finished := true }

def handlers (m : MqttConnect) (data : Bytes) : Except Stop (MqttConnect × Bytes) :=
  match m.status with
  | .hdrVar => updateHeaderVar m data
  | .cidLen => updateCidLen m data
  | .cidVal => updateCidVal m data
  | .usernameLen => updateUsernameLen m data
  | .usernameVal => updateUsernameVal m data
  | .passwdLen => updatePasswdLen m data
  | .passwdVal => updatePasswdVal m data
  | .willTopicLen => updateWillTopicLen m data
  | .willTopicVal => updateWillTopicVal m data
  | .willMsgLen => updateWillMsgLen m data
  | .willMsgVal => updateWillMsgVal m data

/-- The loop of `update`. -/
def run (m : MqttConnect) (data : Bytes) : Except Stop (MqttConnect × Bytes) :=
  Stream.run .timeout MqttConnect.finished handlers m data

/-- `int update(const char* data, int dlen)` -/
def update (m : MqttConnect) (data : Bytes) : Except Stop (MqttConnect × Bytes) :=
  if data = [] then .error (.error "invalid input") else run m data

/-! ## The parser may be cut anywhere -/

/-- The fill counter is in the range its handler relies on. -/
def Inv (m : MqttConnect) : Prop :=
  m.finished = false → match m.status with
    | .hdrVar => m.dlen < 10
    | .cidLen | .usernameLen | .passwdLen | .willTopicLen | .willMsgLen => m.dlen < 2
    | .cidVal | .usernameVal | .passwdVal | .willMsgVal => m.dlen > 0
    | .willTopicVal => True

theorem putBuff_eq {m : MqttConnect} (hk : m.dlen < 10) (b : UInt8) :
    putBuff m b = .ok { m with buff := m.buff.set m.dlen b hk, dlen := m.dlen + 1 } := by
  simp [putBuff, store_eq hk]

theorem inv_goPasswd {m : MqttConnect} (h : m.dlen < 2) : Inv (goPasswd m) := by
  unfold goPasswd
  split
  · exact fun _ => h
  · intro hf
    cases hf

theorem inv_goUsername {m : MqttConnect} (h : m.dlen < 2) : Inv (goUsername m) := by
  unfold goUsername
  split
  · exact fun _ => h
  · exact inv_goPasswd h

theorem inv_goWill {m : MqttConnect} (h : m.dlen < 2) : Inv (goWill m) := by
  unfold goWill
  split
  · exact fun _ => h
  · exact inv_goUsername h

theorem inv_goVal {st : ConnectStatus} {go : MqttConnect → MqttConnect}
    (hst : ∀ m : MqttConnect, m.dlen > 0 → Inv { m with status := st })
    (hgo : ∀ m : MqttConnect, m.dlen < 2 → Inv (go m)) (m : MqttConnect) :
    Inv (goVal st go m) := by
  unfold goVal
  split
  · rename_i h
    exact hst m h
  · exact hgo m (by omega)

/-- The five length handlers. -/
theorem saveLength_resumesAt {st : ConnectStatus} (go : MqttConnect → MqttConnect)
    {m : MqttConnect} (hst : m.status = st) (hf : m.finished = false)
    (hlt : m.dlen < 2)
    (hh : ∀ m : MqttConnect, m.status = st → handlers m = saveLength go m)
    (hi : ∀ m : MqttConnect, m.status = st → m.dlen < 2 → Inv m)
    (hgo : ∀ m, Inv (go m)) :
    ResumesAt MqttConnect.finished handlers Inv (fun _ => 0) m := by
  refine field_resumesAt (fun _ => .ok ()) (fun m => m.dlen < 2) putBuff
    (saveLengthNext go) (fun m => m.status = st ∧ m.finished = false)
    ?_ ?_ ?_ ?_ ⟨hst, hf⟩ (.inl (decide_eq_true hlt))
  · rintro s ⟨hs, -⟩ - data -
    rw [hh s hs]
    rfl
  · rintro s b s' hq hm hput
    have h2 : s.dlen < 2 := by simpa using hm
    rw [putBuff_eq (by omega)] at hput
    cases hput
    exact hq
  · rintro s ⟨hs, hfs⟩ hm
    exact ⟨rfl, hfs, hi s hs (by simpa using hm)⟩
  · rintro s s' - - hn
    rw [saveLengthNext, unpackShort_two] at hn
    cases hn
    exact hgo _

/-- The five value handlers. -/
theorem saveData_resumesAt {st : ConnectStatus} (add : MqttConnect → UInt8 → MqttConnect)
    (go : MqttConnect → MqttConnect) {m : MqttConnect} (hst : m.status = st)
    (hf : m.finished = false)
    (hh : ∀ m : MqttConnect, m.status = st → handlers m = saveData add go m)
    (hi : ∀ m : MqttConnect, m.status = st → m.dlen > 0 → Inv m)
    (hadd : ∀ m b, (add m b).status = m.status ∧ (add m b).finished = m.finished)
    (hgo : ∀ m : MqttConnect, m.dlen < 2 → Inv (go m)) :
    ResumesAt MqttConnect.finished handlers Inv (fun _ => 0) m := by
  refine field_resumesAt saveDataGuard (fun m => m.dlen > 0) (putData add)
    (fun m => .ok (go m)) (fun m => m.status = st ∧ m.finished = false)
    ?_ ?_ ?_ ?_ ⟨hst, hf⟩ ?_
  · rintro s ⟨hs, -⟩ - data -
    rw [hh s hs]
    rfl
  · rintro s b s' ⟨hs, hfs⟩ - hput
    cases hput
    exact ⟨(hadd s b).1.trans hs, (hadd s b).2.trans hfs⟩
  · rintro s ⟨hs, hfs⟩ hm
    have hpos : s.dlen > 0 := by simpa using hm
    exact ⟨if_neg (by omega), hfs, hi s hs hpos⟩
  · rintro s s' - hm hn
    cases hn
    have h0 : ¬ s.dlen > 0 := by simpa using hm
    exact hgo s (by omega)
  · by_cases h0 : m.dlen > 0
    · exact .inl (decide_eq_true h0)
    · exact .inr ⟨_, if_pos (by omega)⟩

theorem connect_resumable :
    Resumable MqttConnect.finished handlers Inv (fun _ => 0) where
  rank_le := fun _ => Nat.zero_le _
  resumesAt := by
    intro m hi hf
    have hi' := hi hf
    have hfin : ∀ m : MqttConnect, Inv { m with finished := true } := by
      intro m hc
      cases hc
    cases hst : m.status <;> rw [hst] at hi'
    case hdrVar =>
      refine field_resumesAt headerVarGuard (fun m => m.dlen < 10) putBuff headerVarNext
        (fun m => m.status = .hdrVar ∧ m.finished = false)
        ?_ ?_ ?_ ?_ ⟨hst, hf⟩ (.inl (decide_eq_true hi'))
      · rintro s ⟨hs, -⟩ - data -
        simp only [handlers, hs]
        rfl
      · rintro s b s' hq hm hput
        rw [putBuff_eq (by simpa using hm)] at hput
        cases hput
        exact hq
      · rintro s ⟨hs, hfs⟩ hm
        have hlt : s.dlen < 10 := by simpa using hm
        refine ⟨if_neg (by omega), hfs, fun _ => ?_⟩
        rw [hs]
        exact hlt
      · rintro s s' - - hn
        rw [headerVarNext] at hn
        simp only [unpackShort_two, Except.ok.injEq] at hn
        rw [← hn]
        exact fun _ => Nat.zero_lt_two
    case cidLen =>
      exact saveLength_resumesAt (goVal .cidVal goWill) hst hf hi'
        (fun m h => by funext d; rw [handlers, h]; rfl)
        (fun m h hlt _ => by rw [h]; exact hlt)
        (inv_goVal (fun _ h _ => h) fun _ => inv_goWill)
    case usernameLen =>
      exact saveLength_resumesAt (goVal .usernameVal goPasswd) hst hf hi'
        (fun m h => by funext d; rw [handlers, h]; rfl)
        (fun m h hlt _ => by rw [h]; exact hlt)
        (inv_goVal (fun _ h _ => h) fun _ => inv_goPasswd)
    case passwdLen =>
      exact saveLength_resumesAt (goVal .passwdVal fun m => { m with finished := true }) hst hf hi'
        (fun m h => by funext d; rw [handlers, h]; rfl)
        (fun m h hlt _ => by rw [h]; exact hlt)
        (inv_goVal (fun _ h _ => h) fun m _ => hfin m)
    case willTopicLen =>
      exact saveLength_resumesAt (fun m => { m with status := .willTopicVal }) hst hf hi'
        (fun m h => by funext d; rw [handlers, h]; rfl)
        (fun m h hlt _ => by rw [h]; exact hlt)
        (fun _ _ => trivial)
    case willMsgLen =>
      exact saveLength_resumesAt (goVal .willMsgVal goUsername) hst hf hi'
        (fun m h => by funext d; rw [handlers, h]; rfl)
        (fun m h hlt _ => by rw [h]; exact hlt)
        (inv_goVal (fun _ h _ => h) fun _ => inv_goUsername)
    case cidVal =>
      exact saveData_resumesAt addCid goWill hst hf
        (fun m h => by funext d; rw [handlers, h]; rfl)
        (fun m h hlt _ => by rw [h]; exact hlt) (fun _ _ => ⟨rfl, rfl⟩)
        (fun _ => inv_goWill)
    case usernameVal =>
      exact saveData_resumesAt addUsername goPasswd hst hf
        (fun m h => by funext d; rw [handlers, h]; rfl)
        (fun m h hlt _ => by rw [h]; exact hlt) (fun _ _ => ⟨rfl, rfl⟩)
        (fun _ => inv_goPasswd)
    case passwdVal =>
      exact saveData_resumesAt addPasswd (fun m => { m with finished := true }) hst hf
        (fun m h => by funext d; rw [handlers, h]; rfl)
        (fun m h hlt _ => by rw [h]; exact hlt) (fun _ _ => ⟨rfl, rfl⟩)
        (fun m _ => hfin m)
    case willTopicVal =>
      exact saveData_resumesAt addWillTopic (fun m => { m with status := .willMsgLen }) hst hf
        (fun m h => by funext d; rw [handlers, h]; rfl)
        (fun m h _ _ => by rw [h]; trivial) (fun _ _ => ⟨rfl, rfl⟩)
        (fun _ h _ => h)
    case willMsgVal =>
      exact saveData_resumesAt addWillMsg goUsername hst hf
        (fun m h => by funext d; rw [handlers, h]; rfl)
        (fun m h hlt _ => by rw [h]; exact hlt) (fun _ _ => ⟨rfl, rfl⟩)
        (fun _ => inv_goUsername)

/-- **The CONNECT parser may be cut anywhere.** -/
theorem connect_lawful : Lawful MqttConnect.finished run Inv :=
  connect_resumable.lawful

theorem inv_ofHeader (past : UInt8) (header : MqttHeader) : Inv (ofHeader past header) :=
  fun _ => Nat.succ_pos 9

end MqttConnect

end Libnio.Mqtt
