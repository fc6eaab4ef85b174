import Libnio.Mqtt.ConnectFacts

/-!
# Mqtt — the variable header of CONNECT

What `get_keep_alive` and `get_will_qos` return of a message that has been
parsed. The handler unpacks the keep-alive from the last byte of its buffer and
the one behind it, and the parser never sets the will QoS.
-/

namespace Libnio.Mqtt

open Stream

namespace MqttConnect

/-- `unsigned short get_keep_alive() const` -/
def getKeepAlive (m : MqttConnect) : UInt16 := m.keepAlive

/-- `mqtt_qos_t get_will_qos() const` -/
def getWillQos (m : MqttConnect) : MqttQos := m.willQos

/-- The values of the variable header `xs`: the keep-alive in the bytes 8 and 9, the
will QoS in the bits 3 and 4 of the flags. -/
def VarDecoded (xs : Bytes) (m : MqttConnect) : Prop :=
  m.getKeepAlive.toNat = short (xs.getD 8 0) (xs.getD 9 0) ∧
    m.getWillQos.code = (xs.getD 7 0 >>> 3) &&& 3

instance (xs : Bytes) (m : MqttConnect) : Decidable (VarDecoded xs m) :=
  inferInstanceAs (Decidable (_ ∧ _))

/-! ## What the payload leaves alone -/

/-- The variable header has been read, with this keep-alive. -/
structure VarRead (keepAlive : UInt16) (m : MqttConnect) : Prop where
  status : m.status ≠ .hdrVar
  keepAlive_eq : m.keepAlive = keepAlive
  willQos : m.willQos = .qos0

namespace VarRead

variable {keepAlive : UInt16} {m : MqttConnect}

theorem enter (h : VarRead keepAlive m) {st : ConnectStatus} (hst : st ≠ .hdrVar) :
    VarRead keepAlive { m with status := st } :=
  ⟨hst, h.keepAlive_eq, h.willQos⟩

theorem finish (h : VarRead keepAlive m) : VarRead keepAlive { m with finished := true } :=
  ⟨h.status, h.keepAlive_eq, h.willQos⟩

theorem goPasswd (h : VarRead keepAlive m) : VarRead keepAlive (goPasswd m) := by
  unfold MqttConnect.goPasswd
  split
  · exact h.enter (by decide)
  · exact h.finish

theorem goUsername (h : VarRead keepAlive m) : VarRead keepAlive (goUsername m) := by
  unfold MqttConnect.goUsername
  split
  · exact h.enter (by decide)
  · exact h.goPasswd

theorem goWill (h : VarRead keepAlive m) : VarRead keepAlive (goWill m) := by
  unfold MqttConnect.goWill
  split
  · exact h.enter (by decide)
  · exact h.goUsername

theorem goVal (h : VarRead keepAlive m) {st : ConnectStatus} (hst : st ≠ .hdrVar)
    {go : MqttConnect → MqttConnect} (hgo : VarRead keepAlive (go m)) :
    VarRead keepAlive (goVal st go m) := by
  unfold MqttConnect.goVal
  split
  · exact h.enter hst
  · exact hgo

/-- The length of a field is read. -/
theorem saveLength {go : MqttConnect → MqttConnect} {data rest : Bytes} {m' : MqttConnect}
    (h : VarRead keepAlive m) (hgo : ∀ s, VarRead keepAlive s → VarRead keepAlive (go s))
    (hd : data ≠ []) (hr : saveLength go m data = .ok (m', rest)) : VarRead keepAlive m' := by
  unfold MqttConnect.saveLength at hr
  refine field_induct (fun _ => .ok ()) (fun m => m.dlen < 2) putBuff (saveLengthNext go) hd hr
    (VarRead keepAlive) (VarRead keepAlive) ?_ (fun _ hs _ => hs) ?_ h
  · intro s b s' hs hm hput
    rw [putBuff_eq (by have := of_decide_eq_true hm; omega)] at hput
    cases hput
    exact ⟨hs.status, hs.keepAlive_eq, hs.willQos⟩
  · intro s s' hs _ hn
    rw [saveLengthNext, unpackShort_two] at hn
    cases hn
    exact hgo _ ⟨hs.status, hs.keepAlive_eq, hs.willQos⟩

/-- A field is stored. -/
theorem saveData {add : MqttConnect → UInt8 → MqttConnect} {go : MqttConnect → MqttConnect}
    {data rest : Bytes} {m' : MqttConnect} (h : VarRead keepAlive m)
    (hadd : ∀ s b, VarRead keepAlive s → VarRead keepAlive (add s b))
    (hgo : ∀ s, VarRead keepAlive s → VarRead keepAlive (go s))
    (hd : data ≠ []) (hr : saveData add go m data = .ok (m', rest)) : VarRead keepAlive m' := by
  refine field_induct saveDataGuard (fun m => m.dlen > 0) (putData add) (fun m => .ok (go m)) hd
    hr (VarRead keepAlive) (VarRead keepAlive) ?_ (fun _ hs _ => hs) ?_ h
  · intro s b s' hs _ hput
    cases hput
    have ha := hadd s b hs
    exact ⟨ha.status, ha.keepAlive_eq, ha.willQos⟩
  · intro s s' hs _ hn
    cases hn
    exact hgo s hs

/-- No handler of the payload touches the values. -/
theorem handlers {data rest : Bytes} {m' : MqttConnect} (h : VarRead keepAlive m)
    (hd : data ≠ []) (hr : handlers m data = .ok (m', rest)) : VarRead keepAlive m' := by
  have hstore : ∀ {s t : MqttConnect}, VarRead keepAlive s → t.status = s.status →
      t.keepAlive = s.keepAlive → t.willQos = s.willQos → VarRead keepAlive t :=
    fun hs hst hk hq => ⟨hst ▸ hs.status, hk.trans hs.keepAlive_eq, hq.trans hs.willQos⟩
  unfold MqttConnect.handlers at hr
  split at hr <;> rename_i hst
  · exact absurd hst h.status
  · exact h.saveLength (fun s hs => hs.goVal (by decide) hs.goWill) hd hr
  · unfold updateCidVal at hr
    refine h.saveData ?_ (fun _ hs => hs.goWill) hd hr
    exact fun _ _ hs => hstore hs rfl rfl rfl
  · exact h.saveLength (fun s hs => hs.goVal (by decide) hs.goPasswd) hd hr
  · unfold updateUsernameVal at hr
    refine h.saveData ?_ (fun _ hs => hs.goPasswd) hd hr
    exact fun _ _ hs => hstore hs rfl rfl rfl
  · exact h.saveLength (fun s hs => hs.goVal (by decide) hs.finish) hd hr
  · unfold updatePasswdVal at hr
    refine h.saveData ?_ (fun _ hs => hs.finish) hd hr
    exact fun _ _ hs => hstore hs rfl rfl rfl
  · exact h.saveLength (fun s hs => hs.enter (by decide)) hd hr
  · unfold updateWillTopicVal at hr
    refine h.saveData ?_ (fun _ hs => hs.enter (by decide)) hd hr
    exact fun _ _ hs => hstore hs rfl rfl rfl
  · exact h.saveLength (fun s hs => hs.goVal (by decide) hs.goUsername) hd hr
  · unfold updateWillMsgVal at hr
    refine h.saveData ?_ (fun _ hs => hs.goUsername) hd hr
    exact fun _ _ hs => hstore hs rfl rfl rfl

end VarRead

/-! ## What is decoded -/

/-- **What the two getters return** when a variable header has come in, however it
was cut and whatever follows: the last byte with the one behind the buffer, and
zero. -/
theorem varRead_feed {past : UInt8} {header : MqttHeader} {xs payload : Bytes}
    {pieces : List Bytes} (hx : xs.length = 10) (hp : ∀ p ∈ pieces, p ≠ [])
    (hflat : pieces.flatten = xs ++ payload) {m : MqttConnect} {left : List Bytes}
    (h : feed MqttConnect.finished update (ofHeader past header) pieces = .ok (m, left)) :
    VarRead (UInt16.ofNat (short (xs.getD 9 0) past)) m := by
  have hupdate : ∀ (m : MqttConnect) data, data ≠ [] → update m data = run m data :=
    fun m data hd => if_neg hd
  have hrun := run_of_feed connect_lawful hupdate (inv_ofHeader past header) hp h
  rw [hflat, run_headerVar past header hx] at hrun
  exact (connect_resumable.run_induct
    (P := fun s _ => VarRead (UInt16.ofNat (short (xs.getD 9 0) past)) s)
    (fun _ _ hd hh hv => hv.handlers hd hh) (fun _ => Nat.zero_lt_two)
    ⟨by simp [afterHeaderVar], rfl, rfl⟩ hrun).2.1

theorem short_eq_iff {a b c d : UInt8} : short a b = short c d ↔ a = c ∧ b = d := by
  constructor
  · intro h
    have hb := b.toNat_lt
    have hd := d.toNat_lt
    unfold short at h
    exact ⟨UInt8.toNat_inj.mp (by omega), UInt8.toNat_inj.mp (by omega)⟩
  · rintro ⟨rfl, rfl⟩
    rfl

/-- **The variable header is never decoded from itself.** Of any header that has
come in, cut anyhow and followed by anything that parses so far: the values are
right just when the byte behind the buffer happens to repeat the bytes 8 and 9 and
no will QoS is encoded, so that they do not follow from the header. -/
theorem varDecoded_never {header : MqttHeader} {xs payload : Bytes} {pieces : List Bytes}
    (hx : xs.length = 10) (hp : ∀ p ∈ pieces, p ≠ []) (hflat : pieces.flatten = xs ++ payload)
    (hok : ∀ past, ∃ r, feed MqttConnect.finished update (ofHeader past header) pieces = .ok r) :
    (∀ past m left, feed MqttConnect.finished update (ofHeader past header) pieces
        = .ok (m, left) →
      (VarDecoded xs m ↔ (xs.getD 8 0 = xs.getD 9 0 ∧ past = xs.getD 9 0) ∧
        (xs.getD 7 0 >>> 3) &&& 3 = 0)) ∧
    ¬ ∀ past m left, feed MqttConnect.finished update (ofHeader past header) pieces
        = .ok (m, left) → VarDecoded xs m := by
  have hiff : ∀ past m left, feed MqttConnect.finished update (ofHeader past header) pieces
      = .ok (m, left) →
      (VarDecoded xs m ↔ (xs.getD 8 0 = xs.getD 9 0 ∧ past = xs.getD 9 0) ∧
        (xs.getD 7 0 >>> 3) &&& 3 = 0) := by
    intro past m left h
    have hv := varRead_feed hx hp hflat h
    have hk : m.getKeepAlive.toNat = short (xs.getD 9 0) past := by
      rw [getKeepAlive, hv.keepAlive_eq]
      exact UInt16.toNat_ofNat_of_lt' (short_lt _ _)
    have hq : m.getWillQos.code = 0 := by
      rw [getWillQos, hv.willQos]
      rfl
    rw [VarDecoded, hk, hq, short_eq_iff]
    constructor
    · rintro ⟨⟨h9, hpast⟩, hf⟩
      exact ⟨⟨h9.symm, hpast⟩, hf.symm⟩
    · rintro ⟨⟨h8, hpast⟩, hf⟩
      exact ⟨⟨h8.symm, hpast⟩, hf.symm⟩
  refine ⟨hiff, fun hall => ?_⟩
  -- Any other byte behind the buffer.
  obtain ⟨⟨m, left⟩, h⟩ := hok (xs.getD 9 0 + 1)
  have hpast := ((hiff _ m left h).mp (hall _ m left h)).1.2
  have hne : ∀ b : UInt8, b + 1 ≠ b := by
    rintro ⟨b⟩
    revert b
    decide +kernel
  exact hne _ hpast

/-- A keep-alive of 60 seconds and a will QoS of 2, followed by an empty client id:
decoded as 15360 and 0. -/
theorem varDecoded_not :
    let xs : Bytes := [0, 4, 0x4d, 0x51, 0x54, 0x54, 4, 0x10, 0, 60]
    ∃ m, feed MqttConnect.finished update (ofHeader 0 (MqttHeader.new .connect)) [xs ++ [0, 0]]
        = .ok (m, []) ∧
      m.getKeepAlive = 15360 ∧ m.getWillQos = .qos0 ∧ ¬ VarDecoded xs m := by
  refine ⟨_, rfl, ?_⟩
  decide +kernel

/-- A client id that is empty, and a header cut after seven bytes. -/
theorem varDecoded_never_cut :
    let xs : Bytes := [0, 4, 0x4d, 0x51, 0x54, 0x54, 4, 0, 0, 60]
    let pieces : List Bytes := [xs.take 7, xs.drop 7 ++ [0, 0]]
    (∀ past m left, feed MqttConnect.finished update
        (ofHeader past (MqttHeader.new .connect)) pieces = .ok (m, left) →
      (VarDecoded xs m ↔ (xs.getD 8 0 = xs.getD 9 0 ∧ past = xs.getD 9 0) ∧
        (xs.getD 7 0 >>> 3) &&& 3 = 0)) ∧
    ¬ ∀ past m left, feed MqttConnect.finished update
        (ofHeader past (MqttHeader.new .connect)) pieces = .ok (m, left) → VarDecoded xs m := by
  intro xs pieces
  exact @varDecoded_never _ xs [0, 0] pieces (by decide) (by decide) (by decide)
    fun past => ⟨_, rfl⟩

end MqttConnect

end Libnio.Mqtt
