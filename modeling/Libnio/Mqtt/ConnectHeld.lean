import Libnio.Mqtt.Follows

/-!
# Mqtt — what a CONNECT parser holds

`Held`: the header it was made from, and fields that a two-byte length can
announce; the fields of later handlers are empty. From the grammar: how many
strings the flags ask for.
-/

namespace Libnio.Mqtt

open Stream Wire

namespace MqttConnect

/-- The order in which the handlers come; the even ones store a field. -/
def stage : ConnectStatus → Nat
  | .hdrVar => 0
  | .cidLen => 1
  | .cidVal => 2
  | .willTopicLen => 3
  | .willTopicVal => 4
  | .willMsgLen => 5
  | .willMsgVal => 6
  | .usernameLen => 7
  | .usernameVal => 8
  | .passwdLen => 9
  | .passwdVal => 10

/-- The field that is stored at stage `k`. -/
structure FieldHeld (m : MqttConnect) (k : Nat) (s : Bytes) : Prop where
  reached : s ≠ [] → k ≤ stage m.status
  length_le : s.length + (if k = stage m.status then m.dlen else 0) ≤ 65535

structure Held (header : MqttHeader) (m : MqttConnect) : Prop where
  header_eq : m.header = header
  cid : FieldHeld m 2 m.cid
  willTopic : FieldHeld m 4 m.willTopic
  willMsg : FieldHeld m 6 m.willMsg
  username : FieldHeld m 8 m.username
  passwd : FieldHeld m 10 m.passwd

theorem FieldHeld.le {m : MqttConnect} {k : Nat} {s : Bytes} (h : FieldHeld m k s) :
    s.length ≤ 65535 := Nat.le_trans (Nat.le_add_right _ _) h.length_le

/-- At a stage that stores nothing the counter does not matter. -/
theorem FieldHeld.move {m m' : MqttConnect} {k : Nat} {s : Bytes} (h : FieldHeld m k s)
    (hle : stage m.status ≤ stage m'.status) (hne : k ≠ stage m'.status) :
    FieldHeld m' k s :=
  ⟨fun hs => Nat.le_trans (h.reached hs) hle, by rw [if_neg hne]; exact h.le⟩

theorem Held.move {header : MqttHeader} {m t : MqttConnect} (h : Held header m)
    (hle : stage m.status ≤ stage t.status) (hodd : stage t.status % 2 = 1)
    (hh : t.header = m.header) (hc : t.cid = m.cid) (ht : t.willTopic = m.willTopic)
    (hg : t.willMsg = m.willMsg) (hu : t.username = m.username)
    (hp : t.passwd = m.passwd) : Held header t where
  header_eq := hh.trans h.header_eq
  cid := hc ▸ h.cid.move hle (by omega)
  willTopic := ht ▸ h.willTopic.move hle (by omega)
  willMsg := hg ▸ h.willMsg.move hle (by omega)
  username := hu ▸ h.username.move hle (by omega)
  passwd := hp ▸ h.passwd.move hle (by omega)

/-! ## The steps between the handlers -/

section Steps

variable {header : MqttHeader} {m : MqttConnect}

theorem Held.goPasswd (h : Held header m) (hle : stage m.status ≤ 9) :
    Held header (goPasswd m) := by
  unfold MqttConnect.goPasswd
  split
  · exact h.move (t := { m with status := .passwdLen }) hle (by decide : stage .passwdLen % 2 = 1)
      rfl rfl rfl rfl rfl rfl
  · exact ⟨h.1, ⟨h.2.1, h.2.2⟩, ⟨h.3.1, h.3.2⟩, ⟨h.4.1, h.4.2⟩, ⟨h.5.1, h.5.2⟩, ⟨h.6.1, h.6.2⟩⟩

theorem Held.goUsername (h : Held header m) (hle : stage m.status ≤ 7) :
    Held header (goUsername m) := by
  unfold MqttConnect.goUsername
  split
  · exact h.move (t := { m with status := .usernameLen }) hle
      (by decide : stage .usernameLen % 2 = 1)
      rfl rfl rfl rfl rfl rfl
  · exact h.goPasswd (by omega)

theorem Held.goWill (h : Held header m) (hle : stage m.status ≤ 3) :
    Held header (goWill m) := by
  unfold MqttConnect.goWill
  split
  · exact h.move (t := { m with status := .willTopicLen }) hle
      (by decide : stage .willTopicLen % 2 = 1)
      rfl rfl rfl rfl rfl rfl
  · exact h.goUsername (by omega)

/-- A field that is about to be stored is empty. -/
theorem FieldHeld.enter {m' : MqttConnect} {k : Nat} {s : Bytes} (h : FieldHeld m k s)
    (hst : stage m'.status = stage m.status + 1) (hd : m'.dlen ≤ 65535) :
    FieldHeld m' k s := by
  refine ⟨fun hs => by have := h.reached hs; omega, ?_⟩
  by_cases hk : k = stage m'.status
  · have h0 : s = [] := by
      refine Classical.byContradiction fun hs => ?_
      have := h.reached hs
      omega
    rw [if_pos hk, h0]
    simpa using hd
  · rw [if_neg hk]
    exact h.le

theorem Held.enter {st : ConnectStatus} (h : Held header m)
    (hst : stage st = stage m.status + 1) (hd : m.dlen ≤ 65535) :
    Held header { m with status := st } :=
  ⟨h.1, h.2.enter hst hd, h.3.enter hst hd, h.4.enter hst hd, h.5.enter hst hd,
    h.6.enter hst hd⟩

theorem Held.goVal {st : ConnectStatus} {go : MqttConnect → MqttConnect} (h : Held header m)
    (hst : stage st = stage m.status + 1) (hd : m.dlen ≤ 65535) (hgo : Held header (go m)) :
    Held header (goVal st go m) := by
  unfold MqttConnect.goVal
  split
  · exact h.enter hst hd
  · exact hgo

/-- The length of a field is read. -/
theorem Held.saveLength {go : MqttConnect → MqttConnect} {data rest : Bytes}
    {m' : MqttConnect} (h : Held header m) (hodd : stage m.status % 2 = 1)
    (hgo : ∀ s, Held header s → s.status = m.status → s.dlen ≤ 65535 → Held header (go s))
    (hd : data ≠ []) (hr : saveLength go m data = .ok (m', rest)) : Held header m' := by
  unfold MqttConnect.saveLength at hr
  refine field_induct (fun _ => .ok ()) (fun m => m.dlen < 2) putBuff (saveLengthNext go) hd hr
    (fun s => Held header s ∧ s.status = m.status) (Held header) ?_ (fun s hs _ => hs.1) ?_
    ⟨h, rfl⟩
  · rintro s b s' ⟨hs, hst⟩ hm hput
    rw [putBuff_eq (by have := of_decide_eq_true hm; omega)] at hput
    cases hput
    exact ⟨hs.move (Nat.le_refl _) (by simpa [hst] using hodd) rfl rfl rfl rfl rfl rfl, hst⟩
  · rintro s s' ⟨hs, hst⟩ - hn
    rw [saveLengthNext, unpackShort_two] at hn
    cases hn
    refine hgo _ (hs.move (Nat.le_refl _) (by simpa [hst] using hodd) rfl rfl rfl rfl rfl rfl)
      hst ?_
    have := UInt16.toNat_lt (UInt16.ofNat (short (s.buff.get 0) (s.buff.get 1)))
    change (UInt16.ofNat (short (s.buff.get 0) (s.buff.get 1))).toNat ≤ 65535
    omega

/-- A field is stored. -/
theorem Held.saveData {add : MqttConnect → UInt8 → MqttConnect}
    {go : MqttConnect → MqttConnect} {data rest : Bytes} {m' : MqttConnect}
    (h : Held header m) (hd : data ≠ []) (hr : saveData add go m data = .ok (m', rest))
    (hadd : ∀ s b, Held header s → s.status = m.status → 0 < s.dlen →
      Held header { add s b with dlen := s.dlen - 1 } ∧ (add s b).status = s.status)
    (hgo : ∀ s, Held header s → s.status = m.status → Held header (go s)) :
    Held header m' := by
  refine field_induct saveDataGuard (fun m => m.dlen > 0) (putData add) (fun m => .ok (go m)) hd
    hr (fun s => Held header s ∧ s.status = m.status) (Held header) ?_ (fun s hs _ => hs.1) ?_
    ⟨h, rfl⟩
  · rintro s b s' ⟨hs, hst⟩ hm hput
    cases hput
    obtain ⟨ha, has⟩ := hadd s b hs hst (of_decide_eq_true hm)
    exact ⟨ha, has.trans hst⟩
  · rintro s s' ⟨hs, hst⟩ - hn
    cases hn
    exact hgo s hs hst

/-- A character was stored, in this field or in another one. -/
theorem FieldHeld.store {k : Nat} {s s' : Bytes} (h : FieldHeld m k s) {m' : MqttConnect}
    (hst : m'.status = m.status) (hd : 0 < m.dlen) (hd' : m'.dlen = m.dlen - 1)
    (hs : s' = s ∨ (k = stage m.status ∧ ∃ b, s' = s ++ [b])) : FieldHeld m' k s' := by
  have hl := h.length_le
  rcases hs with rfl | ⟨hk, b, rfl⟩
  · refine ⟨fun hs => by rw [hst]; exact h.reached hs, ?_⟩
    rw [hst, hd']
    by_cases hk : k = stage m.status
    · rw [if_pos hk] at hl ⊢
      omega
    · rw [if_neg hk] at hl ⊢
      omega
  · rw [if_pos hk] at hl
    refine ⟨fun _ => by rw [hst]; omega, ?_⟩
    rw [hst, if_pos hk, List.length_append, List.length_singleton, hd']
    omega

theorem Held.store (h : Held header m) {t : MqttConnect} (hst : t.status = m.status)
    (hd : 0 < m.dlen) (hd' : t.dlen = m.dlen - 1) (hh : t.header = m.header)
    (hc : t.cid = m.cid ∨ (2 = stage m.status ∧ ∃ b, t.cid = m.cid ++ [b]))
    (ht : t.willTopic = m.willTopic ∨
      (4 = stage m.status ∧ ∃ b, t.willTopic = m.willTopic ++ [b]))
    (hg : t.willMsg = m.willMsg ∨ (6 = stage m.status ∧ ∃ b, t.willMsg = m.willMsg ++ [b]))
    (hu : t.username = m.username ∨
      (8 = stage m.status ∧ ∃ b, t.username = m.username ++ [b]))
    (hp : t.passwd = m.passwd ∨ (10 = stage m.status ∧ ∃ b, t.passwd = m.passwd ++ [b])) :
    Held header t :=
  ⟨hh.trans h.1, h.2.store hst hd hd' hc, h.3.store hst hd hd' ht, h.4.store hst hd hd' hg,
    h.5.store hst hd hd' hu, h.6.store hst hd hd' hp⟩

end Steps

theorem Held.finish {header : MqttHeader} {m : MqttConnect} (h : Held header m) :
    Held header { m with finished := true } :=
  ⟨h.1, ⟨h.2.1, h.2.2⟩, ⟨h.3.1, h.3.2⟩, ⟨h.4.1, h.4.2⟩, ⟨h.5.1, h.5.2⟩, ⟨h.6.1, h.6.2⟩⟩

theorem Held.updateHeaderVar {header : MqttHeader} {m m' : MqttConnect} {data rest : Bytes}
    (h : Held header m) (hst : m.status = .hdrVar) (hd : data ≠ [])
    (hr : updateHeaderVar m data = .ok (m', rest)) : Held header m' := by
  refine field_induct headerVarGuard (fun m => m.dlen < 10) putBuff headerVarNext hd hr
    (fun s => Held header s ∧ s.status = .hdrVar) (Held header) ?_ (fun s hs _ => hs.1) ?_
    ⟨h, hst⟩
  · rintro s b s' ⟨hs, hst⟩ hm hput
    rw [putBuff_eq (of_decide_eq_true hm)] at hput
    cases hput
    have h0 : stage s.status = 0 := congrArg stage hst
    exact ⟨⟨hs.1, hs.2.move (Nat.le_refl _) (by simp [h0]),
        hs.3.move (Nat.le_refl _) (by simp [h0]),
      hs.4.move (Nat.le_refl _) (by simp [h0]), hs.5.move (Nat.le_refl _) (by simp [h0]),
      hs.6.move (Nat.le_refl _) (by simp [h0])⟩, hst⟩
  · rintro s s' ⟨hs, hst⟩ - hn
    rw [headerVarNext, unpackShort_two] at hn
    cases hn
    exact hs.move (by rw [hst]; exact Nat.zero_le _) (by decide : stage .cidLen % 2 = 1) rfl rfl
      rfl rfl rfl rfl

theorem Held.handlers {header : MqttHeader} {m m' : MqttConnect} {data rest : Bytes}
    (h : Held header m) (hd : data ≠ []) (hr : handlers m data = .ok (m', rest)) :
    Held header m' := by
  unfold MqttConnect.handlers at hr
  split at hr <;> rename_i hst
  · exact h.updateHeaderVar hst hd hr
  · -- the client id
    exact h.saveLength (by rw [hst]; rfl) (fun s hs hs' hl => hs.goVal (by rw [hs', hst]; rfl) hl
      (hs.goWill (by rw [hs', hst]; exact (by decide : 1 ≤ 3)))) hd hr
  · unfold updateCidVal at hr
    refine h.saveData hd hr (fun s b hs hs' hpos => ⟨?_, rfl⟩)
      (fun s hs hs' => hs.goWill (by rw [hs', hst]; exact (by decide : 2 ≤ 3)))
    exact hs.store (t := { addCid s b with dlen := s.dlen - 1 }) rfl hpos rfl rfl
      (.inr ⟨by rw [hs', hst]; rfl, b, rfl⟩) (.inl rfl) (.inl rfl) (.inl rfl) (.inl rfl)
  · -- the user name
    exact h.saveLength (by rw [hst]; rfl) (fun s hs hs' hl => hs.goVal (by rw [hs', hst]; rfl) hl
      (hs.goPasswd (by rw [hs', hst]; exact (by decide : 7 ≤ 9)))) hd hr
  · unfold updateUsernameVal at hr
    refine h.saveData hd hr (fun s b hs hs' hpos => ⟨?_, rfl⟩)
      (fun s hs hs' => hs.goPasswd (by rw [hs', hst]; exact (by decide : 8 ≤ 9)))
    exact hs.store (t := { addUsername s b with dlen := s.dlen - 1 }) rfl hpos rfl rfl
      (.inl rfl) (.inl rfl) (.inl rfl) (.inr ⟨by rw [hs', hst]; rfl, b, rfl⟩) (.inl rfl)
  · -- the password
    exact h.saveLength (by rw [hst]; rfl) (fun s hs hs' hl => hs.goVal (by rw [hs', hst]; rfl) hl
      hs.finish) hd hr
  · unfold updatePasswdVal at hr
    refine h.saveData hd hr (fun s b hs hs' hpos => ⟨?_, rfl⟩) (fun s hs hs' => hs.finish)
    exact hs.store (t := { addPasswd s b with dlen := s.dlen - 1 }) rfl hpos rfl rfl
      (.inl rfl) (.inl rfl) (.inl rfl) (.inl rfl) (.inr ⟨by rw [hs', hst]; rfl, b, rfl⟩)
  · -- the will topic
    exact h.saveLength (by rw [hst]; rfl) (fun s hs hs' hl => hs.enter (by rw [hs', hst]; rfl) hl)
      hd hr
  · unfold updateWillTopicVal at hr
    refine h.saveData hd hr (fun s b hs hs' hpos => ⟨?_, rfl⟩)
      (fun s hs hs' => hs.move (by rw [hs', hst]; exact (by decide : 4 ≤ 5))
        (by decide : stage .willMsgLen % 2 = 1) rfl rfl rfl rfl rfl rfl)
    exact hs.store (t := { addWillTopic s b with dlen := s.dlen - 1 }) rfl hpos rfl rfl
      (.inl rfl) (.inr ⟨by rw [hs', hst]; rfl, b, rfl⟩) (.inl rfl) (.inl rfl) (.inl rfl)
  · -- the will message
    exact h.saveLength (by rw [hst]; rfl) (fun s hs hs' hl => hs.goVal (by rw [hs', hst]; rfl) hl
      (hs.goUsername (by rw [hs', hst]; exact (by decide : 5 ≤ 7)))) hd hr
  · unfold updateWillMsgVal at hr
    refine h.saveData hd hr (fun s b hs hs' hpos => ⟨?_, rfl⟩)
      (fun s hs hs' => hs.goUsername (by rw [hs', hst]; exact (by decide : 6 ≤ 7)))
    exact hs.store (t := { addWillMsg s b with dlen := s.dlen - 1 }) rfl hpos rfl rfl
      (.inl rfl) (.inl rfl) (.inr ⟨by rw [hs', hst]; rfl, b, rfl⟩) (.inl rfl) (.inl rfl)

/-- **What a run from the header on leaves in the object.** -/
theorem held_run {past : UInt8} {header : MqttHeader} {m : MqttConnect} {data rest : Bytes}
    (hr : run (ofHeader past header) data = .ok (m, rest)) : Held header.copy m := by
  have h0 : ∀ k, FieldHeld (ofHeader past header) k [] := fun k =>
    ⟨fun h => absurd rfl h, by
      change 0 + (if k = 0 then 0 else 0) ≤ 65535
      split <;> decide⟩
  exact (connect_resumable.run_induct (P := fun s _ => Held header.copy s)
    (fun _ _ hd hh hp => hp.handlers hd hh) (inv_ofHeader past header)
    ⟨rfl, h0 2, h0 4, h0 6, h0 8, h0 10⟩ hr).2.1

/-! ## How many strings there have to be -/

/-- The bytes of some strings. -/
def strs (strings : List Bytes) : Bytes := strings.flatMap str

theorem shortOf_length {s : Bytes} (h : s.length ≤ 65535) :
    shortOf [msb (UInt16.ofNat s.length), lsb (UInt16.ofNat s.length)] = s.length :=
  (short_length h).symm

theorem completes_string {g : BodyGrammar} {strings : List Bytes}
    (hl : ∀ s ∈ strings, s.length ≤ 65535)
    (h : (string g).completes (strs strings) = true) :
    ∃ s strings', strings = s :: strings' ∧ g.completes (strs strings') = true := by
  cases strings with
  | nil => cases h
  | cons s strings =>
      refine ⟨s, strings, rfl, ?_⟩
      rw [string, Grammar.completes, strs, List.flatMap_cons, str, List.cons_append,
        List.cons_append] at h
      simp only [List.take_succ_cons, List.take_zero, List.drop_succ_cons, List.drop_zero,
        shortOf_length (hl s (by simp)), skip, Bool.and_eq_true] at h
      have h2 := h.2
      split at h2
      · rename_i h0
        rwa [List.eq_nil_of_length_eq_zero h0] at h2
      · rw [Grammar.completes, Bool.and_eq_true, List.drop_left] at h2
        exact h2.2

/-- The will topic is a string that is not empty. -/
theorem completes_will {g : BodyGrammar} {strings : List Bytes}
    (hl : ∀ s ∈ strings, s.length ≤ 65535)
    (h : (Grammar.read 2 fun xs => if shortOf xs = 0 then .stuck
      else .read (shortOf xs) fun _ => g : BodyGrammar).completes (strs strings) = true) :
    ∃ s strings', strings = s :: strings' ∧ g.completes (strs strings') = true := by
  cases strings with
  | nil => cases h
  | cons s strings =>
      refine ⟨s, strings, rfl, ?_⟩
      rw [Grammar.completes, strs, List.flatMap_cons, str, List.cons_append,
        List.cons_append] at h
      simp only [List.take_succ_cons, List.take_zero, List.drop_succ_cons, List.drop_zero,
        shortOf_length (hl s (by simp)), Bool.and_eq_true] at h
      have h2 := h.2
      split at h2
      · cases h2
      · rw [Grammar.completes, Bool.and_eq_true, List.drop_left] at h2
        exact h2.2

/-- **The strings that the flags ask for are there.** -/
theorem completes_strings {flags : UInt8} {strings : List Bytes}
    (hl : ∀ s ∈ strings, s.length ≤ 65535)
    (h : (string (connectWill flags)).completes (strs strings) = true) :
    1 + (if flags &&& 0x04 ≠ 0 then 2 else 0) + (if flags &&& 0x80 ≠ 0 then 1 else 0)
      + (if flags &&& 0x40 ≠ 0 then 1 else 0) ≤ strings.length := by
  have hpasswd : ∀ strings : List Bytes, (∀ s ∈ strings, s.length ≤ 65535) →
      (connectPasswd flags).completes (strs strings) = true →
      (if flags &&& 0x40 ≠ 0 then 1 else 0) ≤ strings.length := by
    intro strings hl h
    rw [connectPasswd] at h
    by_cases hp : flags &&& 0x40 ≠ 0
    · rw [if_pos hp] at h ⊢
      obtain ⟨s, strings, rfl, -⟩ := completes_string hl h
      exact Nat.succ_le_succ (Nat.zero_le _)
    · rw [if_neg hp]
      exact Nat.zero_le _
  have husername : ∀ strings : List Bytes, (∀ s ∈ strings, s.length ≤ 65535) →
      (connectUsername flags).completes (strs strings) = true →
      (if flags &&& 0x80 ≠ 0 then 1 else 0) + (if flags &&& 0x40 ≠ 0 then 1 else 0)
        ≤ strings.length := by
    intro strings hl h
    rw [connectUsername] at h
    by_cases hu : flags &&& 0x80 ≠ 0
    · rw [if_pos hu] at h ⊢
      obtain ⟨s, strings, rfl, h1⟩ := completes_string hl h
      have := hpasswd strings (fun s hs => hl s (by simp [hs])) h1
      rw [List.length_cons]
      omega
    · rw [if_neg hu] at h ⊢
      have := hpasswd strings hl h
      omega
  obtain ⟨cid, strings, rfl, h0⟩ := completes_string hl h
  have hl0 := fun s hs => hl s (List.mem_cons_of_mem cid hs)
  rw [List.length_cons]
  rw [connectWill] at h0
  by_cases hw : flags &&& 0x04 ≠ 0
  · rw [if_pos hw] at h0 ⊢
    obtain ⟨t, strings, rfl, h1⟩ := completes_will hl0 h0
    have hl1 := fun s hs => hl0 s (List.mem_cons_of_mem t hs)
    obtain ⟨g, strings, rfl, h2⟩ := completes_string hl1 h1
    have := husername strings (fun s hs => hl1 s (List.mem_cons_of_mem g hs)) h2
    rw [List.length_cons, List.length_cons]
    omega
  · rw [if_neg hw] at h0 ⊢
    have := husername strings hl0 h0
    omega

end MqttConnect

end Libnio.Mqtt
