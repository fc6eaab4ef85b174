import Libnio.Mqtt.Header

/-!
# Mqtt — facts on the fixed header

`header_resumable`: the header parser may be cut anywhere. `run_packet`: on
a type byte and base-128 digits it ends finished with their values.
`buildHeader_eq`: what `buildHeader` appends is a type byte and the
shortest digits of the length, and it fails from 2^28 on.
-/

namespace Libnio.Mqtt

open Stream

theorem bit7_clear (b : UInt8) : b &&& 0x80 = 0 ↔ b.toNat < 128 := by
  obtain ⟨b⟩ := b
  revert b
  decide +kernel

/-- The nibble of a byte that announces a packet type. -/
def typeNibble (b : UInt8) : UInt8 := (b &&& 0xff) >>> 4

/-- The nibble of a byte that holds the flags. -/
def flagNibble (b : UInt8) : BitVec 4 := (b &&& 0x0f).toBitVec.setWidth 4

/-- Type nibbles that are not reserved. -/
def ValidType (b : UInt8) : Prop :=
  ¬ (typeNibble b ≤ MqttType.reservedMin.code ∨ typeNibble b ≥ MqttType.reservedMax.code)

instance (b : UInt8) : Decidable (ValidType b) :=
  inferInstanceAs (Decidable (¬ _))

namespace MqttHeader

/-! ## The type byte -/

theorem firstByte_type {t : MqttType} (f : BitVec 4) (h0 : t ≠ .reservedMin)
    (h1 : t ≠ .reservedMax) :
    ValidType (firstByte t f) ∧ MqttType.ofCode (typeNibble (firstByte t f)) = t
      ∧ flagNibble (firstByte t f) = f := by
  revert f
  cases t <;> first | exact absurd rfl h0 | exact absurd rfl h1 | decide +kernel

/-- A type byte is given back by its two nibbles. -/
theorem firstByte_nibbles {b : UInt8} (h : ValidType b) :
    firstByte (MqttType.ofCode (typeNibble b)) (flagNibble b) = b := by
  obtain ⟨b⟩ := b
  revert b
  decide +kernel

/-- The header after its type byte. -/
def typed (h : MqttHeader) (b : UInt8) : MqttHeader :=
  { h with type := MqttType.ofCode (typeNibble b), hflags := flagNibble b,
           status := .hdrLen, hlen := 0 }

theorem updateHeaderType_cons (h : MqttHeader) (b : UInt8) (data : Bytes) :
    updateHeaderType h (b :: data)
      = if ValidType b then .ok (typed h b, data) else .error (.error "") := by
  by_cases hv : ValidType b
  · rw [if_pos hv]
    exact if_neg hv
  · rw [if_neg hv]
    exact if_pos (not_not.mp hv)

/-! ## The length loop -/

/-- The length loop goes on: room is left, and the last byte had bit 7 set. -/
def more (h : MqttHeader) : Bool :=
  decide (h.hlen < 4) &&
    (h.hlen == 0 || (h.hbuf.getD (h.hlen - 1) 0 &&& 0x80) != 0)

/-- Where the length parser may be called. -/
def Inv (h : MqttHeader) : Prop :=
  h.status = .hdrLen → h.finished = false → h.more = true

theorem putLen_eq {h : MqttHeader} (hk : h.hlen < 4) (b : UInt8) :
    putLen h b = .ok { h with hbuf := h.hbuf.set h.hlen b hk, hlen := h.hlen + 1 } := by
  simp [putLen, store_eq hk]

theorem more_lt {h : MqttHeader} (hm : h.more = true) : h.hlen < 4 := by
  simp only [more, Bool.and_eq_true, decide_eq_true_eq] at hm
  exact hm.1

/-- After a store: room is left and the byte stored had bit 7 set. -/
theorem more_put {h : MqttHeader} (hk : h.hlen < 4) (b : UInt8) :
    more { h with hbuf := h.hbuf.set h.hlen b hk, hlen := h.hlen + 1 }
      = (decide (h.hlen + 1 < 4) && ((b &&& 0x80) != 0)) := by
  simp [more, Vector.getD, hk]

/-- The source's loop, its `break` included, is a field loop. -/
theorem eatLen_eq {h : MqttHeader} (hm : h.more = true) (data : Bytes) :
    eatLen h data = eatWhile more putLen h data := by
  induction data generalizing h with
  | nil => rfl
  | cons b data ih =>
      have hk := more_lt hm
      rw [eatWhile_cons hm, eatLen, if_pos hk, putLen_eq hk, ok_bind, ok_bind]
      by_cases hb : b &&& 0x80 = 0
      · rw [if_pos hb, eatWhile_stop (by rw [more_put hk, hb]; simp)]
        rfl
      · rw [if_neg hb]
        by_cases h4 : h.hlen + 1 < 4
        · exact ih (by rw [more_put hk]; simp [h4, hb])
        · -- the buffer is full: both loops stop
          rw [eatWhile_stop (by rw [more_put hk]; simp [h4])]
          cases data with
          | nil => rfl
          | cons c cs => rw [eatLen, if_neg h4]

def lenGuard (h : MqttHeader) : Except Stop Unit :=
  if h.hlen ≥ 4 then .error (.error "invalid header len") else .ok ()

/-- What `update_header_len` does once its loop has ended the field. -/
def lenNext (h : MqttHeader) : Except Stop MqttHeader := do
  assertThat (h.hlen > 0 ∧ h.hlen ≤ 4)
  let last ← load h.hbuf (h.hlen - 1)
  if last &&& 0x80 ≠ 0 then throw (.error "invalid header len")
  return { h with dlen := lenValue h.hbuf h.hlen, finished := true }

theorem getD_last {h : MqttHeader} (hk : h.hlen ≤ 4) (h0 : h.hlen > 0) :
    load h.hbuf (h.hlen - 1) = .ok (h.hbuf.getD (h.hlen - 1) 0) := by
  have hlt : h.hlen - 1 < 4 := by omega
  rw [load_eq hlt]
  simp [Vector.getD, hlt, Vector.get]

/-- The loop stores at least one byte, and at most four. -/
theorem eatWhile_hlen {h h1 : MqttHeader} (hm : h.more = true) {data rest : Bytes}
    (hd : data ≠ []) (he : eatWhile more putLen h data = .ok (h1, rest)) :
    h1.hlen > 0 ∧ h1.hlen ≤ 4 := by
  have hk := more_lt hm
  constructor
  · obtain ⟨b, data, rfl⟩ := List.exists_cons_of_ne_nil hd
    rw [eatWhile_cons hm, putLen_eq hk, ok_bind] at he
    refine (eatWhile_induct he (fun h => h.hlen > 0) ?_ (Nat.succ_pos _)).1
    intro s b s' _ hms hput
    rw [putLen_eq (more_lt hms)] at hput
    cases hput
    exact Nat.succ_pos _
  · refine (eatWhile_induct he (fun h => h.hlen ≤ 4) ?_ (by omega)).1
    intro s b s' _ hms hput
    rw [putLen_eq (more_lt hms)] at hput
    cases hput
    exact more_lt hms

/-- `update_header_len` as a field handler. -/
theorem updateHeaderLen_eq {h : MqttHeader} (hm : h.more = true) :
    updateHeaderLen h = field lenGuard more putLen lenNext h := by
  funext data
  have hk := more_lt hm
  simp only [updateHeaderLen, field, lenGuard, if_neg (show ¬ h.hlen ≥ 4 by omega)]
  by_cases hd : data = []
  · simp [hd]
  simp only [assertThat_true hd, ok_bind, eatLen_eq hm]
  cases he : eatWhile more putLen h data with
  | error e => rfl
  | ok r =>
      obtain ⟨h1, rest⟩ := r
      obtain ⟨hpos, hle⟩ := eatWhile_hlen hm hd he
      simp only [ok_bind, lenNext, assertThat_true (show h1.hlen > 0 ∧ h1.hlen ≤ 4 from
        ⟨hpos, hle⟩), getD_last hle hpos]
      by_cases hb : h1.hbuf.getD (h1.hlen - 1) 0 &&& 0x80 = 0
      · have hm1 : h1.more = false := by simp [more, hb, Nat.ne_of_gt hpos]
        simp [hb, hm1]
      · by_cases h4 : h1.hlen = 4
        · have hm1 : h1.more = false := by simp [more, h4]
          have hb4 : ¬ h1.hbuf.getD 3 0 &&& 0x80 = 0 := by simpa [h4] using hb
          simp [hm1, h4, hb4]
        · have hm1 : h1.more = true := by
            simp only [more, Bool.and_eq_true, decide_eq_true_eq, Bool.or_eq_true,
              bne_iff_ne]
            exact ⟨by omega, .inr hb⟩
          simp [hb, hm1, h4]

theorem lenNext_finished {h h' : MqttHeader} (hn : lenNext h = .ok h') :
    h'.finished = true := by
  simp only [lenNext, bind_eq_ok] at hn
  obtain ⟨-, -, last, -, hn⟩ := hn
  split at hn
  · simp at hn
  · simp only [pure_eq_ok, Except.ok.injEq] at hn
    rw [← hn]

/-- **The header parser may be cut anywhere.** -/
theorem header_resumable :
    Resumable MqttHeader.finished handlers Inv (fun _ => 0) where
  rank_le := fun _ => Nat.zero_le _
  resumesAt := by
    intro h hi hf
    cases hst : h.status with
    | hdrType =>
        refine .of_token (f := fun ch =>
          if ValidType ch then .ok (typed h ch) else .error (.error "")) ?_ ?_
        · intro ch data
          simp only [handlers, hst, updateHeaderType_cons]
          split <;> rfl
        · intro ch h' hok
          split at hok
          · cases hok
            intro _ _
            simp [more, typed]
          · cases hok
    | hdrLen =>
        refine field_resumesAt lenGuard more putLen lenNext
          (fun h => h.status = .hdrLen ∧ h.finished = false) ?_ ?_ ?_ ?_
          ⟨hst, hf⟩ (.inl (hi hst hf))
        · rintro s ⟨hs, -⟩ hgo data hd
          simp only [handlers, hs]
          rcases hgo with hm | ⟨e, he⟩
          · rw [updateHeaderLen_eq hm]
          · -- a full buffer: both fail at once
            have h4 : s.hlen ≥ 4 := by
              by_contra hc
              simp [lenGuard, hc] at he
            simp [updateHeaderLen, field, hd, lenGuard, h4]
        · rintro s b s' ⟨hs, hfs⟩ hm hput
          rw [putLen_eq (more_lt hm)] at hput
          cases hput
          exact ⟨hs, hfs⟩
        · rintro s ⟨hs, hfs⟩ hm
          refine ⟨?_, hfs, fun _ _ => hm⟩
          exact if_neg (by have := more_lt hm; omega)
        · rintro s s' - - hn _ hfs
          rw [lenNext_finished hn] at hfs
          cases hfs

theorem header_lawful : Lawful MqttHeader.finished run Inv := header_resumable.lawful

/-! ## Packets -/

theorem inv_reset (h : MqttHeader) : Inv h.reset := by
  intro hs
  simp [reset] at hs

theorem inv_new (t : MqttType) : Inv (new t) := by
  intro hs
  simp [new] at hs

/-- The length loop reads base-128 digits to their end. -/
theorem eatLen_digits {ds : Bytes} (hds : Base128.Digits ds) (rest : Bytes)
    {h : MqttHeader} (hk : h.hlen + ds.length ≤ 4) :
    ∃ hbuf : Vector UInt8 4,
      eatLen h (ds ++ rest) = .ok ({ h with hbuf, hlen := h.hlen + ds.length }, rest)
        ∧ hbuf.toList.take (h.hlen + ds.length) = h.hbuf.toList.take h.hlen ++ ds
        ∧ hbuf.getD (h.hlen + ds.length - 1) 0 &&& 0x80 = 0 := by
  induction ds generalizing h with
  | nil => exact absurd hds (by simp [Base128.Digits])
  | cons b bs ih =>
      have hlt : h.hlen < 4 := by
        simp only [List.length_cons] at hk
        omega
      have htake : (h.hbuf.set h.hlen b hlt).toList.take (h.hlen + 1)
          = h.hbuf.toList.take h.hlen ++ [b] := by
        rw [Vector.toList_set, List.take_succ_eq_append_getElem (by simpa using hlt)]
        simp [List.take_set_of_le]
      cases bs with
      | nil =>
          have hb : b &&& 0x80 = 0 := (bit7_clear b).mpr hds
          refine ⟨h.hbuf.set h.hlen b hlt, ?_, htake, ?_⟩
          · rw [List.cons_append, List.nil_append, eatLen, if_pos hlt, putLen_eq hlt,
              ok_bind, if_pos hb]
            rfl
          · simpa [Vector.getD, hlt] using hb
      | cons c cs =>
          obtain ⟨hb, hrest⟩ := hds
          have hb' : ¬ b &&& 0x80 = 0 := fun hc => by
            have := (bit7_clear b).mp hc
            omega
          have hsum : h.hlen + (b :: c :: cs).length
              = h.hlen + 1 + (c :: cs).length := by
            simp only [List.length_cons]
            omega
          obtain ⟨hbuf, he, ht, hl⟩ := ih hrest
            (h := { h with hbuf := h.hbuf.set h.hlen b hlt, hlen := h.hlen + 1 })
            (by rw [hsum] at hk; exact hk)
          rw [hsum]
          refine ⟨hbuf, ?_, ?_, hl⟩
          · rw [List.cons_append, eatLen, if_pos hlt, putLen_eq hlt, ok_bind,
              if_neg hb', he]
          · rw [ht, htake, List.append_assoc]
            rfl

/-- The assembled length is the value of the digits stored. -/
theorem lenValue_eq (hbuf : Vector UInt8 4) {n : Nat} (hn : n ≤ 4) :
    (lenValue hbuf n).toNat = Base128.decode (hbuf.toList.take n) := by
  induction n with
  | zero => rfl
  | succ n ih =>
      have hlt : n < 4 := by omega
      have hn4 : n < hbuf.toList.length := by simpa using hlt
      have hd : hbuf.getD n 0 = hbuf.toList[n] := by simp [Vector.getD, hlt]
      have hlen : (hbuf.toList.take n).length = n := by simp; omega
      have hx : Base128.decode (hbuf.toList.take n) < 128 ^ n := by
        have := Base128.decode_lt (hbuf.toList.take n)
        rwa [hlen] at this
      have hand : (hbuf.getD n 0 &&& 0x7f).toNat = (hbuf.getD n 0).toNat % 128 := by
        rw [UInt8.toNat_and]
        exact Nat.and_two_pow_sub_one_eq_mod _ 7
      have hmod : (hbuf.getD n 0).toNat % 128 < 128 := Nat.mod_lt _ (by decide)
      have hshift : (((hbuf.getD n 0) &&& 0x7f).toUInt32
          <<< UInt32.ofNat (7 * n)).toNat
            = ((hbuf.getD n 0).toNat % 128) <<< (7 * n) := by
        have h7 : (UInt32.ofNat (7 * n)).toNat % 32 = 7 * n := by
          rw [UInt32.toNat_ofNat']
          omega
        rw [UInt32.toNat_shiftLeft, UInt8.toNat_toUInt32, hand, h7, Nat.shiftLeft_eq]
        apply Nat.mod_eq_of_lt
        have hpow : 2 ^ (7 * n) ≤ 2 ^ 21 := Nat.pow_le_pow_right (by decide) (by omega)
        calc (hbuf.getD n 0).toNat % 128 * 2 ^ (7 * n)
            ≤ 127 * 2 ^ 21 := Nat.mul_le_mul (by omega) hpow
          _ < 2 ^ 32 := by decide
      rw [lenValue, UInt32.toNat_or, ih (by omega), hshift, Base128.or_digit hx,
        List.take_succ_eq_append_getElem hn4, Base128.decode_concat,
        hlen, ← hd]

/-- The length parser on base-128 digits. -/
theorem updateHeaderLen_digits {h : MqttHeader} (h0 : h.hlen = 0) {ds : Bytes}
    (hds : Base128.Digits ds) (h4 : ds.length ≤ 4) (rest : Bytes) :
    ∃ hbuf : Vector UInt8 4, updateHeaderLen h (ds ++ rest)
      = .ok ({ h with hbuf, hlen := ds.length,
                      dlen := UInt32.ofNat (Base128.decode ds), finished := true },
             rest) := by
  have hpos := List.length_pos_iff.mpr hds.ne_nil
  obtain ⟨hbuf, he, htake, hlast⟩ := eatLen_digits hds rest (h := h) (by omega)
  simp only [h0, Nat.zero_add, List.take_zero, List.nil_append] at he htake hlast
  have hload := getD_last (h := { h with hbuf, hlen := ds.length }) h4 hpos
  have hval : lenValue hbuf ds.length = UInt32.ofNat (Base128.decode ds) := by
    apply UInt32.toNat_inj.mp
    have hlt : Base128.decode ds < 2 ^ 32 :=
      Nat.lt_of_lt_of_le (Base128.decode_lt ds)
        (Nat.le_trans (Nat.pow_le_pow_right (by decide) h4) (by decide))
    rw [lenValue_eq hbuf h4, htake, UInt32.toNat_ofNat', Nat.mod_eq_of_lt hlt]
  refine ⟨hbuf, ?_⟩
  simp only [updateHeaderLen, h0, he, ok_bind, hload, hlast, hval, pure_eq_ok,
    assertThat_true (show ds ++ rest ≠ [] by simp [hds.ne_nil]),
    assertThat_true (show ds.length > 0 ∧ ds.length ≤ 4 from ⟨hpos, h4⟩)]
  rfl

/-- **What the parser makes of a header**: after a type byte and digits it is
finished with their values, and what follows is left over. -/
theorem run_packet {h : MqttHeader} (hst : h.status = .hdrType)
    (hf : h.finished = false) {b : UInt8} (hb : ValidType b) {ds : Bytes}
    (hds : Base128.Digits ds) (h4 : ds.length ≤ 4) (rest : Bytes) :
    ∃ hbuf : Vector UInt8 4, run h (b :: (ds ++ rest))
      = .ok ({ hbuf, hlen := ds.length, dlen := UInt32.ofNat (Base128.decode ds),
               status := .hdrLen, type := MqttType.ofCode (typeNibble b),
               hflags := flagNibble b, finished := true }, rest) := by
  have hi : Inv h := fun hs => by simp [hst] at hs
  have hi1 : Inv (typed h b) := fun _ _ => by simp [more, typed]
  have hstep : handlers h (b :: (ds ++ rest)) = .ok (typed h b, ds ++ rest) := by
    simp only [handlers, hst, updateHeaderType_cons, if_pos hb]
  obtain ⟨hbuf, hlen⟩ := updateHeaderLen_digits (h := typed h b) rfl hds h4 rest
  refine ⟨hbuf, ?_⟩
  rw [run, header_resumable.run_go hi hf (by simp), hstep, ok_bind]
  change Stream.run .timeout MqttHeader.finished handlers (typed h b) (ds ++ rest) = _
  rw [header_resumable.run_go hi1 hf (by simp [hds.ne_nil])]
  change (updateHeaderLen (typed h b) (ds ++ rest) >>= _) = _
  rw [hlen, ok_bind]
  exact run_stop (.inr rfl)

/-! ## Building -/

theorem low7 (x : UInt32) :
    (x.toUInt8 &&& 0x7f).toNat = x.toNat % 128 := by
  rw [UInt8.toNat_and, UInt32.toNat_toUInt8]
  have := Nat.and_two_pow_sub_one_eq_mod (x.toNat % 2 ^ 8) 7
  rw [show UInt8.toNat 0x7f = 2 ^ 7 - 1 from rfl, this]
  omega

theorem lastByte_eq {x : UInt32} (h : x.toNat < 128) :
    x.toUInt8 &&& 0x7f = UInt8.ofNat x.toNat := by
  apply UInt8.toNat_inj.mp
  rw [low7, UInt8.toNat_ofNat']
  omega

theorem contByte_eq (x : UInt32) :
    (x.toUInt8 &&& 0x7f) ||| 0x80 = UInt8.ofNat (x.toNat % 128 + 128) := by
  apply UInt8.toNat_inj.mp
  have hlt : x.toNat % 128 < 2 ^ 7 := Nat.mod_lt _ (by decide)
  rw [UInt8.toNat_or, low7, UInt8.toNat_ofNat',
    show UInt8.toNat 0x80 = 2 ^ 7 * 1 from rfl, Nat.or_comm,
    ← Nat.two_pow_add_eq_or_of_lt hlt]
  omega

theorem shift_toNat (x : UInt32) {k : Nat} (hk : k < 32) :
    (x >>> UInt32.ofNat k).toNat = x.toNat / 2 ^ k := by
  rw [UInt32.toNat_shiftRight, UInt32.toNat_ofNat', Nat.shiftRight_eq_div_pow]
  congr 2
  omega

/-- **What `build_header` appends**: a type byte and the shortest digits of the
length; it fails, and appends nothing, when the length does not fit. -/
theorem buildHeader_eq (h : MqttHeader) (out : Bytes) :
    buildHeader h out = if h.dlen.toNat < 268435456
      then (true, h, out ++ firstByte h.type h.hflags :: Base128.encode h.dlen.toNat)
      else (false, h, out) := by
  have hflags : h.hflags ||| (h.hflags &&& 0x0f) = h.hflags := by
    generalize h.hflags = f
    revert f
    decide +kernel
  have h7 : (h.dlen >>> 7).toNat = h.dlen.toNat / 128 := shift_toNat _ (k := 7) (by decide)
  have h14 : (h.dlen >>> 14).toNat = h.dlen.toNat / 128 / 128 := by
    rw [Nat.div_div_eq_div_mul]
    exact shift_toNat _ (k := 14) (by decide)
  have h21 : (h.dlen >>> 21).toNat = h.dlen.toNat / 128 / 128 / 128 := by
    rw [Nat.div_div_eq_div_mul, Nat.div_div_eq_div_mul]
    exact shift_toNat _ (k := 21) (by decide)
  have hfirst : (h.dlen &&& 0x7f).toUInt8 = h.dlen.toUInt8 &&& 0x7f := by simp
  simp only [buildHeader, getHeaderFlags, hflags, UInt32.lt_iff_toNat_lt, hfirst,
    contByte_eq, h7, h14]
  by_cases h1 : h.dlen.toNat < 128
  · rw [if_pos (by simpa using h1), if_pos (by omega), lastByte_eq h1,
      Base128.encode_small h1]
  · rw [if_neg (by simpa using h1), Base128.encode_large (by omega)]
    by_cases h2 : h.dlen.toNat < 16384
    · rw [if_pos (by simpa using h2), if_pos (by omega),
        lastByte_eq (by rw [h7]; omega), h7, Base128.encode_small (by omega)]
    · rw [if_neg (by simpa using h2), Base128.encode_large (n := h.dlen.toNat / 128) (by omega)]
      by_cases h3 : h.dlen.toNat < 2097152
      · rw [if_pos (by simpa using h3), if_pos (by omega),
          lastByte_eq (by rw [h14]; omega), h14, Base128.encode_small (by omega)]
      · rw [if_neg (by simpa using h3),
          Base128.encode_large (n := h.dlen.toNat / 128 / 128) (by omega)]
        by_cases h4 : h.dlen.toNat < 268435456
        · rw [if_pos (by simpa using h4), if_pos h4,
            lastByte_eq (by rw [h21]; omega), h21, Base128.encode_small (by omega)]
        · rw [if_neg (by simpa using h4), if_neg h4]

/-- A header whose length fits is built. -/
theorem buildHeader_of {h : MqttHeader} {n : Nat} (hn : h.dlen.toNat = n)
    (hR : n < 268435456) (out : Bytes) :
    buildHeader h out = (true, h, out ++ firstByte h.type h.hflags :: Base128.encode n) := by
  rw [buildHeader_eq, hn, if_pos hR]

end MqttHeader

end Libnio.Mqtt
