import Libnio.Mqtt.Packet

/-!
# Mqtt — the grammar of the fixed header

`header_grammar`: the header parser finishes on the byte strings that start
with a header, fails on those that cannot become one, and waits on the rest.
`buildHeader_parses`: what `buildHeader` appends is such a header, and the
parser gives its values back.
-/

namespace Libnio.Mqtt

open Stream

theorem validType_iff (b : UInt8) :
    ValidType b ↔ 1 ≤ b.toNat / 16 ∧ b.toNat / 16 ≤ 14 := by
  obtain ⟨b⟩ := b
  revert b
  decide +kernel

theorem not_validType_iff (b : UInt8) :
    ¬ ValidType b ↔ b.toNat / 16 = 0 ∨ b.toNat / 16 = 15 := by
  have hb := b.toNat_lt
  rw [validType_iff]
  omega

theorem code_typeNibble {b : UInt8} (h : ValidType b) :
    (MqttType.ofCode (typeNibble b)).code.toNat = b.toNat / 16 := by
  obtain ⟨b⟩ := b
  revert b
  decide +kernel

theorem toNat_flagNibble (b : UInt8) : (flagNibble b).toNat = b.toNat % 16 := by
  obtain ⟨b⟩ := b
  revert b
  decide +kernel

/-- A fixed header at the front of `b`. -/
structure Spelled (b : Bytes) where
  first : UInt8
  more : Bytes
  last : UInt8
  rest : Bytes
  eq : b = first :: (more ++ last :: rest)
  type_pos : 1 ≤ first.toNat / 16
  type_le : first.toNat / 16 ≤ 14
  more_le : more.length ≤ 3
  goOn : ∀ c ∈ more, 128 ≤ c.toNat
  ends : last.toNat < 128

namespace Spelled

variable {b : Bytes}

/-- The bytes of the remaining length. -/
def digits (s : Spelled b) : Bytes := s.more ++ [s.last]

/-- The remaining length they stand for. -/
def dlen (s : Spelled b) : Nat :=
  ∑ i ∈ Finset.range s.digits.length, (s.digits.getD i 0).toNat % 128 * 128 ^ i

theorem digits_digits (s : Spelled b) : Base128.Digits s.digits :=
  Base128.digits_iff.mpr ⟨s.more, s.last, rfl, s.goOn, s.ends⟩

theorem length_digits (s : Spelled b) : s.digits.length ≤ 4 := by
  have := s.more_le
  simp only [digits, List.length_append, List.length_singleton]
  omega

theorem dlen_eq (s : Spelled b) : s.dlen = Base128.decode s.digits :=
  (Base128.decode_eq_sum s.digits).symm

theorem dlen_lt (s : Spelled b) : s.dlen < 2 ^ 28 := by
  rw [dlen_eq]
  calc Base128.decode s.digits
      < 128 ^ s.digits.length := Base128.decode_lt _
    _ ≤ 128 ^ 4 := Nat.pow_le_pow_right (by decide) s.length_digits
    _ = 2 ^ 28 := by decide

theorem eq_digits (s : Spelled b) : b = s.first :: (s.digits ++ s.rest) := by
  simpa [digits] using s.eq

end Spelled

/-- No header can stand at the front of `b`. -/
def Unspelled (b : Bytes) : Prop :=
  (∃ first rest, b = first :: rest ∧ (first.toNat / 16 = 0 ∨ first.toNat / 16 = 15)) ∨
  (∃ first more rest, b = first :: (more ++ rest) ∧ more.length = 4
    ∧ ∀ c ∈ more, 128 ≤ c.toNat)

namespace MqttHeader

/-! ## Bytes that go on -/

/-- The length loop over bytes with bit 7 set. -/
theorem eatLen_goOn {ms : Bytes} (hm : ∀ c ∈ ms, 128 ≤ c.toNat) (rest : Bytes)
    {h : MqttHeader} (hk : h.hlen + ms.length ≤ 4) :
    ∃ hbuf : Vector UInt8 4,
      eatLen h (ms ++ rest) = eatLen { h with hbuf, hlen := h.hlen + ms.length } rest
        ∧ (ms ≠ [] → hbuf.getD (h.hlen + ms.length - 1) 0 &&& 0x80 ≠ 0) := by
  induction ms generalizing h with
  | nil => exact ⟨h.hbuf, rfl, fun hne => absurd rfl hne⟩
  | cons b bs ih =>
      have hb : b &&& 0x80 ≠ 0 := by
        intro hc
        have := (bit7_clear b).mp hc
        have := hm b (by simp)
        omega
      have hlt : h.hlen < 4 := by
        simp only [List.length_cons] at hk
        omega
      have hsum : h.hlen + (b :: bs).length = h.hlen + 1 + bs.length := by
        simp only [List.length_cons]
        omega
      obtain ⟨hbuf, he, hl⟩ := ih (fun c hc => hm c (by simp [hc]))
        (h := { h with hbuf := h.hbuf.set h.hlen b hlt, hlen := h.hlen + 1 })
        (by rw [hsum] at hk; exact hk)
      have hstep : eatLen h (b :: bs ++ rest) = eatLen
          { h with hbuf := h.hbuf.set h.hlen b hlt, hlen := h.hlen + 1 } (bs ++ rest) := by
        rw [List.cons_append, eatLen, if_pos hlt, putLen_eq hlt, ok_bind, if_neg hb]
      rw [hsum, hstep]
      by_cases h0 : bs = []
      · -- the byte stored last is `b` itself
        subst h0
        exact ⟨h.hbuf.set h.hlen b hlt, rfl, fun _ => by simpa [Vector.getD, hlt] using hb⟩
      · exact ⟨hbuf, he, fun _ => hl h0⟩

/-- The length parser on fewer than four bytes that go on. -/
theorem updateHeaderLen_goOn {h : MqttHeader} (h0 : h.hlen = 0) {ms : Bytes}
    (hm : ∀ c ∈ ms, 128 ≤ c.toNat) (hne : ms ≠ []) (hk : ms.length < 4) :
    ∃ hbuf : Vector UInt8 4,
      updateHeaderLen h ms = .ok ({ h with hbuf, hlen := ms.length }, []) := by
  have hpos := List.length_pos_iff.mpr hne
  obtain ⟨hbuf, he, hlast⟩ := eatLen_goOn hm [] (h := h) (by omega)
  simp only [h0, Nat.zero_add, List.append_nil, eatLen] at he hlast
  have hload := getD_last (h := { h with hbuf, hlen := ms.length }) (by simp; omega) hpos
  refine ⟨hbuf, ?_⟩
  simp only [updateHeaderLen, h0, he, ok_bind, hload, assertThat_true hne,
    assertThat_true (show ms.length > 0 ∧ ms.length ≤ 4 from ⟨hpos, by omega⟩),
    if_pos (hlast hne), if_neg (show ¬ ms.length = 4 by omega), assertThat_true]
  rfl

/-- The length parser on four bytes that go on. -/
theorem updateHeaderLen_long {h : MqttHeader} (h0 : h.hlen = 0) {ms : Bytes}
    (hm : ∀ c ∈ ms, 128 ≤ c.toNat) (hk : ms.length = 4) (rest : Bytes) :
    updateHeaderLen h (ms ++ rest) = .error (.error "invalid header len") := by
  have hne : ms ≠ [] := by
    intro hc
    simp [hc] at hk
  obtain ⟨hbuf, he, hlast⟩ := eatLen_goOn hm rest (h := h) (by omega)
  have hfull : ∀ data, eatLen { h with hbuf, hlen := 4 } data
      = .ok ({ h with hbuf, hlen := 4 }, data) := by
    intro data
    cases data with
    | nil => rfl
    | cons c cs => exact if_neg (Nat.lt_irrefl 4)
  simp only [h0, hk, Nat.zero_add, hfull] at he hlast
  have hload := getD_last (h := { h with hbuf, hlen := 4 }) (Nat.le_refl 4) (show 0 < 4 by decide)
  simp only [updateHeaderLen, h0, he, ok_bind, hload,
    assertThat_true (show ms ++ rest ≠ [] by simp [hne]),
    if_pos (hlast hne)]
  rfl

/-! ## Runs that do not finish -/

theorem inv_typed (h : MqttHeader) (b : UInt8) : Inv (typed h b) :=
  fun _ _ => by simp [more, typed]

theorem run_reserved {h : MqttHeader} (hh : h.Ready) {b : UInt8} (hb : ¬ ValidType b)
    (data : Bytes) : run h (b :: data) = .error (.error "") := by
  rw [run, header_resumable.run_go hh.inv hh.2 (by simp), handlers, hh.1]
  simp only [updateHeaderType_cons, if_neg hb, error_bind]

/-- The step over a type byte. -/
theorem run_typed {h : MqttHeader} (hh : h.Ready) {b : UInt8} (hb : ValidType b)
    (data : Bytes) : run h (b :: data) = run (typed h b) data := by
  rw [run, header_resumable.run_go hh.inv hh.2 (by simp), handlers, hh.1]
  simp only [updateHeaderType_cons, if_pos hb, ok_bind]
  rfl

theorem run_goOn {h : MqttHeader} (hh : h.Ready) {b : UInt8} (hb : ValidType b)
    {ms : Bytes} (hm : ∀ c ∈ ms, 128 ≤ c.toNat) (hk : ms.length < 4) :
    ∃ h', run h (b :: ms) = .ok (h', []) ∧ h'.finished = false := by
  rw [run_typed hh hb]
  by_cases h0 : ms = []
  · subst h0
    exact ⟨typed h b, run_stop (.inl rfl), hh.2⟩
  · obtain ⟨hbuf, hlen⟩ := updateHeaderLen_goOn (h := typed h b) rfl hm h0 hk
    refine ⟨{ typed h b with hbuf, hlen := ms.length }, ?_, hh.2⟩
    rw [run, header_resumable.run_go (inv_typed h b) hh.2 h0]
    change (updateHeaderLen (typed h b) ms >>= _) = _
    rw [hlen, ok_bind]
    exact run_stop (.inl rfl)

theorem run_long {h : MqttHeader} (hh : h.Ready) {b : UInt8} (hb : ValidType b)
    {ms : Bytes} (hm : ∀ c ∈ ms, 128 ≤ c.toNat) (hk : ms.length = 4)
    (rest : Bytes) :
    run h (b :: (ms ++ rest)) = .error (.error "invalid header len") := by
  have hne : ms ++ rest ≠ [] := by
    intro hc
    simp [(List.append_eq_nil_iff.mp hc).1] at hk
  rw [run_typed hh hb, run, header_resumable.run_go (inv_typed h b) hh.2 hne]
  change (updateHeaderLen (typed h b) (ms ++ rest) >>= _) = _
  rw [updateHeaderLen_long rfl hm hk, error_bind]

/-- The run over bytes that start with a header. -/
theorem run_spelled {h : MqttHeader} (hh : h.Ready) {b : Bytes} (s : Spelled b) :
    ∃ h' : MqttHeader, run h b = .ok (h', s.rest) ∧ h'.finished = true
      ∧ h'.type.code.toNat = s.first.toNat / 16
      ∧ h'.hflags.toNat = s.first.toNat % 16 ∧ h'.dlen.toNat = s.dlen := by
  have hv : ValidType s.first := (validType_iff s.first).mpr ⟨s.type_pos, s.type_le⟩
  obtain ⟨hbuf, hrun⟩ := run_packet hh.1 hh.2 hv s.digits_digits s.length_digits s.rest
  have hlt := s.dlen_lt
  rw [s.dlen_eq] at hlt
  rw [← s.eq_digits] at hrun
  refine ⟨_, hrun, rfl, code_typeNibble hv, toNat_flagNibble s.first, ?_⟩
  rw [UInt32.toNat_ofNat', Nat.mod_eq_of_lt (by omega), s.dlen_eq]

theorem run_unspelled {h : MqttHeader} (hh : h.Ready) {b : Bytes} (hb : Unspelled b) :
    ∃ text, run h b = .error (.error text) := by
  rcases hb with ⟨first, rest, rfl, hf⟩ | ⟨first, ms, rest, rfl, hk, hms⟩
  · exact ⟨_, run_reserved hh ((not_validType_iff first).mpr hf) rest⟩
  · by_cases hv : ValidType first
    · exact ⟨_, run_long hh hv hms hk rest⟩
    · exact ⟨_, run_reserved hh hv _⟩

/-- Bytes start with a header, rule one out, or wait for more. -/
theorem spelled_cases {h : MqttHeader} (hh : h.Ready) (b : Bytes) :
    Nonempty (Spelled b) ∨ Unspelled b ∨
      ∃ h', run h b = .ok (h', []) ∧ h'.finished = false := by
  cases b with
  | nil => exact .inr (.inr ⟨h, run_stop (.inl rfl), hh.2⟩)
  | cons first data =>
      by_cases hv : ValidType first
      · rcases Base128.front_cases 4 data with
          ⟨ds, rest, rfl, hds, hk⟩ | ⟨ms, rest, rfl, hk, hms⟩ | ⟨hk, hms⟩
        · obtain ⟨more, last, rfl, hmore, hlast⟩ := Base128.digits_iff.mp hds
          have htype := (validType_iff first).mp hv
          have hle : more.length ≤ 3 := by
            rw [List.length_append, List.length_singleton] at hk
            omega
          exact .inl ⟨{ first, more, last, rest, eq := by simp, type_pos := htype.1,
                        type_le := htype.2, more_le := hle, goOn := hmore, ends := hlast }⟩
        · exact .inr (.inl (.inr ⟨first, ms, rest, rfl, hk, hms⟩))
        · exact .inr (.inr (run_goOn hh hv hms hk))
      · exact .inr (.inl (.inl ⟨first, data, rfl, (not_validType_iff first).mp hv⟩))

/-- Non-empty reads with nothing in them are no reads. -/
theorem reads_eq_nil {left : List Bytes} (hn : ∀ data ∈ left, data ≠ [])
    (hf : left.flatten = []) : left = [] := by
  cases left with
  | nil => rfl
  | cons data left =>
      rw [List.flatten_cons, List.append_eq_nil_iff] at hf
      exact absurd hf.1 (hn data (by simp))

/-- **The header parser accepts exactly its grammar.** However the bytes are cut
into reads, a new or reset header finishes if and only if they start with a
header, with its values and exactly the rest left over; it returns -1 if and
only if they rule one out; else it has taken everything and waits. -/
theorem header_grammar (h : MqttHeader) (hh : (∃ t, h = new t) ∨ ∃ h0, h = reset h0)
    (reads : List Bytes) (hr : ∀ data ∈ reads, data ≠ []) :
    ((∃ h' left, feed finished update h reads = .ok (h', left) ∧ h'.finished = true)
        ↔ Nonempty (Spelled reads.flatten))
      ∧ (∀ s : Spelled reads.flatten, s.dlen < 2 ^ 28 ∧ ∃ h' left,
          feed finished update h reads = .ok (h', left) ∧ h'.finished = true
            ∧ h'.getType.code.toNat = s.first.toNat / 16
            ∧ h'.getHeaderFlags.toNat = s.first.toNat % 16
            ∧ h'.getRemainingLength.toNat = s.dlen ∧ left.flatten = s.rest)
      ∧ ((∃ text, feed finished update h reads = .error (.error text))
        ↔ Unspelled reads.flatten)
      ∧ (¬ Nonempty (Spelled reads.flatten) → ¬ Unspelled reads.flatten →
        ∃ h', feed finished update h reads = .ok (h', []) ∧ h'.finished = false) := by
  have hready : h.Ready := by
    rcases hh with ⟨t, rfl⟩ | ⟨h0, rfl⟩
    · exact ready_new t
    · exact ready_reset h0
  have hspelled : ∀ s : Spelled reads.flatten, ∃ h' left,
      feed finished update h reads = .ok (h', left) ∧ h'.finished = true
        ∧ h'.getType.code.toNat = s.first.toNat / 16
        ∧ h'.getHeaderFlags.toNat = s.first.toNat % 16
        ∧ h'.getRemainingLength.toNat = s.dlen ∧ left.flatten = s.rest := by
    intro s
    obtain ⟨h', hrun, hfin, ht, hf, hd⟩ := run_spelled hready s
    obtain ⟨left, hfeed, hleft, -⟩ :=
      feed_eq_ok header_lawful update_eq_run hready.inv hr hrun
    exact ⟨h', left, hfeed, hfin, ht, hf, hd, hleft⟩
  have hun : Unspelled reads.flatten →
      ∃ text, feed finished update h reads = .error (.error text) := by
    intro hb
    obtain ⟨text, hrun⟩ := run_unspelled hready hb
    exact ⟨text, feed_eq_error header_lawful update_eq_run hready.inv hr hrun⟩
  have hwait : (∃ h', run h reads.flatten = .ok (h', []) ∧ h'.finished = false) →
      ∃ h', feed finished update h reads = .ok (h', []) ∧ h'.finished = false := by
    rintro ⟨h', hrun, hfin⟩
    obtain ⟨left, hfeed, hleft, hne⟩ :=
      feed_eq_ok header_lawful update_eq_run hready.inv hr hrun
    rw [reads_eq_nil hne hleft] at hfeed
    exact ⟨h', hfeed, hfin⟩
  -- the three outcomes exclude each other
  refine ⟨⟨?_, ?_⟩, fun s => ⟨s.dlen_lt, hspelled s⟩, ⟨?_, hun⟩, ?_⟩
  · rintro ⟨h', left, hfeed, hfin⟩
    rcases spelled_cases hready reads.flatten with hs | hb | hw
    · exact hs
    · obtain ⟨text, he⟩ := hun hb
      simp [he] at hfeed
    · obtain ⟨h1, h1feed, h1fin⟩ := hwait hw
      rw [hfeed] at h1feed
      cases h1feed
      rw [hfin] at h1fin
      cases h1fin
  · rintro ⟨s⟩
    obtain ⟨h', left, hfeed, hfin, -⟩ := hspelled s
    exact ⟨h', left, hfeed, hfin⟩
  · rintro ⟨text, he⟩
    rcases spelled_cases hready reads.flatten with ⟨⟨s⟩⟩ | hb | hw
    · obtain ⟨h', left, hfeed, -⟩ := hspelled s
      simp [hfeed] at he
    · exact hb
    · obtain ⟨h1, h1feed, -⟩ := hwait hw
      simp [h1feed] at he
  · intro hns hnu
    rcases spelled_cases hready reads.flatten with hs | hb | hw
    · exact absurd hs hns
    · exact absurd hb hnu
    · exact hwait hw

/-- A PUBLISH header of body length 128, and one byte more. -/
def spelledPublish : Spelled [0x3a, 0x80, 0x01, 0x07] :=
  { first := 0x3a, more := [0x80], last := 0x01, rest := [0x07], eq := rfl,
    type_pos := by decide, type_le := by decide, more_le := by decide,
    goOn := by simp, ends := by decide }

theorem header_grammar_publish : ∃ h' left,
    feed finished update (new .reservedMin) [[0x3a, 0x80], [0x01, 0x07]] = .ok (h', left)
      ∧ h'.finished = true ∧ h'.getType.code.toNat = 3 ∧ h'.getHeaderFlags.toNat = 10
      ∧ h'.getRemainingLength.toNat = 128 ∧ left.flatten = [0x07] :=
  ((header_grammar (new .reservedMin) (.inl ⟨.reservedMin, rfl⟩) [[0x3a, 0x80], [0x01, 0x07]]
    (by simp)).2.1 spelledPublish).2

/-! ## Headers that are built -/

/-- The setters of the flags. -/
inductive FlagCall where
  | setHeaderFlags (flags : UInt8)
  | setQos (qos : MqttQos)
  | setDup (yes : Bool)
  | setRemain (yes : Bool)
deriving DecidableEq, Repr

def FlagCall.apply (h : MqttHeader) : FlagCall → MqttHeader
  | setHeaderFlags flags => h.setHeaderFlags flags
  | setQos qos => h.setQos qos
  | setDup yes => h.setDup yes
  | setRemain yes => h.setRemain yes

/-- A setter of the flags leaves the type alone. -/
theorem FlagCall.apply_type (h : MqttHeader) (c : FlagCall) : (c.apply h).type = h.type := by
  cases c with
  | setHeaderFlags flags => rfl
  | setQos qos => cases qos <;> rfl
  | setDup yes => cases yes <;> rfl
  | setRemain yes => cases yes <;> rfl

theorem calls_type (calls : List FlagCall) (h : MqttHeader) :
    (calls.foldl FlagCall.apply h).type = h.type := by
  induction calls generalizing h with
  | nil => rfl
  | cons c calls ih => rw [List.foldl_cons, ih, FlagCall.apply_type]

theorem toNat_firstByte (t : MqttType) (f : BitVec 4) :
    (firstByte t f).toNat = 16 * t.code.toNat + f.toNat := by
  revert f
  cases t <;> decide +kernel

/-- The run over a header that was built. -/
theorem run_built {h : MqttHeader} (hh : h.Ready) {t : MqttType} (h0 : t ≠ .reservedMin)
    (h1 : t ≠ .reservedMax) (f : BitVec 4) {n : Nat} (hn : n < 268435456) (rest : Bytes) :
    ∃ h' : MqttHeader, run h (firstByte t f :: (Base128.encode n ++ rest)) = .ok (h', rest)
      ∧ h'.finished = true ∧ h'.type = t ∧ h'.hflags = f ∧ h'.dlen = UInt32.ofNat n := by
  obtain ⟨hv, ht, hf⟩ := firstByte_type f h0 h1
  obtain ⟨hbuf, hrun⟩ := run_packet hh.1 hh.2 hv (Base128.digits_encode n)
    (Base128.length_encode_le (by decide) (by omega)) rest
  rw [ht, hf, Base128.decode_encode] at hrun
  exact ⟨_, hrun, rfl, rfl, rfl, rfl⟩

/-- **`build_header` is right-inverted by the parser.** It succeeds if and only if
the length is below 2^28; then it appends a type byte and the shortest digits of
the length, and a reset header, however these and what follows are cut, gives
back type, flags and length. When it fails nothing is appended. -/
theorem buildHeader_parses (t : MqttType) (h0 : t ≠ .reservedMin) (h1 : t ≠ .reservedMax)
    (calls : List FlagCall) (n : UInt32) (out : Bytes) (h : MqttHeader)
    (hh : h = (calls.foldl FlagCall.apply (new t)).setRemaingLength n) :
    ((buildHeader h out).1 = true ↔ n.toNat < 2 ^ 28)
      ∧ ((buildHeader h out).1 = false → (buildHeader h out).2.2 = out)
      ∧ ((buildHeader h out).1 = true → ∃ first ds,
          (buildHeader h out).2.2 = out ++ first :: ds
            ∧ first.toNat = 16 * t.code.toNat + h.getHeaderFlags.toNat
            ∧ Base128.Digits ds ∧ Base128.decode ds = n.toNat
            ∧ (∀ ds', Base128.Digits ds' → Base128.decode ds' = n.toNat →
                ds.length ≤ ds'.length)
            ∧ ∀ (p : MqttHeader) (suffix : Bytes) (reads : List Bytes),
                (∀ data ∈ reads, data ≠ []) → reads.flatten = first :: ds ++ suffix →
                ∃ h' left, feed finished update p.reset reads = .ok (h', left)
                  ∧ h'.finished = true ∧ h'.getType = t
                  ∧ h'.getHeaderFlags = h.getHeaderFlags
                  ∧ h'.getRemainingLength = n ∧ left.flatten = suffix) := by
  have htype : h.type = t := by rw [hh]; exact calls_type calls (new t)
  have hdlen : h.dlen = n := by rw [hh]; rfl
  have hbuild := buildHeader_eq h out
  rw [hdlen, htype] at hbuild
  by_cases hn : n.toNat < 268435456
  · rw [if_pos hn] at hbuild
    rw [hbuild]
    refine ⟨by simpa using hn, fun hc => (by cases hc), fun _ => ?_⟩
    refine ⟨firstByte t h.hflags, Base128.encode n.toNat, rfl, toNat_firstByte t h.hflags,
      Base128.digits_encode _, Base128.decode_encode _, ?_, ?_⟩
    · intro ds' hds' hdec
      rw [← hdec]
      exact hds'.length_encode_le
    · intro p suffix reads hr hflat
      obtain ⟨h', hrun, hfin, ht, hf, hd⟩ :=
        run_built (ready_reset p) h0 h1 h.hflags hn suffix
      rw [List.cons_append] at hflat
      rw [← hflat] at hrun
      obtain ⟨left, hfeed, hleft, -⟩ :=
        feed_eq_ok header_lawful update_eq_run (ready_reset p).inv hr hrun
      exact ⟨h', left, hfeed, hfin, ht, hf, hd.trans UInt32.ofNat_toNat, hleft⟩
  · rw [if_neg hn] at hbuild
    rw [hbuild]
    exact ⟨by simpa using hn, fun _ => rfl, fun hc => (by cases hc)⟩

/-- A PUBLISH header of QoS 1 at the first length that takes two digits. -/
theorem buildHeader_parses_publish :
    (buildHeader (([FlagCall.setQos .qos1, .setDup true].foldl FlagCall.apply
      (new .publish)).setRemaingLength 128) []).1 = true :=
  (buildHeader_parses .publish (by decide) (by decide) [.setQos .qos1, .setDup true] 128 []
    _ rfl).1.mpr (by decide)

end MqttHeader

end Libnio.Mqtt
