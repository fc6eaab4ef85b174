import Libnio.Mqtt.HeaderFacts

/-!
# Mqtt — whole packets

A packet is parsed by `mqtt_header::update` and then, from the byte after the
header on, by `update` of the message object made from that header.
-/

namespace Libnio.Mqtt

open Stream

/-- A header object as it is constructed or reset. -/
def MqttHeader.Ready (h : MqttHeader) : Prop := h.status = .hdrType ∧ h.finished = false

theorem MqttHeader.ready_new (t : MqttType) : (new t).Ready := ⟨rfl, rfl⟩

theorem MqttHeader.ready_reset (h : MqttHeader) : h.reset.Ready := ⟨rfl, rfl⟩

theorem MqttHeader.Ready.inv {h : MqttHeader} (hh : h.Ready) : h.Inv :=
  fun hs => by simp [hh.1] at hs

theorem MqttHeader.update_eq_run (h : MqttHeader) (data : Bytes) (hd : data ≠ []) :
    h.update data = h.run data := if_neg hd

/-- The parser of one message class. -/
structure MessageParser (σ : Type) where
  ofHeader : MqttHeader → σ
  finished : σ → Bool
  update : σ → Bytes → Except Stop (σ × Bytes)
  /-- The loop of `update`. -/
  run : σ → Bytes → Except Stop (σ × Bytes)
  Inv : σ → Prop
  update_eq : ∀ m data, data ≠ [] → update m data = run m data
  lawful : Lawful finished run Inv
  inv_ofHeader : ∀ header, Inv (ofHeader header)

namespace MessageParser

variable {σ : Type}

/-- Feed reads to the header until it is finished, and what is left of them to
the message. -/
def parse (p : MessageParser σ) (h : MqttHeader) (reads : List Bytes) :
    Except Stop (MqttHeader × σ × List Bytes) := do
  let (header, reads) ← feed MqttHeader.finished MqttHeader.update h reads
  let (m, reads) ← feed p.finished p.update (p.ofHeader header) reads
  return (header, m, reads)

/-- What `parse` comes to, with the bytes left over in one piece. -/
def outcome (p : MessageParser σ) (h : MqttHeader) (reads : List Bytes) :
    Except Stop (MqttHeader × σ × Bytes) :=
  (p.parse h reads).map fun r => (r.1, r.2.1, r.2.2.flatten)

theorem outcome_eq (p : MessageParser σ) {h : MqttHeader} (hi : h.Inv)
    {reads : List Bytes} (hr : ∀ data ∈ reads, data ≠ []) {header : MqttHeader}
    {rest : Bytes} (hrun : h.run reads.flatten = .ok (header, rest)) :
    p.outcome h reads
      = (p.run (p.ofHeader header) rest).map fun r => (header, r.1, r.2) := by
  obtain ⟨reads', hf, hrest, hne⟩ :=
    feed_eq_ok MqttHeader.header_lawful MqttHeader.update_eq_run hi hr hrun
  have hmsg := feed_flatten p.lawful p.update_eq (p.inv_ofHeader header) reads' hne
  rw [hrest] at hmsg
  simp only [outcome, parse, hf, ok_bind, ← hmsg]
  cases feed p.finished p.update (p.ofHeader header) reads' <;> rfl

/-- **What becomes of a packet**: the header is finished with the values of its
bytes, and the message runs over what follows. -/
theorem outcome_packet (p : MessageParser σ) {h : MqttHeader} (hh : h.Ready) {b : UInt8}
    (hb : ValidType b) {ds : Bytes} (hds : Base128.Digits ds) (h4 : ds.length ≤ 4)
    {body : Bytes} {reads : List Bytes} (hr : ∀ data ∈ reads, data ≠ [])
    (hflat : reads.flatten = b :: (ds ++ body)) :
    ∃ header : MqttHeader, header.finished = true
      ∧ header.type = MqttType.ofCode (typeNibble b) ∧ header.hflags = flagNibble b
      ∧ header.dlen = UInt32.ofNat (Base128.decode ds)
      ∧ p.outcome h reads
        = (p.run (p.ofHeader header) body).map fun r => (header, r.1, r.2) := by
  obtain ⟨hbuf, hrun⟩ := MqttHeader.run_packet hh.1 hh.2 hb hds h4 body
  rw [← hflat] at hrun
  exact ⟨_, rfl, rfl, rfl, rfl, p.outcome_eq hh.inv hr hrun⟩

/-- What becomes of a packet whose header was built. -/
theorem outcome_built (p : MessageParser σ) {h : MqttHeader} (hh : h.Ready) {t : MqttType}
    (h0 : t ≠ .reservedMin) (h1 : t ≠ .reservedMax) (f : BitVec 4) {n : Nat}
    (hn : n < 268435456) {body : Bytes} {reads : List Bytes}
    (hr : ∀ data ∈ reads, data ≠ [])
    (hflat : reads.flatten = MqttHeader.firstByte t f :: (Base128.encode n ++ body)) :
    ∃ header : MqttHeader, header.finished = true ∧ header.type = t ∧ header.hflags = f
      ∧ header.dlen = UInt32.ofNat n
      ∧ p.outcome h reads
        = (p.run (p.ofHeader header) body).map fun r => (header, r.1, r.2) := by
  obtain ⟨hv, ht, hf⟩ := MqttHeader.firstByte_type f h0 h1
  obtain ⟨header, hfin, htype, hflags, hlen, hout⟩ := p.outcome_packet hh hv
    (Base128.digits_encode n) (Base128.length_encode_le (by decide) (by omega)) hr hflat
  rw [ht] at htype
  rw [hf] at hflags
  rw [Base128.decode_encode] at hlen
  exact ⟨header, hfin, htype, hflags, hlen, hout⟩

/-- A parse is its outcome with the bytes left over still in reads. -/
theorem parse_of_outcome {p : MessageParser σ} {h header : MqttHeader}
    {reads : List Bytes} {m : σ} {rest : Bytes}
    (ho : p.outcome h reads = .ok (header, m, rest)) :
    ∃ reads', p.parse h reads = .ok (header, m, reads') ∧ reads'.flatten = rest := by
  unfold outcome at ho
  cases hp : p.parse h reads with
  | error e => simp [hp, Except.map] at ho
  | ok r =>
      obtain ⟨header', m', reads'⟩ := r
      simp only [hp, Except.map, Except.ok.injEq, Prod.mk.injEq] at ho
      obtain ⟨rfl, rfl, rfl⟩ := ho
      exact ⟨reads', rfl, rfl⟩

theorem outcome_of_parse {p : MessageParser σ} {h header : MqttHeader}
    {reads reads' : List Bytes} {m : σ} (hp : p.parse h reads = .ok (header, m, reads')) :
    p.outcome h reads = .ok (header, m, reads'.flatten) := by
  simp [outcome, hp, Except.map]

/-- The packet is parsed to a message with `P`: whatever follows it and however
both are cut into reads, header and message finish, and what follows is left
over. -/
def Parses (p : MessageParser σ) (packet : Bytes) (P : σ → Prop) : Prop :=
  ∀ (h : MqttHeader) (rest : Bytes) (reads : List Bytes), h.Ready →
    (∀ data ∈ reads, data ≠ []) → reads.flatten = packet ++ rest →
    ∃ header m reads', p.parse h reads = .ok (header, m, reads')
      ∧ header.finished = true ∧ p.finished m = true ∧ reads'.flatten = rest ∧ P m

/-- It is enough to run the message over the body. -/
theorem parses_built {p : MessageParser σ} {t : MqttType} (h0 : t ≠ .reservedMin)
    (h1 : t ≠ .reservedMax) {f : BitVec 4} {body : Bytes} {n : Nat}
    (hn : n < 268435456) {P : σ → Prop}
    (hrun : ∀ header : MqttHeader, header.type = t → header.hflags = f →
      header.dlen.toNat = n → ∃ m, p.finished m = true ∧ P m ∧
        ∀ rest, p.run (p.ofHeader header) (body ++ rest) = .ok (m, rest)) :
    p.Parses (MqttHeader.firstByte t f :: (Base128.encode n ++ body)) P := by
  intro h rest reads hh hr hflat
  obtain ⟨header, hfin, htype, hflags, hdlen, ho⟩ := p.outcome_built hh h0 h1 f hn
    hr (show reads.flatten = _ :: (_ ++ (body ++ rest)) by rw [hflat]; simp)
  obtain ⟨m, hf, hP, hm⟩ := hrun header htype hflags
    (by rw [hdlen, UInt32.toNat_ofNat']; omega)
  rw [hm rest] at ho
  obtain ⟨reads', hparse, hrest⟩ := parse_of_outcome ho
  exact ⟨header, m, reads', hparse, hfin, hf, hrest, hP⟩

/-- The packet alone, in one read: the message runs over its body. -/
theorem run_of_parses {p : MessageParser σ} {t : MqttType} (h0 : t ≠ .reservedMin)
    (h1 : t ≠ .reservedMax) {f : BitVec 4} {body : Bytes} {n : Nat} (hn : n < 268435456)
    {P : σ → Prop} (h : p.Parses (MqttHeader.firstByte t f :: (Base128.encode n ++ body)) P) :
    ∃ (header : MqttHeader) (m : σ), header.dlen = UInt32.ofNat n ∧ p.finished m = true ∧ P m ∧
      p.run (p.ofHeader header) body = .ok (m, []) := by
  obtain ⟨packet, hpacket⟩ : ∃ packet, packet
      = MqttHeader.firstByte t f :: (Base128.encode n ++ body) := ⟨_, rfl⟩
  rw [← hpacket] at h
  have hr : ∀ data ∈ [packet], data ≠ [] := by simp [hpacket]
  obtain ⟨header, m, reads', hp, -, hfin, hrest, hP⟩ := h (MqttHeader.new .reservedMin) []
    [packet] (MqttHeader.ready_new _) hr (by simp)
  obtain ⟨header', -, -, -, hdlen, ho⟩ := p.outcome_built (MqttHeader.ready_new .reservedMin)
    h0 h1 f hn hr (show [packet].flatten = _ from List.flatten_singleton.trans hpacket)
  rw [outcome_of_parse hp, hrest] at ho
  cases hrun : p.run (p.ofHeader header') body with
  | error e => simp [hrun, Except.map] at ho
  | ok r =>
      simp only [hrun, Except.map, Except.ok.injEq, Prod.mk.injEq] at ho
      obtain ⟨-, rfl, hr⟩ := ho
      exact ⟨header', r.1, hdlen, hfin, hP, by rw [hrun, hr]⟩

end MessageParser

end Libnio.Mqtt
