import Libnio.Mqtt.HeaderGrammar
import Libnio.Mqtt.SubscribeFacts

/-!
# Mqtt — the return codes of a SUBACK

`suback_codes_iff`: the list that a SUBACK is parsed to has an entry for every
return code, and the entries are the codes as long as none of them is 0x80.
-/

namespace Libnio.Mqtt

open Stream

namespace MqttSuback

/-- Whatever packet carries the return codes, it is parsed to these QoSes. -/
def Decodes (codes : Bytes) (qoses : List MqttQos) : Prop :=
  ∀ (b : UInt8) (ds : Bytes) (i0 i1 : UInt8), b.toNat / 16 = 9 → Base128.Digits ds →
    ds.length ≤ 4 → Base128.decode ds = 2 + codes.length →
    parser.Parses (b :: (ds ++ (i0 :: i1 :: codes))) fun m => m.qoses = qoses

/-- The QoSes are the return codes, one by one. -/
def CodesKept (codes : Bytes) : Prop :=
  ∃ qoses, Decodes codes qoses ∧ qoses.length = codes.length ∧
    ∀ (i : Nat) (k : MqttQos), qoses[i]? = some k → codes[i]? = some k.code

/-- The run over a body of return codes. -/
theorem run_codes {header : MqttHeader} {codes : Bytes} (hne : codes ≠ [])
    (hn : 2 + codes.length < 268435456) (hd : header.dlen.toNat = 2 + codes.length)
    (i0 i1 : UInt8) :
    ∃ m, m.finished = true ∧ m.qoses = codes.map decodeQos ∧
      ∀ rest, run (ofHeader header) (i0 :: i1 :: (codes ++ rest)) = .ok (m, rest) := by
  have hat := atQos_afterPktId header i0 i1
  rw [hd] at hat
  obtain ⟨m, hf, hq, -, hrun⟩ := run_qoses hat hn hne rfl
  have hpos := List.length_pos_iff.mpr hne
  refine ⟨m, hf, hq, fun rest => ?_⟩
  rw [run_pktId, if_neg (by omega), hrun]

/-- **What a SUBACK is parsed to**: its return codes through the range test. -/
theorem decodes_codes {codes : Bytes} (hne : codes ≠ [])
    (hn : 2 + codes.length < 268435456) : Decodes codes (codes.map decodeQos) := by
  intro b ds i0 i1 hb hds h4 hdec h rest reads hh hr hflat
  have hv : ValidType b := (validType_iff b).mpr (by omega)
  obtain ⟨header, hfin, -, -, hdlen, ho⟩ := parser.outcome_packet hh hv hds h4 hr
    (show reads.flatten = b :: (ds ++ (i0 :: i1 :: (codes ++ rest))) by rw [hflat]; simp)
  have hd : header.dlen.toNat = 2 + codes.length := by
    rw [hdlen, UInt32.toNat_ofNat', hdec]
    omega
  obtain ⟨m, hf, hq, hrun⟩ := run_codes hne hn hd i0 i1
  rw [parser_run, hrun rest] at ho
  obtain ⟨left, hparse, hleft⟩ := MessageParser.parse_of_outcome ho
  exact ⟨header, m, left, hparse, hfin, hf, hleft, hq⟩

/-- A packet that carries return codes is parsed to one list only. -/
theorem Decodes.eq {codes : Bytes} {qoses : List MqttQos} (hne : codes ≠ [])
    (hn : 2 + codes.length < 268435456) (h : Decodes codes qoses) :
    qoses = codes.map decodeQos := by
  have hds := Base128.digits_encode (2 + codes.length)
  have h4 : (Base128.encode (2 + codes.length)).length ≤ 4 :=
    Base128.length_encode_le (by decide) (by omega)
  have hdec := Base128.decode_encode (2 + codes.length)
  -- the packet in one read, and nothing after it
  have hr : ∀ data ∈ [0x90 :: (Base128.encode (2 + codes.length) ++ (0 :: 0 :: codes))],
      data ≠ [] := by simp
  obtain ⟨_, m, _, hp, -, -, -, hq⟩ := h 0x90 _ 0 0 (by decide) hds h4 hdec _ [] _
    (MqttHeader.ready_new .reservedMin) hr (by simp)
  obtain ⟨_, m', _, hp', -, -, -, hq'⟩ := decodes_codes hne hn 0x90 _ 0 0 (by decide) hds h4
    hdec _ [] _ (MqttHeader.ready_new .reservedMin) hr (by simp)
  rw [hp] at hp'
  cases hp'
  exact hq.symm.trans hq'

/-- The return codes of the protocol. -/
def ReturnCodes (codes : Bytes) : Prop :=
  codes ≠ [] ∧ 2 + codes.length < 268435456 ∧ ∀ c ∈ codes, c = 0 ∨ c = 1 ∨ c = 2 ∨ c = 0x80

/-- Return codes that grant something are kept by the range test. -/
theorem code_decodeQos {c : UInt8} (hc : c = 0 ∨ c = 1 ∨ c = 2) :
    (decodeQos c).code = c := by
  rcases hc with rfl | rfl | rfl <;> decide

theorem map_code_decodeQos {codes : Bytes} (hc : ReturnCodes codes) (h : 0x80 ∉ codes) :
    (codes.map decodeQos).map MqttQos.code = codes := by
  rw [List.map_map]
  refine (List.map_congr_left fun c hm => ?_).trans (List.map_id codes)
  rcases hc.2.2 c hm with h0 | h1 | h2 | h80
  · exact code_decodeQos (.inl h0)
  · exact code_decodeQos (.inr (.inl h1))
  · exact code_decodeQos (.inr (.inr h2))
  · rw [h80] at hm
    exact absurd hm h

theorem codesKept_of {codes : Bytes} (hc : ReturnCodes codes) (h : 0x80 ∉ codes) :
    CodesKept codes := by
  refine ⟨_, decodes_codes hc.1 hc.2.1, by simp, fun i k hi => ?_⟩
  rw [← map_code_decodeQos hc h, List.getElem?_map, hi]
  rfl

/-- A failure is turned into QoS 0. -/
theorem not_codesKept_of {codes : Bytes} (hc : ReturnCodes codes) (h : 0x80 ∈ codes) :
    ¬ CodesKept codes := by
  rintro ⟨qoses, hdec, -, hkept⟩
  obtain ⟨i, hi⟩ := List.mem_iff_getElem?.mp h
  have hq : qoses[i]? = some .qos0 := by
    rw [hdec.eq hc.1 hc.2.1, List.getElem?_map, hi]
    rfl
  have h80 := hkept i .qos0 hq
  rw [hi] at h80
  cases h80

/-- **Return codes are kept if and only if none of them is the failure**, and then
different codes are parsed to different lists. The range test lets QoS 0 stand
for 0x80, as for any byte that is no QoS. -/
theorem suback_codes_iff (codes codes' : Bytes) (hc : ReturnCodes codes)
    (hc' : ReturnCodes codes') :
    (CodesKept codes ↔ 0x80 ∉ codes)
      ∧ (0x80 ∉ codes → 0x80 ∉ codes' → codes ≠ codes' → ∀ qoses qoses',
          Decodes codes qoses → Decodes codes' qoses' → qoses ≠ qoses') := by
  refine ⟨⟨fun hk h => not_codesKept_of hc h hk, codesKept_of hc⟩, ?_⟩
  intro h h' hne qoses qoses' hd hd' heq
  apply hne
  calc codes = (codes.map decodeQos).map MqttQos.code := (map_code_decodeQos hc h).symm
    _ = (codes'.map decodeQos).map MqttQos.code := by
        rw [← hd.eq hc.1 hc.2.1, heq, hd'.eq hc'.1 hc'.2.1]
    _ = codes' := map_code_decodeQos hc' h'

/-- One QoS granted, and one subscription refused. -/
theorem suback_codes_refused : (CodesKept [1, 2] ↔ 0x80 ∉ [(1 : UInt8), 2]) :=
  (suback_codes_iff [1, 2] [1, 0x80] (by simp [ReturnCodes]) (by simp [ReturnCodes])).1

/-- A SUBACK that refuses its one subscription. -/
theorem failure_granted :
    ¬ ∀ codes, ReturnCodes codes → CodesKept codes :=
  fun hall => not_codesKept_of (show ReturnCodes [0x80] by simp [ReturnCodes]) (by simp)
    (hall [0x80] (by simp [ReturnCodes]))

end MqttSuback

end Libnio.Mqtt
