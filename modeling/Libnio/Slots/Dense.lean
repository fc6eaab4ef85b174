import Mathlib.Data.Set.Card
import Mathlib.Data.Int.ConditionallyCompleteOrder
import Mathlib.Data.Int.Interval

/-!
# Slots — a table without holes

Entries in the places from zero on, each of which knows its own place. A new
entry goes behind the others, and the place of one that leaves is filled with the
last one. `Packs` says that a table holds a set of entries in this way.
-/

namespace Libnio.Slots

/-- What stands in each place, the place of each entry, and how many there are. -/
structure Dense (α : Type) where
  slot : Int → Option α
  id : α → Int
  count : Int

variable {α : Type}

theorem ncard_Ico {n : Int} (h : 0 ≤ n) : ((Set.Ico 0 n).ncard : Int) = n := by
  rw [Set.ncard_eq_toFinset_card', Set.toFinset_Ico, Int.card_Ico]
  omega

namespace Dense

def empty : Dense α := { slot := fun _ => none, id := fun _ => -1, count := 0 }

/-- The entries, place by place. -/
def entries (t : Dense α) : List α := (List.range t.count.toNat).filterMap fun i : Nat => t.slot i

/-- The places in use are filled with the entries of `S`, each in the place it
knows; every other entry has none. -/
structure Packs (t : Dense α) (S : Set α) : Prop where
  nonneg : 0 ≤ t.count
  filled : ∀ i, 0 ≤ i → i < t.count → ∃ a ∈ S, t.slot i = some a ∧ t.id a = i
  placed : ∀ a ∈ S, 0 ≤ t.id a ∧ t.id a < t.count ∧ t.slot (t.id a) = some a
  absent : ∀ a, a ∉ S → t.id a = -1

namespace Packs

variable {t : Dense α} {S : Set α}

theorem nil : (empty : Dense α).Packs ∅ where
  nonneg := by simp [empty]
  filled := fun i h h' => by simp only [empty] at h'; omega
  placed := fun a h => absurd h (Set.notMem_empty a)
  absent := fun _ _ => rfl

theorem id_nonneg (h : t.Packs S) {a : α} : 0 ≤ t.id a ↔ a ∈ S := by
  constructor
  · intro ha
    by_contra hc
    rw [h.absent a hc] at ha
    omega
  · exact fun ha => (h.placed a ha).1

/-- Two entries are not in one place. -/
theorem id_inj (h : t.Packs S) {a b : α} (ha : a ∈ S) (hb : b ∈ S) (he : t.id a = t.id b) :
    a = b := by
  have hs := (h.placed a ha).2.2
  rw [he, (h.placed b hb).2.2] at hs
  exact (Option.some.inj hs).symm

/-- What is found in a place knows that it is there. -/
theorem id_of_slot (h : t.Packs S) {i : Int} {a : α} (hi : 0 ≤ i) (hc : i < t.count)
    (hs : t.slot i = some a) : a ∈ S ∧ t.id a = i := by
  obtain ⟨b, hb, hsb, hib⟩ := h.filled i hi hc
  rw [hsb] at hs
  cases hs
  exact ⟨hb, hib⟩

/-- **The places and the entries are in bijection.** -/
theorem bijOn (h : t.Packs S) : Set.BijOn t.id S (Set.Ico 0 t.count) := by
  refine ⟨fun a ha => ?_, fun a ha b hb he => h.id_inj ha hb he, fun i hi => ?_⟩
  · exact ⟨(h.placed a ha).1, (h.placed a ha).2.1⟩
  · obtain ⟨a, ha, -, hid⟩ := h.filled i hi.1 hi.2
    exact ⟨a, ha, hid⟩

theorem mem_entries (h : t.Packs S) {a : α} : a ∈ t.entries ↔ a ∈ S := by
  rw [entries, List.mem_filterMap]
  constructor
  · rintro ⟨i, hi, hs⟩
    rw [List.mem_range] at hi
    exact (h.id_of_slot (by omega) (by omega) hs).1
  · intro ha
    obtain ⟨h₁, h₂, h₃⟩ := h.placed a ha
    refine ⟨(t.id a).toNat, List.mem_range.mpr (by omega), ?_⟩
    rw [Int.toNat_of_nonneg h₁, h₃]

theorem nodup_entries (h : t.Packs S) : t.entries.Nodup := by
  rw [entries, List.Nodup, List.pairwise_filterMap]
  refine List.nodup_range.imp_of_mem fun {i j} hi hj hij a ha b hb => ?_
  rintro rfl
  rw [List.mem_range] at hi hj
  have hia := (h.id_of_slot (by omega) (by omega) ha).2
  have hja := (h.id_of_slot (by omega) (by omega) hb).2
  omega

theorem finite (h : t.Packs S) : S.Finite :=
  h.bijOn.finite_iff_finite.mpr (Set.finite_Ico 0 t.count)

theorem ncard (h : t.Packs S) : (S.ncard : Int) = t.count := by
  have hn : S.ncard = (Set.Ico 0 t.count).ncard := by
    rw [← h.bijOn.image_eq, h.bijOn.injOn.ncard_image]
  rw [hn, ncard_Ico h.nonneg]

theorem encard (h : t.Packs S) : S.encard = t.count.toNat := by
  have hn := h.ncard
  rw [← h.finite.cast_ncard_eq]
  congr 1
  omega

/-- There is room for one more as long as all of them are numbered below `size`. -/
theorem room (h : t.Packs S) {size : Int} {number : α → Int} (hinj : Function.Injective number)
    (hr : ∀ a, 0 ≤ number a ∧ number a < size) {a : α} (ha : a ∉ S) : t.count < size := by
  have hsub : number '' insert a S ⊆ Set.Ico 0 size := by
    rintro _ ⟨b, -, rfl⟩
    exact hr b
  have hle := Set.ncard_le_ncard hsub (Set.finite_Ico 0 size)
  rw [Set.ncard_image_of_injective _ hinj, Set.ncard_insert_of_notMem ha h.finite] at hle
  have hs : ((Set.Ico 0 size).ncard : Int) = size :=
    ncard_Ico ((hr a).1.trans (le_of_lt (hr a).2))
  have hn := h.ncard
  omega

/-- There are no more entries than numbers. -/
theorem length_entries_le (h : t.Packs S) {size : Int} {number : α → Int}
    (hinj : Function.Injective number) (hr : ∀ a, 0 ≤ number a ∧ number a < size) :
    t.entries.length ≤ size.toNat := by
  have hnodup : (t.entries.map number).Nodup := h.nodup_entries.map hinj
  have hsub : (t.entries.map number).toFinset ⊆ Finset.Ico 0 size := by
    intro n hn
    obtain ⟨a, -, rfl⟩ := List.mem_map.mp (List.mem_toFinset.mp hn)
    exact Finset.mem_Ico.mpr (hr a)
  have hle := Finset.card_le_card hsub
  rwa [List.toFinset_card_of_nodup hnodup, List.length_map, Int.card_Ico, Int.sub_zero] at hle

end Packs

variable [DecidableEq α]

/-- A new entry goes behind the others. -/
def push (t : Dense α) (a : α) : Dense α :=
  { slot := Function.update t.slot t.count (some a)
    id := Function.update t.id a t.count
    count := t.count + 1 }

/-- What stands in the place `i` is put into the place `j` as well, and knows it. -/
def move (t : Dense α) (i j : Int) : Dense α :=
  match t.slot i with
  | none => t
  | some b =>
      { t with slot := Function.update t.slot j (some b), id := Function.update t.id b j }

/-- The entry leaves, and the last one takes its place. -/
def vacate (t : Dense α) (a : α) : Dense α :=
  let t := { t with count := t.count - 1 }
  let t := if t.id a < t.count then t.move t.count (t.id a) else t
  { t with id := Function.update t.id a (-1) }

namespace Packs

variable {t : Dense α} {S : Set α}

theorem push (h : t.Packs S) {a : α} (ha : a ∉ S) : (t.push a).Packs (insert a S) := by
  have hc := h.nonneg
  have hne : ∀ b ∈ S, b ≠ a := fun b hb he => ha (he ▸ hb)
  refine ⟨?_, fun i hi hi' => ?_, fun b hb => ?_, fun b hb => ?_⟩
  · simp only [Dense.push]
    omega
  · simp only [Dense.push] at hi' ⊢
    by_cases he : i = t.count
    · refine ⟨a, Set.mem_insert a S, ?_, ?_⟩
      · rw [he, Function.update_self]
      · rw [he, Function.update_self]
    · obtain ⟨b, hb, hs, hid⟩ := h.filled i hi (by omega)
      refine ⟨b, Set.mem_insert_of_mem a hb, ?_, ?_⟩
      · rw [Function.update_of_ne he, hs]
      · rw [Function.update_of_ne (hne b hb), hid]
  · simp only [Dense.push]
    rcases Set.mem_insert_iff.mp hb with rfl | hb
    · rw [Function.update_self, Function.update_self]
      exact ⟨hc, by omega, rfl⟩
    · obtain ⟨h₁, h₂, h₃⟩ := h.placed b hb
      have hlt : t.id b ≠ t.count := by omega
      rw [Function.update_of_ne (hne b hb), Function.update_of_ne hlt]
      exact ⟨h₁, by omega, h₃⟩
  · rw [Set.mem_insert_iff, not_or] at hb
    simp only [Dense.push]
    rw [Function.update_of_ne hb.1]
    exact h.absent b hb.2

/-- The entry is the last one: its place goes out of use with it. -/
theorem vacate_last (h : t.Packs S) {a : α} (ha : a ∈ S) (hl : t.id a = t.count - 1) :
    (t.vacate a).Packs (S \ {a}) := by
  obtain ⟨h₁, h₂, h₃⟩ := h.placed a ha
  have hlast : ¬ t.id a < t.count - 1 := by omega
  simp only [Dense.vacate, if_neg hlast]
  refine ⟨by simp only; omega, fun i hi hi' => ?_, fun b hb => ?_, fun b hb => ?_⟩
  · obtain ⟨b, hb, hs, hid⟩ := h.filled i hi (by simp only at hi'; omega)
    have hne : b ≠ a := by
      rintro rfl
      simp only at hi'
      omega
    refine ⟨b, ⟨hb, hne⟩, hs, ?_⟩
    simp only [Function.update_of_ne hne, hid]
  · obtain ⟨h₄, h₅, h₆⟩ := h.placed b hb.1
    have hid : t.id b ≠ t.id a := fun he => hb.2 (h.id_inj hb.1 ha he)
    simp only [Function.update_of_ne (show b ≠ a from hb.2)]
    exact ⟨h₄, by omega, h₆⟩
  · by_cases he : b = a
    · simp only [he, Function.update_self]
    · simp only [Function.update_of_ne he]
      exact h.absent b fun hc => hb ⟨hc, he⟩

/-- The last entry moves into the place of another one. -/
theorem vacate_moved (h : t.Packs S) {a : α} (ha : a ∈ S) (hl : t.id a < t.count - 1) :
    (t.vacate a).Packs (S \ {a}) := by
  obtain ⟨h₁, h₂, h₃⟩ := h.placed a ha
  obtain ⟨m, hm, hsm, hidm⟩ := h.filled (t.count - 1) (by omega) (by omega)
  have hma : m ≠ a := by
    rintro rfl
    omega
  simp only [Dense.vacate, if_pos hl, Dense.move, hsm]
  refine ⟨by simp only; omega, fun i hi hi' => ?_, fun b hb => ?_, fun b hb => ?_⟩
  · simp only at hi' ⊢
    by_cases he : i = t.id a
    · refine ⟨m, ⟨hm, hma⟩, ?_, ?_⟩
      · rw [he, Function.update_self]
      · rw [he, Function.update_of_ne hma, Function.update_self]
    · obtain ⟨b, hb, hs, hid⟩ := h.filled i hi (by omega)
      have hba : b ≠ a := by
        rintro rfl
        exact he hid.symm
      have hbm : b ≠ m := by
        rintro rfl
        omega
      refine ⟨b, ⟨hb, hba⟩, ?_, ?_⟩
      · rw [Function.update_of_ne he, hs]
      · rw [Function.update_of_ne hba, Function.update_of_ne hbm, hid]
  · obtain ⟨hb, hba⟩ := hb
    obtain ⟨h₄, h₅, h₆⟩ := h.placed b hb
    simp only [Function.update_of_ne (show b ≠ a from hba)]
    by_cases hbm : b = m
    · rw [hbm, Function.update_self, Function.update_self]
      exact ⟨h₁, hl, rfl⟩
    · have hida : t.id b ≠ t.id a := fun he => hba (h.id_inj hb ha he)
      have hidm' : t.id b ≠ t.id m := fun he => hbm (h.id_inj hb hm he)
      rw [Function.update_of_ne hbm, Function.update_of_ne hida]
      exact ⟨h₄, by omega, h₆⟩
  · by_cases he : b = a
    · simp only [he, Function.update_self]
    · have hb' : b ∉ S := fun hc => hb ⟨hc, he⟩
      have hbm : b ≠ m := fun hc => hb' (hc ▸ hm)
      simp only [Function.update_of_ne he, Function.update_of_ne hbm]
      exact h.absent b hb'

/-- **The table stays packed** when an entry leaves it. -/
theorem vacate (h : t.Packs S) {a : α} (ha : a ∈ S) : (t.vacate a).Packs (S \ {a}) := by
  by_cases hl : t.id a < t.count - 1
  · exact h.vacate_moved ha hl
  · exact h.vacate_last ha (by have := (h.placed a ha).2.1; omega)

end Packs

/-! ## Who moves -/

@[simp] theorem vacate_count (t : Dense α) (a : α) : (t.vacate a).count = t.count - 1 := by
  simp only [vacate]
  split
  · simp only [move]
    split <;> rfl
  · rfl

/-- An entry stays where it is, unless it was the last and goes to the place of
the one that leaves. -/
theorem Packs.vacate_id {t : Dense α} {S : Set α} (h : t.Packs S) {a b : α} (ha : a ∈ S)
    (hb : b ∈ S) (hba : b ≠ a) :
    (t.vacate a).id b = if t.id b = t.count - 1 then t.id a else t.id b := by
  obtain ⟨h₁, h₂, h₃⟩ := h.placed a ha
  obtain ⟨h₄, h₅, h₆⟩ := h.placed b hb
  simp only [Dense.vacate, Function.update_of_ne hba]
  by_cases hl : t.id a < t.count - 1
  · obtain ⟨m, hm, hsm, hidm⟩ := h.filled (t.count - 1) (by omega) (by omega)
    simp only [if_pos hl, Dense.move, hsm]
    by_cases hbm : b = m
    · rw [hbm, Function.update_self, if_pos hidm]
    · have hne : t.id b ≠ t.count - 1 := fun he => hbm (h.id_inj hb hm (he.trans hidm.symm))
      rw [Function.update_of_ne hbm, if_neg hne]
  · have hne : t.id b ≠ t.id a := fun he => hba (h.id_inj hb ha he)
    rw [if_neg hl, if_neg (by omega)]

end Dense

end Libnio.Slots
