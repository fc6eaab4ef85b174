import Libnio.Linked.Segment
import Mathlib.Data.List.Flatten
import Mathlib.Data.List.Perm.Basic

/-!
# Linked — buckets

An array of doubly linked lists, each of which ends with null on both sides, and no
node in two of them. What links a node in at the front of a bucket and what unlinks
one from the bucket it is in leave the others alone. `scatter` distributes nodes.
-/

namespace Libnio.Linked

variable {ι ν : Type} [DecidableEq ι]

/-! ## All buckets together -/

theorem flatMap_perm {is : List ι} {i : ι} (hi : i ∈ is) (b : ι → List ν) :
    (is.flatMap b).Perm (b i ++ (is.erase i).flatMap b) := by
  have hp := (List.perm_cons_erase hi).flatMap_right b
  rwa [List.flatMap_cons] at hp

theorem flatMap_update_perm {is : List ι} (hnd : is.Nodup) {i : ι} (hi : i ∈ is)
    (b : ι → List ν) (l : List ν) :
    (is.flatMap (Function.update b i l)).Perm (l ++ (is.erase i).flatMap b) := by
  have hp := flatMap_perm hi (Function.update b i l)
  rw [Function.update_self] at hp
  have hsame : ∀ j ∈ is.erase i, Function.update b i l j = b j := by
    intro j hj
    exact Function.update_of_ne (hnd.mem_erase_iff.mp hj).1 l b
  rwa [List.flatMap_congr hsame] at hp

/-- One bucket changes, and the number of nodes with it. -/
theorem length_flatMap_update {is : List ι} (hnd : is.Nodup) {i : ι} (hi : i ∈ is)
    (b : ι → List ν) (l : List ν) :
    (is.flatMap (Function.update b i l)).length + (b i).length
      = (is.flatMap b).length + l.length := by
  have h₁ := (flatMap_update_perm hnd hi b l).length_eq
  have h₂ := (flatMap_perm hi b).length_eq
  rw [List.length_append] at h₁ h₂
  omega

/-! ## A node more, a node less -/

/-- The node comes to the front of the bucket. -/
def front (b : ι → List ν) (i : ι) (a : ν) : ι → List ν := Function.update b i (a :: b i)

theorem mem_front {b : ι → List ν} {i j : ι} {a c : ν} :
    c ∈ front b i a j ↔ c = a ∧ j = i ∨ c ∈ b j := by
  rw [front]
  by_cases hj : j = i
  · rw [hj, Function.update_self, List.mem_cons, and_iff_left rfl]
  · rw [Function.update_of_ne hj]
    simp [hj]

theorem length_flatMap_front {is : List ι} (hnd : is.Nodup) {i : ι} (hi : i ∈ is)
    (b : ι → List ν) (a : ν) :
    (is.flatMap (front b i a)).length = (is.flatMap b).length + 1 := by
  have h := length_flatMap_update hnd hi b (a :: b i)
  rw [List.length_cons] at h
  rw [front]
  omega

section

variable [DecidableEq ν]

/-- The node leaves the bucket. -/
def without (b : ι → List ν) (i : ι) (a : ν) : ι → List ν := Function.update b i ((b i).erase a)

theorem length_flatMap_without {is : List ι} (hnd : is.Nodup) {i : ι} (hi : i ∈ is)
    {b : ι → List ν} {a : ν} (ha : a ∈ b i) :
    (is.flatMap (without b i a)).length + 1 = (is.flatMap b).length := by
  have h := length_flatMap_update hnd hi b ((b i).erase a)
  have he := List.length_erase_of_mem ha
  have hpos := List.length_pos_of_mem ha
  rw [without]
  omega

end

/-! ## Distributing nodes -/

/-- Each node comes to the front of its bucket, one after the other. -/
def scatter (place : ν → ι) (b : ι → List ν) (l : List ν) : ι → List ν :=
  l.foldl (fun b a => front b (place a) a) b

theorem mem_scatter {place : ν → ι} {b : ι → List ν} {l : List ν} {i : ι} {a : ν} :
    a ∈ scatter place b l i ↔ a ∈ b i ∨ a ∈ l ∧ place a = i := by
  induction l generalizing b with
  | nil => simp [scatter]
  | cons c l ih =>
      rw [scatter, List.foldl_cons, ← scatter, ih]
      rw [mem_front, List.mem_cons]
      constructor
      · rintro ((⟨rfl, hi⟩ | h) | ⟨h, hp⟩)
        · exact .inr ⟨.inl rfl, hi.symm⟩
        · exact .inl h
        · exact .inr ⟨.inr h, hp⟩
      · rintro (h | ⟨(rfl | h), hp⟩)
        · exact .inl (.inr h)
        · exact .inl (.inl ⟨rfl, hp.symm⟩)
        · exact .inr ⟨h, hp⟩

/-! ## The pointers -/

/-- The pointers of the buckets: the first node of each, and the nodes of each a
list with null at both ends. -/
structure Chained (next prev : ν → Option ν) (data : ι → Option ν) (b : ι → List ν) : Prop where
  segment : ∀ i, Segment next prev none (b i) none
  data : ∀ i, data i = first (b i) none
  nodup : ∀ i, (b i).Nodup
  apart : ∀ i j a, a ∈ b i → a ∈ b j → i = j

namespace Chained

variable {next prev : ν → Option ν} {data : ι → Option ν} {b : ι → List ν}

omit [DecidableEq ι] in
theorem nil (next prev : ν → Option ν) :
    Chained next prev (fun _ : ι => none) fun _ => [] := by
  refine ⟨fun i => ?_, fun i => rfl, fun i => List.nodup_nil, fun i j a ha => ?_⟩
  · constructor
    · intro a ha
      cases ha
    · intro a ha
      cases ha
  · cases ha

omit [DecidableEq ι] in
theorem ends (h : Chained next prev data b) (i : ι) : Apart none (b i) none := by
  refine ⟨h.nodup i, fun a _ ha => ?_, fun a _ ha => ?_⟩
  · cases ha
  · cases ha

omit [DecidableEq ι] in
/-- All nodes together, bucket after bucket, and no one twice. -/
theorem nodup_flatMap (h : Chained next prev data b) {is : List ι} (hnd : is.Nodup) :
    (is.flatMap b).Nodup := by
  rw [List.nodup_flatMap]
  refine ⟨fun i _ => h.nodup i, hnd.imp fun hij => ?_⟩
  intro a hi hj
  exact hij (h.apart _ _ a hi hj)

omit [DecidableEq ι] in
theorem forward (h : Chained next prev data b) (i : ι) : Forward next (b i) none :=
  (h.segment i).forward

omit [DecidableEq ι] in
/-- No node follows itself. -/
theorem next_ne (h : Chained next prev data b) {i : ι} {a : ν} (ha : a ∈ b i) :
    next a ≠ some a := by
  obtain ⟨l, m, hl⟩ := List.append_of_mem ha
  have hseg := h.segment i
  have hnd := h.nodup i
  rw [hl] at hseg hnd
  rw [hseg.at.2]
  cases m with
  | nil => exact fun hc => nomatch hc
  | cons c m =>
      rw [first_cons]
      intro hc
      have hnot := (List.nodup_cons.mp (List.nodup_append.mp hnd).2.1).1
      exact hnot (Option.some.inj hc ▸ List.mem_cons_self)

variable [DecidableEq ν]

/-- **A node comes to the front of a bucket.** -/
theorem link (h : Chained next prev data b) (i : ι) {a : ν} (ha : ∀ j, a ∉ b j) :
    Chained (put next (some a) (data i)) (put (put prev (some a) none) (data i) (some a))
      (Function.update data i (some a)) (front b i a) := by
  have hself : front b i a i = a :: b i := Function.update_self _ _ _
  have hother : ∀ j, j ≠ i → front b i a j = b j := fun j hj =>
    Function.update_of_ne hj _ _
  refine ⟨fun j => ?_, fun j => ?_, fun j => ?_, fun j k c hj hk => ?_⟩
  · by_cases hj : j = i
    · rw [hj, hself, h.data]
      exact (h.segment i).linkFirst (h.ends i) (fun hc => nomatch hc) (ha i) fun hc => nomatch hc
    · rw [hother j hj]
      refine (h.segment j).congr (fun c hc => put_of_ne _ _ ?_) fun c hc => ?_
      · rintro ⟨⟩
        exact ha j (hc.resolve_left fun hn => nomatch hn)
      · have hc := hc.resolve_right fun hn => nomatch hn
        rw [put_of_ne, put_of_ne]
        · rintro ⟨⟩
          exact ha j hc
        · -- what was first in the bucket is in no other one
          rw [h.data]
          intro hf
          cases hb : b i with
          | nil =>
              rw [hb] at hf
              cases hf
          | cons d l =>
              rw [hb] at hf
              cases hf
              exact hj (h.apart j i c hc (by rw [hb]; exact List.mem_cons_self))
  · by_cases hj : j = i
    · rw [hj, hself, Function.update_self, first_cons]
    · rw [hother j hj, Function.update_of_ne hj]
      exact h.data j
  · by_cases hj : j = i
    · rw [hj, hself]
      exact List.nodup_cons.mpr ⟨ha i, h.nodup i⟩
    · rw [hother j hj]
      exact h.nodup j
  · rcases mem_front.mp hj with ⟨hca, hji⟩ | hj
    · rcases mem_front.mp hk with ⟨-, hki⟩ | hk
      · exact hji.trans hki.symm
      · exact absurd (hca ▸ hk) (ha k)
    · rcases mem_front.mp hk with ⟨hca, -⟩ | hk
      · exact absurd (hca ▸ hj) (ha j)
      · exact h.apart j k c hj hk

theorem mem_without (h : Chained next prev data b) {i j : ι} {a c : ν}
    (ha : a ∈ b i) : c ∈ without b i a j ↔ c ≠ a ∧ c ∈ b j := by
  rw [without]
  by_cases hj : j = i
  · rw [hj, Function.update_self, (h.nodup i).mem_erase_iff]
  · rw [Function.update_of_ne hj]
    refine ⟨fun hc => ⟨?_, hc⟩, fun hc => hc.2⟩
    rintro rfl
    exact hj (h.apart j i c hc ha)

/-- **A node leaves its bucket.** -/
theorem unlink (h : Chained next prev data b) {i : ι} {a : ν} (ha : a ∈ b i) :
    Chained (put next (prev a) (next a)) (put prev (next a) (prev a))
      (if prev a = none then Function.update data i (next a) else data)
      (without b i a) := by
  obtain ⟨l, m, hl⟩ := List.append_of_mem ha
  have hnd := h.nodup i
  have hseg := h.segment i
  have hends := h.ends i
  rw [hl] at hnd hseg hends
  have hnl : a ∉ l := by
    intro hc
    exact (List.nodup_append.mp hnd).2.2 a hc a List.mem_cons_self rfl
  have hself : without b i a i = l ++ m := by
    rw [without, Function.update_self, hl, List.erase_append_right _ hnl, List.erase_cons_head]
  have hother : ∀ j, j ≠ i → without b i a j = b j := fun j hj => Function.update_of_ne hj _ _
  obtain ⟨hp, hn⟩ := hseg.at
  -- the two sides of the node are in its bucket
  have hleft : ∀ c, last none l = some c → c ∈ b i := by
    intro c hc
    rcases last_eq none l with ⟨hnone, -⟩ | ⟨d, hd, hsome⟩
    · rw [hnone] at hc
      cases hc
    · rw [hsome] at hc
      cases hc
      exact hl ▸ List.mem_append_left _ hd
  have hright : ∀ c, first m none = some c → c ∈ b i := by
    intro c hc
    rcases first_eq m none with ⟨hnone, -⟩ | ⟨d, m', rfl⟩
    · rw [hnone] at hc
      cases hc
    · cases hc
      exact hl ▸ by simp
  refine ⟨fun j => ?_, fun j => ?_, fun j => ?_, fun j k c hj hk => ?_⟩
  · by_cases hj : j = i
    · rw [hj, hself, hp, hn]
      exact hseg.unlink hends
    · rw [hother j hj, hp, hn]
      refine (h.segment j).put (fun c hc hs => ?_) fun c hc hs => ?_
      · rcases hc with hc | hc
        · cases hc
        · exact hj (h.apart j i c hc (hleft c hs))
      · rcases hc with hc | hc
        · exact hj (h.apart j i c hc (hright c hs))
        · cases hc
  · have hhead := h.data i
    by_cases hj : j = i
    · rw [hj, hself, hp, hn]
      cases l with
      | nil => simp
      | cons c l =>
          rw [hl] at hhead
          have hsome : last none (c :: l) ≠ none := by
            rcases last_eq (some c) l with ⟨hc, -⟩ | ⟨d, -, hd⟩
            · rw [last_cons, hc]
              exact Option.some_ne_none c
            · rw [last_cons, hd]
              exact Option.some_ne_none d
          rw [if_neg hsome, hhead]
          rfl
    · rw [hother j hj, ← h.data j]
      split
      · exact Function.update_of_ne hj _ _
      · rfl
  · by_cases hj : j = i
    · rw [hj, hself]
      exact hnd.sublist (List.Sublist.append_left (List.sublist_cons_self a m) l)
    · rw [hother j hj]
      exact h.nodup j
  · exact h.apart j k c ((h.mem_without ha).mp hj).2 ((h.mem_without ha).mp hk).2

end Chained

end Libnio.Linked
