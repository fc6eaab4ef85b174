import Libnio.Common.Htable
import Libnio.Linked.Buckets

/-!
# Common — a hash table is a map

`Holds` says what a table stands for: buckets that are lists, and in each of them the
entries of a map whose hash belongs there. Each function keeps it, growing too, and
does to the map what it should.
-/

namespace Libnio.Common

open Linked

variable {ν ω : Type}

theorem CString.strEq_iff {x y : CString} : x.strEq y = true ↔ x = y := by
  rcases x with ⟨x, hx⟩
  rcases y with ⟨y, hy⟩
  constructor
  · intro h
    rw [strEq, Bool.and_eq_true, beq_iff_eq, beq_iff_eq] at h
    obtain ⟨-, h⟩ := h
    cases h
    rfl
  · rintro ⟨⟩
    simp [strEq]

namespace NioHtable

/-! ## Sizes -/

section Sizes

variable {t t' : NioHtable ν ω}

@[simp] theorem slots_nioHtableSize (n : UInt32) (t : NioHtable ν ω) :
    (t.nioHtableSize n).slots = (n ||| 1).toNat := by
  rw [slots, nioHtableSize, UInt32.toUInt32_toInt32]

/-- A table has an odd number of buckets. -/
theorem slots_nioHtableSize_pos (n : UInt32) (t : NioHtable ν ω) :
    0 < (t.nioHtableSize n).slots := by
  rw [slots_nioHtableSize, UInt32.toNat_or]
  have h : (1 : UInt32).toNat ≤ n.toNat ||| (1 : UInt32).toNat := Nat.right_le_or
  exact Nat.lt_of_lt_of_le (by decide) h

theorem place_lt (h : 0 < t.slots) (hash : UInt32) : t.place hash < t.slots := by
  rw [place, UInt32.toNat_mod]
  exact Nat.mod_lt _ h

/-- The bucket that an entry belongs in. -/
def bucketOf (t : NioHtable ν ω) (p : ν) : Nat := t.place (defHashFn (t.key p).bytes)

/-- All entries, bucket after bucket. -/
def entries (t : NioHtable ν ω) (b : Nat → List ν) : List ν := (List.range t.slots).flatMap b

end Sizes

/-! ## Growing -/

section Growing

variable [DecidableEq ν] {t : NioHtable ν ω} {b b' : Nat → List ν} {l : List ν}

theorem nioHtableLink_eq (a : ν) (n : Nat) (t : NioHtable ν ω) :
    t.nioHtableLink a n = { t with
      next := put t.next (some a) (t.data n)
      prev := put (put t.prev (some a) none) (t.data n) (some a)
      data := Function.update t.data n (some a)
      used := t.used + 1 } := by
  rw [nioHtableLink]
  cases t.data n with
  | none => simp [put]
  | some h => simp [put]

/-- One old chain is moved into the new buckets. What is left of it is still as it
was, for `nio_htable_link` writes `next` of the entry only that it moves. -/
theorem growChain_eq (hc : Chained t.next t.prev t.data b) (hf : Forward t.next l none)
    (hnd : l.Nodup) (hout : ∀ a ∈ l, ∀ j, a ∉ b j) {rounds : Nat} (hr : l.length ≤ rounds) :
    ∃ next prev data, t.growChain rounds (first l none) = some { t with
        next, prev, data, used := t.used + Int32.ofNat l.length } ∧
      Chained next prev data (scatter t.bucketOf b l) ∧ ∀ a ∉ l, next a = t.next a := by
  induction l generalizing t b rounds with
  | nil =>
      refine ⟨t.next, t.prev, t.data, ?_, hc, fun a _ => rfl⟩
      rw [growChain.eq_def]
      simp
  | cons a l ih =>
      obtain ⟨rounds, rfl, hlen⟩ := exists_round hr
      obtain ⟨hnl, hnd⟩ := List.nodup_cons.mp hnd
      have hlink := nioHtableLink_eq a (t.bucketOf a) t
      have hnext : ∀ c, c ≠ a →
          put t.next (some a) (t.data (t.bucketOf a)) c = t.next c := fun c hca =>
        put_of_ne _ _ fun he => hca (Option.some.inj he).symm
      have hin : ∀ c ∈ l, c ≠ a := fun c hcl he => hnl (he ▸ hcl)
      obtain ⟨next, prev, data, heq, hch, hkeep⟩ := ih (t := t.nioHtableLink a (t.bucketOf a))
        (b := front b (t.bucketOf a) a)
        (by rw [hlink]; exact hc.link _ (hout a List.mem_cons_self))
        (by rw [hlink]; exact hf.2.congr fun c hcl => hnext c (hin c hcl)) hnd
        (by
          intro c hcl j hj
          rcases mem_front.mp hj with ⟨hca, -⟩ | hj
          · exact hin c hcl hca
          · exact hout c (List.mem_cons_of_mem a hcl) j hj)
        hlen
      refine ⟨next, prev, data, ?_, ?_, fun c hcl => ?_⟩
      · rw [first_cons, growChain, hf.1]
        refine heq.trans ?_
        rw [hlink]
        simp only [List.length_cons, Int32.ofNat_add, Option.some.injEq]
        rw [Int32.add_assoc, Int32.add_comm 1]
        rfl
      · rw [hlink] at hch
        exact hch
      · rw [List.mem_cons, not_or] at hcl
        rw [hkeep c hcl.2, hlink]
        exact hnext c hcl.1

/-- The old chains, one after the other. -/
theorem foldlM_growChain {is : List Nat} {old : Nat → Option ν}
    (hc : Chained t.next t.prev t.data b) (hold : ∀ i ∈ is, old i = first (b' i) none)
    (hf : ∀ i ∈ is, Forward t.next (b' i) none) (hnd : (is.flatMap b').Nodup)
    (hout : ∀ a ∈ is.flatMap b', ∀ j, a ∉ b j) {rounds : Nat}
    (hr : ∀ i ∈ is, (b' i).length ≤ rounds) :
    ∃ next prev data, is.foldlM (fun t i => t.growChain rounds (old i)) t = some { t with
        next, prev, data, used := t.used + Int32.ofNat (is.flatMap b').length } ∧
      Chained next prev data (scatter t.bucketOf b (is.flatMap b')) := by
  induction is generalizing t b with
  | nil =>
      refine ⟨t.next, t.prev, t.data, ?_, hc⟩
      simp
  | cons i is ih =>
      rw [List.flatMap_cons] at hnd hout ⊢
      obtain ⟨hni, hnis, hdisj⟩ := List.nodup_append.mp hnd
      obtain ⟨next, prev, data, heq, hch, hkeep⟩ := growChain_eq hc (hf i List.mem_cons_self) hni
        (fun a ha => hout a (List.mem_append_left _ ha)) (hr i List.mem_cons_self)
      have hother : ∀ j ∈ is, ∀ a ∈ b' j, a ∉ b' i := by
        intro j hj a ha hai
        exact hdisj a hai a (List.mem_flatMap.mpr ⟨j, hj, ha⟩) rfl
      obtain ⟨next', prev', data', heq', hch'⟩ := ih (t := { t with
          next, prev, data, used := t.used + Int32.ofNat (b' i).length }) hch
        (fun j hj => hold j (List.mem_cons_of_mem i hj))
        (fun j hj => (hf j (List.mem_cons_of_mem i hj)).congr fun a ha =>
          hkeep a (hother j hj a ha)) hnis
        (by
          intro a ha j hj
          rcases mem_scatter.mp hj with hj | ⟨hj, -⟩
          · exact hout a (List.mem_append_right _ ha) j hj
          · exact hdisj a hj a ha rfl)
        (fun j hj => hr j (List.mem_cons_of_mem i hj))
      refine ⟨next', prev', data', ?_, ?_⟩
      · rw [List.foldlM_cons, hold i List.mem_cons_self, heq]
        refine heq'.trans ?_
        rw [List.length_append, Int32.ofNat_add, ← Int32.add_assoc]
      · rw [scatter, List.foldl_append]
        exact hch'

/-- **`nio_htable_grow`** distributes the entries over an array of another size. -/
theorem nioHtableGrow_eq (hc : Chained t.next t.prev t.data b) {rounds : Nat}
    (hr : ∀ i, (b i).length ≤ rounds) :
    ∃ next prev data, t.nioHtableGrow rounds = some { t with
        size := (2 * t.size.toUInt32 ||| 1).toInt32, next, prev, data
        used := Int32.ofNat (t.entries b).length } ∧
      Chained next prev data (scatter (t.nioHtableSize (2 * t.size.toUInt32)).bucketOf
        (fun _ => []) (t.entries b)) := by
  have hlen : ∀ i ∈ List.range t.slots, (b i).length ≤ rounds := fun i _ => hr i
  obtain ⟨next, prev, data, heq, hch⟩ := foldlM_growChain
    (t := t.nioHtableSize (2 * t.size.toUInt32)) (Chained.nil t.next t.prev)
    (fun i _ => hc.data i) (fun i _ => hc.forward i) (hc.nodup_flatMap List.nodup_range)
    (fun a _ j => List.not_mem_nil) hlen
  refine ⟨next, prev, data, heq.trans ?_, hch⟩
  simp [nioHtableSize, entries]

end Growing

/-! ## What a table stands for -/

/-- **The buckets are lists of the entries** of the map, each in the bucket of its
key's hash. -/
structure Filled (t : NioHtable ν ω) (d : Dict ν ω) (b : Nat → List ν) : Prop where
  chained : Chained t.next t.prev t.data b
  mem : ∀ i p, p ∈ b i ↔ i = t.bucketOf p ∧ d.entry (t.key p) = some (p, t.value p)
  entry : ∀ key p v, d.entry key = some (p, v) →
    t.key p = key ∧ t.value p = v ∧ t.hash p = defHashFn key.bytes
  slots : 0 < t.slots

/-- **The table stands for the map.** -/
structure Holds (t : NioHtable ν ω) (d : Dict ν ω) (b : Nat → List ν) : Prop
    extends t.Filled d b where
  used : t.used = Int32.ofNat (t.entries b).length
  status : t.status = d.status

namespace Filled

variable {t : NioHtable ν ω} {d : Dict ν ω} {b : Nat → List ν}

theorem mem_bucket (h : t.Filled d b) {key : CString} {p : ν} {v : Option ω}
    (he : d.entry key = some (p, v)) : p ∈ b (t.place (defHashFn key.bytes)) := by
  obtain ⟨rfl, rfl, -⟩ := h.entry key p v he
  exact (h.mem _ p).mpr ⟨rfl, he⟩

theorem mem_entries (h : t.Filled d b) {p : ν} :
    p ∈ t.entries b ↔ d.entry (t.key p) = some (p, t.value p) := by
  rw [entries, List.mem_flatMap]
  constructor
  · rintro ⟨i, -, hp⟩
    exact ((h.mem i p).mp hp).2
  · intro hp
    exact ⟨t.bucketOf p, List.mem_range.mpr (place_lt h.slots _), (h.mem _ p).mpr ⟨rfl, hp⟩⟩

theorem nodup_entries (h : t.Filled d b) : (t.entries b).Nodup :=
  h.chained.nodup_flatMap List.nodup_range

/-- There are as many entries as keys that are present. -/
theorem encard_present (h : t.Filled d b) : d.present.encard = (t.entries b).length := by
  classical
  have himage : d.present = t.key '' ((t.entries b).toFinset : Set ν) := by
    ext key
    rw [Dict.present, Set.mem_ofPred_eq, Set.mem_image]
    constructor
    · intro hne
      obtain ⟨⟨p, v⟩, he⟩ := Option.ne_none_iff_exists'.mp hne
      obtain ⟨hk, hv, -⟩ := h.entry key p v he
      refine ⟨p, ?_, hk⟩
      rw [List.coe_toFinset, Set.mem_ofPred_eq, h.mem_entries, hk, hv]
      exact he
    · rintro ⟨p, hp, rfl⟩
      rw [List.coe_toFinset, Set.mem_ofPred_eq, h.mem_entries] at hp
      rw [hp]
      exact Option.some_ne_none _
  have hinj : Set.InjOn t.key ((t.entries b).toFinset : Set ν) := by
    intro p hp q hq hpq
    rw [List.coe_toFinset, Set.mem_ofPred_eq, h.mem_entries] at hp hq
    rw [hpq, hq] at hp
    exact (congrArg Prod.fst (Option.some.inj hp)).symm
  rw [himage, hinj.encard_image, Set.encard_coe_eq_coe_finsetCard,
    List.toFinset_card_of_nodup h.nodup_entries]

theorem length_bucket_le (h : t.Filled d b) (i : Nat) : (b i).length ≤ (t.entries b).length := by
  refine List.Subperm.length_le ((h.chained.nodup i).subperm fun p hp => ?_)
  exact h.mem_entries.mpr ((h.mem i p).mp hp).2

/-- No chain is longer than there are keys. -/
theorem length_le (h : t.Filled d b) {rounds : Nat} (hr : d.present.encard ≤ rounds) (i : Nat) :
    (b i).length ≤ rounds := by
  rw [h.encard_present] at hr
  exact (h.length_bucket_le i).trans (Nat.cast_le.mp hr)

end Filled

/-! ## The functions -/

section Functions

variable [DecidableEq ν] {t : NioHtable ν ω} {d : Dict ν ω} {b : Nat → List ν} {rounds : Nat}

omit [DecidableEq ν] in
theorem search_eq {l : List ν} {key : CString} (hf : Forward t.next l none)
    (hr : l.length ≤ rounds) :
    t.search key rounds (first l none) = some (l.find? fun p => key.strEq (t.key p)) := by
  induction l generalizing rounds with
  | nil =>
      rw [search.eq_def]
      rfl
  | cons a l ih =>
      obtain ⟨rounds, rfl, hlen⟩ := exists_round hr
      rw [first_cons, search, hf.1]
      cases hk : key.strEq (t.key a) with
      | true => rw [if_pos rfl, List.find?_cons, hk]
      | false =>
          rw [List.find?_cons, hk]
          exact ih hf.2 hlen

omit [DecidableEq ν] in
/-- **The loop through a key's bucket** comes to the entry of the key. -/
theorem Filled.search (h : t.Filled d b) (hr : d.present.encard ≤ rounds) (key : CString) :
    t.search key rounds (t.data (t.place (defHashFn key.bytes)))
      = some ((d.entry key).map (·.1)) := by
  rw [h.chained.data, search_eq (h.chained.forward _) (h.length_le hr _)]
  cases he : d.entry key with
  | none =>
      -- an entry with the key would be in the map
      rw [Option.map_none, Option.some.injEq, List.find?_eq_none]
      intro p hp hk
      have hin := ((h.mem _ p).mp hp).2
      rw [← CString.strEq_iff.mp hk, he] at hin
      cases hin
  | some e =>
      obtain ⟨p, v⟩ := e
      have hmem := h.mem_bucket he
      obtain ⟨hk, -, -⟩ := h.entry key p v he
      cases hfind : (b (t.place (defHashFn key.bytes))).find? fun p => key.strEq (t.key p) with
      | none =>
          have hnot := List.find?_eq_none.mp hfind p hmem
          exact absurd (CString.strEq_iff.mpr hk.symm) hnot
      | some q =>
          have hq := ((h.mem _ q).mp (List.mem_of_find?_eq_some hfind)).2
          have hqk : key.strEq (t.key q) = true := by
            have := List.find?_some hfind
            exact this
          rw [← CString.strEq_iff.mp hqk, he] at hq
          cases hq
          rfl

namespace Holds

omit [DecidableEq ν] in
/-- **An array of no entries** is the empty map. -/
theorem empty (t : NioHtable ν ω) (n : UInt32) :
    (t.nioHtableSize n).Holds ⟨fun _ => none, t.status⟩ fun _ => [] where
  chained := Chained.nil t.next t.prev
  mem := by simp
  entry := by simp
  slots := slots_nioHtableSize_pos n t
  used := by simp [nioHtableSize, entries]
  status := rfl

/-- **Growing** changes nothing of the map. -/
theorem grow (h : t.Holds d b) (hr : d.present.encard ≤ rounds) :
    ∃ t' b', t.nioHtableGrow rounds = some t' ∧ t'.Holds d b' ∧
      t'.size = (2 * t.size.toUInt32 ||| 1).toInt32 := by
  obtain ⟨next, prev, data, heq, hch⟩ := nioHtableGrow_eq h.chained (h.length_le hr)
  have hmem : ∀ i p, p ∈ scatter (t.nioHtableSize (2 * t.size.toUInt32)).bucketOf (fun _ => [])
      (t.entries b) i ↔ i = (t.nioHtableSize (2 * t.size.toUInt32)).bucketOf p ∧
        d.entry (t.key p) = some (p, t.value p) := by
    intro i p
    rw [mem_scatter, h.mem_entries, and_comm, eq_comm]
    simp
  have hnew : Filled { t with
      size := (2 * t.size.toUInt32 ||| 1).toInt32, next, prev, data
      used := Int32.ofNat (t.entries b).length } d
      (scatter (t.nioHtableSize (2 * t.size.toUInt32)).bucketOf (fun _ => []) (t.entries b)) :=
    ⟨hch, hmem, h.entry, slots_nioHtableSize_pos (2 * t.size.toUInt32) t⟩
  have hcount := hnew.encard_present
  rw [h.encard_present] at hcount
  refine ⟨_, _, heq, ⟨hnew, ?_, h.status⟩, rfl⟩
  exact congrArg Int32.ofNat (Nat.cast_injective hcount)

omit [DecidableEq ν] in
theorem setStatus (h : t.Holds d b) (status : HtableStatus) :
    Holds { t with status := status } { d with status := status } b :=
  ⟨⟨h.chained, h.mem, h.entry, h.slots⟩, h.used, rfl⟩

/-- **A new entry** comes to the front of its bucket. -/
theorem add (h : t.Holds d b) {key : CString} {p : ν} (value : Option ω)
    (hk : d.entry key = none) (hp : ∀ k v, d.entry k ≠ some (p, v)) :
    Holds (nioHtableLink p (t.place (defHashFn key.bytes)) { t with
        key := Function.update t.key p key
        hash := Function.update t.hash p (defHashFn key.bytes)
        value := Function.update t.value p value })
      { d with entry := Function.update d.entry key (some (p, value)) }
      (front b (t.place (defHashFn key.bytes)) p) := by
  have hnone : ∀ j, p ∉ b j := fun j hj => hp _ _ ((h.mem j p).mp hj).2
  rw [nioHtableLink_eq]
  refine ⟨⟨h.chained.link _ hnone, fun j q => ?_, fun k q v he => ?_, h.slots⟩, ?_, h.status⟩
  · rw [mem_front]
    by_cases hq : q = p
    · rw [hq, or_iff_left (hnone j)]
      simp [bucketOf, place]
    · rw [h.mem, bucketOf, bucketOf]
      simp only [hq, false_and, false_or, Function.update_of_ne hq]
      refine and_congr_right fun _ => ?_
      by_cases hqk : t.key q = key
      · rw [hqk, hk, Function.update_self]
        simp [Ne.symm hq]
      · rw [Function.update_of_ne hqk]
  · dsimp only at he ⊢
    by_cases hke : k = key
    · rw [hke, Function.update_self] at he
      cases he
      simp [hke]
    · rw [Function.update_of_ne hke] at he
      have hq : q ≠ p := fun hq => hp k v (hq ▸ he)
      rw [Function.update_of_ne hq, Function.update_of_ne hq, Function.update_of_ne hq]
      exact h.entry k q v he
  · have hmem : t.place (defHashFn key.bytes) ∈ List.range t.slots :=
      List.mem_range.mpr (place_lt h.slots _)
    have hlen := length_flatMap_front List.nodup_range hmem b p
    refine Eq.trans ?_ (congrArg Int32.ofNat hlen.symm)
    rw [Int32.ofNat_add]
    exact congrArg (· + 1) h.used

end Holds

/-- **`nio_htable_enter`** makes an entry of a key that has none. It may grow the table
before it finds out. -/
theorem nioHtableEnter_eq (h : t.Holds d b) (hr : d.present.encard ≤ rounds) (key : CString)
    (value : Option ω) {p : ν} (hp : d.entry key = none → ∀ k v, d.entry k ≠ some (p, v)) :
    ∃ t' b', t.nioHtableEnter rounds key value p = some ((d.entry key).elim p (·.1), t') ∧
      t'.Holds (d.apply (.enter key value p)) b' ∧
      t'.size = if t.used ≥ t.size then (2 * t.size.toUInt32 ||| 1).toInt32 else t.size := by
  obtain ⟨t₁, b₁, hgrow, h₁, hsize⟩ : ∃ t₁ b₁, (if t.used ≥ t.size then
        ({ t with status := .ok } : NioHtable ν ω).nioHtableGrow rounds
        else some { t with status := .ok }) = some t₁ ∧
      t₁.Holds { d with status := .ok } b₁ ∧
      t₁.size = if t.used ≥ t.size then (2 * t.size.toUInt32 ||| 1).toInt32 else t.size := by
    split
    · exact (h.setStatus .ok).grow hr
    · exact ⟨_, b, rfl, h.setStatus .ok, rfl⟩
  have hsearch := h₁.search hr key
  have henter : t.nioHtableEnter rounds key value p = _ := congrArg (· >>= _) hgrow
  rw [henter, Option.bind_eq_bind, Option.bind_some]
  dsimp only
  rw [hsearch]
  cases he : d.entry key with
  | some e =>
      refine ⟨{ t₁ with status := .duplexKey }, b₁, rfl, ?_, hsize⟩
      rw [Dict.apply, he]
      exact h₁.setStatus .duplexKey
  | none =>
      have hnew := h₁.add value he (hp he)
      refine ⟨_, front b₁ (t₁.place (defHashFn key.bytes)) p, rfl, ?_, ?_⟩
      · rw [Dict.apply, he]
        exact hnew
      · rw [nioHtableLink_eq]
        exact hsize

/-! ### Taking out -/

/-- What `nio_htable_delete_entry` writes, to an entry that does not follow itself. -/
theorem nioHtableDeleteEntry_eq {p : ν} (hne : t.next p ≠ some p) (freeFn : Bool) :
    t.nioHtableDeleteEntry p freeFn = { t with
      next := put t.next (t.prev p) (t.next p)
      prev := put t.prev (t.next p) (t.prev p)
      data := if t.prev p = none then Function.update t.data (t.place (t.hash p)) (t.next p)
        else t.data
      used := t.used - 1
      freed := t.freed ++ (if freeFn then (t.value p).toList else []) } := by
  rw [nioHtableDeleteEntry]
  have hkeep : ∀ q, t.next p = some q → Function.update t.prev q (t.prev p) p = t.prev p :=
    fun q hq => Function.update_of_ne (fun hpq => hne (hq.trans (congrArg some hpq.symm))) _ _
  cases hn : t.next p with
  | none =>
      cases t.prev p with
      | none => cases freeFn <;> simp [put, hn, freeValue, place]
      | some c => cases freeFn <;> simp [put, hn, freeValue]
  | some q =>
      have hq := hkeep q hn
      cases hp : t.prev p with
      | none =>
          rw [hp] at hq
          cases freeFn <;> simp [put, hn, hq, freeValue, place]
      | some c =>
          rw [hp] at hq
          cases freeFn <;> simp [put, hn, hq, freeValue]

/-- **`nio_htable_delete_entry`** takes an entry out of its bucket, which it finds by the
hash that the entry holds. -/
theorem Holds.deleteEntry (h : t.Holds d b) {key : CString} {p : ν} {v : Option ω}
    (he : d.entry key = some (p, v)) (freeFn : Bool) :
    (t.nioHtableDeleteEntry p freeFn).Holds
      { d with entry := Function.update d.entry key none }
      (without b (t.place (defHashFn key.bytes)) p) := by
  have hin := h.mem_bucket he
  obtain ⟨hk, hv, hh⟩ := h.entry key p v he
  have hch := h.chained.unlink hin
  rw [nioHtableDeleteEntry_eq (h.chained.next_ne hin), hh]
  refine ⟨⟨hch, fun j q => ?_, fun k q w hq => ?_, h.slots⟩, ?_, h.status⟩
  · -- of all entries with the key only this one goes
    rw [h.chained.mem_without hin, h.mem]
    change q ≠ p ∧ j = t.bucketOf q ∧ _ ↔ j = t.bucketOf q ∧
      Function.update d.entry key none (t.key q) = some (q, t.value q)
    rw [and_left_comm]
    refine and_congr_right fun _ => ?_
    by_cases hqk : t.key q = key
    · rw [hqk, Function.update_self, he]
      constructor
      · rintro ⟨hne, heq⟩
        cases heq
        exact absurd rfl hne
      · intro hq
        cases hq
    · rw [Function.update_of_ne hqk]
      refine ⟨fun hq => hq.2, fun hq => ⟨?_, hq⟩⟩
      rintro rfl
      exact hqk hk
  · change Function.update d.entry key none k = some (q, w) at hq
    by_cases hkk : k = key
    · rw [hkk, Function.update_self] at hq
      cases hq
    · refine h.entry k q w ?_
      rwa [Function.update_of_ne hkk] at hq
  · have hmem : t.place (defHashFn key.bytes) ∈ List.range t.slots :=
      List.mem_range.mpr (place_lt h.slots _)
    have hlen := length_flatMap_without List.nodup_range hmem hin
    have hused := h.used
    rw [entries, ← hlen, Int32.ofNat_add] at hused
    change t.used - 1 = _
    rw [hused]
    exact Int32.add_sub_cancel _ 1

/-- **`nio_htable_delete`** returns `0` if and only if the key was present. -/
theorem nioHtableDelete_eq (h : t.Holds d b) (hr : d.present.encard ≤ rounds) (key : CString)
    (freeFn : Bool) :
    ∃ t' b', t.nioHtableDelete rounds key freeFn =
        some (if d.entry key = none then -1 else 0, t') ∧
      t'.Holds (d.apply (.delete key freeFn)) b' := by
  have hsearch := h.search hr key
  rw [nioHtableDelete, hsearch]
  cases he : d.entry key with
  | none =>
      have hsame : Function.update d.entry key none = d.entry :=
        Function.update_eq_self_iff.mpr he.symm
      refine ⟨t, b, rfl, ?_⟩
      rw [Dict.apply, hsame]
      exact h
  | some e => exact ⟨_, _, rfl, h.deleteEntry he freeFn⟩

/-! ### Resetting -/

omit [DecidableEq ν] in
theorem resetChain_eq {l : List ν} (hf : Forward t.next l none) (hr : l.length ≤ rounds)
    (freeFn : Bool) :
    t.resetChain freeFn rounds (first l none) = some { t with
      freed := t.freed ++ if freeFn then l.flatMap fun p => (t.value p).toList else [] } := by
  induction l generalizing t rounds with
  | nil =>
      rw [resetChain.eq_def]
      simp
  | cons a l ih =>
      obtain ⟨rounds, rfl, hlen⟩ := exists_round hr
      have hnext : (t.freeValue freeFn a).next = t.next := by
        cases freeFn <;> rfl
      have hrest := ih (t := t.freeValue freeFn a) (hnext ▸ hf.2) hlen
      rw [first_cons, resetChain, hf.1]
      refine hrest.trans ?_
      cases freeFn <;> simp [freeValue]

omit [DecidableEq ν] in
/-- `free_fn` is called with the value of every entry. -/
theorem foldlM_resetChain {is : List Nat} (h : t.Filled d b) (hr : d.present.encard ≤ rounds)
    (freeFn : Bool) :
    is.foldlM (fun t i => t.resetChain freeFn rounds (t.data i)) t = some { t with
      freed := t.freed ++ if freeFn then (is.flatMap b).flatMap fun p => (t.value p).toList
        else [] } := by
  induction is generalizing t with
  | nil => simp
  | cons i is ih =>
      rw [List.foldlM_cons, h.chained.data, resetChain_eq (h.chained.forward i) (h.length_le hr i)]
      have hrest := ih (t := { t with
        freed := t.freed ++ if freeFn then (b i).flatMap fun p => (t.value p).toList else [] })
        ⟨h.chained, h.mem, h.entry, h.slots⟩
      refine hrest.trans ?_
      cases freeFn <;> simp

omit [DecidableEq ν] in
/-- **`nio_htable_reset`** -/
theorem nioHtableReset_eq (h : t.Holds d b) (hr : d.present.encard ≤ rounds) (freeFn : Bool) :
    ∃ t' b', t.nioHtableReset rounds freeFn = some (0, t') ∧
      t'.Holds (d.apply (.reset freeFn)) b' := by
  rw [nioHtableReset, foldlM_resetChain h.toFilled hr]
  refine ⟨_, fun _ => [], rfl, ?_⟩
  have hempty := Holds.empty { t with
    freed := t.freed ++ if freeFn then ((List.range t.slots).flatMap b).flatMap fun p =>
      (t.value p).toList else [] } (if t.initSize < 13 then 13 else t.initSize.toUInt32)
  rw [Dict.apply, ← h.status]
  exact hempty

end Functions

end NioHtable

end Libnio.Common
