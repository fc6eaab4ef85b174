import Libnio.Common.HtableFacts

/-!
# Common — through a hash table

`nio_htable_walk`, `nio_htable_list` and the four functions of the iterator. Each way
through the table comes to every entry of the map, and to none twice: `Ahead` is what
an iterator still has before it.
-/

namespace Libnio.Common

open Linked

variable {ν ω : Type}

namespace NioHtable

variable {t : NioHtable ν ω} {d : Dict ν ω} {b : Nat → List ν} {l : List ν} {rounds : Nat}

/-- A signed size that is not negative is the unsigned one. -/
theorem slots_eq (h : 0 ≤ t.size.toInt) : t.slots = t.size.toInt.toNat := by
  have hcond := t.size.toBitVec.toInt_eq_toNat_cond
  change 0 ≤ t.size.toBitVec.toInt at h
  change t.size.toBitVec.toNat = t.size.toBitVec.toInt.toNat
  split at hcond <;> omega

/-- **Each entry of the map once**, and nothing else. -/
def EachOnce (d : Dict ν ω) (l : List ν) : Prop :=
  l.Nodup ∧ ∀ p, p ∈ l ↔ ∃ key v, d.entry key = some (p, v)

/-- The same, with the key and the value of each. -/
def Iterates (d : Dict ν ω) (seen : List (ν × Option CString × Option ω)) : Prop :=
  (seen.map (·.1)).Nodup ∧
    ∀ p k v, (p, k, v) ∈ seen ↔ ∃ key, k = some key ∧ d.entry key = some (p, v)

theorem EachOnce.perm {l m : List ν} (h : EachOnce d l) (hp : l.Perm m) : EachOnce d m :=
  ⟨hp.nodup_iff.mp h.1, fun p => hp.mem_iff.symm.trans (h.2 p)⟩

/-- No two lists of the entries are of different lengths. -/
theorem EachOnce.length_eq {l m : List ν} (h : EachOnce d l) (hm : EachOnce d m) :
    m.length = l.length :=
  ((List.perm_ext_iff_of_nodup hm.1 h.1).mpr fun p => (hm.2 p).trans (h.2 p).symm).length_eq

/-- What is seen of a map without keys is nothing, and of no other. -/
theorem iterates_nil (h : EachOnce d l) : Iterates d [] ↔ l = [] := by
  constructor
  · intro hit
    refine List.eq_nil_iff_forall_not_mem.mpr fun p hp => ?_
    obtain ⟨key, v, he⟩ := (h.2 p).mp hp
    exact List.not_mem_nil ((hit.2 p (some key) v).mpr ⟨key, rfl, he⟩)
  · rintro rfl
    refine ⟨List.nodup_nil, fun p k v => ⟨fun hc => absurd hc List.not_mem_nil, ?_⟩⟩
    rintro ⟨key, -, he⟩
    exact absurd ((h.2 p).mpr ⟨key, v, he⟩) List.not_mem_nil

theorem Filled.eachOnce (h : t.Filled d b) : EachOnce d (t.entries b) := by
  refine ⟨h.nodup_entries, fun p => ?_⟩
  rw [h.mem_entries]
  constructor
  · exact fun he => ⟨_, _, he⟩
  · rintro ⟨key, v, he⟩
    obtain ⟨hk, hv, -⟩ := h.entry key p v he
    rwa [hk, hv]

theorem Filled.iterates (h : t.Filled d b) {l : List ν} (hl : EachOnce d l) :
    Iterates d (l.map fun p => (p, some (t.key p), t.value p)) := by
  constructor
  · rw [List.map_map]
    simpa [Function.comp_def] using hl.1
  · intro p k v
    rw [List.mem_map]
    constructor
    · rintro ⟨q, hq, heq⟩
      cases heq
      obtain ⟨key, v, he⟩ := (hl.2 p).mp hq
      obtain ⟨hk, hv, -⟩ := h.entry key p v he
      exact ⟨t.key p, rfl, by rw [hk, hv]; exact he⟩
    · rintro ⟨key, rfl, he⟩
      obtain ⟨hk, hv, -⟩ := h.entry key p v he
      exact ⟨p, (hl.2 p).mpr ⟨key, v, he⟩, by rw [hk, hv]⟩

/-! ## Along the chains -/

section Chains

variable [DecidableEq ν]

theorem mapM_follow (h : t.Filled d b) (hr : d.present.encard < rounds) (is : List Nat) :
    (is.mapM fun i => follow t.next none rounds (t.data i)) = some (is.map b) := by
  induction is with
  | nil => rfl
  | cons i is ih =>
      have hlen : (b i).length < rounds := by
        rw [h.encard_present] at hr
        exact (h.length_bucket_le i).trans_lt (Nat.cast_lt.mp hr)
      have hfollow := (h.chained.forward i).follow (fun _ _ hc => nomatch hc) hlen
      rw [List.mapM_cons, ih, h.chained.data, hfollow]
      rfl

/-- **`nio_htable_walk`** -/
theorem nioHtableWalk_eq (h : t.Filled d b) (hr : d.present.encard < rounds) :
    t.nioHtableWalk rounds = some (t.entries b) := by
  rw [nioHtableWalk, chains, mapM_follow h hr, Option.map_some, ← List.flatMap_def]
  rfl

/-- How many entries an `int` can count. -/
theorem toInt_used_iff (n : Nat) : (Int32.ofNat n).toInt = n ↔ n < 2 ^ 31 := by
  refine ⟨fun h => ?_, Int32.toInt_ofNat_of_lt⟩
  have hlt := (Int32.ofNat n).toInt_lt
  omega

/-- One place more than there are entries is a number that an `int` holds. -/
theorem room_iff (n : Nat) : (n : Int) < (Int32.ofNat (n + 1)).toInt ↔ n + 1 < 2 ^ 31 := by
  constructor
  · intro h
    have hlt := (Int32.ofNat (n + 1)).toInt_lt
    omega
  · intro h
    rw [Int32.toInt_ofNat_of_lt h]
    omega

/-- `nio_htable_list` goes through all buckets, if the size is not negative, -/
theorem nioHtableList_eq (h : t.Holds d b) (hr : d.present.encard < rounds)
    (hsize : 0 ≤ t.size.toInt) : t.nioHtableList rounds =
      if (t.entries b).length < (Int32.ofNat ((t.entries b).length + 1)).toInt then
        some ((t.entries b).map some ++ [none])
      else none := by
  rw [nioHtableList, chains, mapM_follow h.toFilled hr, ← slots_eq hsize, Option.map_some,
    ← List.flatMap_def, h.used, Int32.ofNat_add]
  rfl

/-- and through none of them if it is. -/
theorem nioHtableList_neg (hsize : t.size.toInt < 0) : t.nioHtableList rounds =
    if 0 < (t.used + 1).toInt then some [none] else none := by
  have hnone : t.size.toInt.toNat = 0 := by omega
  rw [nioHtableList, hnone]
  rfl

/-- `nio_htable_list` gives each entry once, and a null behind them. -/
def Lists (rounds : Nat) (t : NioHtable ν ω) (d : Dict ν ω) : Prop :=
  ∃ l, t.nioHtableList rounds = some (l.map some ++ [none]) ∧ EachOnce d l

/-- **`nio_htable_list`** is right exactly if the size is not negative and `used + 1`
is a number that an `int` holds, or if there is nothing to list. -/
theorem Holds.lists_iff (h : t.Holds d b) (hr : d.present.encard < rounds) :
    Lists rounds t d ↔
      (t.entries b).length = 0 ∨ (t.entries b).length + 1 < 2 ^ 31 ∧ 0 ≤ t.size.toInt := by
  rw [Lists]
  by_cases hsize : 0 ≤ t.size.toInt
  · rw [nioHtableList_eq h hr hsize]
    by_cases hroom : ((t.entries b).length : Int) < (Int32.ofNat ((t.entries b).length + 1)).toInt
    · rw [if_pos hroom]
      exact ⟨fun _ => .inr ⟨(room_iff _).mp hroom, hsize⟩,
        fun _ => ⟨t.entries b, rfl, h.eachOnce⟩⟩
    · rw [if_neg hroom]
      rw [room_iff] at hroom
      constructor
      · rintro ⟨l, hl, -⟩
        cases hl
      · rintro (hc | hc)
        · exact absurd (by omega) hroom
        · exact absurd hc.1 hroom
  · rw [nioHtableList_neg (not_le.mp hsize)]
    constructor
    · rintro ⟨l, hl, hl'⟩
      split at hl
      · have hnil : l = [] := by simpa using (Option.some.inj hl).symm
        exact .inl (by rw [← h.eachOnce.length_eq hl', hnil]; rfl)
      · cases hl
    · intro hc
      have hcount : (t.entries b).length = 0 := hc.resolve_right fun hc => hsize hc.2
      refine ⟨[], ?_, ?_⟩
      · rw [h.used, hcount]
        rfl
      · rw [← List.eq_nil_of_length_eq_zero hcount]
        exact h.eachOnce

end Chains

/-! ## The iterator -/

/-- So many buckets, one after the other. -/
def places (w : Way) : Nat → Int → List Nat
  | 0, _ => []
  | n + 1, i => i.toNat :: places w n (i + w.step)

theorem places_up (n i : Nat) : places .up n i = List.range' i n := by
  induction n generalizing i with
  | zero => rfl
  | succ n ih =>
      have hrest := ih (i + 1)
      rw [Nat.cast_add] at hrest
      rw [places, List.range'_succ, Way.step]
      exact congrArg (i :: ·) hrest

theorem places_down (n : Nat) : places .down n (n - 1) = (List.range n).reverse := by
  induction n with
  | zero => rfl
  | succ n ih =>
      have hi : ((n + 1 : Nat) : Int) - 1 = n := by omega
      rw [places, List.range_succ, List.reverse_concat, hi, Int.toNat_natCast, ← ih]
      rfl

theorem left_step (w : Way) (iter : Iter ν ω) :
    w.left { iter with i := iter.i + w.step } = w.left iter - 1 := by
  cases w with
  | up =>
      simp only [Way.left, Way.step]
      omega
  | down =>
      simp only [Way.left, Way.step]
      omega

/-- What an iterator still comes to, from the entry on that it is at. -/
def Ahead (w : Way) (b : Nat → List ν) (t : NioHtable ν ω) (iter : Iter ν ω) (l : List ν) :
    Prop :=
  match iter.ptr with
  | none => l = []
  | some p => ∃ chain, Forward t.next (p :: chain) none ∧
      l = p :: (chain ++ (places w (w.left iter - 1) (iter.i + w.step)).flatMap b)

/-- The end of all four functions changes nothing of the way. -/
theorem settle_eq (t : NioHtable ν ω) (iter : Iter ν ω) : t.settle iter =
    { iter with data := iter.ptr.bind t.value, key := iter.ptr.map t.key } := by
  rw [settle]
  cases iter.ptr with
  | none => rfl
  | some p => rfl

theorem Ahead.settle {w : Way} {iter : Iter ν ω} {l : List ν} (h : Ahead w b t iter l) :
    Ahead w b t (t.settle iter) l := by
  rw [settle_eq]
  exact h

/-- **The loop of all four functions** comes to the first bucket that is not empty. -/
theorem ahead_seek (hc : Chained t.next t.prev t.data b) (w : Way) {n : Nat} {iter : Iter ν ω}
    (hn : w.left iter = n) (hp : iter.ptr = none) :
    Ahead w b t (t.seek w n iter) ((places w n iter.i).flatMap b) := by
  induction n generalizing iter with
  | zero =>
      rw [seek, Ahead, hp]
      rfl
  | succ n ih =>
      rw [seek, places, List.flatMap_cons, hc.data]
      have hf := hc.forward iter.i.toNat
      cases hb : b iter.i.toNat with
      | nil => exact ih (by rw [left_step, hn]; rfl) hp
      | cons p chain =>
          rw [hb] at hf
          have hrest : w.left { iter with ptr := some p } - 1 = n := by
            change w.left iter - 1 = n
            rw [hn, Nat.add_sub_cancel]
          refine ⟨chain, hf, ?_⟩
          change p :: chain ++ _ = p :: (chain ++ (places w
            (w.left { iter with ptr := some p } - 1) (iter.i + w.step)).flatMap b)
          rw [hrest, List.cons_append]

/-- One step on, in the chain or to another one. -/
theorem ahead_on (hc : Chained t.next t.prev t.data b) {w : Way} {iter : Iter ν ω} {p : ν}
    {l : List ν} (h : Ahead w b t iter (p :: l)) : Ahead w b t (t.iterOn w iter) l := by
  cases hptr : iter.ptr with
  | none =>
      rw [Ahead, hptr] at h
      cases h
  | some q =>
      rw [Ahead, hptr] at h
      obtain ⟨chain, hf, hl⟩ := h
      cases hl
      rw [iterOn, hptr, Option.bind_some, hf.1]
      cases chain with
      | nil =>
          have hleft : w.left ({ iter with ptr := none, i := iter.i + w.step } : Iter ν ω)
              = w.left iter - 1 := left_step w iter
          have hseek := ahead_seek hc w hleft rfl
          rw [first_nil]
          dsimp only
          rw [hleft]
          exact hseek.settle
      | cons c chain =>
          rw [first_cons]
          refine Ahead.settle ⟨chain, hf.2, ?_⟩
          rfl

/-- Where a traversal begins. -/
theorem ahead_from (hc : Chained t.next t.prev t.data b) (w : Way) (i : Int) {n : Nat}
    (hn : ∀ iter : Iter ν ω, iter.i = i → iter.size = t.size.toInt → w.left iter = n) :
    Ahead w b t (t.iterFrom w i) ((places w n i).flatMap b) := by
  rw [iterFrom, hn _ rfl rfl]
  exact (ahead_seek hc w (hn _ rfl rfl) rfl).settle

theorem settled_from (w : Way) (i : Int) (t : NioHtable ν ω) :
    t.settle (t.iterFrom w i) = t.iterFrom w i := by
  rw [iterFrom]
  simp [settle_eq]

theorem settled_on (w : Way) (iter : Iter ν ω) (t : NioHtable ν ω) :
    t.settle (t.iterOn w iter) = t.iterOn w iter := by
  rw [iterOn]
  dsimp only
  split
  · simp [settle_eq]
  · simp [settle_eq]

/-- **`FOREACH`** comes to what is ahead. -/
theorem forEach_eq (hc : Chained t.next t.prev t.data b) {w : Way} {iter : Iter ν ω} {l : List ν}
    (h : Ahead w b t iter l) (hs : t.settle iter = iter) (hr : l.length ≤ rounds) :
    forEach (t.iterOn w) rounds iter
      = some (l.map fun p => (p, some (t.key p), t.value p)) := by
  induction l generalizing iter rounds with
  | nil =>
      have hptr : iter.ptr = none := by
        rw [Ahead] at h
        split at h
        · assumption
        · obtain ⟨_, -, h⟩ := h
          cases h
      cases rounds with
      | zero =>
          rw [forEach, hptr]
          rfl
      | succ rounds =>
          rw [forEach, hptr]
          rfl
  | cons p l ih =>
      obtain ⟨rounds, rfl, hlen⟩ := exists_round hr
      have hptr : iter.ptr = some p := by
        rw [Ahead] at h
        split at h
        · cases h
        · next q hq =>
            obtain ⟨_, -, h⟩ := h
            cases h
            exact hq
      have hrest := ih (ahead_on hc h) (settled_on w iter t) hlen
      rw [settle_eq, hptr] at hs
      rw [forEach, hptr]
      dsimp only
      rw [hrest, ← hs]
      rfl

/-- **`FOREACH`** over the table, from its first bucket to its last one. -/
theorem forEach_next (h : t.Filled d b) (hr : d.present.encard ≤ rounds)
    (hsize : 0 ≤ t.size.toInt) :
    forEach t.nioHtableIterNext rounds t.nioHtableIterHead
      = some ((t.entries b).map fun p => (p, some (t.key p), t.value p)) := by
  have hahead := ahead_from h.chained .up 0 (n := t.slots) fun iter hi hs => by
    rw [Way.left, hi, hs, slots_eq hsize, sub_zero]
  have hall : (places .up t.slots 0).flatMap b = t.entries b := by
    have hplaces := places_up t.slots 0
    rw [Nat.cast_zero] at hplaces
    rw [hplaces, ← List.range_eq_range']
    rfl
  rw [hall] at hahead
  rw [h.encard_present, Nat.cast_le] at hr
  exact forEach_eq h.chained hahead (settled_from .up 0 t) hr

/-- **`FOREACH_REVERSE`** takes the buckets the other way round. -/
theorem forEach_prev (h : t.Filled d b) (hr : d.present.encard ≤ rounds)
    (hsize : 0 ≤ t.size.toInt) :
    ∃ l : List ν, l.Perm (t.entries b) ∧ forEach t.nioHtableIterPrev rounds t.nioHtableIterTail
      = some (l.map fun p => (p, some (t.key p), t.value p)) := by
  have hslots := slots_eq hsize
  have hahead := ahead_from h.chained .down (t.size.toInt - 1) (n := t.slots) fun iter hi hs => by
    rw [Way.left, hi, hslots, Int.sub_add_cancel]
  have hall : places .down t.slots (t.size.toInt - 1) = (List.range t.slots).reverse := by
    rw [← places_down, hslots, Int.toNat_of_nonneg hsize]
  have hperm : ((List.range t.slots).reverse.flatMap b).Perm (t.entries b) :=
    List.Perm.flatMap_right b (List.reverse_perm _)
  rw [hall] at hahead
  rw [h.encard_present, Nat.cast_le] at hr
  exact ⟨_, hperm, forEach_eq h.chained hahead (settled_from .down _ t) (hperm.length_eq ▸ hr)⟩

/-- With a size that an `int` takes for negative a traversal is over at once. -/
theorem forEach_of_neg (h : t.Filled d b) {w : Way} {i : Int}
    (hn : ∀ iter : Iter ν ω, iter.i = i → iter.size = t.size.toInt → w.left iter = 0) :
    forEach (t.iterOn w) rounds (t.iterFrom w i) = some [] :=
  forEach_eq h.chained (ahead_from h.chained w i hn) (settled_from w i t) (Nat.zero_le rounds)

theorem forEach_next_neg (h : t.Filled d b) (hsize : t.size.toInt < 0) :
    forEach t.nioHtableIterNext rounds t.nioHtableIterHead = some [] :=
  forEach_of_neg h fun iter hi hs => by rw [Way.left, hi, hs]; omega

theorem forEach_prev_neg (h : t.Filled d b) (hsize : t.size.toInt < 0) :
    forEach t.nioHtableIterPrev rounds t.nioHtableIterTail = some [] :=
  forEach_of_neg h fun iter hi _ => by rw [Way.left, hi]; omega

/-- A traversal comes to each entry once, with its key and its value. -/
def Traverses (rounds : Nat) (on : Iter ν ω → Iter ν ω) (iter : Iter ν ω) (d : Dict ν ω) : Prop :=
  ∃ seen, forEach on rounds iter = some seen ∧ Iterates d seen

/-- **Both traversals** are right exactly if the size is not negative, or if there is
nothing to see. -/
theorem Filled.traverses_iff (h : t.Filled d b) (hr : d.present.encard ≤ rounds) :
    (Traverses rounds t.nioHtableIterNext t.nioHtableIterHead d ↔
        (t.entries b).length = 0 ∨ 0 ≤ t.size.toInt) ∧
      (Traverses rounds t.nioHtableIterPrev t.nioHtableIterTail d ↔
        (t.entries b).length = 0 ∨ 0 ≤ t.size.toInt) := by
  by_cases hsize : 0 ≤ t.size.toInt
  · obtain ⟨l, hl, heq⟩ := forEach_prev h hr hsize
    exact ⟨iff_of_true ⟨_, forEach_next h hr hsize, h.iterates h.eachOnce⟩ (.inr hsize),
      iff_of_true ⟨_, heq, h.iterates (h.eachOnce.perm hl.symm)⟩ (.inr hsize)⟩
  · have hneg := not_le.mp hsize
    have hnil : (∃ seen, some [] = some seen ∧ Iterates d seen) ↔
        (t.entries b).length = 0 ∨ 0 ≤ t.size.toInt := by
      rw [or_iff_left hsize, List.length_eq_zero_iff, ← iterates_nil h.eachOnce]
      simp
    rw [Traverses, forEach_next_neg h hneg, Traverses, forEach_prev_neg h hneg]
    exact ⟨hnil, hnil⟩

end NioHtable

end Libnio.Common
