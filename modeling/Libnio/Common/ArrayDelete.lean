import Libnio.Common.ArrayFacts

/-!
# Common — arrays, the deletions

What each deletion is to the list of the items, which objects it frees, and where the
code does just that. It does not where a range begins behind the place after the last
item, and where an object that the array does not have is freed all the same.
-/

namespace Libnio.Common

open Slots Stream

variable {ν : Type}

/-! ## To the list -/

namespace Deletion

/-- A position of the list. -/
def At (position : Int) (l : List (Option ν)) : Prop := 0 ≤ position ∧ position < l.length

instance (position : Int) (l : List (Option ν)) : Decidable (At position l) :=
  inferInstanceAs (Decidable (_ ∧ _))

def freeFn : Deletion ν → Bool
  | deleteIdx _ freeFn | delete _ freeFn | deleteObj _ freeFn | deleteRange _ _ freeFn
  | mvIdx _ _ freeFn => freeFn

variable [DecidableEq ν]

/-- What is left of the items. -/
def Keeps (l l' : List (Option ν)) : Deletion ν → Prop
  | deleteIdx position _ => l' = if At position l then l.eraseIdx position.toNat else l
  | delete idx _ => if At idx l then l'.Perm (l.eraseIdx idx.toNat) else l' = l
  | deleteObj obj _ => l' = l.erase obj
  | deleteRange ibegin iend _ =>
      l' = if 0 ≤ ibegin ∧ ibegin ≤ iend then l.take ibegin.toNat ++ l.drop (iend.toNat + 1)
        else l
  | mvIdx ito ifrom _ =>
      l' = if 0 ≤ ito ∧ ito < ifrom ∧ ifrom < l.length then
        l.take ito.toNat ++ l.drop ifrom.toNat else l

/-- The items that go. -/
def removed (l : List (Option ν)) : Deletion ν → List (Option ν)
  | deleteIdx position _ | delete position _ =>
      if At position l then (l.drop position.toNat).take 1 else []
  | deleteObj obj _ => if obj ∈ l then [obj] else []
  | deleteRange ibegin iend _ =>
      if 0 ≤ ibegin ∧ ibegin ≤ iend then
        (l.drop ibegin.toNat).take (iend.toNat + 1 - ibegin.toNat) else []
  | mvIdx ito ifrom _ =>
      if 0 ≤ ito ∧ ito < ifrom ∧ ifrom < l.length then
        (l.drop ito.toNat).take (ifrom.toNat - ito.toNat) else []

/-- The objects to free: those of the items that go, if there is a `free_fn`. -/
def frees (l : List (Option ν)) (d : Deletion ν) : List ν :=
  if d.freeFn then (d.removed l).reduceOption else []

/-- The deletion is one that the code makes as it should. -/
def Apt (l : List (Option ν)) : Deletion ν → Prop
  | deleteObj obj freeFn => freeFn = true → obj ≠ none → obj ∈ l
  | deleteRange ibegin iend _ => ¬ (l ≠ [] ∧ l.length < ibegin ∧ ibegin ≤ iend)
  | deleteIdx _ _ | delete _ _ | mvIdx _ _ _ => True

instance (l : List (Option ν)) : DecidablePred (Apt l) := fun d =>
  match d with
  | deleteObj _ _ => inferInstanceAs (Decidable (_ → _ → _))
  | deleteRange _ _ _ => inferInstanceAs (Decidable (¬ _))
  | deleteIdx _ _ | delete _ _ | mvIdx _ _ _ => isTrue trivial

end Deletion

namespace NioArray

variable {a : NioArray ν} {l : List (Option ν)}

/-- The deletion returns, and it leaves the items it should, frees what it should, each
object once, and does not make the array longer. -/
def Deletes [DecidableEq ν] (a : NioArray ν) (l : List (Option ν)) (d : Deletion ν) : Prop :=
  ∃ r a' l' fs, a.delete d = .ok (r, a') ∧ a'.Holds l' ∧ d.Keeps l l' ∧
    a'.count ≤ a.count ∧ a'.freed = a.freed ++ fs ∧ fs.Perm (d.frees l)

/-! ## Cells and items -/

theorem Holds.resize (h : a.Holds l) {a' : NioArray ν} (hcap : a'.capacity = a.capacity)
    (hcount : a'.count = a.count) (hitems : a'.items = a.items) : a'.Holds l :=
  ⟨hcount.trans h.count, by rw [hcount, hcap]; exact h.capacity, by rw [hitems]; exact h.items⟩

theorem Holds.lt (h : a.Holds l) {i : Nat} (hi : i < l.length) : (i : Int) < a.capacity := by
  have hcount := h.count
  have hcap := h.capacity
  omega

theorem Holds.put (h : a.Holds l) (p : Nat) (obj : Option ν) :
    Holds { a with items := Function.update a.items p obj } (l.set p obj) := by
  have hlen : (l.set p obj).length = l.length := List.length_set
  refine ⟨h.count.trans (by rw [hlen]), h.capacity, ?_⟩
  rw [hlen, block_update, h.items]

/-- The objects of so many items. -/
theorem Holds.part (h : a.Holds l) {i n : Nat} (hin : i + n ≤ l.length) :
    block (fun j => a.items (i + j)) n = (l.drop i).take n := by
  rw [block_shift a.items hin, h.items]

/-- **A gap is closed**, whatever its cells hold, and the count is less by what was in it. -/
theorem Holds.closeGap (h : a.Holds l) {dst src : Nat} (hle : dst ≤ src) (hs : src ≤ l.length)
    {g : Nat → Option ν} (hg : ∀ i, i < dst ∨ src ≤ i → g i = a.items i) {a' : NioArray ν}
    (hcap : a'.capacity = a.capacity) (hcount : a'.count = a.count - (src - dst))
    (hitems : a'.items = moved g dst src (l.length - src)) :
    a'.Holds (l.take dst ++ l.drop src) := by
  have hlen : (l.take dst ++ l.drop src).length = l.length - (src - dst) := by
    rw [List.length_append, List.length_take, List.length_drop]
    omega
  have hcount₀ := h.count
  have hcap₀ := h.capacity
  refine ⟨by omega, by omega, ?_⟩
  rw [hlen, hitems, block_moved hle hs (fun i hi => hg i (.inl hi)) (fun i hi _ => hg i (.inr hi)),
    h.items]

/-! ## Each deletion -/

theorem deleteIdx_eq (h : a.Holds l) {p : Nat} (hp : p < l.length) (freeFn : Bool) :
    ∃ a', a.nioArrayDeleteIdx p freeFn = .ok (0, a') ∧ a'.Holds (l.eraseIdx p) ∧
      a'.count ≤ a.count ∧
      a'.freed = a.freed ++ if freeFn then ((l.drop p).take 1).reduceOption else [] := by
  have hcount := h.count
  have hcap := h.capacity
  have hrounds : (a.count - 1 - p).toNat = l.length - (p + 1) := by omega
  have hmove := moveDown_eq (l.length - (p + 1)) p (p + 1)
    { a with
      items := Function.update a.items p none
      freed := a.freed ++ if freeFn then (a.items p).toList else [] }
    (Nat.le_succ p) (show ((p + 1 + (l.length - (p + 1)) : Nat) : Int) ≤ a.capacity by omega)
  have hput := put_eq (i := p)
    (a := { a with freed := a.freed ++ if freeFn then (a.items p).toList else [] }) (h.lt hp) none
  have hobj : (a.items p).toList = ((l.drop p).take 1).reduceOption := by
    rw [← h.part (show p + 1 ≤ l.length by omega)]
    exact (List.reduceOption_singleton (a.items p)).symm
  refine ⟨{ a with
    count := a.count - 1
    items := moved (Function.update a.items p none) p (p + 1) (l.length - (p + 1))
    freed := a.freed ++ if freeFn then (a.items p).toList else [] }, ?_, ?_, ?_, by rw [hobj]⟩
  · rw [nioArrayDeleteIdx, if_neg (by omega), freeAt_eq freeFn (h.lt hp), ok_bind, hput, ok_bind,
      ← Int.natCast_succ, hrounds, hmove]
    rfl
  · rw [List.eraseIdx_eq_take_drop_succ]
    refine h.closeGap (Nat.le_succ p) hp (fun i hi => ?_) rfl ?_ rfl
    · rw [Function.update_of_ne (by omega)]
    · show a.count - 1 = a.count - (((p + 1 : Nat) : Int) - p)
      omega
  · exact Int.sub_le_self a.count (by decide)

/-- The cells of a gap are freed, or they are left as they are. -/
theorem clear_if_eq (freeFn : Bool) {i n : Nat} (h : ((i + n : Nat) : Int) ≤ a.capacity) :
    (if freeFn then a.clear true n i else .ok a) = .ok { a with
      items := if freeFn then filled a.items none i n else a.items
      freed := a.freed ++
        if freeFn then (block (fun j => a.items (i + j)) n).reduceOption else [] } := by
  cases freeFn with
  | false => simp
  | true => simp [clear_eq true n i a h]

/-- **A gap is cleared and closed**: the loops that two of the deletions have in common,
with the count that the second of them finds. -/
theorem Holds.shut (h : a.Holds l) {dst src : Nat} (hle : dst ≤ src) (hs : src ≤ l.length)
    (freeFn : Bool) :
    ∃ a₁, (if freeFn then a.clear true (src - dst) dst else .ok a) = .ok a₁ ∧
      a₁.count = a.count ∧
      ∀ n, ∃ a₂, moveDown (l.length - src) dst src { a₁ with count := n } = .ok a₂ ∧
        a₂.count = n ∧
        a₂.freed = a.freed ++
          (if freeFn then ((l.drop dst).take (src - dst)).reduceOption else []) ∧
        Holds { a₂ with count := a.count - (src - dst) } (l.take dst ++ l.drop src) := by
  have hcount := h.count
  have hcap := h.capacity
  have hclear := clear_if_eq (a := a) freeFn
    (show ((dst + (src - dst) : Nat) : Int) ≤ a.capacity by omega)
  rw [h.part (by omega)] at hclear
  refine ⟨_, hclear, rfl, fun n => ⟨_, moveDown_eq _ dst src _ hle ?_, rfl, rfl, ?_⟩⟩
  · show ((src + (l.length - src) : Nat) : Int) ≤ a.capacity
    omega
  · refine h.closeGap hle hs (fun i hi => ?_) rfl rfl rfl
    split
    · exact filled_outside a.items none (by omega)
    · rfl

theorem deleteRange_eq (h : a.Holds l) {b e : Nat} (hb : b ≤ l.length) (hbe : b ≤ e)
    (hne : l ≠ []) (freeFn : Bool) :
    ∃ a', a.nioArrayDeleteRange b e freeFn = .ok (0, a') ∧
      a'.Holds (l.take b ++ l.drop (e + 1)) ∧ a'.count ≤ a.count ∧
      a'.freed = a.freed ++ if freeFn then ((l.drop b).take (e + 1 - b)).reduceOption else [] := by
  have hcount := h.count
  have hpos := List.length_pos_iff.mpr hne
  -- the place behind the last item of the range
  obtain ⟨s, hs⟩ : ∃ s, s = min (e + 1) l.length := ⟨_, rfl⟩
  have hend : (if (e : Int) > a.count - 1 then a.count - 1 else (e : Int)) = s - 1 := by
    split <;> omega
  have hgap : ((s : Int) - 1 - b + 1).toNat = s - b := by omega
  have hrest : (a.count - 1 - ((s : Int) - 1)).toNat = l.length - s := by omega
  have hless : a.count - ((s : Int) - 1 - b + 1) = a.count - (s - b) := by omega
  have hdrop : l.drop s = l.drop (e + 1) := by
    rcases Nat.le_total (e + 1) l.length with hle | hle
    · rw [hs, Nat.min_eq_left hle]
    · rw [hs, Nat.min_eq_right hle, List.drop_eq_nil_of_le hle, List.drop_length]
  have htake : (l.drop b).take (s - b) = (l.drop b).take (e + 1 - b) := by
    rcases Nat.le_total (e + 1) l.length with hle | hle
    · rw [hs, Nat.min_eq_left hle]
    · rw [List.take_of_length_le (by rw [List.length_drop]; omega),
        List.take_of_length_le (by rw [List.length_drop]; omega)]
  obtain ⟨a₁, hclear, hcount₁, hmove⟩ := h.shut (show b ≤ s by omega) (by omega) freeFn
  obtain ⟨a₂, hmove, hcount₂, hfreed, hl⟩ := hmove (a.count - (s - b))
  rw [htake] at hfreed
  rw [hdrop, ← hcount₂] at hl
  refine ⟨a₂, ?_, hl, by omega, hfreed⟩
  rw [nioArrayDeleteRange, if_neg (by omega), if_neg (by omega)]
  dsimp only
  rw [hend, hgap, hclear, ok_bind, hrest, hcount₁, hless, Int.sub_add_cancel, hmove]
  rfl

/-- Where the range begins behind the place after the last item, the count becomes
where it begins. -/
theorem deleteRange_behind (h : a.Holds l) {b e : Nat} (hb : l.length < b) (hbe : b ≤ e)
    (hne : l ≠ []) (freeFn : Bool) :
    a.nioArrayDeleteRange b e freeFn = .ok (0, { a with count := b }) := by
  have hcount := h.count
  have hpos := List.length_pos_iff.mpr hne
  have hend : (if (e : Int) > a.count - 1 then a.count - 1 else (e : Int)) = a.count - 1 :=
    if_pos (by omega)
  have hgap : (a.count - 1 - b + 1).toNat = 0 := by omega
  have hrest : (a.count - 1 - (a.count - 1)).toNat = 0 := by omega
  have hless : a.count - (a.count - 1 - b + 1) = b := by omega
  rw [nioArrayDeleteRange, if_neg (by omega), if_neg (by omega)]
  dsimp only
  rw [hend, hgap, hrest]
  cases freeFn with
  | false => simp [moveDown, hless]
  | true => simp [moveDown, clear, hless]

theorem mvIdx_eq (h : a.Holds l) {dst src : Nat} (hlt : dst < src) (hs : src < l.length)
    (freeFn : Bool) :
    ∃ a', a.nioArrayMvIdx dst src freeFn = .ok (0, a') ∧
      a'.Holds (l.take dst ++ l.drop src) ∧ a'.count ≤ a.count ∧
      a'.freed = a.freed ++
        if freeFn then ((l.drop dst).take (src - dst)).reduceOption else [] := by
  have hcount := h.count
  have hgap : ((src : Int) - dst).toNat = src - dst := by omega
  obtain ⟨a₁, hclear, hcount₁, hmove⟩ := h.shut (Nat.le_of_lt hlt) (Nat.le_of_lt hs) freeFn
  obtain ⟨a₂, hmove, hcount₂, hfreed, hl⟩ := hmove a₁.count
  have hrest : (a₁.count - src).toNat = l.length - src := by omega
  refine ⟨{ a₂ with count := a.count - (src - dst) }, ?_, hl, ?_, hfreed⟩
  · rw [nioArrayMvIdx, if_neg (by omega), if_neg (by omega), hgap, hclear, ok_bind, hrest, hmove,
      ok_bind, hcount₂, hcount₁]
    exact if_neg (show ¬ a.count - ((src : Int) - dst) < 0 by omega)
  · show a.count - ((src : Int) - dst) ≤ a.count
    omega

/-- The last item comes to the place of the one that goes. -/
theorem delete_eq (h : a.Holds l) {p : Nat} (hp : p < l.length) (freeFn : Bool) :
    ∃ a' l', a.nioArrayDelete p freeFn = .ok (0, a') ∧ a'.Holds l' ∧ l'.Perm (l.eraseIdx p) ∧
      a'.count ≤ a.count ∧
      a'.freed = a.freed ++ if freeFn then ((l.drop p).take 1).reduceOption else [] := by
  have hcount := h.count
  have hcap := h.capacity
  obtain ⟨n, hn⟩ : ∃ n, l.length = n + 1 := ⟨l.length - 1, by omega⟩
  have hobj : (a.items p).toList = ((l.drop p).take 1).reduceOption := by
    rw [← h.part (show p + 1 ≤ l.length by omega)]
    exact (List.reduceOption_singleton (a.items p)).symm
  have hperm := block_swap_last a.items (show p ≤ n by omega)
  rw [← hn, h.items] at hperm
  have hless : a.count - 1 = n := by omega
  have hfree := freeAt_eq freeFn (h.lt hp)
  rw [hobj] at hfree
  by_cases hlast : n = 0
  · -- nothing is left, and no cell is written
    refine ⟨{ a with
      count := a.count - 1
      freed := a.freed ++ if freeFn then ((l.drop p).take 1).reduceOption else [] },
      block (Function.update a.items p (a.items n)) n, ?_, ?_, hperm,
      Int.sub_le_self a.count (by decide), rfl⟩
    · rw [nioArrayDelete, if_neg (by omega), hfree, ok_bind]
      exact if_neg (show ¬ a.count - 1 > 0 by omega)
    · subst hlast
      exact ⟨hless, show a.count - 1 ≤ a.capacity by omega, rfl⟩
  · obtain ⟨b, hb⟩ : ∃ b : NioArray ν, b = { a with
        count := a.count - 1
        freed := a.freed ++ if freeFn then ((l.drop p).take 1).reduceOption else [] } := ⟨_, rfl⟩
    have hbcap : b.capacity = a.capacity := by rw [hb]
    have hbcount : b.count = n := by rw [hb, ← hless]
    have hbitems : b.items = a.items := by rw [hb]
    have hget : b.get b.count = .ok (a.items n) := by
      rw [hbcount, get_eq (by omega), hbitems]
    have hput := put_eq (i := p) (a := b) (by omega) (a.items n)
    refine ⟨{ b with items := Function.update b.items p (a.items n) },
      block (Function.update a.items p (a.items n)) n, ?_, ?_, hperm, ?_, by rw [hb]⟩
    · rw [nioArrayDelete, if_neg (by omega), hfree, ok_bind]
      refine (if_pos (show a.count - 1 > 0 by omega)).trans ?_
      rw [← hb, hget, ok_bind, hput]
      rfl
    · exact ⟨by rw [length_block]; exact hbcount, show b.count ≤ b.capacity by omega,
        by rw [length_block, hbitems]⟩
    · show b.count ≤ a.count
      omega

variable [DecidableEq ν]

/-- The first cell with the object is found. -/
theorem find_eq (obj : Option ν) : ∀ n i : Nat, ((i + n : Nat) : Int) ≤ a.capacity →
    a.find obj n i
      = .ok (((block (fun j => a.items (i + j)) n).idxOf? obj).map
          fun j => ((i + j : Nat) : Int)) := by
  intro n
  induction n with
  | zero =>
      intro i _
      rfl
  | succ n ih =>
      intro i h
      rw [find, get_eq (by omega), ok_bind, block_succ_front, List.idxOf?_cons]
      by_cases hobj : a.items i = obj
      · rw [if_pos hobj, if_pos (by simp [hobj])]
        rfl
      · have hrest := ih (i + 1) (by omega)
        rw [if_neg hobj, if_neg (by simp [hobj]), ← Int.natCast_succ, hrest, Option.map_map]
        congr 2
        ext j
        simp only [Function.comp_apply]
        omega

/-- Where the object is found, and what is done before that is looked at. -/
theorem find_contents (h : a.Holds l) (obj : Option ν) :
    a.find obj a.count.toNat 0 = .ok ((l.idxOf? obj).map fun j : Nat => (j : Int)) := by
  have hcount := h.count
  have hcap := h.capacity
  have hfind : a.find obj l.length 0 = _ := find_eq obj l.length 0 (by omega)
  rw [hcount, Int.toNat_natCast]
  simpa only [Nat.zero_add, h.items] using hfind

omit [DecidableEq ν] in
theorem Holds.freeing (h : a.Holds l) (freeFn : Bool) (obj : Option ν) :
    ∃ a', (if freeFn then { a with freed := a.freed ++ obj.toList } else a) = a' ∧ a'.Holds l ∧
      a'.count = a.count ∧ a'.freed = a.freed ++ if freeFn then obj.toList else [] := by
  cases freeFn with
  | false => exact ⟨a, rfl, h, rfl, (List.append_nil a.freed).symm⟩
  | true => exact ⟨_, rfl, h.resize rfl rfl rfl, rfl, rfl⟩

theorem deleteObj_mem (h : a.Holds l) {obj : Option ν} (hobj : obj ∈ l) (freeFn : Bool) :
    ∃ a', a.nioArrayDeleteObj obj freeFn = .ok (0, a') ∧ a'.Holds (l.erase obj) ∧
      a'.count ≤ a.count ∧ a'.freed = a.freed ++ if freeFn then obj.toList else [] := by
  obtain ⟨p, hp⟩ := Option.isSome_iff_exists.mp (List.isSome_idxOf?.mpr hobj)
  obtain ⟨hlt, -, -⟩ := List.idxOf?_eq_some_iff.mp hp
  obtain ⟨b, hb, hbl, hbcount, hbfreed⟩ := h.freeing freeFn obj
  have hset := hbl.put p none
  have hlt' : p < (l.set p none).length := by rwa [List.length_set]
  obtain ⟨a', hdel, hl', hle, hfreed⟩ := deleteIdx_eq hset hlt' false
  refine ⟨a', ?_, ?_, by rw [← hbcount]; exact hle, ?_⟩
  · rw [nioArrayDeleteObj, find_contents h obj, ok_bind, hp]
    dsimp only [Option.map_some]
    rw [hb, put_eq (hbl.lt hlt), ok_bind, hdel]
    rfl
  · rw [List.erase_eq_eraseIdx, hp]
    rwa [List.eraseIdx_set_eq] at hl'
  · rw [hfreed, ← hbfreed]
    exact List.append_nil b.freed

/-- An object that the array does not have is freed all the same. -/
theorem deleteObj_not_mem (h : a.Holds l) {obj : Option ν} (hobj : obj ∉ l) (freeFn : Bool) :
    ∃ a', a.nioArrayDeleteObj obj freeFn = .ok (-1, a') ∧ a'.Holds l ∧ a'.count = a.count ∧
      a'.freed = a.freed ++ if freeFn then obj.toList else [] := by
  obtain ⟨b, hb, hbl, hbcount, hbfreed⟩ := h.freeing freeFn obj
  refine ⟨b, ?_, hbl, hbcount, hbfreed⟩
  rw [nioArrayDeleteObj, find_contents h obj, ok_bind, List.idxOf?_eq_none_iff.mpr hobj]
  dsimp only [Option.map_none]
  rw [hb]
  rfl

/-! ## All of them -/

/-- A deletion that is out of range. -/
theorem Deletes.unchanged (h : a.Holds l) {d : Deletion ν} {r : Int}
    (hret : a.delete d = .ok (r, a)) (hkeeps : d.Keeps l l) (hnone : d.removed l = []) :
    a.Deletes l d := by
  refine ⟨r, a, l, [], hret, h, hkeeps, Int.le_refl _, (List.append_nil _).symm, ?_⟩
  rw [Deletion.frees, hnone]
  split <;> rfl

theorem deletes_deleteIdx (h : a.Holds l) (position : Int) (freeFn : Bool) :
    a.Deletes l (.deleteIdx position freeFn) := by
  by_cases hat : Deletion.At position l
  · obtain ⟨p, rfl⟩ := Int.eq_ofNat_of_zero_le hat.1
    obtain ⟨a', hret, hl', hle, hfreed⟩ := deleteIdx_eq h (Int.ofNat_lt.mp hat.2) freeFn
    refine ⟨0, a', l.eraseIdx p, _, hret, hl', ?_, hle, hfreed, ?_⟩
    · rw [Deletion.Keeps, if_pos hat, Int.toNat_natCast]
    · rw [Deletion.frees, Deletion.removed, if_pos hat, Int.toNat_natCast]
      rfl
  · have hcount := h.count
    rw [Deletion.At] at hat
    exact Deletes.unchanged h (r := -1) (if_pos (by omega)) (if_neg hat).symm (if_neg hat)

theorem deletes_delete (h : a.Holds l) (idx : Int) (freeFn : Bool) :
    a.Deletes l (.delete idx freeFn) := by
  by_cases hat : Deletion.At idx l
  · obtain ⟨p, rfl⟩ := Int.eq_ofNat_of_zero_le hat.1
    obtain ⟨a', l', hret, hl', hperm, hle, hfreed⟩ := delete_eq h (Int.ofNat_lt.mp hat.2) freeFn
    refine ⟨0, a', l', _, hret, hl', ?_, hle, hfreed, ?_⟩
    · rwa [Deletion.Keeps, if_pos hat, Int.toNat_natCast]
    · rw [Deletion.frees, Deletion.removed, if_pos hat, Int.toNat_natCast]
      rfl
  · have hcount := h.count
    have hkeeps : (Deletion.delete idx freeFn).Keeps l l := by
      rw [Deletion.Keeps, if_neg hat]
    rw [Deletion.At] at hat
    exact Deletes.unchanged h (r := -1) (if_pos (by omega)) hkeeps (if_neg hat)

theorem deletes_mvIdx (h : a.Holds l) (ito ifrom : Int) (freeFn : Bool) :
    a.Deletes l (.mvIdx ito ifrom freeFn) := by
  have hcount := h.count
  by_cases hin : 0 ≤ ito ∧ ito < ifrom ∧ ifrom < l.length
  · obtain ⟨dst, rfl⟩ := Int.eq_ofNat_of_zero_le hin.1
    obtain ⟨src, rfl⟩ := Int.eq_ofNat_of_zero_le (show 0 ≤ ifrom by omega)
    obtain ⟨a', hret, hl', hle, hfreed⟩ :=
      mvIdx_eq h (Int.ofNat_lt.mp hin.2.1) (Int.ofNat_lt.mp hin.2.2) freeFn
    refine ⟨0, a', _, _, hret, hl', ?_, hle, hfreed, ?_⟩
    · rw [Deletion.Keeps, if_pos hin, Int.toNat_natCast, Int.toNat_natCast]
    · rw [Deletion.frees, Deletion.removed, if_pos hin, Int.toNat_natCast, Int.toNat_natCast]
      rfl
  · by_cases hneg : ito < 0 ∨ ifrom < 0 ∨ a.count < 0
    · exact Deletes.unchanged h (r := -1) (if_pos hneg) (if_neg hin).symm (if_neg hin)
    · have hret : a.nioArrayMvIdx ito ifrom freeFn = .ok (0, a) := by
        rw [nioArrayMvIdx, if_neg hneg, if_pos (by omega)]
      exact Deletes.unchanged h hret (if_neg hin).symm (if_neg hin)

theorem deletes_deleteObj_iff (h : a.Holds l) (obj : Option ν) (freeFn : Bool) :
    a.Deletes l (.deleteObj obj freeFn) ↔ (freeFn = true → obj ≠ none → obj ∈ l) := by
  by_cases hobj : obj ∈ l
  · refine iff_of_true ?_ (fun _ _ => hobj)
    obtain ⟨a', hret, hl', hle, hfreed⟩ := deleteObj_mem h hobj freeFn
    refine ⟨0, a', _, _, hret, hl', rfl, hle, hfreed, ?_⟩
    rw [Deletion.frees, Deletion.removed, if_pos hobj, List.reduceOption_singleton]
    rfl
  · obtain ⟨a', hret, hl', hcount, hfreed⟩ := deleteObj_not_mem h hobj freeFn
    have hfrees : (Deletion.deleteObj obj freeFn).frees l = [] := by
      rw [Deletion.frees, Deletion.removed, if_neg hobj]
      split <;> rfl
    have herase : l.erase obj = l := List.erase_of_not_mem hobj
    constructor
    · rintro ⟨r, a₁, l₁, fs, hret₁, -, -, -, hfreed₁, hperm⟩ hfree hnull
      -- the object was freed, and nothing was to be
      rw [delete, hret] at hret₁
      cases hret₁
      rw [hfrees, List.perm_nil] at hperm
      rw [hperm, hfreed, List.append_cancel_left_eq, if_pos hfree] at hfreed₁
      exact absurd (Option.toList_eq_nil_iff.mp hfreed₁) hnull
    · intro hnull
      refine ⟨-1, a', l, _, hret, hl', herase.symm, by omega, hfreed, ?_⟩
      rw [hfrees, List.perm_nil]
      split
      · next hfree =>
          by_cases hnone : obj = none
          · rw [hnone]
            rfl
          · exact absurd (hnull hfree hnone) hobj
      · rfl

theorem deletes_deleteRange_iff (h : a.Holds l) (ibegin iend : Int) (freeFn : Bool) :
    a.Deletes l (.deleteRange ibegin iend freeFn) ↔
      ¬ (l ≠ [] ∧ l.length < ibegin ∧ ibegin ≤ iend) := by
  have hcount := h.count
  by_cases hin : 0 ≤ ibegin ∧ ibegin ≤ iend
  · obtain ⟨b, rfl⟩ := Int.eq_ofNat_of_zero_le hin.1
    obtain ⟨e, rfl⟩ := Int.eq_ofNat_of_zero_le (show 0 ≤ iend by omega)
    by_cases hnil : l = []
    · refine iff_of_true ?_ (fun hbad => hbad.1 hnil)
      subst hnil
      have hret : a.nioArrayDeleteRange b e freeFn = .ok (-1, a) := if_pos (by simp [hcount])
      refine Deletes.unchanged h hret ?_ ?_
      · rw [Deletion.Keeps, if_pos hin]
        simp
      · rw [Deletion.removed, if_pos hin]
        simp
    · by_cases hb : b ≤ l.length
      · refine iff_of_true ?_ (fun hbad => absurd hbad.2.1 (by omega))
        obtain ⟨a', hret, hl', hle, hfreed⟩ := deleteRange_eq h (e := e) hb (by omega) hnil freeFn
        refine ⟨0, a', _, _, hret, hl', ?_, hle, hfreed, ?_⟩
        · rw [Deletion.Keeps, if_pos hin, Int.toNat_natCast, Int.toNat_natCast]
        · rw [Deletion.frees, Deletion.removed, if_pos hin, Int.toNat_natCast, Int.toNat_natCast]
          rfl
      · refine iff_of_false ?_ (fun hgood => hgood ⟨hnil, by omega, hin.2⟩)
        rintro ⟨r, a', l', fs, hret, -, -, hle, -, -⟩
        rw [delete, deleteRange_behind h (by omega) (by omega) hnil freeFn] at hret
        cases hret
        have hless : (b : Int) ≤ a.count := hle
        omega
  · refine iff_of_true ?_ (fun hbad => hin ⟨by omega, hbad.2.2⟩)
    have hret : a.nioArrayDeleteRange ibegin iend freeFn = .ok (-1, a) := by
      rw [nioArrayDeleteRange]
      split
      · rfl
      · rw [if_pos (by omega)]
    exact Deletes.unchanged h hret (if_neg hin).symm (if_neg hin)

/-- **The deletions** remove, keep and free what they should, for every array and all
arguments, but for a range that begins behind the place after the last item, and for an
object to be freed that the array does not have. -/
theorem deletes_iff_apt (h : a.Holds l) (d : Deletion ν) : a.Deletes l d ↔ d.Apt l := by
  cases d with
  | deleteIdx position freeFn => exact iff_of_true (deletes_deleteIdx h position freeFn) trivial
  | delete idx freeFn => exact iff_of_true (deletes_delete h idx freeFn) trivial
  | deleteObj obj freeFn => exact deletes_deleteObj_iff h obj freeFn
  | deleteRange ibegin iend freeFn => exact deletes_deleteRange_iff h ibegin iend freeFn
  | mvIdx ito ifrom freeFn => exact iff_of_true (deletes_mvIdx h ito ifrom freeFn) trivial

/-- Four items, two of them the same object and one of them NULL: the first of the two goes
and is freed, a range that ends behind the array takes all from the second item on, and one
that begins there is not as it should be. -/
theorem deletes_iff_apt_four :
    let l := [some 7, some 8, none, some 8]
    let a : NioArray Nat :=
      { capacity := 16, count := 4, items := fun i => l.getD i none, freed := [] }
    a.Deletes l (.deleteObj (some 8) true) ∧ a.Deletes l (.deleteRange 1 9 true) ∧
      ¬ a.Deletes l (.deleteRange 5 9 true) := by
  intro l a
  have hl : a.Holds l := ⟨rfl, by decide, rfl⟩
  exact ⟨(deletes_iff_apt hl _).mpr (by decide), (deletes_iff_apt hl _).mpr (by decide),
    fun hd => absurd ((deletes_iff_apt hl _).mp hd) (by decide)⟩

/-- An array with one object, as `nio_array_create` and `nio_array_append` leave it. -/
def single : NioArray Nat :=
  { capacity := 16, count := 1, items := fun i => if i = 0 then some 7 else none, freed := [] }

theorem holds_single : single.Holds [some 7] := ⟨rfl, by decide, rfl⟩

/-- A range behind the one item makes the array longer. -/
theorem deleteRange_grows :
    ¬ ∀ (a : NioArray Nat) (l : List (Option Nat)) (d : Deletion Nat),
      a.Holds l → a.Deletes l d := by
  intro hclaim
  have hbad := hclaim single [some 7] (.deleteRange 3 5 false) holds_single
  exact (deletes_deleteRange_iff holds_single 3 5 false).mp hbad (by decide)

end NioArray

end Libnio.Common
