import Libnio.Common.ArrayDeque
import Libnio.Trace.Amortized
import Mathlib.Algebra.BigOperators.Ring.List

/-!
# Common — arrays, what growing costs

`nio_array_grow` moves all items to a new place when there is no cell left. It asks
for as many cells again as it finds items, so that over a run it moves two for every
item that room was made for.
-/

namespace Libnio.Common

open Stream Trace

variable {ν : Type}

/-- For how many items more a call needs room. -/
def ArrayCall.room : ArrayCall ν → Int
  | .deque (.append _) | .deque (.prepend _) | .deque (.pushBack _) | .deque (.pushFront _) => 1
  | .deque (.predInsert _ _) | .deque (.succInsert _ _) => 1
  | .deque .popBack | .deque .popFront | .deletion _ | .clean _ => 0
  | .preAppend appCount => appCount

namespace NioArray

variable {a a' : NioArray ν} {room : Int}

/-- What a call that needs room for so many items makes of the sizes: if the items do not
fit, the capacity grows by as much as there will be items. -/
structure Enlarges (room : Int) (a a' : NioArray ν) : Prop where
  count : a'.count ≤ a.count + room
  capacity : a'.capacity = a.capacity ∨ a.capacity < a.count + room ∧
    a.capacity + (a.count + room) ≤ a'.capacity ∧
    a'.capacity ≤ a.capacity + (a.count + room) + 30

theorem Enlarges.resize {a₁ a₂ : NioArray ν} (h : Enlarges room a a₁)
    (hcap : a₂.capacity = a₁.capacity) (hcount : a₂.count ≤ a.count + room) :
    Enlarges room a a₂ :=
  ⟨hcount, by rw [hcap]; exact h.capacity⟩

/-- What a call that takes items out makes of them. -/
structure Shrinks (a a' : NioArray ν) : Prop where
  capacity : a'.capacity = a.capacity
  count : a'.count ≤ a.count

theorem Shrinks.refl (a : NioArray ν) : Shrinks a a := ⟨rfl, Int.le_refl _⟩

theorem Shrinks.enlarges (h : Shrinks a a') : Enlarges 0 a a' :=
  ⟨by rw [Int.add_zero]; exact h.count, .inl h.capacity⟩

/-! ## Making room -/

section Room

variable (hs : a.Sized) (hle : a.count ≤ a.capacity)

include hs hle

/-- `extra` is what is asked for beyond the room that is needed. -/
theorem enlarges_grow (room extra : Int) (hneed : a.capacity < a.count + room)
    (hextra : 0 ≤ extra ∧ extra ≤ 15) (hroom : 0 ≤ room ∧ room + extra < 2 ^ 31) :
    Returns (fun a' => Enlarges room a a' ∧ a'.count = a.count)
      (a.nioArrayGrow (int32 (a.count + (room + extra)))) := by
  have hcount := hs.count
  have hsmall := hs.small
  rcases grow_cases hs (int32 (a.count + (room + extra)))
    with ⟨hg, -⟩ | ⟨d, hd, hpos, ⟨hg, -⟩ | ⟨hg, -⟩ | ⟨hg, -⟩⟩
  · exact hg ▸ Returns.ok ⟨⟨by omega, .inl rfl⟩, rfl⟩
  · exact hg ▸ Returns.error _
  · exact hg ▸ Returns.error _
  · -- had a sum wrapped round, there would be nothing to add
    have hd : d = (a.count + (room + extra) + 15) / 16 * 16 := by
      rcases int32_add ⟨hs.count, show a.count < 2 ^ 31 by omega⟩
        ⟨show 0 ≤ room + extra by omega, hroom.2⟩ with ⟨hsum, hlt⟩ | ⟨hneg, -⟩
      · rw [hsum] at hd
        rcases int32_add ⟨show 0 ≤ a.count + (room + extra) by omega, hlt⟩
          (show (0 : Int) ≤ 15 ∧ (15 : Int) < 2 ^ 31 by omega) with ⟨hsum', -⟩ | ⟨hneg', -⟩
        · rw [hd, hsum']
        · omega
      · have hlow := (int32_bounds (a.count + (room + extra))).1
        rw [int32_of_small (n := int32 (a.count + (room + extra)) + 15) (by omega) (by omega)] at hd
        omega
    refine hg ▸ Returns.ok ⟨⟨show a.count ≤ _ by omega, .inr ⟨hneed, ?_, ?_⟩⟩, rfl⟩
    · show a.capacity + (a.count + room) ≤ a.capacity + d
      omega
    · show a.capacity + d ≤ a.capacity + (a.count + room) + 30
      omega

theorem enlarges_makeRoom {more : Int} (hmore : 1 ≤ more ∧ more ≤ 16) :
    Returns (fun a' => Enlarges 1 a a' ∧ a'.count = a.count) (a.makeRoom more) := by
  rw [makeRoom]
  split
  · have hgrow := enlarges_grow hs hle 1 (more - 1) (by omega) (by omega) (by omega)
    rwa [show (1 : Int) + (more - 1) = more by omega] at hgrow
  · exact Returns.ok ⟨⟨by omega, .inl rfl⟩, rfl⟩

theorem enlarges_append (obj : Option ν) :
    Returns (fun r => Enlarges 1 a r.2) (a.nioArrayAppend obj) := by
  refine (enlarges_makeRoom hs hle (by decide)).bind fun a₁ h₁ => ?_
  refine (returns_put a₁.count obj a₁).bind fun a₂ h₂ => Returns.ok ?_
  have hcount := h₁.2
  have hcount₂ := h₂.2
  exact h₁.1.resize h₂.1 (show a₂.count + 1 ≤ a.count + 1 by omega)

/-- The part that the two insertions have in common. -/
theorem enlarges_insert (position dst : Int) (obj : Option ν) :
    Returns (fun r => Enlarges 1 a r.2) (do
      let a ← a.makeRoom 1
      let a ← a.shiftUp dst a.count.toNat
      let a ← a.put dst obj
      return (position, { a with count := a.count + 1 }) :
        Except ArrayFault (Int × NioArray ν)) := by
  refine (enlarges_makeRoom hs hle (by decide)).bind fun a₁ h₁ => ?_
  refine (returns_shiftUp dst a₁.count.toNat a₁).bind fun a₂ h₂ => ?_
  refine (returns_put dst obj a₂).bind fun a₃ h₃ => Returns.ok ?_
  have hsame := h₂.trans h₃
  have hcount := h₁.2
  have hcount₃ := hsame.2
  exact h₁.1.resize hsame.1 (show a₃.count + 1 ≤ a.count + 1 by omega)

theorem enlarges_predInsert (position : Int) (obj : Option ν) :
    Returns (fun r => Enlarges 1 a r.2) (a.nioArrayPredInsert position obj) :=
  Returns.ite (Returns.ok ⟨show a.count ≤ a.count + 1 by omega, .inl rfl⟩)
    (enlarges_insert hs hle position position obj)

theorem enlarges_succInsert (position : Int) (obj : Option ν) :
    Returns (fun r => Enlarges 1 a r.2) (a.nioArraySuccInsert position obj) :=
  Returns.ite (Returns.ok ⟨show a.count ≤ a.count + 1 by omega, .inl rfl⟩)
    (enlarges_insert hs hle (position + 1) (position + 1) obj)

theorem enlarges_preAppend {appCount : Int} (hint : appCount < 2 ^ 31) :
    Returns (Enlarges appCount a) (a.nioArrayPreAppend appCount) := by
  rw [nioArrayPreAppend]
  split
  · exact Returns.error _
  · have hsmall := hs.small
    have hcount := hs.count
    split
    · rename_i hpos hfull
      have hneed : a.capacity < a.count + appCount := by
        rcases int32_add (n := appCount) ⟨hs.count, show a.count < 2 ^ 31 by omega⟩
          ⟨by omega, hint⟩ with ⟨hsum, -⟩ | ⟨-, hlt⟩
        · omega
        · omega
      have hgrow := enlarges_grow hs hle appCount 0 hneed (by decide) (by omega)
      rw [Int.add_zero] at hgrow
      exact fun a' ha' => (hgrow a' ha').1
    · exact Returns.ok ⟨by omega, .inl rfl⟩

end Room

/-! ## Taking out -/

theorem less_popBack (a : NioArray ν) :
    Returns (fun r => Shrinks a r.2) a.nioArrayPopBack := by
  rw [nioArrayPopBack]
  split
  · exact Returns.ok (.refl a)
  · refine (returns_get (a.count - 1) { a with count := a.count - 1 }).bind fun obj _ => ?_
    exact Returns.ok ⟨rfl, show a.count - 1 ≤ a.count by omega⟩

theorem less_popFront (a : NioArray ν) :
    Returns (fun r => Shrinks a r.2) a.nioArrayPopFront := by
  rw [nioArrayPopFront]
  split
  · exact Returns.ok (.refl a)
  · refine (returns_get 0 a).bind fun obj _ => ?_
    refine (returns_moveDown _ 0 1 _).bind fun a₁ h₁ => Returns.ok ⟨h₁.1, ?_⟩
    have hcount : a₁.count = a.count - 1 := h₁.2
    show a₁.count ≤ a.count
    omega

theorem less_deleteIdx (position : Int) (freeFn : Bool) (a : NioArray ν) :
    Returns (fun r => Shrinks a r.2) (a.nioArrayDeleteIdx position freeFn) := by
  rw [nioArrayDeleteIdx]
  split
  · exact Returns.ok (.refl a)
  · refine (returns_freeAt freeFn position a).bind fun a₁ h₁ => ?_
    refine (returns_put position none a₁).bind fun a₂ h₂ => ?_
    refine (returns_moveDown _ position (position + 1) a₂).bind fun a₃ h₃ => Returns.ok ?_
    have hsame := (h₁.trans h₂).trans h₃
    have hcount := hsame.2
    exact ⟨hsame.1, show a₃.count - 1 ≤ a.count by omega⟩

theorem less_delete (idx : Int) (freeFn : Bool) (a : NioArray ν) :
    Returns (fun r => Shrinks a r.2) (a.nioArrayDelete idx freeFn) := by
  rw [nioArrayDelete]
  split
  · exact Returns.ok (.refl a)
  · refine (returns_freeAt freeFn idx a).bind fun a₁ h₁ => ?_
    have hcount := h₁.2
    have hless : Shrinks a { a₁ with count := a₁.count - 1 } :=
      ⟨h₁.1, show a₁.count - 1 ≤ a.count by omega⟩
    refine Returns.ite ?_ (Returns.ok hless)
    refine (returns_get _ _).bind fun obj _ => ?_
    refine (returns_put idx obj _).bind fun a₂ h₂ => Returns.ok ⟨h₂.1.trans hless.capacity, ?_⟩
    exact Int.le_trans (Int.le_of_eq h₂.2) hless.count

theorem less_mvIdx (ito ifrom : Int) (freeFn : Bool) (a : NioArray ν) :
    Returns (fun r => Shrinks a r.2) (a.nioArrayMvIdx ito ifrom freeFn) := by
  rw [nioArrayMvIdx]
  split
  · exact Returns.ok (.refl a)
  · split
    · exact Returns.ok (.refl a)
    · refine (returns_clear_if freeFn true _ ito a).bind fun a₁ h₁ => ?_
      refine (returns_moveDown _ ito ifrom a₁).bind fun a₂ h₂ => ?_
      have hsame := h₁.trans h₂
      have hcount := hsame.2
      have hless : Shrinks a { a₂ with count := a₂.count - (ifrom - ito) } :=
        ⟨hsame.1, show a₂.count - (ifrom - ito) ≤ a.count by omega⟩
      exact Returns.ite (Returns.ok hless) (Returns.ok hless)

/-- What is taken off the count is not negative where the first index is not behind the
last item. -/
theorem less_deleteRange {ibegin iend : Int} (freeFn : Bool)
    (h : 0 < a.count → ibegin ≤ iend → ibegin ≤ a.count) :
    Returns (fun r => Shrinks a r.2) (a.nioArrayDeleteRange ibegin iend freeFn) := by
  rw [nioArrayDeleteRange]
  split
  · exact Returns.ok (.refl a)
  · split
    · exact Returns.ok (.refl a)
    · refine (returns_clear_if freeFn true _ ibegin a).bind fun a₁ h₁ => ?_
      refine (returns_moveDown _ ibegin _ _).bind fun a₂ h₂ => Returns.ok ?_
      refine ⟨h₂.1.trans h₁.1, ?_⟩
      have hcount := h₁.2
      rw [h₂.2]
      dsimp only
      split <;> omega

theorem less_clean (hs : a.Sized) (freeFn : Bool) :
    Returns (Shrinks a) (a.nioArrayClean freeFn) :=
  (returns_clear freeFn a.count.toNat 0 a).bind fun _ h₁ =>
    Returns.ok ⟨h₁.1, hs.count⟩

variable [DecidableEq ν]

theorem less_deleteObj (obj : Option ν) (freeFn : Bool) (a : NioArray ν) :
    Returns (fun r => Shrinks a r.2) (a.nioArrayDeleteObj obj freeFn) := by
  rw [nioArrayDeleteObj]
  refine Returns.bind (P := fun _ => True) (fun _ _ => trivial) fun position _ => ?_
  have hif : SameSize a (if freeFn then { a with freed := a.freed ++ obj.toList } else a) := by
    split
    · exact ⟨rfl, rfl⟩
    · exact SameSize.refl a
  cases position with
  | none => exact Returns.ok ⟨hif.1, Int.le_of_eq hif.2⟩
  | some position =>
      refine (returns_put position none _).bind fun a₁ h₁ => ?_
      have hsame := hif.trans h₁
      refine (less_deleteIdx position false a₁).bind fun r hr => ?_
      have hless : Shrinks a r.2 :=
        ⟨hr.capacity.trans hsame.1, Int.le_trans hr.count (Int.le_of_eq hsame.2)⟩
      exact Returns.ite (Returns.ok hless) (Returns.ok hless)

/-! ## A run -/

/-- **Each call** makes of the sizes what the room that it needs says. -/
theorem enlarges_call (hs : a.Sized) (hle : a.count ≤ a.capacity) {c : ArrayCall ν}
    (hc : ¬ c.Overshoots a) (hint : c.room < 2 ^ 31) :
    Returns (fun r => Enlarges c.room a r.2) (a.call c) := by
  cases c with
  | deque c =>
      cases c <;> refine Returns.map ?_
      case append obj => exact enlarges_append hs hle obj
      case prepend obj => exact enlarges_predInsert hs hle 0 obj
      case pushBack obj => exact (enlarges_append hs hle obj).bind fun _ hr => Returns.ok hr
      case pushFront obj =>
          exact (enlarges_predInsert hs hle 0 obj).bind fun _ hr => Returns.ok hr
      case predInsert position obj => exact enlarges_predInsert hs hle position obj
      case succInsert position obj => exact enlarges_succInsert hs hle position obj
      case popBack => exact fun r hr => (less_popBack a r hr).enlarges
      case popFront => exact fun r hr => (less_popFront a r hr).enlarges
  | deletion d =>
      refine Returns.map fun r hr => Shrinks.enlarges ?_
      cases d with
      | deleteIdx position freeFn => exact less_deleteIdx position freeFn a r hr
      | delete idx freeFn => exact less_delete idx freeFn a r hr
      | deleteObj obj freeFn => exact less_deleteObj obj freeFn a r hr
      | deleteRange ibegin iend freeFn =>
          refine less_deleteRange freeFn (fun hpos hle => ?_) r hr
          exact Int.not_lt.mp fun hlt => hc ⟨hpos, hlt, hle⟩
      | mvIdx ito ifrom freeFn => exact less_mvIdx ito ifrom freeFn a r hr
  | clean freeFn => exact Returns.map fun r hr => (less_clean hs freeFn r hr).enlarges
  | preAppend appCount => exact Returns.map (enlarges_preAppend hs hle hint)

/-- The array after a call that returns. -/
def after (a : NioArray ν) (c : ArrayCall ν) : Option (NioArray ν) :=
  (a.call c).toOption.map Prod.snd

/-- How many cells `nio_mem_realloc` moves in a call. -/
def moves (a : NioArray ν) (c : ArrayCall ν) : Nat :=
  match a.after c with
  | some a' => if a'.capacity = a.capacity then 0 else a.capacity.toNat
  | none => 0

/-- What has been put by: the items beyond half of the capacity, twice. -/
def putBy (a : NioArray ν) : Nat := (2 * a.count - a.capacity).toNat

theorem after_eq_some {c : ArrayCall ν} (h : a.after c = some a') :
    ∃ r, a.call c = .ok (r, a') := by
  rw [after] at h
  cases hc : a.call c with
  | error e =>
      rw [hc] at h
      cases h
  | ok r =>
      rw [hc] at h
      obtain rfl : r.2 = a' := Option.some.inj h
      exact ⟨r.1, rfl⟩

/-- An array in order, whose calls leave it so. -/
def Orderly (a : NioArray ν) (cs : List (ArrayCall ν)) : Prop :=
  a.Sized ∧ a.InOrder ∧ a.Tame cs ∧ ∀ c ∈ cs, c.room < 2 ^ 31

theorem Orderly.enlarges {c : ArrayCall ν} {cs : List (ArrayCall ν)} (h : a.Orderly (c :: cs))
    (ha : a.after c = some a') : Enlarges c.room a a' := by
  obtain ⟨hs, ⟨l, hl⟩, htame, hint⟩ := h
  obtain ⟨r, hc⟩ := after_eq_some ha
  exact enlarges_call hs hl.capacity htame.1 (hint c List.mem_cons_self) _ hc

theorem Orderly.next {c : ArrayCall ν} {cs : List (ArrayCall ν)} (h : a.Orderly (c :: cs))
    (ha : a.after c = some a') : a'.Orderly cs := by
  obtain ⟨hs, hin, htame, hint⟩ := h
  obtain ⟨r, hc⟩ := after_eq_some ha
  exact ⟨returns_call hs c _ hc, inOrder_call hin hs htame.1 _ hc, htame.2 r a' hc,
    fun d hd => hint d (List.mem_cons_of_mem _ hd)⟩

/-- **A call pays** for the cells it moves with two for each item it needs room for. -/
theorem pays_call :
    Pays (after (ν := ν)) Orderly moves (fun _ c => 2 * c.room.toNat) putBy where
  keeps := fun h ha => h.next ha
  pays := by
    intro a c cs a' h ha
    have he := h.enlarges ha
    have hcount := he.count
    simp only [moves, ha, putBy]
    rcases he.capacity with hcap | ⟨hfull, hlow, -⟩
    · rw [if_pos hcap]
      omega
    · have hnonneg := h.1.nonneg
      split <;> omega

/-- The capacity is twice what there has had to be room for, at most, and some cells. -/
theorem Orderly.capacity_le {K : Int} {cs : List (ArrayCall ν)} (h : a.Orderly cs)
    (hK : Meets after (fun a c => a.count + c.room ≤ K) a cs)
    (hr : Trace.run after a cs = some a') : a'.capacity ≤ max a.capacity (2 * K + 30) := by
  induction cs generalizing a with
  | nil =>
      cases hr
      exact Int.le_max_left ..
  | cons c cs ih =>
      obtain ⟨hc, hrest⟩ := hK
      rw [run_cons] at hr
      obtain ⟨a₁, ha, hr⟩ := Option.bind_eq_some_iff.mp hr
      have hcap := (h.enlarges ha).capacity
      have hle := ih (h.next ha) (hrest a₁ ha) hr
      omega

/-- The calls of a run, as steps. -/
theorem run_after {cs : List (ArrayCall ν)} {rs : List (ArrayResult ν)}
    (h : a.run cs = .ok (rs, a')) : Trace.run after a cs = some a' := by
  induction cs generalizing a rs with
  | nil =>
      cases h
      rfl
  | cons c cs ih =>
      rw [NioArray.run, bind_eq_ok] at h
      obtain ⟨⟨r, a₁⟩, hc, h⟩ := h
      obtain ⟨⟨rs₁, a₂⟩, hrun, h⟩ := bind_eq_ok.mp h
      cases h
      rw [run_cons, after, hc]
      exact ih hrun

omit [DecidableEq ν] in
theorem count_create {initSize : Int} {memory : Nat → Option ν} {a : NioArray ν}
    (h : nioArrayCreate initSize memory = .ok a) : a.count = 0 := by
  have hs : Sized { capacity := 0, count := 0, items := memory, freed := [] } :=
    ⟨Int.dvd_zero 16, Int.le_refl 0, show (0 : Int) < 2 ^ 31 by decide, Int.le_refl 0⟩
  have hcount : Returns (fun a => a.count = 0) (nioArrayCreate initSize memory) :=
    Returns.ite (Returns.error _)
      (Returns.ite (fun a ha => (returns_grow hs _ a ha).2) (Returns.ok rfl))
  exact hcount a h

/-- **Growing is linear.** Whatever calls are made on an array that is created, as long
as no deletion makes it longer, they move two cells at most for each item that they
have needed room for; and the capacity stays within twice the items there have been. -/
theorem array_growth_is_linear (initSize : Int) (memory : Nat → Option ν) {a₀ : NioArray ν}
    (hcreate : nioArrayCreate initSize memory = .ok a₀) {cs : List (ArrayCall ν)}
    (htame : a₀.Tame cs) (hint : ∀ c ∈ cs, c.room < 2 ^ 31) :
    spent after moves a₀ cs ≤ 2 * (cs.map fun c => c.room.toNat).sum ∧
    ∀ rs a K, a₀.run cs = .ok (rs, a) → Meets after (fun a c => a.count + c.room ≤ K) a₀ cs →
      a.capacity ≤ max a₀.capacity (2 * K + 30) := by
  obtain ⟨hs, hin⟩ := returns_create initSize memory a₀ hcreate
  have h : a₀.Orderly cs := ⟨hs, hin, htame, hint⟩
  refine ⟨?_, fun rs a K hrun hK => h.capacity_le hK (run_after hrun)⟩
  have hzero : a₀.putBy = 0 := by
    rw [putBy, count_create hcreate]
    have hnonneg := hs.nonneg
    omega
  have hle := pays_call.spent_le h
  rw [hzero, Nat.add_zero] at hle
  rw [← List.sum_map_mul_left]
  exact hle.trans (spent_le_sum _ a₀ cs)

/-- Seventeen objects, the last of which does not fit in. -/
theorem array_growth_is_linear_seventeen :
    let cs : List (ArrayCall Nat) := List.replicate 17 (.deque (.append (some 7)))
    ∃ a₀ : NioArray Nat, nioArrayCreate 1 (fun _ => none) = .ok a₀ ∧
      spent after moves a₀ cs = 16 ∧ spent after moves a₀ cs ≤ 34 := by
  intro cs
  have htame : ∀ (n : Nat) (a : NioArray Nat),
      a.Tame (List.replicate n (.deque (.append (some 7)))) := by
    intro n
    induction n with
    | zero => exact fun _ => trivial
    | succ n ih => exact fun a => ⟨id, fun _ a' _ => ih a'⟩
  refine ⟨_, create_one, by decide +kernel, ?_⟩
  refine (array_growth_is_linear 1 (fun _ => none) create_one (htame 17 _) ?_).1.trans (by decide)
  intro c hc
  obtain ⟨-, rfl⟩ := List.mem_replicate.mp hc
  decide

end NioArray

end Libnio.Common
