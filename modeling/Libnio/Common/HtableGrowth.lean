import Libnio.Common.HtableMap
import Libnio.Trace.Amortized
import Mathlib.Algebra.BigOperators.Ring.List

/-!
# Common — hash tables, what growing costs

`nio_htable_grow` links every entry again when there are as many as buckets. It makes
twice as many buckets, so that over a run it links two for every call that enters a
key, no more; and as there are never fewer buckets than entries the chains are short.
Sizes are signed where they are compared: this is so while there are fewer than
`2 ^ 30` keys.
-/

namespace Libnio.Common

open Trace

variable {ν ω : Type}

/-! ## Sizes -/

theorem toInt_toInt32 {x : UInt32} (h : x.toNat < 2 ^ 31) : x.toInt32.toInt = x.toNat := by
  rw [← UInt32.ofNat_toNat (x := x), UInt32.toInt32_ofNat', UInt32.ofNat_toNat]
  exact Int32.toInt_ofNat_of_lt h

theorem toNat_toUInt32 {x : Int32} (h : 0 ≤ x.toInt) : x.toUInt32.toNat = x.toInt.toNat :=
  Int32.toNat_toUInt32_of_le (Int32.le_iff_toInt_le.mpr h)

/-- Twice as many buckets, and one more. -/
theorem toInt_doubled {x : Int32} (h : 0 ≤ x.toInt) (hlt : x.toInt < 2 ^ 30) :
    (2 * x.toUInt32 ||| 1).toInt32.toInt = 2 * x.toInt + 1 := by
  have hor : (2 * x.toUInt32 ||| 1).toNat = 2 * x.toInt.toNat + 1 := by
    have hpow := Nat.two_pow_add_eq_or_of_lt (i := 1) (b := 1) (by decide) x.toInt.toNat
    rw [Nat.pow_one] at hpow
    have hlt' : UInt32.toNat 2 * x.toInt.toNat < 2 ^ 32 :=
      show 2 * x.toInt.toNat < 2 ^ 32 by omega
    rw [UInt32.toNat_or, UInt32.toNat_mul, toNat_toUInt32 h, Nat.mod_eq_of_lt hlt']
    exact hpow.symm
  rw [toInt_toInt32 (by omega), hor]
  omega

/-! ## Keys -/

/-- How many keys a call enters. -/
def HtableCall.entered : HtableCall ν ω → Nat
  | .enter _ _ _ => 1
  | .find _ | .locate _ | .delete _ _ | .reset _ => 0

namespace Dict

/-- Only a call that enters a key may leave more of them. -/
theorem encard_apply_le_entered (d : Dict ν ω) (c : HtableCall ν ω) :
    (d.apply c).present.encard ≤ d.present.encard + c.entered := by
  rcases present_apply d c with h | ⟨key, value, p, rfl, -⟩
  · exact (Set.encard_le_encard h).trans le_self_add
  · exact encard_apply_le d _

theorem encard_reset (d : Dict ν ω) (freeFn : Bool) :
    (d.apply (.reset freeFn)).present.encard = 0 := by
  rw [Set.encard_eq_zero]
  ext key
  simp [present, apply]

end Dict

namespace NioHtable

/-- The buckets of a new table. -/
def startSize (size : Int32) : Int32 := ((if size < 13 then 13 else size.toUInt32) ||| 1).toInt32

theorem startSize_pos (size : Int32) : 0 ≤ (startSize size).toInt := by
  rw [startSize]
  split
  · decide
  · rename_i h
    have hsize : (13 : Int32).toInt ≤ size.toInt :=
      Int32.le_iff_toInt_le.mp (Int32.not_lt.mp h)
    have hpos : 0 ≤ size.toInt := Int.le_trans (by decide) hsize
    have hlt := size.toInt_lt
    have hor : (size.toUInt32 ||| 1).toNat < 2 ^ 31 := by
      rw [UInt32.toNat_or, toNat_toUInt32 hpos]
      exact Nat.or_lt_two_pow (by omega) (by decide)
    rw [toInt_toInt32 hor]
    exact Int.natCast_nonneg _

section Frame

variable [DecidableEq ν] {t t' : NioHtable ν ω} {rounds : Nat}

@[simp] theorem initSize_nioHtableLink (p : ν) (n : Nat) (t : NioHtable ν ω) :
    (t.nioHtableLink p n).initSize = t.initSize := by
  rw [nioHtableLink_eq]

theorem initSize_growChain {o : Option ν} (h : t.growChain rounds o = some t') :
    t'.initSize = t.initSize := by
  induction rounds generalizing o t with
  | zero =>
      cases o with
      | none =>
          cases h
          rfl
      | some p => cases h
  | succ rounds ih =>
      cases o with
      | none =>
          cases h
          rfl
      | some p =>
          rw [growChain] at h
          exact (ih h).trans (initSize_nioHtableLink _ _ _)

theorem initSize_nioHtableGrow (h : t.nioHtableGrow rounds = some t') :
    t'.initSize = t.initSize := by
  have hfold : ∀ (is : List Nat) (t : NioHtable ν ω) (old : Nat → Option ν),
      is.foldlM (fun t i => t.growChain rounds (old i)) t = some t' →
        t'.initSize = t.initSize := by
    intro is
    induction is with
    | nil =>
        intro t old h
        cases h
        rfl
    | cons i is ih =>
        intro t old h
        rw [List.foldlM_cons] at h
        obtain ⟨t₁, h₁, h⟩ := Option.bind_eq_some_iff.mp h
        exact (ih t₁ old h).trans (initSize_growChain h₁)
  exact hfold _ (t.nioHtableSize (2 * t.size.toUInt32)) t.data h

theorem initSize_nioHtableEnter {key : CString} {value : Option ω} {p q : ν}
    (h : t.nioHtableEnter rounds key value p = some (q, t')) : t'.initSize = t.initSize := by
  obtain ⟨t₁, hgrow, h⟩ := Option.bind_eq_some_iff.mp h
  have h₁ : t₁.initSize = t.initSize := by
    split at hgrow
    · exact (initSize_nioHtableGrow hgrow).trans rfl
    · cases hgrow
      rfl
  obtain ⟨found, -, h⟩ := Option.bind_eq_some_iff.mp h
  cases found with
  | some ht =>
      cases h
      exact h₁
  | none =>
      cases h
      rw [initSize_nioHtableLink]
      exact h₁

theorem sizes_nioHtableDelete {key : CString} {freeFn : Bool} {r : Int}
    (h : t.nioHtableDelete rounds key freeFn = some (r, t')) :
    t'.size = t.size ∧ t'.initSize = t.initSize := by
  obtain ⟨found, -, h⟩ := Option.bind_eq_some_iff.mp h
  cases found with
  | none =>
      cases h
      exact ⟨rfl, rfl⟩
  | some ht =>
      cases h
      unfold nioHtableDeleteEntry freeValue
      constructor
      all_goals
        dsimp only
        repeat' split
        all_goals rfl

end Frame

/-! ## A call -/

section Calls

variable [DecidableEq ν] {t t' : NioHtable ν ω} {d : Dict ν ω} {b : Nat → List ν}
  {c : HtableCall ν ω} {rounds K : Nat} {size : Int32}

/-- How many buckets there are after a call. -/
def sizeAfter (t : NioHtable ν ω) : HtableCall ν ω → Int32
  | .enter _ _ _ => if t.used ≥ t.size then (2 * t.size.toUInt32 ||| 1).toInt32 else t.size
  | .find _ | .locate _ | .delete _ _ => t.size
  | .reset _ => startSize t.initSize

/-- **A call**, with what it makes of the sizes. -/
theorem Holds.step (h : t.Holds d b) (hp : d.Proper c) (hr : d.present.encard ≤ rounds) :
    ∃ t' b', t.call rounds c = some (d.result c, t') ∧ t'.Holds (d.apply c) b' ∧
      t'.size = t.sizeAfter c ∧ t'.initSize = t.initSize := by
  cases c with
  | enter key value p =>
      obtain ⟨t', b', heq, h', hsize⟩ := nioHtableEnter_eq h hr key value hp
      exact ⟨t', b', by rw [NioHtable.call, heq]; rfl, h', hsize, initSize_nioHtableEnter heq⟩
  | find key => exact ⟨t, b, by rw [NioHtable.call, h.find hr]; rfl, h, rfl, rfl⟩
  | locate key => exact ⟨t, b, by rw [NioHtable.call, h.locate hr]; rfl, h, rfl, rfl⟩
  | delete key freeFn =>
      obtain ⟨t', b', heq, h'⟩ := nioHtableDelete_eq h hr key freeFn
      exact ⟨t', b', by rw [NioHtable.call, heq]; rfl, h', sizes_nioHtableDelete heq⟩
  | reset freeFn =>
      obtain ⟨t', b', heq, h'⟩ := nioHtableReset_eq h hr freeFn
      refine ⟨t', b', by rw [NioHtable.call, heq]; rfl, h', ?_⟩
      rw [nioHtableReset, foldlM_resetChain h.toFilled hr] at heq
      cases heq
      exact ⟨rfl, rfl⟩

omit [DecidableEq ν] in
/-- `used` is the number of the keys that are present. -/
theorem Holds.counted (h : t.Holds d b) (hK : d.present.encard ≤ K) (hlt : K < 2 ^ 31) :
    ∃ n : Nat, d.present.encard = n ∧ n ≤ K ∧ t.used.toInt = n := by
  rw [h.encard_present] at hK
  have hle : (t.entries b).length ≤ K := Nat.cast_le.mp hK
  exact ⟨_, h.encard_present, hle, by rw [h.used, Int32.toInt_ofNat_of_lt (by omega)]⟩

/-- There are no more entries than buckets, and not many more buckets than there have been
entries, at most. -/
structure Spacious (size : Int32) (K : Nat) (t : NioHtable ν ω) : Prop where
  initSize : t.initSize = size
  used : t.used.toInt ≤ t.size.toInt
  size : t.size.toInt ≤ max (startSize size).toInt (2 * K + 1)

/-- How many entries a call links again, as `nio_htable_grow` counts them. -/
def relinks (rounds : Nat) (t : NioHtable ν ω) : HtableCall ν ω → Nat
  | .enter _ _ _ =>
      if t.used ≥ t.size then
        (({ t with status := .ok } : NioHtable ν ω).nioHtableGrow rounds).elim 0
          fun t => t.used.toInt.toNat
      else 0
  | .find _ | .locate _ | .delete _ _ | .reset _ => 0

/-- What has been put by: the entries beyond half of the buckets, twice. -/
def putBy (t : NioHtable ν ω) : Nat := (2 * t.used.toInt - t.size.toInt).toNat

omit [DecidableEq ν] in
theorem full_iff {n : Nat} (hused : t.used.toInt = n) :
    t.used ≥ t.size ↔ t.size.toInt ≤ n := by
  rw [ge_iff_le, Int32.le_iff_toInt_le, hused]

/-- A table that is full links all entries again. -/
theorem Holds.relinks_full (h : t.Holds d b) (hr : d.present.encard ≤ rounds) {n : Nat}
    (hn : d.present.encard = n) (hlt : n < 2 ^ 31) (hfull : t.used ≥ t.size) (key : CString)
    (value : Option ω) (p : ν) : t.relinks rounds (.enter key value p) = n := by
  obtain ⟨t₁, b₁, hgrow, h₁, -⟩ := (h.setStatus .ok).grow hr
  obtain ⟨m, hm, -, hused⟩ := h₁.counted hn.le hlt
  have hm : d.present.encard = m := hm
  rw [hn] at hm
  rw [relinks, if_pos hfull, hgrow, Option.elim_some, hused, Int.toNat_natCast,
    Nat.cast_injective hm]

/-- **A call pays** for the entries it links again with two if it enters a key. -/
theorem Spacious.step (hs : t.Spacious size K) (h : t.Holds d b) (hK : K < 2 ^ 30)
    (hd : d.present.encard ≤ K) {b' : Nat → List ν} (h' : t'.Holds (d.apply c) b')
    (hd' : (d.apply c).present.encard ≤ K) (hr : d.present.encard ≤ rounds)
    (hsize : t'.size = t.sizeAfter c) (hinit : t'.initSize = t.initSize) :
    t'.Spacious size K ∧ t.relinks rounds c + t'.putBy ≤ 2 * c.entered + t.putBy := by
  obtain ⟨n, hn, hnK, hused⟩ := h.counted hd (by omega)
  obtain ⟨n', hn', -, hused'⟩ := h'.counted hd' (by omega)
  have hle := hs.used
  have hmax := hs.size
  have hstart := startSize_pos size
  rw [hused] at hle
  have hmore : n' ≤ n + c.entered := by
    have hcard := Dict.encard_apply_le_entered d c
    rw [hn, hn'] at hcard
    exact_mod_cast hcard
  -- what is left to show is about numbers
  suffices hnum : (n' : Int) ≤ t'.size.toInt ∧
      t'.size.toInt ≤ max (startSize size).toInt (2 * K + 1) ∧
      t.relinks rounds c + (2 * (n' : Int) - t'.size.toInt).toNat
        ≤ 2 * c.entered + (2 * (n : Int) - t.size.toInt).toNat by
    obtain ⟨hfits, hmax', hpays⟩ := hnum
    rw [putBy, putBy, hused, hused']
    exact ⟨⟨hinit.trans hs.initSize, by rw [hused']; exact hfits, hmax'⟩, hpays⟩
  rw [hsize]
  cases c with
  | enter key value p =>
      rw [HtableCall.entered] at hmore ⊢
      rw [sizeAfter]
      by_cases hfull : t.used ≥ t.size
      · rw [if_pos hfull, h.relinks_full hr hn (by omega) hfull]
        rw [full_iff hused] at hfull
        rw [toInt_doubled (by omega) (by omega)]
        omega
      · rw [if_neg hfull, relinks, if_neg hfull]
        rw [full_iff hused] at hfull
        omega
  | find key =>
      rw [HtableCall.entered] at hmore ⊢
      rw [sizeAfter, relinks]
      omega
  | locate key =>
      rw [HtableCall.entered] at hmore ⊢
      rw [sizeAfter, relinks]
      omega
  | delete key freeFn =>
      rw [HtableCall.entered] at hmore ⊢
      rw [sizeAfter, relinks]
      omega
  | reset freeFn =>
      have hzero : n' = 0 := by
        rw [Dict.encard_reset] at hn'
        exact_mod_cast hn'.symm
      rw [sizeAfter, relinks, HtableCall.entered, hs.initSize]
      omega

/-! ## A run -/

/-- The table after a call. -/
def after (rounds : Nat) (t : NioHtable ν ω) (c : HtableCall ν ω) : Option (NioHtable ν ω) :=
  (t.call rounds c).map Prod.snd

/-- A table that is spacious, before calls that leave it so. -/
structure Roomy (size : Int32) (K : Nat) (d : Dict ν ω) (t : NioHtable ν ω)
    (cs : List (HtableCall ν ω)) : Prop where
  holds : ∃ b, t.Holds d b
  spacious : t.Spacious size K
  proper : d.ProperRun cs
  keys : ∀ n, (d.applyAll (cs.take n)).present.encard ≤ K

/-- **One call** of a run. -/
theorem Roomy.step {cs : List (HtableCall ν ω)} (h : Roomy size K d t (c :: cs))
    (hK : K < 2 ^ 30) (hr : K ≤ rounds) :
    ∃ t', t.call rounds c = some (d.result c, t') ∧ Roomy size K (d.apply c) t' cs ∧
      t.relinks rounds c + t'.putBy ≤ 2 * c.entered + t.putBy := by
  obtain ⟨b, hb⟩ := h.holds
  have hd : d.present.encard ≤ K := h.keys 0
  have hd' : (d.apply c).present.encard ≤ K := h.keys 1
  have hrounds : d.present.encard ≤ rounds := hd.trans (by exact_mod_cast hr)
  obtain ⟨t', b', hcall, h', hsize, hinit⟩ := hb.step h.proper.1 hrounds
  obtain ⟨hs, hpays⟩ := h.spacious.step hb hK hd h' hd' hrounds hsize hinit
  exact ⟨t', hcall, ⟨⟨b', h'⟩, hs, h.proper.2, fun n => h.keys (n + 1)⟩, hpays⟩

theorem pays_call (size : Int32) (hK : K < 2 ^ 30) (hr : K ≤ rounds) :
    Pays (after (ν := ν) (ω := ω) rounds) (fun t cs => ∃ d, Roomy size K d t cs)
      (relinks rounds) (fun _ c => 2 * c.entered) putBy where
  keeps := by
    rintro t c cs t' ⟨d, h⟩ ha
    obtain ⟨t₁, hcall, h₁, -⟩ := h.step hK hr
    rw [after, hcall] at ha
    cases ha
    exact ⟨_, h₁⟩
  pays := by
    rintro t c cs t' ⟨d, h⟩ ha
    obtain ⟨t₁, hcall, -, hpays⟩ := h.step hK hr
    rw [after, hcall] at ha
    cases ha
    exact hpays

/-- All of them. -/
theorem Roomy.run {cs : List (HtableCall ν ω)} (h : Roomy size K d t cs) (hK : K < 2 ^ 30)
    (hr : K ≤ rounds) :
    ∃ t', t.run rounds cs = some (d.results cs, t') ∧ t'.Spacious size K := by
  induction cs generalizing t d with
  | nil => exact ⟨t, rfl, h.spacious⟩
  | cons c cs ih =>
      obtain ⟨t₁, hcall, h₁, -⟩ := h.step hK hr
      obtain ⟨t₂, hrun, hs⟩ := ih h₁
      refine ⟨t₂, ?_, hs⟩
      rw [NioHtable.run, hcall, Option.bind_eq_bind, Option.bind_some]
      dsimp only
      rw [hrun]
      rfl

omit [DecidableEq ν] in
theorem roomy_create (size : Int32) (memory : NioHtable ν ω) {cs : List (HtableCall ν ω)}
    (hp : Dict.empty.ProperRun cs)
    (hkeys : ∀ n, (Dict.empty.applyAll (cs.take n)).present.encard ≤ K) :
    Roomy size K Dict.empty (nioHtableCreate size memory) cs where
  holds := ⟨_, holds_create size memory⟩
  spacious := ⟨rfl, startSize_pos size, Int.le_max_left _ _⟩
  proper := hp
  keys := hkeys

/-- **Growing is linear.** In whatever run of calls in which there are never more than `K`
keys, `nio_htable_grow` links two entries again, at most, for each call that has
entered a key; there are never fewer buckets than entries, and never more than at the
beginning or twice as many as there have been keys. -/
theorem htable_growth_is_linear (size : Int32) (memory : NioHtable ν ω) {cs : List (HtableCall ν ω)}
    (hp : Dict.empty.ProperRun cs) (hK : K < 2 ^ 30)
    (hkeys : ∀ n, (Dict.empty.applyAll (cs.take n)).present.encard ≤ K) (hr : K ≤ rounds) :
    spent (after rounds) (relinks rounds) (nioHtableCreate size memory) cs
      ≤ 2 * (cs.map HtableCall.entered).sum ∧
    ∃ t, (nioHtableCreate size memory).run rounds cs = some (Dict.empty.results cs, t) ∧
      t.used.toInt ≤ t.size.toInt ∧
      t.size.toInt ≤ max (nioHtableCreate size memory).size.toInt (2 * K + 1) := by
  have h := roomy_create size memory hp hkeys
  obtain ⟨t, hrun, hs⟩ := h.run hK hr
  refine ⟨?_, t, hrun, hs.used, hs.size⟩
  have hle := (pays_call size hK hr).spent_le ⟨_, h⟩
  have hzero : (nioHtableCreate size memory).putBy = 0 := by
    have hpos := startSize_pos size
    show (2 * (0 : Int) - (startSize size).toInt).toNat = 0
    omega
  rw [hzero, Nat.add_zero] at hle
  rw [← List.sum_map_mul_left]
  exact hle.trans (spent_le_sum _ _ cs)

/-- Fourteen keys, the last of which finds as many entries as buckets. -/
theorem htable_growth_is_linear_fourteen :
    let t : NioHtable Nat Unit := nioHtableCreate 0 zeroed
    spent (after 14) (relinks 14) t (entering 14) = 13 ∧
      spent (after 14) (relinks 14) t (entering 14) ≤ 28 := by
  intro t
  refine ⟨by decide +kernel, ?_⟩
  refine (htable_growth_is_linear (K := 14) 0 zeroed (properRun_entering 14) (by decide)
    (fun n => ?_) (Nat.le_refl 14)).1.trans (by decide)
  refine (Dict.encard_applyAll_le _ _).trans ?_
  rw [Dict.encard_present_empty, zero_add]
  exact_mod_cast List.length_take_le' n (entering 14)

end Calls

end NioHtable

end Libnio.Common
