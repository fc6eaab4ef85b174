import Libnio.Common.HtableIter

/-!
# Common — every run of a hash table

The calls of a run are what they should be to the map, and the table stands for it
in the end; what a key stands for is read off the calls. With more buckets than an
`int` can count the iterator and `nio_htable_list` see none of them: this is the only
way in which they go wrong, but for a list of `2 ^ 31` places.
-/

namespace Libnio.Common

variable {ν ω : Type}

/-! ## What the calls are to the map -/

namespace Dict

variable {d : Dict ν ω}

theorem applyAll_concat (d : Dict ν ω) (cs : List (HtableCall ν ω)) (c : HtableCall ν ω) :
    d.applyAll (cs ++ [c]) = (d.applyAll cs).apply c := by
  rw [applyAll, List.foldl_append]
  rfl

theorem properRun_concat {cs : List (HtableCall ν ω)} {c : HtableCall ν ω} :
    d.ProperRun (cs ++ [c]) ↔ d.ProperRun cs ∧ (d.applyAll cs).Proper c := by
  induction cs generalizing d with
  | nil => simp [ProperRun, applyAll]
  | cons e cs ih =>
      rw [List.cons_append, ProperRun, ih, ProperRun, and_assoc]
      rfl

theorem apply_enter_new {key : CString} (h : d.entry key = none) (value : Option ω) (p : ν) :
    d.apply (.enter key value p)
      = ⟨Function.update d.entry key (some (p, value)), .ok⟩ := by
  rw [apply, h]

theorem apply_enter_old {key : CString} {e : ν × Option ω} (h : d.entry key = some e)
    (value : Option ω) (p : ν) :
    d.apply (.enter key value p) = { d with status := .duplexKey } := by
  rw [apply, h]

theorem present_enter_new {key : CString} (h : d.entry key = none) (value : Option ω) (p : ν) :
    (d.apply (.enter key value p)).present = insert key d.present := by
  rw [apply_enter_new h]
  ext k
  by_cases hk : k = key
  · simp [present, hk]
  · simp [present, hk]

/-- A call brings one key in at most. -/
theorem present_apply (d : Dict ν ω) (c : HtableCall ν ω) :
    (d.apply c).present ⊆ d.present ∨
      ∃ key value p, c = .enter key value p ∧ d.entry key = none := by
  cases c with
  | enter key value p =>
      cases h : d.entry key with
      | none => exact .inr ⟨key, value, p, rfl, h⟩
      | some e =>
          rw [apply_enter_old h]
          exact .inl subset_rfl
  | find key => exact .inl subset_rfl
  | locate key => exact .inl subset_rfl
  | delete key freeFn =>
      left
      intro k hk
      by_cases hkey : k = key
      · simp [present, apply, hkey] at hk
      · simpa [present, apply, hkey] using hk
  | reset freeFn =>
      left
      intro k hk
      simp [present, apply] at hk

theorem encard_apply_le (d : Dict ν ω) (c : HtableCall ν ω) :
    (d.apply c).present.encard ≤ d.present.encard + 1 := by
  rcases present_apply d c with h | ⟨key, value, p, rfl, h⟩
  · exact (Set.encard_le_encard h).trans le_self_add
  · rw [present_enter_new h]
    exact Set.encard_insert_le _ _

/-- There are no more keys than there have been calls. -/
theorem encard_applyAll_le (d : Dict ν ω) (cs : List (HtableCall ν ω)) :
    (d.applyAll cs).present.encard ≤ d.present.encard + cs.length := by
  induction cs generalizing d with
  | nil => simp [applyAll]
  | cons c cs ih =>
      refine (ih (d.apply c)).trans ?_
      rw [List.length_cons, Nat.cast_add, Nat.cast_one, add_comm (cs.length : ℕ∞), ← add_assoc]
      exact add_le_add_left (encard_apply_le d c) _

@[simp] theorem encard_present_empty : (empty : Dict ν ω).present.encard = 0 := by
  rw [Set.encard_eq_zero]
  ext key
  simp [present, empty]

/-- **What a key stands for**: what it was entered with first, since it was last taken
out. -/
theorem entry_applyAll (cs : List (HtableCall ν ω)) (key : CString) :
    (empty.applyAll cs).entry key = HtableCall.firstEnter key cs := by
  induction cs using List.reverseRecOn with
  | nil => rfl
  | append_singleton cs c ih =>
      rw [applyAll_concat, HtableCall.firstEnter]
      cases hdrop : c.drops key with
      | true =>
          rw [List.rtakeWhile_concat_neg _ _ _ (by simp [hdrop]), List.findSome?_nil]
          cases c with
          | delete k freeFn => simp_all [HtableCall.drops, apply]
          | reset freeFn => rfl
          | enter k value p => cases hdrop
          | find k => cases hdrop
          | locate k => cases hdrop
      | false =>
          rw [List.rtakeWhile_concat_pos _ _ _ (by simp [hdrop]), List.findSome?_append,
            ← HtableCall.firstEnter, ← ih]
          cases c with
          | find k => simp [apply, HtableCall.enters]
          | locate k => simp [apply, HtableCall.enters]
          | reset freeFn => cases hdrop
          | delete k freeFn =>
              have hk : key ≠ k := by
                rintro rfl
                simp [HtableCall.drops] at hdrop
              simp [apply, HtableCall.enters, hk]
          | enter k value p =>
              cases h : (empty.applyAll cs).entry k with
              | some e =>
                  rw [apply_enter_old h]
                  by_cases hk : k = key
                  · simp [← hk, h]
                  · simp [HtableCall.enters, hk]
              | none =>
                  rw [apply_enter_new h]
                  by_cases hk : k = key
                  · simp [← hk, h, HtableCall.enters]
                  · simp [HtableCall.enters, hk, Ne.symm hk]

/-- The keys that are present, from the calls: there are no more of them than calls. -/
theorem present_applyAll (cs : List (HtableCall ν ω)) :
    (empty.applyAll cs).present = {key | HtableCall.firstEnter key cs ≠ none} :=
  Set.ext fun key => not_congr (by rw [entry_applyAll])

theorem encard_firstEnter_le (cs : List (HtableCall ν ω)) :
    {key | HtableCall.firstEnter key cs ≠ none}.encard ≤ cs.length := by
  have hle := encard_applyAll_le empty cs
  rwa [encard_present_empty, zero_add, present_applyAll] at hle

end Dict

/-! ## Runs -/

namespace NioHtable

variable [DecidableEq ν] {t : NioHtable ν ω} {d : Dict ν ω} {b : Nat → List ν} {rounds : Nat}

omit [DecidableEq ν] in
theorem Holds.locate (h : t.Holds d b) (hr : d.present.encard ≤ rounds) (key : CString) :
    t.nioHtableLocate rounds key = some ((d.entry key).map (·.1)) :=
  h.search hr key

omit [DecidableEq ν] in
theorem Holds.find (h : t.Holds d b) (hr : d.present.encard ≤ rounds) (key : CString) :
    t.nioHtableFind rounds key = some ((d.entry key).bind (·.2)) := by
  rw [nioHtableFind, h.locate hr]
  cases he : d.entry key with
  | none => rfl
  | some e =>
      obtain ⟨-, hv, -⟩ := h.entry key e.1 e.2 he
      exact congrArg some hv

/-- **A call** is what it should be to the map. -/
theorem Holds.call (h : t.Holds d b) {c : HtableCall ν ω} (hp : d.Proper c)
    (hr : d.present.encard ≤ rounds) :
    ∃ t' b', t.call rounds c = some (d.result c, t') ∧ t'.Holds (d.apply c) b' := by
  cases c with
  | enter key value p =>
      obtain ⟨t', b', heq, h', -⟩ := nioHtableEnter_eq h hr key value hp
      exact ⟨t', b', by rw [NioHtable.call, heq]; rfl, h'⟩
  | find key => exact ⟨t, b, by rw [NioHtable.call, h.find hr]; rfl, h⟩
  | locate key => exact ⟨t, b, by rw [NioHtable.call, h.locate hr]; rfl, h⟩
  | delete key freeFn =>
      obtain ⟨t', b', heq, h'⟩ := nioHtableDelete_eq h hr key freeFn
      exact ⟨t', b', by rw [NioHtable.call, heq]; rfl, h'⟩
  | reset freeFn =>
      obtain ⟨t', b', heq, h'⟩ := nioHtableReset_eq h hr freeFn
      exact ⟨t', b', by rw [NioHtable.call, heq]; rfl, h'⟩

/-- **Every run** of calls is. -/
theorem Holds.run {cs : List (HtableCall ν ω)} (h : t.Holds d b) (hp : d.ProperRun cs)
    (hr : d.present.encard + cs.length ≤ rounds) :
    ∃ t' b', t.run rounds cs = some (d.results cs, t') ∧ t'.Holds (d.applyAll cs) b' := by
  induction cs generalizing t d b with
  | nil => exact ⟨t, b, rfl, h⟩
  | cons c cs ih =>
      rw [List.length_cons, Nat.cast_add, Nat.cast_one] at hr
      obtain ⟨t₁, b₁, heq, h₁⟩ := h.call hp.1 (le_self_add.trans hr)
      have hr₁ : (d.apply c).present.encard + cs.length ≤ rounds := by
        refine (add_le_add_left (Dict.encard_apply_le d c) _).trans ?_
        rwa [add_assoc, add_comm 1]
      obtain ⟨t₂, b₂, hrun, h₂⟩ := ih h₁ hp.2 hr₁
      refine ⟨t₂, b₂, ?_, h₂⟩
      rw [NioHtable.run, heq, Option.bind_eq_bind, Option.bind_some]
      dsimp only
      rw [hrun]
      rfl

omit [DecidableEq ν] in
theorem holds_create (size : Int32) (memory : NioHtable ν ω) :
    (nioHtableCreate size memory).Holds Dict.empty fun _ => [] :=
  Holds.empty { memory with status := .ok, freed := [], initSize := size } _

/-- **A hash table is a finite map**, whatever calls are made: each returns what it
should, the entries are in their buckets, and `nio_htable_walk` comes to each of them
once. The rest is right within the limits of an `int`, and no further: `used` counts
`n` keys below `2 ^ 31`, `nio_htable_list` needs room for one more, and it and the
iterator see the entries exactly if the size is not negative. -/
theorem htable_is_map (size : Int32) (memory : NioHtable ν ω) {cs : List (HtableCall ν ω)}
    (hp : Dict.empty.ProperRun cs) (hr : cs.length < rounds) :
    ∃ t b, (nioHtableCreate size memory).run rounds cs = some (Dict.empty.results cs, t) ∧
      (∀ key, t.nioHtableFind rounds key = some ((HtableCall.firstEnter key cs).bind (·.2))) ∧
      (∀ key, t.nioHtableLocate rounds key = some ((HtableCall.firstEnter key cs).map (·.1))) ∧
      (∀ key, (Dict.empty.applyAll cs).entry key = HtableCall.firstEnter key cs) ∧
      t.status = (Dict.empty.applyAll cs).status ∧
      t.Filled (Dict.empty.applyAll cs) b ∧
      (∃ l, t.nioHtableWalk rounds = some l ∧ EachOnce (Dict.empty.applyAll cs) l) ∧
      ∃ n : Nat, {key | HtableCall.firstEnter key cs ≠ none}.encard = n ∧
        (t.used.toInt = n ↔ n < 2 ^ 31) ∧
        (Lists rounds t (Dict.empty.applyAll cs) ↔ n = 0 ∨ n + 1 < 2 ^ 31 ∧ 0 ≤ t.size.toInt) ∧
        (Traverses rounds t.nioHtableIterNext t.nioHtableIterHead (Dict.empty.applyAll cs) ↔
          n = 0 ∨ 0 ≤ t.size.toInt) ∧
        (Traverses rounds t.nioHtableIterPrev t.nioHtableIterTail (Dict.empty.applyAll cs) ↔
          n = 0 ∨ 0 ≤ t.size.toInt) := by
  have hlen : (Dict.empty : Dict ν ω).present.encard + (cs.length : ℕ∞) ≤ rounds := by
    rw [Dict.encard_present_empty, zero_add]
    exact_mod_cast hr.le
  obtain ⟨t, b, hrun, h⟩ := (holds_create size memory).run hp hlen
  have hlt : (Dict.empty.applyAll cs).present.encard < rounds := by
    rw [Dict.present_applyAll]
    exact (Dict.encard_firstEnter_le cs).trans_lt (by exact_mod_cast hr)
  have htraverse := h.traverses_iff hlt.le
  refine ⟨t, b, hrun, fun key => ?_, fun key => ?_, Dict.entry_applyAll cs, h.status, h.toFilled,
    ⟨_, nioHtableWalk_eq h.toFilled hlt, h.eachOnce⟩, (t.entries b).length, ?_, ?_,
    h.lists_iff hlt, htraverse.1, htraverse.2⟩
  · rw [← Dict.entry_applyAll]
    exact h.find hlt.le key
  · rw [← Dict.entry_applyAll]
    exact h.locate hlt.le key
  · rw [← h.encard_present, Dict.present_applyAll]
  · rw [h.used]
    exact toInt_used_iff _

/-- A memory of zeros. -/
def zeroed : NioHtable ν ω where
  size := 0
  initSize := 0
  used := 0
  data := fun _ => none
  status := .ok
  key := fun _ => ⟨[], List.not_mem_nil⟩
  value := fun _ => none
  hash := fun _ => 0
  next := fun _ => none
  prev := fun _ => none
  freed := []

/-- A key of one letter. -/
def letter (c : UInt8) (h : 0 ≠ c) : CString := ⟨[c], by simpa using h⟩

/-- Two keys of the same bucket, a third one, and one of the two once more. -/
def colliding : List (HtableCall Nat Nat) :=
  [.enter (letter 97 (by decide)) (some 7) 0, .enter (letter 110 (by decide)) (some 8) 1,
    .enter (letter 98 (by decide)) none 2, .enter (letter 110 (by decide)) (some 9) 3,
    .delete (letter 98 (by decide)) true, .delete (letter 98 (by decide)) true]

theorem htable_is_map_colliding : ∃ t : NioHtable Nat Nat,
    (nioHtableCreate 0 zeroed).run 7 colliding = some ([.info (some 0), .info (some 1),
      .info (some 2), .info (some 1), .ret 0, .ret (-1)], t) ∧
    (t.data 6 = some 1 ∧ t.next 1 = some 0 ∧ t.used = 2 ∧ t.size = 13) ∧
    t.nioHtableFind 7 (letter 110 (by decide)) = some (some 8) ∧
    t.nioHtableFind 7 (letter 98 (by decide)) = some none ∧
    Lists 7 t (Dict.empty.applyAll colliding) ∧
    Traverses 7 t.nioHtableIterPrev t.nioHtableIterTail (Dict.empty.applyAll colliding) := by
  have hproper : (Dict.empty : Dict Nat Nat).ProperRun colliding := by
    simp [colliding, Dict.ProperRun, Dict.Proper, Dict.apply, Dict.empty, letter,
      Function.update_apply]
    intro k v
    split_ifs <;> simp
  obtain ⟨t, -, hrun, hfind, -, -, -, -, -, n, hn, -, hlist, -, htail⟩ :=
    htable_is_map 0 zeroed hproper (show 6 < 7 by decide)
  have hlast : ((nioHtableCreate 0 zeroed).run 7 colliding).map (fun r =>
      (r.2.data 6, r.2.next 1, r.2.used, r.2.size)) = some (some 1, some 0, 2, 13) := by decide
  rw [hrun] at hlast
  have hfields : t.data 6 = some 1 ∧ t.next 1 = some 0 ∧ t.used = 2 ∧ t.size = 13 := by
    simpa using hlast
  have hsize : 0 ≤ t.size.toInt := by
    rw [hfields.2.2.2]
    decide
  have hcount : n ≤ 6 := by
    have hle := Dict.encard_firstEnter_le colliding
    rw [hn] at hle
    exact_mod_cast hle
  exact ⟨t, hrun, hfields, hfind _, hfind _, hlist.mpr (.inr ⟨by omega, hsize⟩),
    htail.mpr (.inr hsize)⟩

/-! ## More buckets than an `int` can count -/

/-- A character for a number below 128, which is not the zero. -/
def digit (i : Nat) : UInt8 := UInt8.ofNat (i % 128 + 1)

theorem toNat_digit (i : Nat) : (digit i).toNat = i % 128 + 1 := by
  rw [digit, UInt8.toNat_ofNat']
  omega

theorem digit_ne_zero (i : Nat) : (0 : UInt8) ≠ digit i := by
  intro h
  have hn := congrArg UInt8.toNat h
  rw [toNat_digit] at hn
  simp at hn

theorem digit_inj {i j : Nat} (h : digit i = digit j) : i % 128 = j % 128 := by
  have hn := congrArg UInt8.toNat h
  rw [toNat_digit, toNat_digit] at hn
  omega

/-- Keys of five characters, one for each number. -/
def numeral (i : Nat) : CString where
  bytes := [digit i, digit (i / 128), digit (i / 16384), digit (i / 2097152),
    digit (i / 268435456)]
  ended := by simp [digit_ne_zero]

theorem numeral_injective {i j : Nat} (hi : i < 2 ^ 31) (hj : j < 2 ^ 31)
    (h : numeral i = numeral j) : i = j := by
  have hb := congrArg CString.bytes h
  simp only [numeral, List.cons.injEq, and_true] at hb
  obtain ⟨h₀, h₁, h₂, h₃, h₄⟩ := hb
  have d₀ := digit_inj h₀
  have d₁ := digit_inj h₁
  have d₂ := digit_inj h₂
  have d₃ := digit_inj h₃
  have d₄ := digit_inj h₄
  omega

/-- So many keys are entered, one after the other. -/
def entering (n : Nat) : List (HtableCall Nat Unit) :=
  (List.range n).map fun i => .enter (numeral i) none i

theorem entering_succ (n : Nat) :
    entering (n + 1) = entering n ++ [.enter (numeral n) none n] := by
  rw [entering, List.range_succ, List.map_append]
  rfl

/-- What they leave in the map. -/
theorem entry_entering (n : Nat) (k : CString) (p : Nat) (v : Option Unit)
    (h : ((Dict.empty : Dict Nat Unit).applyAll (entering n)).entry k = some (p, v)) :
    p < n ∧ k = numeral p := by
  induction n with
  | zero => cases h
  | succ n ih =>
      rw [entering_succ, Dict.applyAll_concat] at h
      cases hn : ((Dict.empty : Dict Nat Unit).applyAll (entering n)).entry (numeral n) with
      | some e =>
          rw [Dict.apply_enter_old hn] at h
          exact ⟨Nat.lt_succ_of_lt (ih h).1, (ih h).2⟩
      | none =>
          rw [Dict.apply_enter_new hn] at h
          change Function.update _ (numeral n) _ k = _ at h
          by_cases hk : k = numeral n
          · rw [hk, Function.update_self] at h
            have hp : n = p := congrArg Prod.fst (Option.some.inj h)
            exact ⟨hp ▸ Nat.lt_succ_self n, hp ▸ hk⟩
          · rw [Function.update_of_ne hk] at h
            exact ⟨Nat.lt_succ_of_lt (ih h).1, (ih h).2⟩

theorem entering_new {n : Nat} (hn : n < 2 ^ 31) :
    ((Dict.empty : Dict Nat Unit).applyAll (entering n)).entry (numeral n) = none := by
  rw [Option.eq_none_iff_forall_ne_some]
  rintro ⟨p, v⟩ h
  obtain ⟨hp, hk⟩ := entry_entering n _ p v h
  have heq := numeral_injective hn (hp.trans hn) hk
  omega

theorem encard_entering {n : Nat} (hn : n ≤ 2 ^ 31) :
    ((Dict.empty : Dict Nat Unit).applyAll (entering n)).present.encard = n := by
  induction n with
  | zero => exact Dict.encard_present_empty
  | succ n ih =>
      have hnew := entering_new (show n < 2 ^ 31 by omega)
      have hnot : numeral n ∉ ((Dict.empty : Dict Nat Unit).applyAll (entering n)).present :=
        fun hc => hc hnew
      rw [entering_succ, Dict.applyAll_concat, Dict.present_enter_new hnew,
        Set.encard_insert_of_notMem hnot, ih (by omega)]
      rfl

theorem properRun_entering (n : Nat) : (Dict.empty : Dict Nat Unit).ProperRun (entering n) := by
  induction n with
  | zero => trivial
  | succ n ih =>
      rw [entering_succ, Dict.properRun_concat]
      exact ⟨ih, fun _ k v h => absurd (entry_entering n k n v h).1 (Nat.lt_irrefl n)⟩

theorem run_concat {t t' t'' : NioHtable ν ω} {cs : List (HtableCall ν ω)}
    {c : HtableCall ν ω} {rs : List (HtableResult ν ω)} {r : HtableResult ν ω}
    (h : t.run rounds cs = some (rs, t')) (hc : t'.call rounds c = some (r, t'')) :
    t.run rounds (cs ++ [c]) = some (rs ++ [r], t'') := by
  induction cs generalizing t rs with
  | nil =>
      cases h
      rw [List.nil_append, NioHtable.run, hc]
      rfl
  | cons e cs ih =>
      rw [NioHtable.run, Option.bind_eq_bind, Option.bind_eq_some_iff] at h
      obtain ⟨⟨r₁, t₁⟩, he, h⟩ := h
      dsimp only at h
      rw [Option.bind_eq_bind, Option.bind_eq_some_iff] at h
      obtain ⟨⟨rs₁, t₂⟩, hrun, h⟩ := h
      cases h
      rw [List.cons_append, NioHtable.run, he, Option.bind_eq_bind, Option.bind_some]
      dsimp only
      rw [ih hrun]
      rfl

/-- One more key, for which the table grows if there are as many entries as buckets. -/
theorem enter_entering {t : NioHtable Nat Unit} {b : Nat → List Nat} {n : Nat}
    (h : t.Holds (Dict.empty.applyAll (entering n)) b) (hn : n < 2 ^ 31) (hr : n ≤ rounds) :
    ∃ r t' b', t.call rounds (.enter (numeral n) none n) = some (r, t') ∧
      t'.Holds (Dict.empty.applyAll (entering (n + 1))) b' ∧
      t'.size = if t.size.toInt ≤ n then (2 * t.size.toUInt32 ||| 1).toInt32 else t.size := by
  have hcount := encard_entering hn.le
  have hle : ((Dict.empty : Dict Nat Unit).applyAll (entering n)).present.encard ≤ rounds := by
    rw [hcount]
    exact_mod_cast hr
  have hlen : (t.entries b).length = n := by
    rw [h.encard_present] at hcount
    exact_mod_cast hcount
  have hfull : t.used ≥ t.size ↔ t.size.toInt ≤ n := by
    rw [h.used, hlen, ge_iff_le, Int32.le_iff_toInt_le, Int32.toInt_ofNat_of_lt hn]
  obtain ⟨t', b', henter, h', hsize⟩ := nioHtableEnter_eq h hle (numeral n) none (p := n)
    fun _ k v hk => absurd (entry_entering n k n v hk).1 (Nat.lt_irrefl n)
  simp only [hfull] at hsize
  rw [entering_succ, Dict.applyAll_concat]
  obtain ⟨r, hcall⟩ : ∃ r, t.call rounds (.enter (numeral n) none n) = some (r, t') := by
    rw [NioHtable.call, henter]
    exact ⟨_, rfl⟩
  exact ⟨r, t', b', hcall, h', hsize⟩

/-- As long as there are fewer entries than buckets the table does not grow. -/
theorem run_entering {size : Int32} (hsize : 13 ≤ size)
    (hodd : size.toUInt32 ||| 1 = size.toUInt32) {n : Nat} (hn : (n : Int) ≤ size.toInt)
    (hr : n ≤ rounds) (memory : NioHtable Nat Unit) :
    ∃ rs t b, (nioHtableCreate size memory).run rounds (entering n) = some (rs, t) ∧
      t.Holds (Dict.empty.applyAll (entering n)) b ∧ t.size = size := by
  have hmax : size.toInt < 2 ^ 31 := size.toInt_lt
  induction n with
  | zero =>
      refine ⟨[], nioHtableCreate size memory, fun _ => [], rfl, holds_create size memory, ?_⟩
      rw [nioHtableCreate, if_neg (Int32.not_lt.mpr hsize), nioHtableSize, hodd]
      exact Int32.toInt32_toUInt32 size
  | succ n ih =>
      obtain ⟨rs, t, b, hrun, h, hts⟩ := ih (by omega) (by omega)
      obtain ⟨r, t', b', hcall, h', hsize'⟩ :=
        enter_entering h (by omega) (show n ≤ rounds by omega)
      rw [if_neg (by rw [hts]; omega)] at hsize'
      rw [entering_succ]
      rw [entering_succ] at h'
      exact ⟨_, t', b', run_concat hrun hcall, h', hsize'.trans hts⟩

/-- With as many entries as buckets the next one makes the table grow. Where the new
size is a number that an `int` takes for negative, the entries are no longer seen. -/
theorem unseen_entering {size : Int32} (hsize : 13 ≤ size)
    (hodd : size.toUInt32 ||| 1 = size.toUInt32) {n : Nat} (hn : size.toInt = n)
    (hroom : n + 2 < 2 ^ 31) (hneg : (2 * size.toUInt32 ||| 1).toInt32.toInt < 0)
    (hr : n + 1 < rounds) (memory : NioHtable Nat Unit) :
    ∃ rs t, (nioHtableCreate size memory).run rounds (entering (n + 1)) = some (rs, t) ∧
      ((Dict.empty : Dict Nat Unit).applyAll (entering (n + 1))).present.encard = (n + 1 : Nat) ∧
      t.nioHtableList rounds = some [none] ∧
      forEach t.nioHtableIterNext rounds t.nioHtableIterHead = some [] ∧
      forEach t.nioHtableIterPrev rounds t.nioHtableIterTail = some [] := by
  obtain ⟨rs, t, b, hrun, h, hts⟩ := run_entering hsize hodd hn.ge
    (show n ≤ rounds by omega) memory
  obtain ⟨r, t', b', hcall, h', hsize'⟩ := enter_entering h (by omega) (show n ≤ rounds by omega)
  rw [if_pos (by rw [hts, hn])] at hsize'
  have hcount := encard_entering (show n + 1 ≤ 2 ^ 31 by omega)
  rw [← hts, ← hsize'] at hneg
  refine ⟨rs ++ [r], t', ?_, hcount, ?_, forEach_next_neg h'.toFilled hneg,
    forEach_prev_neg h'.toFilled hneg⟩
  · rw [entering_succ]
    exact run_concat hrun hcall
  · have hlen : (t'.entries b').length = n + 1 := by
      rw [h'.encard_present] at hcount
      exact_mod_cast hcount
    have hplaces : (t'.used + 1).toInt = (n + 2 : Nat) := by
      have hused : t'.used + 1 = Int32.ofNat (n + 2) := by
        rw [h'.used, hlen]
        exact (Int32.ofNat_add (n + 1) 1).symm
      rw [hused]
      exact Int32.toInt_ofNat_of_lt hroom
    rw [nioHtableList_neg hneg, hplaces, if_pos (by omega)]

/-- A table of `2 ^ 30 + 1` buckets, and one entry more: `2 ^ 30 + 2` keys are present,
and neither `nio_htable_list` nor the iterator has one of them. -/
theorem iterator_sees_nothing :
    ∃ rs t, (nioHtableCreate 1073741825 (zeroed : NioHtable Nat Unit)).run 1073741827
        (entering 1073741826) = some (rs, t) ∧
      ((Dict.empty : Dict Nat Unit).applyAll (entering 1073741826)).present.encard
        = (1073741826 : Nat) ∧
      t.nioHtableList 1073741827 = some [none] ∧
      forEach t.nioHtableIterNext 1073741827 t.nioHtableIterHead = some [] ∧
      forEach t.nioHtableIterPrev 1073741827 t.nioHtableIterTail = some [] :=
  unseen_entering (n := 1073741825) (by decide) (by decide) (by decide) (by decide) (by decide)
    (by decide) zeroed

end NioHtable

end Libnio.Common
