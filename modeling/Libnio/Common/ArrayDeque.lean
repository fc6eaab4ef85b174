import Libnio.Common.ArrayDelete

/-!
# Common — arrays, the insertions and the pops

What each of them is to the list of the items, and in which runs the code does just
that. It does not where an object is put in front of an empty array, since that is an
insertion before an item that is not there.
-/

namespace Libnio.Common

open Slots Stream

variable {ν : Type}

/-! ## To the list -/

namespace DequeCall

open Deletion (At)

/-- The items after a call. -/
def after (l : List (Option ν)) : DequeCall ν → List (Option ν)
  | append obj | pushBack obj => l ++ [obj]
  | prepend obj | pushFront obj => obj :: l
  | predInsert position obj => if At position l then l.insertIdx position.toNat obj else l
  | succInsert position obj => if At position l then l.insertIdx (position.toNat + 1) obj else l
  | popBack => l.dropLast
  | popFront => l.tail

/-- What a call returns, from the items. -/
def result (l : List (Option ν)) : DequeCall ν → ArrayResult ν
  | append _ => .ret l.length
  | prepend _ => .ret 0
  | pushBack _ | pushFront _ => .nothing
  | predInsert position _ => .ret (if At position l then position else -1)
  | succInsert position _ => .ret (if At position l then position + 1 else -1)
  | popBack => .obj l.getLast?.join
  | popFront => .obj l.head?.join

/-- A pop returns null just where there is nothing to pop. -/
def NullIffEmpty (l : List (Option ν)) : DequeCall ν → Prop
  | popBack => (popBack : DequeCall ν).result l = .obj none ↔ l = []
  | popFront => (popFront : DequeCall ν).result l = .obj none ↔ l = []
  | append _ | prepend _ | pushBack _ | pushFront _ | predInsert _ _ | succInsert _ _ => True

/-- The call is one that the code answers as it should: nothing is put in front of
nothing, the largest array of all gets no item more, and no null pointer is popped. -/
def Fits (l : List (Option ν)) : DequeCall ν → Prop
  | append _ | pushBack _ => l.length ≠ NioArray.most
  | prepend _ | pushFront _ => l ≠ [] ∧ l.length ≠ NioArray.most
  | predInsert position _ | succInsert position _ => At position l → l.length ≠ NioArray.most
  | popBack => l.getLast? ≠ some none
  | popFront => l.head? ≠ some none

/-- Each call is such a one, where it is made. -/
def FitsAll : List (Option ν) → List (DequeCall ν) → Prop
  | _, [] => True
  | l, c :: cs => c.Fits l ∧ FitsAll (c.after l) cs

end DequeCall

/-- The call makes the array longer, and it is a deletion. -/
def ArrayCall.Overshoots (a : NioArray ν) : ArrayCall ν → Prop
  | .deletion (.deleteRange ibegin iend _) => 0 < a.count ∧ a.count < ibegin ∧ ibegin ≤ iend
  | _ => False

namespace NioArray

variable {a : NioArray ν} {l : List (Option ν)}

/-- The array is a deque with these items, as long as these calls are made: every cell
of `items[0..count)` is below the capacity before each call and in the end, and no call
reads or writes another. -/
def Behaves (a : NioArray ν) (l : List (Option ν)) : List (DequeCall ν) → Prop
  | [] => a.Holds l
  | c :: cs => a.Holds l ∧ c.NullIffEmpty l ∧
      ∃ a', a.dequeCall c = .ok (c.result l, a') ∧ a'.Behaves (c.after l) cs

/-- No call makes the array longer by deleting. -/
def Tame [DecidableEq ν] (a : NioArray ν) : List (ArrayCall ν) → Prop
  | [] => True
  | c :: cs => ¬ c.Overshoots a ∧ ∀ r a', a.call c = .ok (r, a') → a'.Tame cs

/-! ## Inserting -/

/-- How an insertion ends: there is no memory for it, or the array is the largest there
is, or it returns with these items. -/
def Inserts {ρ : Type} (l l' : List (Option ν)) (r : ρ)
    (x : Except ArrayFault (ρ × NioArray ν)) : Prop :=
  x = .error .noMemory ∨ l.length = most ∧ x = .error .outOfBounds ∨
    l.length ≠ most ∧ ∃ a', x = .ok (r, a') ∧ a'.Holds l'

theorem Inserts.map {ρ σ : Type} {l l' : List (Option ν)} {r : ρ}
    {x : Except ArrayFault (ρ × NioArray ν)} (h : Inserts l l' r x) (f : ρ → σ) :
    Inserts l l' (f r) (x.map (Prod.map f id)) := by
  rcases h with rfl | ⟨hmost, rfl⟩ | ⟨hmost, a', rfl, ha'⟩
  · exact .inl rfl
  · exact .inr (.inl ⟨hmost, rfl⟩)
  · exact .inr (.inr ⟨hmost, a', rfl, ha'⟩)

/-- Room for one more, with the items where they were. -/
theorem Holds.room (h : a.Holds l) (hs : a.Sized) {more : Int} (hmore : 1 ≤ more ∧ more ≤ 16) :
    a.makeRoom more = .error .noMemory ∨
    ∃ a₁, a.makeRoom more = .ok a₁ ∧ a₁.count = l.length ∧ a₁.count ≤ a₁.capacity ∧
      block a₁.items l.length = l ∧ (a₁.count < a₁.capacity ↔ l.length ≠ most) := by
  have hcount := h.count
  rcases makeRoom_cases hs h.capacity hmore with hno | ⟨a₁, hroom, hcount₁, -, hle, hsame, hmost⟩
  · exact .inl hno
  · refine .inr ⟨a₁, hroom, hcount₁.trans hcount, hle, ?_, hmost.trans (by omega)⟩
    rw [block_congr fun i hi => hsame i (by omega), h.items]

/-- The array alone, with another answer. -/
theorem Inserts.answer {ρ σ : Type} {l l' : List (Option ν)} {r : ρ}
    {x : Except ArrayFault (ρ × NioArray ν)} (h : Inserts l l' r x) (s : σ) :
    Inserts l l' s (Except.map (s, ·) (do
      let (_, a) ← x
      return a)) := by
  rcases h with rfl | ⟨hmost, rfl⟩ | ⟨hmost, a', rfl, ha'⟩
  · exact .inl rfl
  · exact .inr (.inl ⟨hmost, rfl⟩)
  · exact .inr (.inr ⟨hmost, a', rfl, ha'⟩)

theorem inserts_append (h : a.Holds l) (hs : a.Sized) (obj : Option ν) :
    Inserts l (l ++ [obj]) (l.length : Int) (a.nioArrayAppend obj) := by
  rcases h.room hs (show (1 : Int) ≤ 16 ∧ (16 : Int) ≤ 16 by decide)
    with hno | ⟨a₁, hroom, hcount, hle, hitems, hmost⟩
  · exact .inl (by rw [nioArrayAppend, hno, error_bind])
  · by_cases hfull : l.length = most
    · have hout := put_outOfBounds (a := a₁) (i := a₁.count) (by omega) obj
      exact .inr (.inl ⟨hfull, by rw [nioArrayAppend, hroom, ok_bind, hout, error_bind]⟩)
    · have hlt := hmost.mpr hfull
      have hput := put_eq (a := a₁) (i := l.length) (by omega) obj
      rw [← hcount] at hput
      have hret : a₁.count + 1 - 1 = l.length := by omega
      refine .inr (.inr ⟨hfull, { a₁ with
        count := a₁.count + 1
        items := Function.update a₁.items l.length obj }, ?_, ?_, ?_, ?_⟩)
      · rw [nioArrayAppend, hroom, ok_bind, hput, ok_bind, pure_eq_ok, hret]
      · rw [List.length_append, List.length_singleton]
        show a₁.count + 1 = _
        omega
      · show a₁.count + 1 ≤ a₁.capacity
        omega
      · rw [List.length_append, List.length_singleton, block_update_end, hitems]

theorem shiftUp_of_le (a : NioArray ν) {p n : Nat} (h : n ≤ p) : a.shiftUp p n = .ok a := by
  cases n with
  | zero => rfl
  | succ n => rw [shiftUp, if_neg (by omega)]

theorem shiftUp_outOfBounds {p n : Nat} (hlt : p < n) (hcap : a.capacity ≤ n) :
    a.shiftUp p n = .error .outOfBounds := by
  cases n with
  | zero => omega
  | succ n =>
      rw [shiftUp, if_pos (by omega)]
      by_cases hn : (n : Int) < a.capacity
      · rw [get_eq hn, ok_bind, put_outOfBounds (show a.capacity ≤ (n : Int) + 1 by omega),
          error_bind]
      · rw [get, if_neg (by omega), error_bind]

/-- **An insertion** before or after an item: what is from the place on goes up by one. -/
theorem inserts_at (h : a.Holds l) (hs : a.Sized) {p : Nat} (hp : p ≤ l.length) (r : Int)
    (obj : Option ν) :
    Inserts l (l.insertIdx p obj) r (do
      let a ← a.makeRoom 1
      let a ← a.shiftUp p a.count.toNat
      let a ← a.put p obj
      return (r, { a with count := a.count + 1 })) := by
  rcases h.room hs (show (1 : Int) ≤ 1 ∧ (1 : Int) ≤ 16 by decide)
    with hno | ⟨a₁, hroom, hcount, hle, hitems, hmost⟩
  · exact .inl (by rw [hno, error_bind])
  · have htoNat : a₁.count.toNat = l.length := by omega
    by_cases hfull : l.length = most
    · refine .inr (.inl ⟨hfull, ?_⟩)
      have hcap : a₁.capacity ≤ l.length := by omega
      rw [hroom, ok_bind, htoNat]
      rcases Nat.eq_or_lt_of_le hp with rfl | hlt
      · -- behind the last item no cell goes up
        rw [shiftUp_of_le a₁ (Nat.le_refl _), ok_bind, put_outOfBounds hcap, error_bind]
      · rw [shiftUp_outOfBounds hlt hcap, error_bind]
    · have hlt := hmost.mpr hfull
      have hlen : (l.insertIdx p obj).length = l.length + 1 :=
        List.length_insertIdx_of_le_length hp obj
      refine .inr (.inr ⟨hfull, { a₁ with
        count := a₁.count + 1
        items := Function.update (opened a₁.items p l.length) p obj }, ?_, ?_, ?_, ?_⟩)
      · rw [hroom, ok_bind, htoNat, shiftUp_eq p l.length a₁ (by omega), ok_bind]
        have hput := put_eq (i := p)
          (a := { a₁ with items := opened a₁.items p l.length })
          (show (p : Int) < a₁.capacity by omega) obj
        rw [hput]
        rfl
      · rw [hlen]
        show a₁.count + 1 = _
        omega
      · show a₁.count + 1 ≤ a₁.capacity
        omega
      · rw [hlen, block_opened a₁.items hp, hitems]

theorem inserts_predInsert (h : a.Holds l) (hs : a.Sized) {position : Int}
    (hat : Deletion.At position l) (obj : Option ν) :
    Inserts l (l.insertIdx position.toNat obj) position (a.nioArrayPredInsert position obj) := by
  have hcount := h.count
  obtain ⟨p, rfl⟩ := Int.eq_ofNat_of_zero_le hat.1
  have hp := Int.ofNat_lt.mp hat.2
  rw [nioArrayPredInsert, if_neg (by omega), Int.toNat_natCast]
  exact inserts_at h hs (Nat.le_of_lt hp) p obj

theorem inserts_succInsert (h : a.Holds l) (hs : a.Sized) {position : Int}
    (hat : Deletion.At position l) (obj : Option ν) :
    Inserts l (l.insertIdx (position.toNat + 1) obj) (position + 1)
      (a.nioArraySuccInsert position obj) := by
  have hcount := h.count
  obtain ⟨p, rfl⟩ := Int.eq_ofNat_of_zero_le hat.1
  have hp := Int.ofNat_lt.mp hat.2
  rw [nioArraySuccInsert, if_neg (by omega), Int.toNat_natCast]
  exact inserts_at h hs hp (p + 1) obj

theorem inserts_prepend (h : a.Holds l) (hs : a.Sized) (hne : l ≠ []) (obj : Option ν) :
    Inserts l (obj :: l) (0 : Int) (a.nioArrayPrepend obj) := by
  have hpos := List.length_pos_iff.mpr hne
  exact inserts_predInsert h hs ⟨Int.le_refl 0, by omega⟩ obj

/-- In front of nothing nothing is inserted. -/
theorem prepend_empty (h : a.Holds []) (obj : Option ν) :
    a.nioArrayPrepend obj = .ok (-1, a) := by
  have hcount := h.count
  exact if_pos (.inr (by rw [hcount]; exact Int.le_refl 0))

theorem predInsert_of_not_at (h : a.Holds l) {position : Int} (hat : ¬ Deletion.At position l)
    (obj : Option ν) : a.nioArrayPredInsert position obj = .ok (-1, a) := by
  have hcount := h.count
  rw [Deletion.At] at hat
  exact if_pos (by omega)

theorem succInsert_of_not_at (h : a.Holds l) {position : Int} (hat : ¬ Deletion.At position l)
    (obj : Option ν) : a.nioArraySuccInsert position obj = .ok (-1, a) := by
  have hcount := h.count
  rw [Deletion.At] at hat
  exact if_pos (by omega)

/-! ## Popping -/

theorem popBack_eq (h : a.Holds l) :
    ∃ a', a.nioArrayPopBack = .ok (l.getLast?.join, a') ∧ a'.Holds l.dropLast := by
  have hcount := h.count
  have hcap := h.capacity
  rcases l.eq_nil_or_concat' with rfl | ⟨l, obj, rfl⟩
  · exact ⟨a, if_pos (by rw [hcount]; exact Int.le_refl 0), h⟩
  · rw [List.length_append, List.length_singleton] at hcount
    have hless : a.count - 1 = l.length := by omega
    have hitems := h.items
    rw [List.length_append, List.length_singleton, block_succ] at hitems
    obtain ⟨hl, hobj⟩ := List.append_inj' hitems rfl
    have hget : NioArray.get (a.count - 1) { a with count := a.count - 1 }
        = .ok (a.items l.length) := by
      rw [hless]
      exact get_eq (show (l.length : Int) < a.capacity by omega)
    refine ⟨{ a with count := a.count - 1 }, ?_, ?_⟩
    · rw [nioArrayPopBack, if_neg (by omega)]
      dsimp only
      rw [hget, ok_bind, pure_eq_ok, List.getLast?_concat, Option.join_some,
        List.singleton_inj.mp hobj]
    · rw [List.dropLast_concat]
      exact ⟨hless, show a.count - 1 ≤ a.capacity by omega, hl⟩

theorem popFront_eq (h : a.Holds l) :
    ∃ a', a.nioArrayPopFront = .ok (l.head?.join, a') ∧ a'.Holds l.tail := by
  have hcount := h.count
  have hcap := h.capacity
  cases l with
  | nil => exact ⟨a, if_pos (by rw [hcount]; exact Int.le_refl 0), h⟩
  | cons obj l =>
      rw [List.length_cons] at hcount
      have hfirst := h.item (Nat.succ_pos l.length)
      rw [List.getElem?_cons_zero] at hfirst
      have hrounds : (a.count - 1).toNat = (obj :: l).length - 1 := by
        rw [List.length_cons]
        omega
      have hmove : NioArray.moveDown ((obj :: l).length - 1) 0 1 { a with count := a.count - 1 }
          = .ok { a with
            count := a.count - 1
            items := moved a.items 0 1 ((obj :: l).length - 1) } := by
        refine moveDown_eq _ 0 1 { a with count := a.count - 1 } (Nat.zero_le 1) ?_
        rw [List.length_cons]
        show ((1 + l.length : Nat) : Int) ≤ a.capacity
        omega
      have hget : a.get 0 = .ok (a.items 0) := get_eq (i := 0) (by omega)
      refine ⟨{ a with
        count := a.count - 1
        items := moved a.items 0 1 ((obj :: l).length - 1) }, ?_, ?_⟩
      · rw [nioArrayPopFront, if_neg (by omega), hget, ok_bind]
        dsimp only
        rw [hrounds, hmove, List.head?_cons, Option.join_some, Option.some.inj hfirst]
        rfl
      · exact h.closeGap (Nat.zero_le 1) (by simp) (fun _ _ => rfl) rfl (Int.sub_zero 1 ▸ rfl) rfl

/-! ## Call by call -/

/-- What a call returns, and which items are left, where the call is as it should be. -/
theorem Inserts.iff {ρ : Type} {l l' : List (Option ν)} {r : ρ}
    {x : Except ArrayFault (ρ × NioArray ν)} (h : Inserts l l' r x)
    (hmem : x ≠ .error .noMemory) : (∃ a', x = .ok (r, a') ∧ a'.Holds l') ↔ l.length ≠ most := by
  rcases h with hno | ⟨hmost, hout⟩ | ⟨hmost, hok⟩
  · exact absurd hno hmem
  · refine iff_of_false ?_ (fun hne => hne hmost)
    rintro ⟨a', hx, -⟩
    rw [hout] at hx
    cases hx
  · exact iff_of_true hok hmost

/-- An insertion in front of the first item. -/
theorem Inserts.iff_front {ρ : Type} {l' : List (Option ν)} {r : ρ}
    {x : Except ArrayFault (ρ × NioArray ν)} (hin : l ≠ [] → Inserts l l' r x)
    (hnil : l = [] → ¬ ∃ a', x = .ok (r, a') ∧ a'.Holds l') (hmem : x ≠ .error .noMemory) :
    (∃ a', x = .ok (r, a') ∧ a'.Holds l') ↔ l ≠ [] ∧ l.length ≠ most := by
  by_cases hempty : l = []
  · exact iff_of_false (hnil hempty) fun hfit => hfit.1 hempty
  · exact ((hin hempty).iff hmem).trans (and_iff_right hempty).symm

/-- An insertion at a position, which nothing comes of outside of the array. -/
theorem Inserts.iff_at {position r : Int} {l' : List (Option ν)}
    {x : Except ArrayFault (Int × NioArray ν)} (h : a.Holds l)
    (hin : Deletion.At position l → Inserts l l' r x)
    (hout : ¬ Deletion.At position l → x = .ok (-1, a))
    (hmem : x.map (Prod.map (.ret : Int → ArrayResult ν) id) ≠ .error .noMemory) :
    (∃ a', x.map (Prod.map (.ret : Int → ArrayResult ν) id)
        = .ok (.ret (if Deletion.At position l then r else -1), a') ∧
      a'.Holds (if Deletion.At position l then l' else l)) ↔
      (Deletion.At position l → l.length ≠ most) := by
  by_cases hat : Deletion.At position l
  · rw [if_pos hat, if_pos hat]
    refine (((hin hat).map ArrayResult.ret).iff hmem).trans ?_
    exact ⟨fun hmost _ => hmost, fun hfit => hfit hat⟩
  · rw [if_neg hat, if_neg hat]
    refine iff_of_true ⟨a, ?_, h⟩ fun hat' => absurd hat' hat
    rw [hout hat]
    rfl

/-- A pop returns null for a null pointer as well. -/
theorem popBack_iff (h : a.Holds l) :
    ((DequeCall.popBack : DequeCall ν).NullIffEmpty l ∧
      ∃ a', a.dequeCall .popBack = .ok (DequeCall.popBack.result l, a') ∧
        a'.Holds (DequeCall.popBack.after l)) ↔ (DequeCall.popBack : DequeCall ν).Fits l := by
  obtain ⟨a', hret, ha'⟩ := popBack_eq h
  refine (and_iff_left ⟨a', by rw [dequeCall, hret]; rfl, ha'⟩).trans ?_
  rw [DequeCall.NullIffEmpty, DequeCall.result, DequeCall.Fits]
  rcases l.eq_nil_or_concat' with rfl | ⟨l, obj, rfl⟩
  · simp
  · cases obj <;> simp

theorem popFront_iff (h : a.Holds l) :
    ((DequeCall.popFront : DequeCall ν).NullIffEmpty l ∧
      ∃ a', a.dequeCall .popFront = .ok (DequeCall.popFront.result l, a') ∧
        a'.Holds (DequeCall.popFront.after l)) ↔ (DequeCall.popFront : DequeCall ν).Fits l := by
  obtain ⟨a', hret, ha'⟩ := popFront_eq h
  refine (and_iff_left ⟨a', by rw [dequeCall, hret]; rfl, ha'⟩).trans ?_
  rw [DequeCall.NullIffEmpty, DequeCall.result, DequeCall.Fits]
  cases l with
  | nil => simp
  | cons obj l => cases obj <;> simp

/-- **Each call** is answered from the items just where it fits them. -/
theorem dequeCall_iff (h : a.Holds l) (hs : a.Sized) (c : DequeCall ν)
    (hmem : a.dequeCall c ≠ .error .noMemory) :
    (c.NullIffEmpty l ∧ ∃ a', a.dequeCall c = .ok (c.result l, a') ∧ a'.Holds (c.after l)) ↔
      c.Fits l := by
  cases c with
  | append obj =>
      rw [DequeCall.NullIffEmpty, true_and, DequeCall.Fits]
      exact ((inserts_append h hs obj).map ArrayResult.ret).iff hmem
  | pushBack obj =>
      rw [DequeCall.NullIffEmpty, true_and, DequeCall.Fits]
      exact ((inserts_append h hs obj).answer ArrayResult.nothing).iff hmem
  | prepend obj =>
      rw [DequeCall.NullIffEmpty, true_and, DequeCall.Fits]
      refine Inserts.iff_front (fun hne => (inserts_prepend h hs hne obj).map ArrayResult.ret)
        ?_ hmem
      rintro rfl ⟨a', hret, -⟩
      rw [dequeCall, prepend_empty h obj] at hret
      cases hret
  | pushFront obj =>
      rw [DequeCall.NullIffEmpty, true_and, DequeCall.Fits]
      refine Inserts.iff_front
        (fun hne => (inserts_prepend h hs hne obj).answer ArrayResult.nothing) ?_ hmem
      rintro rfl ⟨a', hret, ha'⟩
      rw [dequeCall, nioArrayPushFront, prepend_empty h obj] at hret
      cases hret
      have hcount := ha'.count
      rw [h.count] at hcount
      cases hcount
  | predInsert position obj =>
      rw [DequeCall.NullIffEmpty, true_and]
      exact Inserts.iff_at h (fun hat => inserts_predInsert h hs hat obj)
        (fun hat => predInsert_of_not_at h hat obj) hmem
  | succInsert position obj =>
      rw [DequeCall.NullIffEmpty, true_and]
      exact Inserts.iff_at h (fun hat => inserts_succInsert h hs hat obj)
        (fun hat => succInsert_of_not_at h hat obj) hmem
  | popBack => exact popBack_iff h
  | popFront => exact popFront_iff h

/-! ## Runs -/

theorem behaves_holds {cs : List (DequeCall ν)} (h : a.Behaves l cs) : a.Holds l := by
  cases cs with
  | nil => exact h
  | cons c cs => exact h.1

/-- The array in order, whatever its items are. -/
def InOrder (a : NioArray ν) : Prop := ∃ l, a.Holds l

theorem Inserts.returns {ρ : Type} {l l' : List (Option ν)} {r : ρ}
    {x : Except ArrayFault (ρ × NioArray ν)} (h : Inserts l l' r x) :
    Returns (fun r => r.2.InOrder) x := by
  rcases h with rfl | ⟨-, rfl⟩ | ⟨-, a', rfl, ha'⟩
  · exact Returns.error _
  · exact Returns.error _
  · exact Returns.ok ⟨l', ha'⟩

theorem inOrder_append (h : a.Holds l) (hs : a.Sized) (obj : Option ν) :
    Returns (fun r => r.2.InOrder) (a.nioArrayAppend obj) := (inserts_append h hs obj).returns

theorem inOrder_predInsert (h : a.Holds l) (hs : a.Sized) (position : Int) (obj : Option ν) :
    Returns (fun r => r.2.InOrder) (a.nioArrayPredInsert position obj) := by
  by_cases hat : Deletion.At position l
  · exact (inserts_predInsert h hs hat obj).returns
  · rw [predInsert_of_not_at h hat obj]
    exact Returns.ok ⟨l, h⟩

theorem inOrder_succInsert (h : a.Holds l) (hs : a.Sized) (position : Int) (obj : Option ν) :
    Returns (fun r => r.2.InOrder) (a.nioArraySuccInsert position obj) := by
  by_cases hat : Deletion.At position l
  · exact (inserts_succInsert h hs hat obj).returns
  · rw [succInsert_of_not_at h hat obj]
    exact Returns.ok ⟨l, h⟩

theorem inOrder_dequeCall (h : a.Holds l) (hs : a.Sized) (c : DequeCall ν) :
    Returns (fun r => r.2.InOrder) (a.dequeCall c) := by
  cases c <;> refine Returns.map ?_
  case append obj => exact inOrder_append h hs obj
  case prepend obj => exact inOrder_predInsert h hs 0 obj
  case pushBack obj => exact (inOrder_append h hs obj).bind fun _ hr => Returns.ok hr
  case pushFront obj => exact (inOrder_predInsert h hs 0 obj).bind fun _ hr => Returns.ok hr
  case predInsert position obj => exact inOrder_predInsert h hs position obj
  case succInsert position obj => exact inOrder_succInsert h hs position obj
  case popBack =>
      obtain ⟨a', hret, ha'⟩ := popBack_eq h
      exact hret ▸ Returns.ok ⟨_, ha'⟩
  case popFront =>
      obtain ⟨a', hret, ha'⟩ := popFront_eq h
      exact hret ▸ Returns.ok ⟨_, ha'⟩

theorem inOrder_preAppend (h : a.Holds l) (hs : a.Sized) (appCount : Int) :
    Returns InOrder (a.nioArrayPreAppend appCount) := by
  refine Returns.ite (Returns.error _) (Returns.ite ?_ (Returns.ok ⟨l, h⟩))
  rcases grow_cases hs (int32 (a.count + appCount))
    with ⟨hg, -⟩ | ⟨d, -, hpos, ⟨hg, -⟩ | ⟨hg, -⟩ | ⟨hg, -⟩⟩
  · exact hg ▸ Returns.ok ⟨l, h⟩
  · exact hg ▸ Returns.error _
  · exact hg ▸ Returns.error _
  · have hcap := h.capacity
    have hcount := h.count
    refine hg ▸ Returns.ok ⟨l, hcount, show a.count ≤ a.capacity + d by omega, ?_⟩
    rw [← h.items, length_block]
    exact block_congr fun i hi => if_neg (by omega)

theorem inOrder_clean (h : a.Holds l) (freeFn : Bool) :
    Returns InOrder (a.nioArrayClean freeFn) := by
  have hcap := h.capacity
  have hcount := h.count
  refine (returns_clear freeFn a.count.toNat 0 a).bind fun a₁ h₁ => Returns.ok ⟨[], rfl, ?_, rfl⟩
  show 0 ≤ a₁.capacity
  have hcap₁ := h₁.1
  omega

/-- What is created is empty. -/
theorem returns_create (initSize : Int) (memory : Nat → Option ν) :
    Returns (fun a => a.Sized ∧ a.InOrder) (nioArrayCreate initSize memory) := by
  have hs : Sized { capacity := 0, count := 0, items := memory, freed := [] } :=
    ⟨Int.dvd_zero 16, Int.le_refl 0, show (0 : Int) < 2 ^ 31 by decide, Int.le_refl 0⟩
  have h : Holds { capacity := 0, count := 0, items := memory, freed := [] } [] :=
    ⟨rfl, Int.le_refl 0, rfl⟩
  exact fun a ha => ⟨returns_preAppend hs _ a ha, inOrder_preAppend h hs _ a ha⟩

variable [DecidableEq ν]

theorem Deletes.returns {d : Deletion ν} (h : a.Deletes l d) :
    Returns (fun r => r.2.InOrder) (a.delete d) := by
  obtain ⟨r, a', l', fs, hret, ha', -⟩ := h
  exact hret ▸ Returns.ok ⟨l', ha'⟩

theorem inOrder_delete (h : a.Holds l) {d : Deletion ν}
    (hd : ¬ (ArrayCall.deletion d).Overshoots a) :
    Returns (fun r => r.2.InOrder) (a.delete d) := by
  have hcount := h.count
  cases d with
  | deleteIdx position freeFn => exact (deletes_deleteIdx h position freeFn).returns
  | delete idx freeFn => exact (deletes_delete h idx freeFn).returns
  | mvIdx ito ifrom freeFn => exact (deletes_mvIdx h ito ifrom freeFn).returns
  | deleteRange ibegin iend freeFn =>
      refine ((deletes_deleteRange_iff h ibegin iend freeFn).mpr ?_).returns
      rintro ⟨hne, hlt, hle⟩
      have hpos := List.length_pos_iff.mpr hne
      exact hd ⟨by omega, by omega, hle⟩
  | deleteObj obj freeFn =>
      by_cases hobj : obj ∈ l
      · obtain ⟨a', hret, ha', -⟩ := deleteObj_mem h hobj freeFn
        rw [delete, hret]
        exact Returns.ok ⟨_, ha'⟩
      · obtain ⟨a', hret, ha', -⟩ := deleteObj_not_mem h hobj freeFn
        rw [delete, hret]
        exact Returns.ok ⟨l, ha'⟩

theorem inOrder_call (h : a.InOrder) (hs : a.Sized) {c : ArrayCall ν} (hc : ¬ c.Overshoots a) :
    Returns (fun r => r.2.InOrder) (a.call c) := by
  obtain ⟨l, h⟩ := h
  cases c with
  | deque c => exact inOrder_dequeCall h hs c
  | deletion d =>
      refine Returns.map ?_
      exact inOrder_delete h hc
  | clean freeFn =>
      refine Returns.map ?_
      exact inOrder_clean h freeFn
  | preAppend appCount =>
      refine Returns.map ?_
      exact inOrder_preAppend h hs appCount

/-- **Every run** leaves an array of its kind, and one that is in order where no call
makes it longer by deleting. -/
theorem returns_run : ∀ (cs : List (ArrayCall ν)) (a : NioArray ν), a.Sized →
    Returns (fun r => r.2.Sized ∧ (a.InOrder → a.Tame cs → r.2.InOrder)) (a.run cs) := by
  intro cs
  induction cs with
  | nil => exact fun a hs => Returns.ok ⟨hs, fun h _ => h⟩
  | cons c cs ih =>
      intro a hs r hr
      rw [run, bind_eq_ok] at hr
      obtain ⟨⟨r₁, a₁⟩, hcall, hr⟩ := hr
      obtain ⟨⟨rs, a₂⟩, hrun, hr⟩ := bind_eq_ok.mp hr
      cases hr
      obtain ⟨hs₂, hin⟩ := ih a₁ (returns_call hs c _ hcall) _ hrun
      refine ⟨hs₂, fun h htame => hin (inOrder_call h hs htame.1 _ hcall) (htame.2 _ _ hcall)⟩

/-- **A run of insertions and pops** is answered from the items just where each call
fits them. -/
theorem behaves_iff : ∀ (cs : List (DequeCall ν)) (a : NioArray ν) (l : List (Option ν)),
    a.Holds l → a.Sized → a.run (cs.map .deque) ≠ .error .noMemory →
    (a.Behaves l cs ↔ DequeCall.FitsAll l cs) := by
  intro cs
  induction cs with
  | nil => exact fun a l h _ _ => iff_of_true h trivial
  | cons c cs ih =>
      intro a l h hs hmem
      have hmem₁ : a.dequeCall c ≠ .error .noMemory := by
        intro hno
        refine hmem ?_
        rw [List.map_cons, run, call, hno, error_bind]
      have hrest : ∀ a', a.dequeCall c = .ok (c.result l, a') → a'.Holds (c.after l) →
          (a'.Behaves (c.after l) cs ↔ DequeCall.FitsAll (c.after l) cs) := by
        intro a' hret ha'
        refine ih a' _ ha' (returns_dequeCall hs c _ hret) fun hno => hmem ?_
        rw [List.map_cons, run, call, hret, ok_bind]
        dsimp only
        rw [hno, error_bind]
      rw [Behaves, DequeCall.FitsAll, ← dequeCall_iff h hs c hmem₁]
      constructor
      · rintro ⟨-, hnull, a', hret, hbehaves⟩
        have ha' := behaves_holds hbehaves
        exact ⟨⟨hnull, a', hret, ha'⟩, (hrest a' hret ha').mp hbehaves⟩
      · rintro ⟨⟨hnull, a', hret, ha'⟩, hfits⟩
        exact ⟨h, hnull, a', hret, (hrest a' hret ha').mpr hfits⟩

/-- **The deque.** Whatever calls an array has been through, the insertions and pops
made on it then are answered from its items just where none of its items is behind the
capacity and each call fits the items it finds. The first of the two is so where no
deletion has made the array longer. -/
theorem deque_iff (initSize : Int) (memory : Nat → Option ν) (pre : List (ArrayCall ν))
    (cs : List (DequeCall ν)) {a₀ a : NioArray ν} {rs : List (ArrayResult ν)}
    (hcreate : nioArrayCreate initSize memory = .ok a₀) (hrun : a₀.run pre = .ok (rs, a))
    (hmem : a.run (cs.map .deque) ≠ .error .noMemory) :
    (a.Behaves a.contents cs ↔ a.count ≤ a.capacity ∧ DequeCall.FitsAll a.contents cs) ∧
      (a₀.Tame pre → a.count ≤ a.capacity) := by
  obtain ⟨hs₀, hin₀⟩ := returns_create initSize memory a₀ hcreate
  obtain ⟨hs, hin⟩ := returns_run pre a₀ hs₀ _ hrun
  constructor
  · by_cases hcap : a.count ≤ a.capacity
    · have h : a.Holds a.contents := holds_iff.mpr ⟨hs.count, hcap, rfl⟩
      rw [behaves_iff cs a _ h hs hmem]
      exact (and_iff_right hcap).symm
    · refine iff_of_false (fun hbehaves => hcap ?_) (fun hboth => hcap hboth.1)
      exact (behaves_holds hbehaves).capacity
  · intro htame
    obtain ⟨l, h⟩ := hin hin₀ htame
    exact h.capacity

theorem create_one : nioArrayCreate 1 (fun _ => (none : Option Nat)) = .ok (grown 16
    { capacity := 0, count := 0, items := fun _ => none, freed := [] }) := rfl

theorem deque_iff_two : ∃ (a₀ a : NioArray Nat) (rs : List (ArrayResult Nat)),
    nioArrayCreate 1 (fun _ => none) = .ok a₀ ∧
    a₀.run [.deque (.append (some 7))] = .ok (rs, a) ∧
    a.Behaves a.contents [.prepend (some 5), .popBack] := by
  have hrun : ∃ rs a, (grown 16 { capacity := 0, count := 0, items := fun _ => none, freed := [] } :
      NioArray Nat).run [.deque (.append (some 7))] = .ok (rs, a) ∧ a.contents = [some 7] ∧
      a.run [.deque (.prepend (some 5)), .deque .popBack] ≠ .error .noMemory :=
    ⟨_, _, rfl, rfl, nofun⟩
  obtain ⟨rs, a, hrun, hl, hmem⟩ := hrun
  obtain ⟨hiff, hcap⟩ := deque_iff 1 (fun _ => none) [.deque (.append (some 7))]
    [.prepend (some 5), .popBack] create_one hrun hmem
  refine ⟨_, a, rs, create_one, hrun, hiff.mpr ⟨hcap ⟨id, fun _ _ _ => trivial⟩, ?_⟩⟩
  rw [hl]
  have hlast : ([some 5, some 7] : List (Option Nat)).getLast? ≠ some none := by decide
  exact ⟨⟨by decide, by decide⟩, hlast, trivial⟩

/-- An object that is put in front of an empty array is not in it. -/
theorem prepend_loses :
    ¬ ∀ (initSize : Int) (memory : Nat → Option Nat) (pre : List (ArrayCall Nat))
      (cs : List (DequeCall Nat)) (a₀ a : NioArray Nat) (rs : List (ArrayResult Nat)),
      nioArrayCreate initSize memory = .ok a₀ → a₀.run pre = .ok (rs, a) →
      a.run (cs.map .deque) ≠ .error .noMemory → a.Behaves a.contents cs := by
  intro hclaim
  have hbad := hclaim 1 (fun _ => none) [] [.prepend (some 7)] _ _ [] create_one rfl nofun
  obtain ⟨-, -, a', hret, -⟩ := hbad
  cases hret

end NioArray

end Libnio.Common
