import Mathlib.Data.List.Nodup
import Mathlib.Logic.Function.Basic

/-!
# Linked — doubly linked segments

Nodes with a pointer each way, which may be null. A segment leads from one pointer
to another through the nodes of a list, forwards and backwards: with null at both
ends it is a list, with one node at both ends a ring. What links a node in and what
unlinks one writes a pointer on either side of it.
-/

namespace Libnio.Linked

variable {ν : Type}

/-- `x` and `y` stand next to each other: what is no null knows the other one. -/
def Adjacent (next prev : ν → Option ν) (x y : Option ν) : Prop :=
  (∀ a, x = some a → next a = y) ∧ ∀ b, y = some b → prev b = x

/-- From `x` through the nodes of the list to `y`, and back. -/
def Segment (next prev : ν → Option ν) : Option ν → List ν → Option ν → Prop
  | x, [], y => Adjacent next prev x y
  | x, a :: l, y => Adjacent next prev x (some a) ∧ Segment next prev (some a) l y

/-- What comes first on the way through the list to `y`. -/
def first : List ν → Option ν → Option ν
  | [], y => y
  | a :: _, _ => some a

/-- What comes last on the way from `x` through the list. -/
def last : Option ν → List ν → Option ν
  | x, [] => x
  | _, a :: l => last (some a) l

/-- No node of the list is there twice, or at one of the ends. -/
structure Apart (x : Option ν) (l : List ν) (y : Option ν) : Prop where
  nodup : l.Nodup
  left : ∀ a ∈ l, x ≠ some a
  right : ∀ a ∈ l, y ≠ some a

@[simp] theorem first_nil (y : Option ν) : first [] y = y := rfl
@[simp] theorem first_cons (a : ν) (l : List ν) (y : Option ν) : first (a :: l) y = some a := rfl
@[simp] theorem last_nil (x : Option ν) : last x [] = x := rfl
@[simp] theorem last_cons (x : Option ν) (a : ν) (l : List ν) :
    last x (a :: l) = last (some a) l := rfl

theorem last_append (x : Option ν) (l : List ν) (a : ν) (m : List ν) :
    last x (l ++ a :: m) = last (some a) m := by
  induction l generalizing x with
  | nil => rfl
  | cons b l ih => exact ih (some b)

theorem first_eq (l : List ν) (y : Option ν) : first l y = y ∧ l = [] ∨ ∃ a m, l = a :: m := by
  cases l with
  | nil => exact .inl ⟨rfl, rfl⟩
  | cons a m => exact .inr ⟨a, m, rfl⟩

theorem last_eq (x : Option ν) (l : List ν) :
    last x l = x ∧ l = [] ∨ ∃ a ∈ l, last x l = some a := by
  induction l generalizing x with
  | nil => exact .inl ⟨rfl, rfl⟩
  | cons c l ih =>
      right
      rcases ih (some c) with ⟨h, -⟩ | ⟨a, ha, h⟩
      · exact ⟨c, List.mem_cons_self, h⟩
      · exact ⟨a, List.mem_cons_of_mem c ha, h⟩

theorem last_reverse (x : Option ν) (l : List ν) : last x l.reverse = first l x := by
  cases l with
  | nil => rfl
  | cons a m =>
      rw [List.reverse_cons, last_append]
      rfl

namespace Apart

variable {x y : Option ν} {a : ν} {l m : List ν}

theorem tail (h : Apart x (a :: l) y) : Apart (some a) l y where
  nodup := (List.nodup_cons.mp h.nodup).2
  left := fun _ hb he => (List.nodup_cons.mp h.nodup).1 (Option.some.inj he ▸ hb)
  right := fun b hb => h.right b (List.mem_cons_of_mem a hb)

theorem reverse (h : Apart x l y) : Apart y l.reverse x where
  nodup := List.nodup_reverse.mpr h.nodup
  left := fun a ha => h.right a (List.mem_reverse.mp ha)
  right := fun a ha => h.left a (List.mem_reverse.mp ha)

/-- What comes last is no other node. -/
theorem last_ne (h : Apart x (a :: l) y) : last (some a) l ≠ x := by
  intro he
  rcases last_eq (some a) l with ⟨hl, -⟩ | ⟨b, hb, hl⟩
  · exact h.left a List.mem_cons_self (he.symm.trans hl)
  · exact h.left b (List.mem_cons_of_mem a hb) (he.symm.trans hl)

end Apart

section Walks

variable {next prev next' prev' : ν → Option ν} {x y : Option ν} {l : List ν}

@[simp] theorem segment_nil : Segment next prev x [] y ↔ Adjacent next prev x y := Iff.rfl

@[simp] theorem segment_cons {a : ν} : Segment next prev x (a :: l) y ↔
    Adjacent next prev x (some a) ∧ Segment next prev (some a) l y := Iff.rfl

theorem segment_append {a : ν} {m : List ν} : Segment next prev x (l ++ a :: m) y ↔
    Segment next prev x l (some a) ∧ Segment next prev (some a) m y := by
  induction l generalizing x with
  | nil => exact Iff.rfl
  | cons b l ih =>
      rw [List.cons_append, segment_cons, ih, segment_cons, and_assoc]

theorem Adjacent.symm (h : Adjacent next prev x y) : Adjacent prev next y x := ⟨h.2, h.1⟩

/-- A segment is one the other way round. -/
theorem Segment.reverse (h : Segment next prev x l y) : Segment prev next y l.reverse x := by
  induction l generalizing x with
  | nil => exact h.symm
  | cons a l ih =>
      rw [List.reverse_cons, segment_append]
      exact ⟨ih h.2, h.1.symm⟩

/-- A segment depends on the pointers along it only. -/
theorem Segment.congr (h : Segment next prev x l y)
    (hnext : ∀ a, x = some a ∨ a ∈ l → next' a = next a)
    (hprev : ∀ b, b ∈ l ∨ y = some b → prev' b = prev b) : Segment next' prev' x l y := by
  induction l generalizing x with
  | nil =>
      refine ⟨fun a ha => ?_, fun b hb => ?_⟩
      · rw [hnext a (.inl ha)]
        exact h.1 a ha
      · rw [hprev b (.inr hb)]
        exact h.2 b hb
  | cons c l ih =>
      refine ⟨⟨fun a ha => ?_, fun b hb => ?_⟩, ih h.2 (fun a ha => ?_) fun b hb => ?_⟩
      · rw [hnext a (.inl ha)]
        exact h.1.1 a ha
      · rw [hprev b (.inl (Option.some.inj hb ▸ List.mem_cons_self))]
        exact h.1.2 b hb
      · refine hnext a (.inr ?_)
        rcases ha with ha | ha
        · exact Option.some.inj ha ▸ List.mem_cons_self
        · exact List.mem_cons_of_mem c ha
      · refine hprev b ?_
        rcases hb with hb | hb
        · exact .inl (List.mem_cons_of_mem c hb)
        · exact .inr hb

/-- The left end knows what comes first. -/
theorem Segment.next_left (h : Segment next prev x l y) {a : ν} (ha : x = some a) :
    next a = first l y := by
  cases l with
  | nil => exact h.1 a ha
  | cons b l => exact h.1.1 a ha

/-- The right end knows what comes last. -/
theorem Segment.prev_right (h : Segment next prev x l y) {b : ν} (hb : y = some b) :
    prev b = last x l := by
  rw [h.reverse.next_left hb, ← last_reverse, List.reverse_reverse]

/-- A node on the way knows both sides of it. -/
theorem Segment.at {a : ν} {m : List ν} (h : Segment next prev x (l ++ a :: m) y) :
    prev a = last x l ∧ next a = first m y := by
  obtain ⟨h₁, h₂⟩ := segment_append.mp h
  exact ⟨h₁.prev_right rfl, h₂.next_left rfl⟩

end Walks

/-! ## Writing pointers -/

variable [DecidableEq ν]

/-- `x->next = v`, where `x` is no null. -/
def put (next : ν → Option ν) (x v : Option ν) : ν → Option ν :=
  match x with
  | none => next
  | some a => Function.update next a v

theorem put_self (next : ν → Option ν) (a : ν) (v : Option ν) : put next (some a) v a = v := by
  simp [put]

theorem put_of_ne (next : ν → Option ν) {x : Option ν} (v : Option ν) {a : ν} (h : x ≠ some a) :
    put next x v a = next a := by
  cases x with
  | none => rfl
  | some b => exact Function.update_of_ne (fun he => h (congrArg some he).symm) v next

/-- Two pointers become neighbours. -/
theorem adjacent_put (next prev : ν → Option ν) (x y : Option ν) :
    Adjacent (put next x y) (put prev y x) x y := by
  refine ⟨fun a ha => ?_, fun b hb => ?_⟩
  · rw [ha, put_self]
  · rw [hb, put_self]

section Writes

variable {next prev : ν → Option ν} {x y : Option ν} {l m : List ν} {e : ν}

/-- A segment is as it was when neither end of a new edge is on the way. -/
theorem Segment.put (h : Segment next prev x l y) {p q v w : Option ν}
    (hp : ∀ a, x = some a ∨ a ∈ l → p ≠ some a) (hq : ∀ b, b ∈ l ∨ y = some b → q ≠ some b) :
    Segment (put next p v) (put prev q w) x l y :=
  h.congr (fun a ha => put_of_ne next v (hp a ha)) fun b hb => put_of_ne prev w (hq b hb)

/-- **A node is taken out**: its two sides become neighbours. -/
theorem Segment.unlink (h : Segment next prev x (l ++ e :: m) y) (ha : Apart x (l ++ e :: m) y) :
    Segment (Linked.put next (last x l) (first m y)) (Linked.put prev (first m y) (last x l))
      x (l ++ m) y := by
  induction l generalizing x with
  | nil =>
      obtain ⟨-, h⟩ := h
      have ha' := ha.tail
      cases m with
      | nil => exact adjacent_put next prev x y
      | cons a m =>
          refine ⟨adjacent_put next prev x (some a), h.2.put (fun b hb => ?_) fun b hb => ?_⟩
          · rcases hb with hb | hb
            · exact ha.left b (Option.some.inj hb ▸ by simp)
            · exact ha.left b (by simp [hb])
          · rcases hb with hb | hb
            · exact ha'.tail.left b hb
            · intro he
              exact ha'.right b (Option.some.inj he ▸ List.mem_cons_self) hb
  | cons a l ih =>
      refine ⟨?_, ih h.2 ha.tail⟩
      have hne : last x (a :: l) ≠ x := (show Apart x (a :: l) y from ⟨
        (List.nodup_append.mp ha.nodup).1, fun b hb => ha.left b (List.mem_append_left _ hb),
        fun b hb => ha.right b (List.mem_append_left _ hb)⟩).last_ne
      refine ⟨fun b hb => ?_, fun b hb => ?_⟩
      · rw [put_of_ne next _ (fun he => hne (he.trans hb.symm))]
        exact h.1.1 b hb
      · cases hb
        rw [put_of_ne prev]
        · exact h.1.2 a rfl
        · have hn := (List.nodup_cons.mp ha.nodup).1
          rcases first_eq m y with ⟨hq, -⟩ | ⟨c, m', rfl⟩
          · rw [hq]
            exact ha.right a List.mem_cons_self
          · intro he
            exact hn (by simp [Option.some.inj he])

/-- **A node is put in** behind the left end. -/
theorem Segment.linkFirst (h : Segment next prev x l y) (ha : Apart x l y) (hx : x ≠ some e)
    (he : e ∉ l) (hy : y ≠ some e) :
    Segment (Linked.put (Linked.put next (some e) (first l y)) x (some e))
      (Linked.put (Linked.put prev (some e) x) (first l y) (some e)) x (e :: l) y := by
  have hq : first l y ≠ some e := by
    rcases first_eq l y with ⟨hl, -⟩ | ⟨a, m, rfl⟩
    · rw [hl]
      exact hy
    · intro hc
      exact he (by simp [Option.some.inj hc])
  -- what is written at `e` stays, whatever is written next to it
  have hnext : Linked.put (Linked.put next (some e) (first l y)) x (some e) e = first l y := by
    rw [put_of_ne _ _ hx, put_self]
  have hprev : Linked.put (Linked.put prev (some e) x) (first l y) (some e) e = x := by
    rw [put_of_ne _ _ hq, put_self]
  have hleft : ∀ a, x = some a →
      Linked.put (Linked.put next (some e) (first l y)) x (some e) a = some e := by
    intro a ha
    rw [ha, put_self]
  have hright : ∀ b, first l y = some b →
      Linked.put (Linked.put prev (some e) x) (first l y) (some e) b = some e := by
    intro b hb
    rw [hb, put_self]
  refine ⟨⟨hleft, fun b hb => Option.some.inj hb ▸ hprev⟩, ?_⟩
  cases l with
  | nil => exact ⟨fun a ha => Option.some.inj ha ▸ hnext, hright⟩
  | cons a l =>
      refine ⟨⟨fun c hc => Option.some.inj hc ▸ hnext, hright⟩, h.2.congr (fun c hc => ?_)
        fun b hb => ?_⟩
      · have hmem : c ∈ a :: l := by
          rcases hc with hc | hc
          · exact Option.some.inj hc ▸ List.mem_cons_self
          · exact List.mem_cons_of_mem a hc
        have hce : some e ≠ some c := by
          rintro ⟨⟩
          exact he hmem
        rw [put_of_ne _ _ (ha.left c hmem), put_of_ne _ _ hce]
      · rw [first_cons]
        rcases hb with hb | hb
        · rw [put_of_ne _ _ (ha.tail.left b hb), put_of_ne]
          rintro ⟨⟩
          exact he (List.mem_cons_of_mem a hb)
        · rw [put_of_ne, put_of_ne]
          · exact fun hc => hy (hb.trans hc.symm)
          · exact fun hc => ha.right a List.mem_cons_self (hb.trans hc.symm)

/-- **A node is put in** in front of the right end. -/
theorem Segment.linkLast (h : Segment next prev x l y) (ha : Apart x l y) (hx : x ≠ some e)
    (he : e ∉ l) (hy : y ≠ some e) :
    Segment (Linked.put (Linked.put next (some e) y) (last x l) (some e))
      (Linked.put (Linked.put prev (some e) (last x l)) y (some e)) x (l ++ [e]) y := by
  have hr := h.reverse.linkFirst ha.reverse hy (fun hc => he (List.mem_reverse.mp hc)) hx
  rw [← last_reverse, List.reverse_reverse] at hr
  have hrr := hr.reverse
  rwa [List.reverse_cons, List.reverse_reverse] at hrr

end Writes

/-! ## Following pointers -/

/-- `for (p = ..; p != stop; p = p->next)`, of at most so many rounds: the nodes it
comes to. -/
def follow (next : ν → Option ν) (stop : Option ν) : Nat → Option ν → Option (List ν)
  | 0, _ => none
  | n + 1, p =>
      if p = stop then some []
      else p.bind fun a => (follow next stop n (next a)).map (a :: ·)

/-- The nodes of the list lead from one to the next, and the last one to `y`. -/
def Forward (next : ν → Option ν) : List ν → Option ν → Prop
  | [], _ => True
  | a :: l, y => next a = first l y ∧ Forward next l y

omit [DecidableEq ν] in
/-- With enough rounds for a list there is one for its first node. -/
theorem exists_round {a : ν} {l : List ν} {n : Nat} (hn : (a :: l).length ≤ n) :
    ∃ k, n = k + 1 ∧ l.length ≤ k := by
  rw [List.length_cons] at hn
  exact ⟨n - 1, by omega, by omega⟩

omit [DecidableEq ν] in
theorem Segment.forward {next prev : ν → Option ν} {x y : Option ν} {l : List ν}
    (h : Segment next prev x l y) : Forward next l y := by
  induction l generalizing x with
  | nil => trivial
  | cons a l ih => exact ⟨h.2.next_left rfl, ih h.2⟩

omit [DecidableEq ν] in
theorem Forward.congr {next next' : ν → Option ν} {l : List ν} {y : Option ν}
    (h : Forward next l y) (hl : ∀ a ∈ l, next' a = next a) : Forward next' l y := by
  induction l with
  | nil => trivial
  | cons a l ih =>
      exact ⟨(hl a List.mem_cons_self).trans h.1,
        ih h.2 fun b hb => hl b (List.mem_cons_of_mem a hb)⟩

/-- **A loop along the nodes** comes to each of them, in order, and ends. -/
theorem Forward.follow {next : ν → Option ν} {l : List ν} {y : Option ν}
    (h : Forward next l y) (ha : ∀ a ∈ l, y ≠ some a) {n : Nat} (hn : l.length < n) :
    Linked.follow next y n (first l y) = some l := by
  induction l generalizing n with
  | nil =>
      obtain ⟨n, rfl⟩ := Nat.exists_eq_add_of_lt hn
      simp [Linked.follow]
  | cons a l ih =>
      rw [List.length_cons] at hn
      obtain ⟨n, rfl⟩ : ∃ k, n = k + 1 := ⟨n - 1, by omega⟩
      have hne : ¬ some a = y := fun he => ha a List.mem_cons_self he.symm
      have hrec := ih h.2 (fun b hb => ha b (List.mem_cons_of_mem a hb))
        (show l.length < n by omega)
      rw [Linked.follow, first_cons, if_neg hne, Option.bind_some, h.1, hrec]
      rfl

end Libnio.Linked
