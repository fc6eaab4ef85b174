import Libnio.Common.Ring
import Libnio.Event.Base
import Mathlib.Algebra.Ring.Nat

/-!
# Common — a ring is a sequence

`Holds` is what the pointers of the rings stand for, a sequence of entries for each
head. Every call keeps it and does to the sequences what it should; the proofs of
the calls are about one ring, and `Holds.edit` is about the others.
-/

namespace Libnio.Common

open Linked

variable {ν : Type}

namespace RingMem

/-! ## What the pointers stand for -/

/-- The node stands for itself alone. -/
structure Idle (m : RingMem ν) (e : ν) : Prop where
  succ : m.succ e = some e
  pred : m.pred e = some e
  parent : m.parent e = some e
  len : m.len e = 0

/-- The head's pointers lead through the entries of the list and back. -/
structure Ring (m : RingMem ν) (ring : ν) (entries : List ν) : Prop where
  segment : Segment m.succ m.pred (some ring) entries (some ring)
  nodup : entries.Nodup
  parent : m.parent ring = some ring
  len : m.len ring = Int32.ofNat entries.length
  entry : ∀ e ∈ entries, m.parent e = some ring

/-- **The heads that are initialised are rings** of such entries, and the entries
that are in none stand for themselves. -/
structure Holds (heads inited : Set ν) (s : ν → List ν) (m : RingMem ν) : Prop where
  ring : ∀ h ∈ heads, h ∈ inited → m.Ring h (s h)
  entry : ∀ h, ∀ e ∈ s h, (h ∈ heads ∧ h ∈ inited) ∧ e ∉ heads ∧ e ∈ inited
  idle : ∀ e ∉ heads, e ∈ inited → (∀ h, e ∉ s h) → m.Idle e

variable {heads inited : Set ν} {s : ν → List ν} {m m' : RingMem ν}

theorem Ring.apart {h : ν} {l : List ν} (hr : m.Ring h l) (hh : h ∉ l) :
    Apart (some h) l (some h) :=
  ⟨hr.nodup, fun _ ha he => hh (Option.some.inj he ▸ ha), fun _ ha he =>
    hh (Option.some.inj he ▸ ha)⟩

namespace Holds

theorem parent (hm : Holds heads inited s m) {h e : ν} (he : e ∈ s h) : m.parent e = some h := by
  obtain ⟨⟨hh, hi⟩, -⟩ := hm.entry h e he
  exact (hm.ring h hh hi).entry e he

/-- An entry is in one ring. -/
theorem unique (hm : Holds heads inited s m) {h h' e : ν} (he : e ∈ s h) (he' : e ∈ s h') :
    h = h' :=
  Option.some.inj ((hm.parent he).symm.trans (hm.parent he'))

theorem head_notMem (hm : Holds heads inited s m) {h : ν} (hh : h ∈ heads) (h' : ν) : h ∉ s h' :=
  fun hc => (hm.entry h' h hc).2.1 hh

/-- An entry is in no ring if and only if its parent is itself. -/
theorem unlinked_iff (hm : Holds heads inited s m) {e : ν} (he : e ∉ heads) (hi : e ∈ inited) :
    m.parent e = some e ↔ ∀ h, e ∉ s h := by
  constructor
  · intro hp h hc
    have hh := Option.some.inj (hp.symm.trans (hm.parent hc))
    exact he (hh ▸ (hm.entry h e hc).1.1)
  · exact fun hn => (hm.idle e he hi hn).parent

variable [DecidableEq ν]

/-- **One ring changes**, and what is in it or was in it. -/
theorem edit (hm : Holds heads inited s m) {h : ν} (hh : h ∈ heads) (hi : h ∈ inited)
    {l : List ν} (hr : m'.Ring h l)
    (hl : ∀ e ∈ l, e ∉ heads ∧ e ∈ inited ∧ (e ∈ s h ∨ ∀ h', e ∉ s h'))
    (hout : ∀ e ∈ s h, e ∉ l → m'.Idle e)
    (hother : ∀ p, p ≠ h → p ∉ l → p ∉ s h → m'.succ p = m.succ p ∧ m'.pred p = m.pred p ∧
      m'.parent p = m.parent p ∧ m'.len p = m.len p) :
    Holds heads inited (Function.update s h l) m' := by
  have hs : ∀ h', h' ≠ h → Function.update s h l h' = s h' := fun h' hne =>
    Function.update_of_ne hne l s
  -- a node of another ring is neither in this one nor comes into it
  have hapart : ∀ h' p, h' ≠ h → (p = h' ∧ h' ∈ heads ∨ p ∈ s h') → p ≠ h ∧ p ∉ l ∧ p ∉ s h := by
    rintro h' p hne (⟨rfl, hp⟩ | hp)
    · exact ⟨hne, fun hc => (hl p hc).1 hp, hm.head_notMem hp h⟩
    · refine ⟨?_, fun hc => ?_, fun hc => hne (hm.unique hp hc)⟩
      · rintro rfl
        exact hm.head_notMem hh h' hp
      · rcases (hl p hc).2.2 with hin | hnone
        · exact hne (hm.unique hp hin)
        · exact hnone h' hp
  have hkeep : ∀ h' p, h' ≠ h → (p = h' ∧ h' ∈ heads ∨ p ∈ s h') → m'.succ p = m.succ p ∧
      m'.pred p = m.pred p ∧ m'.parent p = m.parent p ∧ m'.len p = m.len p := by
    intro h' p hne hp
    obtain ⟨h₁, h₂, h₃⟩ := hapart h' p hne hp
    exact hother p h₁ h₂ h₃
  refine ⟨fun h' hh' hi' => ?_, fun h' e he => ?_, fun e he hie hn => ?_⟩
  · by_cases hne : h' = h
    · rw [hne, Function.update_self]
      exact hr
    · rw [hs h' hne]
      have hring := hm.ring h' hh' hi'
      have hself := hkeep h' h' hne (.inl ⟨rfl, hh'⟩)
      refine ⟨hring.segment.congr (fun a ha => ?_) fun b hb => ?_, hring.nodup,
        hself.2.2.1.trans hring.parent, hself.2.2.2.trans hring.len, fun e he => ?_⟩
      · rcases ha with ha | ha
        · rw [← Option.some.inj ha]
          exact hself.1
        · exact (hkeep h' a hne (.inr ha)).1
      · rcases hb with hb | hb
        · exact (hkeep h' b hne (.inr hb)).2.1
        · rw [← Option.some.inj hb]
          exact hself.2.1
      · exact (hkeep h' e hne (.inr he)).2.2.1.trans (hring.entry e he)
  · by_cases hne : h' = h
    · rw [hne, Function.update_self] at he
      rw [hne]
      exact ⟨⟨hh, hi⟩, (hl e he).1, (hl e he).2.1⟩
    · rw [hs h' hne] at he
      exact hm.entry h' e he
  · have hnl : e ∉ l := by
      have := hn h
      rwa [Function.update_self] at this
    by_cases hin : e ∈ s h
    · exact hout e hin hnl
    · have hnone : ∀ h', e ∉ s h' := by
        intro h'
        by_cases hne : h' = h
        · rw [hne]
          exact hin
        · have := hn h'
          rwa [hs h' hne] at this
      have hidle := hm.idle e he hie hnone
      have hne : e ≠ h := by
        rintro rfl
        exact he hh
      obtain ⟨h₁, h₂, h₃, h₄⟩ := hother e hne hnl hin
      exact ⟨h₁.trans hidle.succ, h₂.trans hidle.pred, h₃.trans hidle.parent, h₄.trans hidle.len⟩

end Holds

/-! ## The functions -/

section Functions

variable [DecidableEq ν] {heads inited : Set ν} {s : ν → List ν} {m : RingMem ν}

theorem nioRingAppend_eq {ring entry : ν} (hne : ring ≠ entry) {q : ν}
    (hs : m.succ ring = some q) (hp : m.parent ring = some ring) :
    m.nioRingAppend ring entry = some
      { succ := put (put m.succ (some entry) (some q)) (some ring) (some entry)
        pred := put (put m.pred (some entry) (some ring)) (some q) (some entry)
        parent := Function.update m.parent entry (some ring)
        len := Function.update m.len ring (m.len ring + 1) } := by
  simp [nioRingAppend, Function.update_of_ne hne, hs, hp, put]

theorem nioRingPrepend_eq {ring entry : ν} (hne : ring ≠ entry) {q : ν}
    (hs : m.pred ring = some q) (hp : m.parent ring = some ring) :
    m.nioRingPrepend ring entry = some
      { succ := put (put m.succ (some entry) (some ring)) (some q) (some entry)
        pred := put (put m.pred (some entry) (some q)) (some ring) (some entry)
        parent := Function.update m.parent entry (some ring)
        len := Function.update m.len ring (m.len ring + 1) } := by
  simp [nioRingPrepend, Function.update_of_ne hne, hs, hp, put]

theorem nioRingDetach_eq {ring entry : ν} (hne : ring ≠ entry) {p q : ν}
    (hp : m.pred entry = some p) (hq : m.succ entry = some q)
    (hr : m.parent entry = some ring) :
    m.nioRingDetach entry = some
      { succ := Function.update (put m.succ (some p) (some q)) entry (some entry)
        pred := Function.update (put m.pred (some q) (some p)) entry (some entry)
        parent := Function.update m.parent entry (some entry)
        len := Function.update (Function.update m.len ring (m.len ring - 1)) entry 0 } := by
  have hlinked : m.parent entry ≠ some entry := by
    rw [hr]
    exact fun hc => hne (Option.some.inj hc)
  rw [nioRingDetach, if_pos hlinked, hp, hq]
  simp [hr, put]

theorem nioRingDetach_unlinked {entry : ν} (hp : m.parent entry = some entry) :
    m.nioRingDetach entry = some m := by
  rw [nioRingDetach, if_neg (by simpa using hp)]

omit [DecidableEq ν] in
theorem first_isSome (l : List ν) (h : ν) : ∃ q, first l (some h) = some q ∧ (q = h ∨ q ∈ l) := by
  cases l with
  | nil => exact ⟨h, rfl, .inl rfl⟩
  | cons a l => exact ⟨a, rfl, .inr List.mem_cons_self⟩

omit [DecidableEq ν] in
theorem last_isSome (l : List ν) (h : ν) : ∃ q, last (some h) l = some q ∧ (q = h ∨ q ∈ l) := by
  rcases last_eq (some h) l with ⟨hl, -⟩ | ⟨a, ha, hl⟩
  · exact ⟨h, hl, .inl rfl⟩
  · exact ⟨a, hl, .inr ha⟩

namespace Holds

/-- An entry comes into a ring, between two of its nodes. -/
theorem link (hm : Holds heads inited s m) {ring entry : ν} (hr : ring ∈ heads ∧ ring ∈ inited)
    (he : entry ∉ heads ∧ entry ∈ inited) (hp : m.parent entry = some entry) {p q : ν}
    (hpm : p = ring ∨ p ∈ s ring) (hqm : q = ring ∨ q ∈ s ring) {v w : Option ν} {l : List ν}
    (hl : l.Perm (entry :: s ring))
    (hseg : Segment (put (put m.succ (some entry) v) (some p) (some entry))
      (put (put m.pred (some entry) w) (some q) (some entry)) (some ring) l (some ring)) :
    Holds heads inited (Function.update s ring l)
      { succ := put (put m.succ (some entry) v) (some p) (some entry)
        pred := put (put m.pred (some entry) w) (some q) (some entry)
        parent := Function.update m.parent entry (some ring)
        len := Function.update m.len ring (m.len ring + 1) } := by
  have hring := hm.ring ring hr.1 hr.2
  have hnone := (hm.unlinked_iff he.1 he.2).mp hp
  have hne : ring ≠ entry := by
    rintro rfl
    exact he.1 hr.1
  refine hm.edit hr.1 hr.2 ⟨hseg, ?_, ?_, ?_, fun e hmem => ?_⟩ (fun e hmem => ?_)
    (fun e hmem hnot => ?_) fun e hne' hnot hnot' => ?_
  · exact hl.nodup_iff.mpr (List.nodup_cons.mpr ⟨hnone ring, hring.nodup⟩)
  · exact (Function.update_of_ne hne _ _).trans hring.parent
  · refine (Function.update_self ring _ _).trans ?_
    rw [hring.len, hl.length_eq, List.length_cons, Int32.ofNat_add]
    rfl
  · rcases List.mem_cons.mp (hl.mem_iff.mp hmem) with rfl | hmem
    · exact Function.update_self _ _ _
    · refine (Function.update_of_ne ?_ _ _).trans (hring.entry e hmem)
      rintro rfl
      exact hnone ring hmem
  · rcases List.mem_cons.mp (hl.mem_iff.mp hmem) with rfl | hmem
    · exact ⟨he.1, he.2, .inr hnone⟩
    · exact ⟨(hm.entry ring e hmem).2.1, (hm.entry ring e hmem).2.2, .inl hmem⟩
  · exact absurd (hl.mem_iff.mpr (List.mem_cons_of_mem entry hmem)) hnot
  · -- another node is neither the entry nor one of its neighbours
    have hentry : some entry ≠ some e := by
      rintro ⟨⟩
      exact hnot (hl.mem_iff.mpr List.mem_cons_self)
    have hside : ∀ r, r = ring ∨ r ∈ s ring → some r ≠ some e := by
      rintro r (rfl | hr) ⟨⟩
      · exact hne' rfl
      · exact hnot' hr
    refine ⟨?_, ?_, Function.update_of_ne ?_ _ _, Function.update_of_ne hne' _ _⟩
    · exact (put_of_ne _ _ (hside p hpm)).trans (put_of_ne _ _ hentry)
    · exact (put_of_ne _ _ (hside q hqm)).trans (put_of_ne _ _ hentry)
    · exact fun hc => hentry (congrArg some hc.symm)

/-- **`nio_ring_append`** puts an entry in front. -/
theorem append (hm : Holds heads inited s m) {ring entry : ν} (hr : ring ∈ heads ∧ ring ∈ inited)
    (he : entry ∉ heads ∧ entry ∈ inited) (hp : m.parent entry = some entry) :
    ∃ m', m.nioRingAppend ring entry = some m' ∧
      Holds heads inited (Function.update s ring (entry :: s ring)) m' := by
  have hring := hm.ring ring hr.1 hr.2
  have hnone := (hm.unlinked_iff he.1 he.2).mp hp
  have hne : ring ≠ entry := by
    rintro rfl
    exact he.1 hr.1
  obtain ⟨q, hq, hqm⟩ := first_isSome (s ring) ring
  have heq := nioRingAppend_eq hne ((hring.segment.next_left rfl).trans hq) hring.parent
  have hseg := hring.segment.linkFirst (hring.apart (hm.head_notMem hr.1 ring))
    (by simpa using hne) (hnone ring) (by simpa using hne)
  rw [hq] at hseg
  exact ⟨_, heq, hm.link hr he hp (.inl rfl) hqm (.refl _) hseg⟩

/-- **`nio_ring_prepend`** puts an entry at the end. -/
theorem prepend (hm : Holds heads inited s m) {ring entry : ν}
    (hr : ring ∈ heads ∧ ring ∈ inited) (he : entry ∉ heads ∧ entry ∈ inited)
    (hp : m.parent entry = some entry) :
    ∃ m', m.nioRingPrepend ring entry = some m' ∧
      Holds heads inited (Function.update s ring (s ring ++ [entry])) m' := by
  have hring := hm.ring ring hr.1 hr.2
  have hnone := (hm.unlinked_iff he.1 he.2).mp hp
  have hne : ring ≠ entry := by
    rintro rfl
    exact he.1 hr.1
  obtain ⟨p, hpl, hpm⟩ := last_isSome (s ring) ring
  have heq := nioRingPrepend_eq hne ((hring.segment.prev_right rfl).trans hpl) hring.parent
  have hseg := hring.segment.linkLast (hring.apart (hm.head_notMem hr.1 ring))
    (by simpa using hne) (hnone ring) (by simpa using hne)
  rw [hpl] at hseg
  exact ⟨_, heq, hm.link hr he hp hpm (.inl rfl)
    (List.perm_append_singleton _ _) hseg⟩

/-- An entry is taken out of its ring only. -/
theorem erase_eq (hm : Holds heads inited s m) {ring entry : ν} (hmem : entry ∈ s ring) :
    (fun h => (s h).erase entry) = Function.update s ring ((s ring).erase entry) := by
  funext h
  by_cases hc : h = ring
  · rw [hc, Function.update_self]
  · rw [Function.update_of_ne hc]
    exact List.erase_of_not_mem fun hin => hc (hm.unique hin hmem)

/-- An entry leaves a ring, whose nodes around it are linked with each other. -/
theorem unlink (hm : Holds heads inited s m) {ring entry : ν} {l r : List ν}
    (hl : s ring = l ++ entry :: r) {p q : ν} (hpm : p = ring ∨ p ∈ l) (hqm : q = ring ∨ q ∈ r)
    (hseg : Segment (put m.succ (some p) (some q)) (put m.pred (some q) (some p)) (some ring)
      (l ++ r) (some ring)) :
    Holds heads inited (Function.update s ring (l ++ r))
      { succ := Function.update (put m.succ (some p) (some q)) entry (some entry)
        pred := Function.update (put m.pred (some q) (some p)) entry (some entry)
        parent := Function.update m.parent entry (some entry)
        len := Function.update (Function.update m.len ring (m.len ring - 1)) entry 0 } := by
  have hperm : (s ring).Perm (entry :: (l ++ r)) := by
    rw [hl]
    exact List.perm_middle
  have hmem : entry ∈ s ring := hperm.mem_iff.mpr List.mem_cons_self
  obtain ⟨⟨hr, hri⟩, he, -⟩ := hm.entry ring entry hmem
  have hring := hm.ring ring hr hri
  have hne : ring ≠ entry := by
    rintro rfl
    exact he hr
  obtain ⟨hnot, hnodup⟩ := List.nodup_cons.mp (hperm.nodup_iff.mp hring.nodup)
  have hout : ∀ e ∈ l ++ r, e ≠ entry := by
    rintro e hin rfl
    exact hnot hin
  have hin : ∀ e ∈ l ++ r, e ∈ s ring := fun e hmem' =>
    hperm.mem_iff.mpr (List.mem_cons_of_mem entry hmem')
  refine hm.edit hr hri ⟨?_, hnodup, ?_, ?_, fun e hmem' => ?_⟩ (fun e hmem' => ?_)
    (fun e hmem' hnot => ?_) fun e hne' hnot hnot' => ?_
  · refine hseg.congr (fun a ha => Function.update_of_ne ?_ _ _) fun b hb =>
      Function.update_of_ne ?_ _ _
    · rcases ha with ha | ha
      · exact fun hc => hne (Option.some.inj (hc ▸ ha))
      · exact hout a ha
    · rcases hb with hb | hb
      · exact hout b hb
      · exact fun hc => hne (Option.some.inj (hc ▸ hb))
  · exact (Function.update_of_ne hne _ _).trans hring.parent
  · refine ((Function.update_of_ne hne _ _).trans (Function.update_self ring _ _)).trans ?_
    rw [hring.len, hperm.length_eq, List.length_cons, Int32.ofNat_add]
    exact Int32.add_sub_cancel _ 1
  · exact (Function.update_of_ne (hout e hmem') _ _).trans (hring.entry e (hin e hmem'))
  · exact ⟨(hm.entry ring e (hin e hmem')).2.1, (hm.entry ring e (hin e hmem')).2.2,
      .inl (hin e hmem')⟩
  · -- the only one that leaves
    rcases List.mem_cons.mp (hperm.mem_iff.mp hmem') with rfl | hc
    · exact ⟨Function.update_self _ _ _, Function.update_self _ _ _, Function.update_self _ _ _,
        Function.update_self _ _ _⟩
    · exact absurd hc hnot
  · -- another node is neither the entry nor one of its neighbours
    have hentry : e ≠ entry := by
      rintro rfl
      exact hnot' hmem
    have hside : ∀ t, t = ring ∨ t ∈ l ++ r → some t ≠ some e := by
      rintro t (rfl | ht) ⟨⟩
      · exact hne' rfl
      · exact hnot ht
    refine ⟨?_, ?_, Function.update_of_ne hentry _ _, ?_⟩
    · exact (Function.update_of_ne hentry _ _).trans
        (put_of_ne _ _ (hside p (hpm.imp_right (List.mem_append_left r))))
    · exact (Function.update_of_ne hentry _ _).trans
        (put_of_ne _ _ (hside q (hqm.imp_right (List.mem_append_right l))))
    · exact (Function.update_of_ne hentry _ _).trans (Function.update_of_ne hne' _ _)

/-- **`nio_ring_detach`** takes an entry out of its ring, if it is in one. -/
theorem detach (hm : Holds heads inited s m) {entry : ν}
    (he : entry ∉ heads ∧ entry ∈ inited) :
    ∃ m', m.nioRingDetach entry = some m' ∧
      Holds heads inited (fun h => (s h).erase entry) m' := by
  by_cases hlinked : ∃ ring, entry ∈ s ring
  · obtain ⟨ring, hmem⟩ := hlinked
    obtain ⟨⟨hr, hri⟩, -⟩ := hm.entry ring entry hmem
    have hring := hm.ring ring hr hri
    have hne : ring ≠ entry := by
      rintro rfl
      exact he.1 hr
    obtain ⟨l, r, hl⟩ := List.append_of_mem hmem
    have hnl : entry ∉ l := by
      have hnd := hring.nodup
      rw [hl, List.nodup_append] at hnd
      exact fun hc => hnd.2.2 entry hc entry List.mem_cons_self rfl
    have herase : (s ring).erase entry = l ++ r := by
      rw [hl, List.erase_append_right _ hnl, List.erase_cons_head]
    have hseg := hring.segment
    have hapart := hring.apart (hm.head_notMem hr ring)
    rw [hl] at hseg hapart
    obtain ⟨hpred, hsucc⟩ := hseg.at
    obtain ⟨p, hp, hpm⟩ := last_isSome l ring
    obtain ⟨q, hq, hqm⟩ := first_isSome r ring
    have heq := nioRingDetach_eq hne (hpred.trans hp) (hsucc.trans hq) (hm.parent hmem)
    have hun := hseg.unlink hapart
    rw [hp, hq] at hun
    refine ⟨_, heq, ?_⟩
    rw [hm.erase_eq hmem, herase]
    exact hm.unlink hl hpm hqm hun
  · have hnone : ∀ h, entry ∉ s h := fun h hc => hlinked ⟨h, hc⟩
    refine ⟨m, nioRingDetach_unlinked ((hm.unlinked_iff he.1 he.2).mpr hnone), ?_⟩
    have hs : (fun h => (s h).erase entry) = s := by
      funext h
      exact List.erase_of_not_mem (hnone h)
    rwa [hs]

/-- An entry at one end is all that is taken out. -/
theorem detach_end (hm : Holds heads inited s m) {ring entry : ν} (hmem : entry ∈ s ring) :
    ∃ m', m.nioRingDetach entry = some m' ∧
      Holds heads inited (Function.update s ring ((s ring).erase entry)) m' := by
  rw [← hm.erase_eq hmem]
  exact hm.detach (hm.entry ring entry hmem).2

/-- **`nio_ring_pop_head`** takes the first entry out and returns it. -/
theorem popHead (hm : Holds heads inited s m) {ring : ν} (hr : ring ∈ heads ∧ ring ∈ inited) :
    ∃ m', m.nioRingPopHead ring = some ((s ring).head?, m') ∧
      Holds heads inited (Function.update s ring (s ring).tail) m' := by
  have hseg := (hm.ring ring hr.1 hr.2).segment
  cases hs : s ring with
  | nil =>
      refine ⟨m, ?_, ?_⟩
      · have hself : m.succ ring = some ring := by
          rw [hseg.next_left rfl, hs, first_nil]
        simp [nioRingPopHead, hself]
      · rw [List.tail_nil, ← hs, Function.update_eq_self]
        exact hm
  | cons a l =>
      have hmem : a ∈ s ring := by
        rw [hs]
        exact List.mem_cons_self
      have hne : a ≠ ring := fun hc => hm.head_notMem hr.1 ring (hc ▸ hmem)
      have hself : m.succ ring = some a := by
        rw [hseg.next_left rfl, hs, first_cons]
      obtain ⟨m', hd, hm'⟩ := hm.detach_end hmem
      refine ⟨m', ?_, ?_⟩
      · simp [nioRingPopHead, hself, hne, hd]
      · rwa [hs, List.erase_cons_head] at hm'

/-- **`nio_ring_pop_tail`** takes the last entry out and returns it. -/
theorem popTail (hm : Holds heads inited s m) {ring : ν} (hr : ring ∈ heads ∧ ring ∈ inited) :
    ∃ m', m.nioRingPopTail ring = some ((s ring).getLast?, m') ∧
      Holds heads inited (Function.update s ring (s ring).dropLast) m' := by
  have hring := hm.ring ring hr.1 hr.2
  have hself : m.pred ring = last (some ring) (s ring) := hring.segment.prev_right rfl
  rcases List.eq_nil_or_concat (s ring) with hs | ⟨l, a, hs⟩
  · refine ⟨m, ?_, ?_⟩
    · rw [hs, last_nil] at hself
      simp [nioRingPopTail, hself, hs]
    · have hs' : (s ring).dropLast = s ring := by
        rw [hs, List.dropLast_nil]
      rw [hs', Function.update_eq_self]
      exact hm
  · have hmem : a ∈ s ring := by
      rw [hs]
      simp
    have hne : a ≠ ring := fun hc => hm.head_notMem hr.1 ring (hc ▸ hmem)
    have hnl : a ∉ l := by
      have hnd := hring.nodup
      rw [hs, List.concat_eq_append, List.nodup_append] at hnd
      exact fun hc => hnd.2.2 a hc a (List.mem_singleton_self a) rfl
    rw [hs, List.concat_eq_append, last_append, last_nil] at hself
    obtain ⟨m', hd, hm'⟩ := hm.detach_end hmem
    refine ⟨m', ?_, ?_⟩
    · simp [nioRingPopTail, hself, hne, hd, hs]
    · rw [hs, List.concat_eq_append, List.erase_append_right _ hnl, List.erase_cons_head] at hm'
      rwa [hs, List.concat_eq_append, List.dropLast_concat, ← List.append_nil l]

/-- **`nio_ring_init`** of a node that is in no ring, or has no entries. -/
theorem init (hm : Holds heads inited s m) {ring : ν}
    (hp : (RingCall.init ring).Proper heads inited m) :
    Holds heads (insert ring inited) s (m.nioRingInit ring) := by
  have hempty : s ring = [] ∧ ∀ h, ring ∉ s h := by
    by_cases hi : ring ∈ inited
    · by_cases hh : ring ∈ heads
      · refine ⟨?_, hm.head_notMem hh⟩
        have hfirst := ((hm.ring ring hh hi).segment.next_left rfl).symm.trans ((hp hi).1 hh)
        rcases first_eq (s ring) (some ring) with ⟨-, hs⟩ | ⟨a, l, hs⟩
        · exact hs
        · rw [hs, first_cons] at hfirst
          refine absurd ?_ (hm.head_notMem hh ring)
          rw [hs, Option.some.inj hfirst]
          exact List.mem_cons_self
      · refine ⟨List.eq_nil_iff_forall_not_mem.mpr fun e he => hh (hm.entry ring e he).1.1, ?_⟩
        exact (hm.unlinked_iff hh hi).mp ((hp hi).2 hh)
    · exact ⟨List.eq_nil_iff_forall_not_mem.mpr fun e he => hi (hm.entry ring e he).1.2,
        fun h hc => hi (hm.entry h ring hc).2.2⟩
  -- every other node is as it was
  have hother : ∀ p, p ≠ ring → (m.nioRingInit ring).succ p = m.succ p ∧
      (m.nioRingInit ring).pred p = m.pred p ∧ (m.nioRingInit ring).parent p = m.parent p ∧
      (m.nioRingInit ring).len p = m.len p := fun p hne =>
    ⟨Function.update_of_ne hne _ _, Function.update_of_ne hne _ _, Function.update_of_ne hne _ _,
      Function.update_of_ne hne _ _⟩
  have hself : (m.nioRingInit ring).Idle ring :=
    ⟨Function.update_self _ _ _, Function.update_self _ _ _, Function.update_self _ _ _,
      Function.update_self _ _ _⟩
  refine ⟨fun h hh hi => ?_, fun h e he => ?_, fun e he hi hn => ?_⟩
  · by_cases hc : h = ring
    · rw [hc, hempty.1]
      refine ⟨⟨fun a ha => ?_, fun b hb => ?_⟩, List.nodup_nil, hself.parent, hself.len,
        fun e he => absurd he List.not_mem_nil⟩
      · rw [← Option.some.inj ha]
        exact hself.succ
      · rw [← Option.some.inj hb]
        exact hself.pred
    · have hr := hm.ring h hh (hi.resolve_left hc)
      have hmem : ∀ e ∈ s h, e ≠ ring := by
        rintro e he rfl
        exact hempty.2 h he
      refine ⟨hr.segment.congr (fun a ha => ?_) fun b hb => ?_, hr.nodup,
        (hother h hc).2.2.1.trans hr.parent, (hother h hc).2.2.2.trans hr.len, fun e he =>
        (hother e (hmem e he)).2.2.1.trans (hr.entry e he)⟩
      · rcases ha with ha | ha
        · exact (hother a (Option.some.inj ha ▸ hc)).1
        · exact (hother a (hmem a ha)).1
      · rcases hb with hb | hb
        · exact (hother b (hmem b hb)).2.1
        · exact (hother b (Option.some.inj hb ▸ hc)).2.1
  · obtain ⟨⟨hh, hi⟩, heh, hei⟩ := hm.entry h e he
    exact ⟨⟨hh, .inr hi⟩, heh, .inr hei⟩
  · by_cases hc : e = ring
    · rw [hc]
      exact hself
    · have hidle := hm.idle e he (hi.resolve_left hc) hn
      obtain ⟨h₁, h₂, h₃, h₄⟩ := hother e hc
      exact ⟨h₁.trans hidle.succ, h₂.trans hidle.pred, h₃.trans hidle.parent, h₄.trans hidle.len⟩

/-- **One call** does to the sequences what it should, and returns what it should. -/
theorem call (hm : Holds heads inited s m) {c : RingCall ν} (hc : c.Proper heads inited m) :
    ∃ m', m.call c = some (c.result s, m') ∧ Holds heads (c.known inited) (c.seqs s) m' := by
  cases c with
  | init ring => exact ⟨_, rfl, hm.init hc⟩
  | append ring entry =>
      obtain ⟨hr, he, hp⟩ := hc
      obtain ⟨m', heq, hm'⟩ := hm.append hr he hp
      exact ⟨m', by rw [RingMem.call, heq]; rfl, hm'⟩
  | prepend ring entry =>
      obtain ⟨hr, he, hp⟩ := hc
      obtain ⟨m', heq, hm'⟩ := hm.prepend hr he hp
      exact ⟨m', by rw [RingMem.call, heq]; rfl, hm'⟩
  | detach entry =>
      obtain ⟨m', heq, hm'⟩ := hm.detach hc
      exact ⟨m', by rw [RingMem.call, heq]; rfl, hm'⟩
  | popHead ring => exact hm.popHead hc
  | popTail ring => exact hm.popTail hc

/-- **A run.** -/
theorem run (hm : Holds heads inited s m) {cs : List (RingCall ν)}
    (hc : ProperRun heads inited m cs) :
    ∃ m', m.run cs = some (RingCall.results s cs, m') ∧
      Holds heads (RingCall.knownAll inited cs) (RingCall.seqsAll s cs) m' := by
  induction cs generalizing inited s m with
  | nil => exact ⟨m, rfl, hm⟩
  | cons c cs ih =>
      obtain ⟨m₁, hcall, hm₁⟩ := hm.call hc.1
      obtain ⟨m', hrun, hm'⟩ := ih hm₁ (hc.2 _ _ hcall)
      refine ⟨m', ?_, hm'⟩
      rw [RingMem.run, hcall]
      simp [hrun, RingCall.results]

end Holds

omit [DecidableEq ν] in
/-- A ring knows how many entries it has, where an `int` has room for it. -/
theorem Ring.size {h : ν} {l : List ν} (hr : m.Ring h l) (hl : l.length < 2 ^ 31) :
    (m.nioRingSize h).toInt = l.length := by
  rw [nioRingSize, hr.len]
  exact Int32.toInt_ofNat_of_lt hl

/-- Both loops over a ring come to its entries. -/
theorem Ring.foreach {h : ν} {l : List ν} (hr : m.Ring h l) (hh : h ∉ l) {rounds : Nat}
    (hn : l.length < rounds) : m.nioRingForeach h rounds = some l ∧
      m.nioRingForeachReverse h rounds = some l.reverse := by
  have hne : ∀ a ∈ l, some h ≠ some a := by
    rintro a ha ⟨⟩
    exact hh ha
  constructor
  · rw [nioRingForeach, hr.segment.next_left rfl]
    exact hr.segment.forward.follow hne hn
  · rw [nioRingForeachReverse, hr.segment.reverse.next_left rfl]
    exact hr.segment.reverse.forward.follow (fun a ha => hne a (List.mem_reverse.mp ha))
      (by simpa using hn)

/-- **A ring is a sequence.** Whatever is in the memory to begin with, no call of a
run follows a null pointer, each returns what it should, and in the end both loops
over a head come to the entries of its sequence, in order and each once; the entries
know the head and the head their number, where an `int` has room for it, and what is
in no ring stands for itself. -/
theorem ring_is_sequence (heads : Set ν) (m : RingMem ν) (cs : List (RingCall ν))
    (hc : m.ProperRun heads ∅ cs) :
    let s := RingCall.seqsAll (fun _ => []) cs
    let inited := RingCall.knownAll ∅ cs
    ∃ m', m.run cs = some (RingCall.results (fun _ => []) cs, m') ∧
      (∀ h ∈ heads, h ∈ inited → (s h).Nodup ∧
        m'.nioRingSize h = Int32.ofNat (s h).length ∧
        ((s h).length < 2 ^ 31 → (m'.nioRingSize h).toInt = (s h).length) ∧
        (∀ rounds, (s h).length < rounds → m'.nioRingForeach h rounds = some (s h) ∧
          m'.nioRingForeachReverse h rounds = some (s h).reverse) ∧
        ∀ e ∈ s h, e ∉ heads ∧ e ∈ inited ∧ m'.parent e = some h) ∧
      ∀ e ∉ heads, e ∈ inited → (∀ h, e ∉ s h) →
        m'.succ e = some e ∧ m'.pred e = some e ∧ m'.parent e = some e ∧ m'.len e = 0 := by
  intro s inited
  have hstart : Holds heads ∅ (fun _ => []) m :=
    ⟨fun _ _ hi => absurd hi (Set.notMem_empty _), fun _ _ he => absurd he List.not_mem_nil,
      fun _ _ hi => absurd hi (Set.notMem_empty _)⟩
  obtain ⟨m', hrun, hm'⟩ := hstart.run hc
  refine ⟨m', hrun, fun h hh hi => ?_, fun e he hi hn => ?_⟩
  · have hr := hm'.ring h hh hi
    exact ⟨hr.nodup, hr.len, hr.size, fun rounds hn => hr.foreach (hm'.head_notMem hh h) hn,
      fun e he => ⟨(hm'.entry h e he).2.1, (hm'.entry h e he).2.2, hr.entry e he⟩⟩
  · have hidle := hm'.idle e he hi hn
    exact ⟨hidle.succ, hidle.pred, hidle.parent, hidle.len⟩

/-- A run is proper call by call. -/
theorem ProperRun.cons {c : RingCall ν} {cs : List (RingCall ν)} {r : Option ν}
    (hcall : m.call c = some (r, m')) (hc : c.Proper heads inited m)
    (h : ProperRun heads (c.known inited) m' cs) : ProperRun heads inited m (c :: cs) := by
  refine ⟨hc, fun r₁ m₁ h₁ => ?_⟩
  rw [hcall] at h₁
  cases h₁
  exact h

/-- Two rings: an entry goes from the one to the other, and both are popped. -/
theorem ring_is_sequence_two :
    let m : RingMem (Fin 5) := ⟨fun _ => none, fun _ => none, fun _ => none, fun _ => 7⟩
    let cs : List (RingCall (Fin 5)) := [.init 0, .init 1, .init 2, .init 3, .init 4, .append 0 2,
      .prepend 0 3, .append 1 4, .detach 2, .append 1 2, .popTail 0, .append 0 3, .popTail 1]
    ∃ m', m.run cs = some ([none, none, none, none, none, none, none, none, none, none, some 3,
        none, some 4], m') ∧
      m'.nioRingForeach 1 2 = some [2] ∧ (m'.nioRingSize 1).toInt = 1 ∧
      m'.nioRingForeach 0 2 = some [3] := by
  intro m cs
  have hproper : m.ProperRun {0, 1} ∅ cs := by
    refine .cons rfl ?_ (.cons rfl ?_ (.cons rfl ?_ (.cons rfl ?_ (.cons rfl ?_
      (.cons rfl ?_ (.cons rfl ?_ (.cons rfl ?_ (.cons rfl ?_ (.cons rfl ?_ (.cons rfl ?_
        (.cons rfl ?_ (.cons rfl ?_ trivial))))))))))))
    all_goals simp [RingCall.Proper, RingCall.known]
    all_goals rfl
  obtain ⟨m', hrun, hring, -⟩ := ring_is_sequence {0, 1} m cs hproper
  obtain ⟨-, -, -, h₀, -⟩ := hring 0 (by simp) (by simp [cs, RingCall.knownAll, RingCall.known])
  obtain ⟨-, -, hsize, h₁, -⟩ := hring 1 (by simp) (by simp [cs, RingCall.knownAll, RingCall.known])
  exact ⟨m', hrun, (h₁ 2 (by decide)).1, hsize (by decide), (h₀ 2 (by decide)).1⟩

/-- A head that is initialised anew is empty, and its entry does not know. -/
theorem init_leaves_entries :
    let m : RingMem (Fin 2) := ⟨fun _ => none, fun _ => none, fun _ => none, fun _ => 0⟩
    ∃ rs m', m.run [.init 0, .init 1, .append 0 1, .init 0] = some (rs, m') ∧
      m'.nioRingForeach 0 9 = some [] ∧ m'.parent 1 = some 0 := by
  intro m
  exact ⟨_, _, rfl, by decide, by decide⟩

/-! ## The queue of an event -/

/-- The entries of a head as `nio_event.c` uses them. -/
def queue (s : ν → List ν) (ring : ν) : Event.NioRing ν := ⟨s ring⟩

/-- **The queue of an event is the ring of its head**: what is put in and taken out,
whether an entry is linked, and which is the first. -/
theorem Holds.queue (hm : Holds heads inited s m) {ring : ν} (hh : ring ∈ heads)
    (hi : ring ∈ inited) (entry : ν) :
    RingMem.queue ((RingCall.prepend ring entry).seqs s) ring
        = (RingMem.queue s ring).prepend entry ∧
      RingMem.queue ((RingCall.detach entry).seqs s) ring
        = (RingMem.queue s ring).detach entry ∧
      m.nioRingFirst ring = (RingMem.queue s ring).first ∧
      (entry ∉ heads → entry ∈ inited → (∀ h, h ≠ ring → entry ∉ s h) →
        ((RingMem.queue s ring).linked entry = true ↔ m.parent entry ≠ some entry)) := by
  refine ⟨?_, rfl, ?_, fun he hie hother => ?_⟩
  · simp [RingMem.queue, RingCall.seqs, Event.NioRing.prepend]
  · have hsucc := (hm.ring ring hh hi).segment.next_left rfl
    rw [nioRingFirst, hsucc, Event.NioRing.first, RingMem.queue]
    cases hs : s ring with
    | nil => simp
    | cons a l =>
        have hne : a ≠ ring := by
          rintro rfl
          exact hm.head_notMem hh a (by rw [hs]; exact List.mem_cons_self)
        simp [hne]
  · rw [Event.NioRing.linked_iff, ne_eq, hm.unlinked_iff he hie, RingMem.queue]
    constructor
    · exact fun hmem hn => hn ring hmem
    · intro hn
      by_contra hc
      refine hn fun h => ?_
      by_cases hr : h = ring
      · rw [hr]
        exact hc
      · exact hother h hr

end Functions

end RingMem

end Libnio.Common
