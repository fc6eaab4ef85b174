import Mathlib.Data.List.Basic

/-!
# Trace — what holds at every entry of a log

A run writes a log; a property of the run says of each entry something about
what came before it. `Always` is such a property, and the lemmas say how it
grows with the log.
-/

namespace Libnio.Trace

variable {α : Type*}

/-- Each entry of the log stands behind a history that meets `P`. -/
def Always (P : List α → α → Prop) (log : List α) : Prop :=
  ∀ pre a post, log = pre ++ a :: post → P pre a

namespace Always

variable {P : List α → α → Prop} {log : List α} {a : α}

theorem nil : Always P [] := by
  intro pre a post h
  simp at h

theorem append_iff : Always P (log ++ [a]) ↔ Always P log ∧ P log a := by
  constructor
  · intro h
    refine ⟨fun pre b post hb => ?_, h log a [] rfl⟩
    exact h pre b (post ++ [a]) (by simp [hb])
  · rintro ⟨h, ha⟩ pre b post hb
    -- the entry is the new one, or one of those before it
    rcases post.eq_nil_or_concat with rfl | ⟨post, c, rfl⟩
    · obtain ⟨rfl, hab⟩ := List.append_inj' hb rfl
      cases hab
      exact ha
    · refine h pre b post ?_
      have hb' : log ++ [a] = (pre ++ b :: post) ++ [c] := by simpa using hb
      exact (List.append_inj' hb' rfl).1

theorem snoc (h : Always P log) (ha : P log a) : Always P (log ++ [a]) :=
  append_iff.mpr ⟨h, ha⟩

theorem get (h : Always P log) (n : Nat) (hn : n < log.length) :
    P (log.take n) (log.get ⟨n, hn⟩) := by
  refine h _ _ (log.drop (n + 1)) ?_
  rw [List.get_eq_getElem, List.getElem_cons_drop, List.take_append_drop]

theorem iff_get : Always P log ↔ ∀ n : Fin log.length, P (log.take n) (log.get n) := by
  constructor
  · exact fun h n => h.get n n.isLt
  · intro h pre a post hb
    subst hb
    have hn := h ⟨pre.length, by simp⟩
    simpa using hn

instance [∀ pre, DecidablePred (P pre)] : Decidable (Always P log) :=
  decidable_of_iff _ iff_get.symm

end Always

end Libnio.Trace
