import Mathlib.Data.List.Basic

/-!
# Trace — runs of a machine

A machine moves by labels, some of which it does not take in a state. `run` is
a whole list of labels, `Meets` says something of each of them in the state it
finds, and the lemmas lead from one step to a run.
-/

namespace Libnio.Trace

variable {σ α : Type*} (step : σ → α → Option σ)

/-- The machine takes all of the labels. -/
def run : σ → List α → Option σ
  | s, [] => some s
  | s, l :: ls => (step s l).bind fun s' => run s' ls

/-- Each label that the machine takes finds a state that meets `P`. -/
def Meets (P : σ → α → Prop) : σ → List α → Prop
  | _, [] => True
  | s, l :: ls => P s l ∧ ∀ s' ∈ step s l, Meets P s' ls

/-- A note that is taken along a run, as `note` changes it with each label. -/
def noted {ν : Type*} (note : σ → α → ν → ν) : σ → ν → List α → ν
  | _, n, [] => n
  | s, n, l :: ls =>
      match step s l with
      | none => n
      | some s' => noted note s' (note s l n) ls

section Decide

variable (P : σ → α → Prop) [∀ s, DecidablePred (P s)]

def decideMeets : (s : σ) → (ls : List α) → Decidable (Meets step P s ls)
  | _, [] => isTrue trivial
  | s, l :: ls =>
      match h : step s l with
      | none => decidable_of_iff (P s l) (by simp [Meets, h])
      | some s' =>
          have := decideMeets s' ls
          decidable_of_iff (P s l ∧ Meets step P s' ls) (by simp [Meets, h])

instance (s : σ) (ls : List α) : Decidable (Meets step P s ls) := decideMeets step P s ls

end Decide

variable {step} {P Q : σ → α → Prop} {I : σ → Prop}

@[simp] theorem run_nil (s : σ) : run step s [] = some s := rfl

theorem run_cons (s : σ) (l : α) (ls : List α) :
    run step s (l :: ls) = (step s l).bind fun s' => run step s' ls := rfl

theorem run_append (s : σ) (ls ms : List α) :
    run step s (ls ++ ms) = (run step s ls).bind fun s' => run step s' ms := by
  induction ls generalizing s with
  | nil => rfl
  | cons l ls ih =>
      rw [List.cons_append, run_cons, run_cons]
      cases step s l with
      | none => rfl
      | some s' => exact ih s'

theorem meets_append {s : σ} {ls ms : List α} :
    Meets step P s (ls ++ ms) ↔ Meets step P s ls ∧ ∀ s' ∈ run step s ls, Meets step P s' ms := by
  induction ls generalizing s with
  | nil => simp [Meets]
  | cons l ls ih =>
      rw [List.cons_append, Meets, Meets, run_cons]
      cases step s l with
      | none => simp
      | some s' =>
          simp only [Option.mem_def, Option.some.injEq, forall_eq', Option.bind_some, ih]
          exact and_assoc.symm

/-- **Step to run.** What each label that meets `P` keeps holds after a run that
meets `P`. -/
theorem run_induct (hstep : ∀ s l s', P s l → I s → step s l = some s' → I s')
    {s s' : σ} {ls : List α} (hm : Meets step P s ls) (hi : I s) (hr : run step s ls = some s') :
    I s' := by
  induction ls generalizing s with
  | nil =>
      cases hr
      exact hi
  | cons l ls ih =>
      obtain ⟨hp, hrest⟩ := hm
      rw [run_cons] at hr
      obtain ⟨t, ht, hr⟩ := Option.bind_eq_some_iff.mp hr
      exact ih (hrest t ht) (hstep s l t hp hi ht) hr

/-- The same of the states with a note. -/
theorem noted_induct {ν : Type*} {note : σ → α → ν → ν} {J : σ → ν → Prop}
    (hstep : ∀ s l s' n, P s l → J s n → step s l = some s' → J s' (note s l n))
    {s s' : σ} {n : ν} {ls : List α} (hm : Meets step P s ls) (hj : J s n)
    (hr : run step s ls = some s') : J s' (noted step note s n ls) := by
  induction ls generalizing s n with
  | nil =>
      cases hr
      exact hj
  | cons l ls ih =>
      obtain ⟨hp, hrest⟩ := hm
      rw [run_cons] at hr
      obtain ⟨t, ht, hr⟩ := Option.bind_eq_some_iff.mp hr
      rw [noted, ht]
      exact ih (hrest t ht) (hstep s l t n hp hj ht) hr

/-- Along such a run every label finds what the invariant says. -/
theorem meets_induct (hstep : ∀ s l s', P s l → I s → step s l = some s' → I s')
    (hq : ∀ s l, P s l → I s → Q s l) {s : σ} {ls : List α} (hm : Meets step P s ls) (hi : I s) :
    Meets step Q s ls := by
  induction ls generalizing s with
  | nil => trivial
  | cons l ls ih =>
      obtain ⟨hp, hrest⟩ := hm
      refine ⟨hq s l hp hi, ?_⟩
      intro t ht
      exact ih (hrest t ht) (hstep s l t hp hi ht)

theorem Meets.mono (hpq : ∀ s l, P s l → Q s l) {s : σ} {ls : List α} (h : Meets step P s ls) :
    Meets step Q s ls :=
  meets_induct (I := fun _ => True) (fun _ _ _ _ _ _ => trivial) (fun s l hp _ => hpq s l hp) h
    trivial

theorem meets_true (s : σ) (ls : List α) : Meets step (fun _ _ => True) s ls := by
  induction ls generalizing s with
  | nil => trivial
  | cons l ls ih => exact ⟨trivial, fun t _ => ih t⟩

/-- What every label of a list is. -/
theorem meets_of_mem {R : α → Prop} {s : σ} {ls : List α} (h : ∀ l ∈ ls, R l) :
    Meets step (fun _ l => R l) s ls := by
  induction ls generalizing s with
  | nil => trivial
  | cons l ls ih =>
      exact ⟨h l List.mem_cons_self, fun t _ => ih fun m hm => h m (List.mem_cons_of_mem _ hm)⟩

/-- Along a run that is taken to the end every label is taken. -/
theorem meets_taken {s s' : σ} {ls : List α} (hr : run step s ls = some s') :
    Meets step (fun s l => ∃ t, step s l = some t) s ls := by
  induction ls generalizing s with
  | nil => trivial
  | cons l ls ih =>
      rw [run_cons] at hr
      obtain ⟨t, ht, hr⟩ := Option.bind_eq_some_iff.mp hr
      refine ⟨⟨t, ht⟩, ?_⟩
      intro u hu
      cases ht.symm.trans hu
      exact ih hr

theorem Meets.and {s : σ} {ls : List α} (hp : Meets step P s ls) (hq : Meets step Q s ls) :
    Meets step (fun s l => P s l ∧ Q s l) s ls := by
  induction ls generalizing s with
  | nil => trivial
  | cons l ls ih => exact ⟨⟨hp.1, hq.1⟩, fun t ht => ih (hp.2 t ht) (hq.2 t ht)⟩

/-- A run that is looked at by a test. -/
theorem run_any {s : σ} {ls : List α} {p : σ → Bool} (h : (run step s ls).any p = true) :
    ∃ s', run step s ls = some s' ∧ p s' = true := by
  cases hr : run step s ls with
  | none =>
      rw [hr] at h
      cases h
  | some s' =>
      rw [hr] at h
      exact ⟨s', rfl, h⟩

/-- A label within a run finds a state that the labels before it have reached. -/
theorem meets_iff {s : σ} {ls : List α} :
    Meets step P s ls ↔
      ∀ pre l post, ls = pre ++ l :: post → ∀ t ∈ run step s pre, P t l := by
  induction ls generalizing s with
  | nil => simp [Meets]
  | cons l ls ih =>
      constructor
      · rintro ⟨hp, hrest⟩ pre m post hls t ht
        cases pre with
        | nil =>
            obtain ⟨rfl, -⟩ := List.cons_eq_cons.mp hls
            cases ht
            exact hp
        | cons k pre =>
            obtain ⟨rfl, htail⟩ := List.cons_eq_cons.mp hls
            rw [Option.mem_def, run_cons] at ht
            obtain ⟨u, hu, ht⟩ := Option.bind_eq_some_iff.mp ht
            exact ih.mp (hrest u hu) pre m post htail t ht
      · intro h
        refine ⟨h [] l ls rfl s rfl, ?_⟩
        intro u hu
        refine ih.mpr ?_
        intro pre m post hls t ht
        refine h (l :: pre) m post (by rw [hls]; rfl) t ?_
        rw [Option.mem_def, run_cons, Option.mem_def.mp hu]
        exact ht

end Libnio.Trace
