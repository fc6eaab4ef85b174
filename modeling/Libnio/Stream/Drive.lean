import Libnio.Stream.Returns
import Mathlib.Data.List.Basic

/-!
# Stream — driving a consumer over partial input

A *consumer* keeps a state and is called with a piece of input. Each call
takes some tokens off the front and hands the rest back; the caller drives
it in a loop until the consumer is finished or the piece is used up, and
calls again when the next piece arrives.

The question is always the same one: does it matter where the input was
cut? `Resumable` collects what one call has to satisfy, `run_append` is
the answer for a whole run, `Lawful` what is then known of the run, and
`feed_flatten` the answer for a list of pieces.
-/

namespace Stream

universe u

variable {ε σ α : Type u}

/-- The driver loop: call `handler` while there is input and the consumer is
not finished. `timeout` is the answer when the bound on the rounds is hit. -/
def drive (timeout : ε) (finished : σ → Bool)
    (handler : σ → List α → Except ε (σ × List α)) :
    Nat → σ → List α → Except ε (σ × List α)
  | 0, s, data =>
      if data.isEmpty || finished s then .ok (s, data) else .error timeout
  | fuel + 1, s, data =>
      if data.isEmpty || finished s then .ok (s, data)
      else handler s data >>= fun r => drive timeout finished handler fuel r.1 r.2

/-- `drive` with a bound that is never hit by a `Resumable` consumer: a round
takes a token or lowers a rank which is at most one. -/
def run (timeout : ε) (finished : σ → Bool)
    (handler : σ → List α → Except ε (σ × List α)) (s : σ) (data : List α) :
    Except ε (σ × List α) :=
  drive timeout finished handler (2 * data.length + 1) s data

/-- What a call in state `s` has to satisfy for its input to be cut anywhere.
`Inv` holds of the states a run goes through; `rank` falls when a call takes
nothing. -/
structure ResumesAt (finished : σ → Bool)
    (handler : σ → List α → Except ε (σ × List α))
    (Inv : σ → Prop) (rank : σ → Nat) (s : σ) : Prop where
  keeps : ∀ {s' data rest}, data ≠ [] →
    handler s data = .ok (s', rest) → Inv s'
  /-- The call hands back an end of its input. -/
  suffix : ∀ {s' data rest}, data ≠ [] →
    handler s data = .ok (s', rest) → rest <:+ data
  /-- A call that takes nothing moves on, but does not finish. -/
  progress : ∀ {s' data rest}, data ≠ [] → handler s data = .ok (s', rest) →
    rest ≠ data ∨ (finished s' = false ∧ rank s' < rank s)
  /-- More input does not repair a failed call. -/
  error_append : ∀ {xs e}, xs ≠ [] →
    handler s xs = .error e → ∀ ys, handler s (xs ++ ys) = .error e
  /-- More input either stays behind, or goes on where the call stopped. -/
  ok_append : ∀ {s' xs rest}, xs ≠ [] →
    handler s xs = .ok (s', rest) →
      (∀ ys, handler s (xs ++ ys) = .ok (s', rest ++ ys)) ∨
      (rest = [] ∧ finished s' = false ∧
        ∀ ys, ys ≠ [] → handler s (xs ++ ys) = handler s' ys)

/-- A consumer whose input may be cut anywhere. -/
structure Resumable (finished : σ → Bool)
    (handler : σ → List α → Except ε (σ × List α))
    (Inv : σ → Prop) (rank : σ → Nat) : Prop where
  rank_le : ∀ s, rank s ≤ 1
  resumesAt : ∀ s, Inv s → finished s = false →
    ResumesAt finished handler Inv rank s

/-! ## The three shapes of a call -/

section Shapes

variable {finished : σ → Bool} {handler : σ → List α → Except ε (σ × List α)}
  {Inv : σ → Prop} {rank : σ → Nat}

/-- A call that takes exactly one token. -/
theorem ResumesAt.of_token {s : σ} {f : α → Except ε σ}
    (hf : ∀ x xs, handler s (x :: xs) = (f x).map fun s' => (s', xs))
    (hi : ∀ x s', f x = .ok s' → Inv s') :
    ResumesAt finished handler Inv rank s := by
  have hok : ∀ {x xs s' rest}, handler s (x :: xs) = .ok (s', rest) →
      f x = .ok s' ∧ rest = xs := by
    intro x xs s' rest h
    rw [hf] at h
    cases hx : f x with
    | error e => simp [hx, Except.map] at h
    | ok s1 =>
        simp only [hx, Except.map, Except.ok.injEq, Prod.mk.injEq] at h
        exact ⟨by rw [h.1], h.2.symm⟩
  refine ⟨?_, ?_, ?_, ?_, ?_⟩
  · intro s' data rest hd h
    obtain ⟨x, xs, rfl⟩ := List.exists_cons_of_ne_nil hd
    exact hi x s' (hok h).1
  · intro s' data rest hd h
    obtain ⟨x, xs, rfl⟩ := List.exists_cons_of_ne_nil hd
    rw [(hok h).2]
    exact List.suffix_cons x xs
  · intro s' data rest hd h
    obtain ⟨x, xs, rfl⟩ := List.exists_cons_of_ne_nil hd
    rw [(hok h).2]
    exact .inl (by simp)
  · intro xs e hx h ys
    obtain ⟨x, xs, rfl⟩ := List.exists_cons_of_ne_nil hx
    rw [hf] at h
    rw [List.cons_append, hf]
    cases hfx : f x with
    | error e' => simpa [hfx, Except.map] using h
    | ok s1 => simp [hfx, Except.map] at h
  · intro s' xs rest hx h
    obtain ⟨x, xs, rfl⟩ := List.exists_cons_of_ne_nil hx
    obtain ⟨h1, rfl⟩ := hok h
    exact .inl (fun ys => by rw [List.cons_append, hf, h1]; rfl)

/-- A call that takes nothing and moves on. -/
theorem ResumesAt.of_skip {s : σ} (s' : σ)
    (hf : ∀ data, data ≠ [] → handler s data = .ok (s', data))
    (hi : Inv s') (hs' : finished s' = false) (hr : rank s' < rank s) :
    ResumesAt finished handler Inv rank s := by
  have hok : ∀ {data s1 rest}, data ≠ [] → handler s data = .ok (s1, rest) →
      s1 = s' ∧ rest = data := by
    intro data s1 rest hd h
    rw [hf data hd] at h
    cases h
    exact ⟨rfl, rfl⟩
  refine ⟨?_, ?_, ?_, ?_, ?_⟩
  · intro s1 data rest hd h
    rw [(hok hd h).1]
    exact hi
  · intro s1 data rest hd h
    exact (hok hd h).2.symm ▸ List.suffix_refl data
  · intro s1 data rest hd h
    rw [(hok hd h).1]
    exact .inr ⟨hs', hr⟩
  · intro xs e hx h
    rw [hf xs hx] at h
    cases h
  · intro s1 xs rest hx h
    obtain ⟨rfl, rfl⟩ := hok hx h
    exact .inl (fun ys => hf _ (by simp [hx]))

/-- A call that always fails. -/
theorem ResumesAt.of_error {s : σ} {e : ε}
    (hf : ∀ data, data ≠ [] → handler s data = .error e) :
    ResumesAt finished handler Inv rank s := by
  have hno : ∀ {data r}, data ≠ [] → handler s data ≠ .ok r := by
    intro data r hd h
    rw [hf data hd] at h
    cases h
  refine ⟨fun hd h => absurd h (hno hd), fun hd h => absurd h (hno hd),
    fun hd h => absurd h (hno hd), ?_, fun hd h => absurd h (hno hd)⟩
  intro xs e' hx h ys
  rw [hf xs hx] at h
  rw [hf _ (by simp [hx]), h]

end Shapes

section Run

variable {timeout : ε} {finished : σ → Bool}
  {handler : σ → List α → Except ε (σ × List α)}
  {Inv : σ → Prop} {rank : σ → Nat}

theorem drive_stop {fuel : Nat} {s : σ} {data : List α}
    (h : data = [] ∨ finished s = true) :
    drive timeout finished handler fuel s data = .ok (s, data) := by
  have hc : (data.isEmpty || finished s) = true := by
    rcases h with rfl | h
    · rfl
    · rw [h, Bool.or_true]
  cases fuel <;> simp only [drive, hc, if_true]

theorem drive_go {fuel : Nat} {s : σ} {data : List α}
    (hd : data ≠ []) (hf : finished s = false) :
    drive timeout finished handler (fuel + 1) s data
      = handler s data >>= fun r => drive timeout finished handler fuel r.1 r.2 := by
  have hc : (data.isEmpty || finished s) = false := by
    rw [hf, Bool.or_false]
    simpa using hd
  simp only [drive, hc, Bool.false_eq_true, if_false]

/-- The measure a round lowers. -/
private theorem Resumable.measure_lt (hr : Resumable finished handler Inv rank)
    {s s' : σ} {data rest : List α} (hi : Inv s) (hf : finished s = false)
    (hd : data ≠ []) (hh : handler s data = .ok (s', rest)) :
    2 * rest.length + rank s' < 2 * data.length + rank s := by
  have hle := ((hr.resumesAt _ hi hf).suffix hd hh).length_le
  have h1 := hr.rank_le s'
  rcases (hr.resumesAt _ hi hf).progress hd hh with hne | ⟨-, hlt⟩
  · have hlen : rest.length ≠ data.length := fun hc =>
      hne (((hr.resumesAt _ hi hf).suffix hd hh).eq_of_length hc)
    omega
  · omega

/-- Any two bounds that reach the measure give the same run. -/
theorem Resumable.drive_fuel (hr : Resumable finished handler Inv rank) :
    ∀ (n m : Nat) {s : σ} {data : List α}, Inv s →
      2 * data.length + rank s ≤ n → 2 * data.length + rank s ≤ m →
      drive timeout finished handler n s data
        = drive timeout finished handler m s data := by
  intro n
  induction n with
  | zero =>
      intro m s data _ hn _
      have hd : data = [] := List.eq_nil_of_length_eq_zero (by omega)
      rw [drive_stop (.inl hd), drive_stop (.inl hd)]
  | succ n ih =>
      intro m s data hi hn hm
      by_cases hd : data = []
      · rw [drive_stop (.inl hd), drive_stop (.inl hd)]
      · cases hf : finished s with
        | true => rw [drive_stop (.inr hf), drive_stop (.inr hf)]
        | false =>
            have hpos := List.length_pos_iff.mpr hd
            obtain ⟨m, rfl⟩ : ∃ k, m = k + 1 := ⟨m - 1, by omega⟩
            rw [drive_go hd hf, drive_go hd hf]
            cases hh : handler s data with
            | error e => simp
            | ok r =>
                have hlt := hr.measure_lt hi hf hd hh
                simp only [ok_bind]
                exact ih m ((hr.resumesAt _ hi hf).keeps hd hh) (by omega) (by omega)

theorem run_stop {s : σ} {data : List α}
    (h : data = [] ∨ finished s = true) :
    run timeout finished handler s data = .ok (s, data) :=
  drive_stop h

/-- One round of a run: the loop of the source, with no bound in it. -/
theorem Resumable.run_go (hr : Resumable finished handler Inv rank)
    {s : σ} {data : List α} (hi : Inv s) (hf : finished s = false)
    (hd : data ≠ []) :
    run timeout finished handler s data
      = handler s data >>= fun r => run timeout finished handler r.1 r.2 := by
  rw [run, drive_go hd hf]
  cases hh : handler s data with
  | error e => simp
  | ok r =>
      have hlt := hr.measure_lt hi hf hd hh
      have h1 := hr.rank_le s
      have h2 := hr.rank_le r.1
      simp only [ok_bind, run]
      exact hr.drive_fuel _ _ ((hr.resumesAt _ hi hf).keeps hd hh) (by omega) (by omega)

/-- **Rule for whole runs**: a property of state and remaining input that each
round keeps holds where the run stops. -/
theorem Resumable.run_induct (hr : Resumable finished handler Inv rank)
    {P : σ → List α → Prop}
    (hstep : ∀ {s s' data rest}, Inv s → finished s = false → data ≠ [] →
      handler s data = .ok (s', rest) → P s data → P s' rest)
    {s s' : σ} {data rest : List α} (hi : Inv s) (hp : P s data)
    (h : run timeout finished handler s data = .ok (s', rest)) :
    Inv s' ∧ P s' rest ∧ (rest = [] ∨ finished s' = true) := by
  induction hm : 2 * data.length + rank s using Nat.strongRecOn
    generalizing s data with
  | ind n ih =>
      by_cases hd : data = []
      · rw [run_stop (.inl hd)] at h
        cases h
        exact ⟨hi, hp, .inl hd⟩
      · cases hf : finished s with
        | true =>
            rw [run_stop (.inr hf)] at h
            cases h
            exact ⟨hi, hp, .inr hf⟩
        | false =>
            rw [hr.run_go hi hf hd, bind_eq_ok] at h
            obtain ⟨⟨s1, d1⟩, hh, h⟩ := h
            have hlt := hr.measure_lt hi hf hd hh
            exact ih _ (by omega) ((hr.resumesAt _ hi hf).keeps hd hh)
              (hstep hi hf hd hh hp) h rfl

theorem Resumable.run_inv (hr : Resumable finished handler Inv rank)
    {s s' : σ} {data rest : List α} (hi : Inv s)
    (h : run timeout finished handler s data = .ok (s', rest)) : Inv s' :=
  (hr.run_induct (P := fun _ _ => True) (fun _ _ _ _ _ => trivial)
    hi trivial h).1

/-- A run that stops has used its input up or finished its consumer. -/
theorem Resumable.run_rest (hr : Resumable finished handler Inv rank)
    {s s' : σ} {data rest : List α} (hi : Inv s)
    (h : run timeout finished handler s data = .ok (s', rest)) :
    rest = [] ∨ finished s' = true :=
  (hr.run_induct (P := fun _ _ => True) (fun _ _ _ _ _ => trivial)
    hi trivial h).2.2

theorem Resumable.run_suffix (hr : Resumable finished handler Inv rank)
    {s s' : σ} {data rest : List α} (hi : Inv s)
    (h : run timeout finished handler s data = .ok (s', rest)) :
    rest <:+ data :=
  (hr.run_induct (P := fun _ d => d <:+ data)
    (fun hi hf hd hh hp => ((hr.resumesAt _ hi hf).suffix hd hh).trans hp)
    hi (List.suffix_refl data) h).2.1

/-- **Rule for failures**: a run fails as a call fails, and never because of its
bound. -/
theorem Resumable.run_error (hr : Resumable finished handler Inv rank) {E : ε → Prop}
    (hE : ∀ {s data e}, Inv s → finished s = false → data ≠ [] →
      handler s data = .error e → E e)
    {s : σ} {data : List α} {e : ε} (hi : Inv s)
    (h : run timeout finished handler s data = .error e) : E e := by
  induction hm : 2 * data.length + rank s using Nat.strongRecOn
    generalizing s data with
  | ind n ih =>
      by_cases hd : data = []
      · rw [run_stop (.inl hd)] at h
        cases h
      · cases hf : finished s with
        | true =>
            rw [run_stop (.inr hf)] at h
            cases h
        | false =>
            rw [hr.run_go hi hf hd] at h
            cases hh : handler s data with
            | error e' =>
                rw [hh, error_bind] at h
                cases h
                exact hE hi hf hd hh
            | ok r =>
                rw [hh, ok_bind] at h
                have hlt := hr.measure_lt hi hf hd hh
                exact ih _ (by omega) ((hr.resumesAt _ hi hf).keeps hd hh) h rfl

/-- What every call keeps may stand beside the invariant. -/
theorem Resumable.and (hr : Resumable finished handler Inv rank) {J : σ → Prop}
    (hJ : ∀ {s s' data rest}, Inv s → J s → data ≠ [] → handler s data = .ok (s', rest) → J s') :
    Resumable finished handler (fun s => Inv s ∧ J s) rank where
  rank_le := hr.rank_le
  resumesAt := fun s hi hf =>
    { keeps := fun hd h => ⟨(hr.resumesAt s hi.1 hf).keeps hd h, hJ hi.1 hi.2 hd h⟩
      suffix := (hr.resumesAt s hi.1 hf).suffix
      progress := (hr.resumesAt s hi.1 hf).progress
      error_append := (hr.resumesAt s hi.1 hf).error_append
      ok_append := (hr.resumesAt s hi.1 hf).ok_append }

/-- **Cutting the input does not matter.** A run over `xs ++ ys` is the run
over `xs`, gone on with over what it left and `ys`. -/
theorem Resumable.run_append (hr : Resumable finished handler Inv rank)
    {s : σ} (hi : Inv s) (xs ys : List α) :
    run timeout finished handler s (xs ++ ys)
      = run timeout finished handler s xs >>= fun r =>
          run timeout finished handler r.1 (r.2 ++ ys) := by
  induction hm : 2 * xs.length + rank s using Nat.strongRecOn
    generalizing s xs with
  | ind n ih =>
      by_cases hx : xs = []
      · subst hx
        rw [run_stop (.inl rfl)]
        rfl
      · have hxy : xs ++ ys ≠ [] := by simp [hx]
        cases hf : finished s with
        | true =>
            rw [run_stop (.inr hf), run_stop (.inr hf)]
            simp [run_stop (.inr hf)]
        | false =>
            rw [hr.run_go hi hf hxy, hr.run_go hi hf hx]
            cases hh : handler s xs with
            | error e => simp [(hr.resumesAt _ hi hf).error_append hx hh ys]
            | ok r =>
                obtain ⟨s1, rest⟩ := r
                have hi1 := (hr.resumesAt _ hi hf).keeps hx hh
                have hlt := hr.measure_lt hi hf hx hh
                rcases (hr.resumesAt _ hi hf).ok_append hx hh with hbehind | ⟨rfl, hf1, hon⟩
                · simp only [hbehind ys, ok_bind]
                  exact ih _ (by omega) hi1 rest rfl
                · -- the call stopped in the middle: `ys` goes on from `s1`
                  simp only [ok_bind, run_stop (.inl rfl), List.nil_append]
                  by_cases hy : ys = []
                  · subst hy
                    rw [List.append_nil, hh]
                    rfl
                  · rw [hon ys hy, hr.run_go hi1 hf1 hy]

/-- A run that has input and is not finished takes some of it. -/
theorem Resumable.run_progress (hr : Resumable finished handler Inv rank)
    {s s' : σ} {data rest : List α} (hi : Inv s) (hf : finished s = false)
    (hd : data ≠ []) (h : run timeout finished handler s data = .ok (s', rest)) :
    rest.length < data.length := by
  -- until the first token is taken the consumer is not finished
  have hkey := (hr.run_induct
    (P := fun s d => d.length < data.length ∨ (d = data ∧ finished s = false))
    ?_ hi (.inr ⟨rfl, hf⟩) h)
  · rcases hkey.2.1 with hlt | ⟨rfl, hf'⟩
    · exact hlt
    · rcases hkey.2.2 with rfl | hc
      · exact absurd rfl hd
      · rw [hf'] at hc
        cases hc
  · intro s s' d rest hi hf hd hh hp
    have hsuf := (hr.resumesAt _ hi hf).suffix hd hh
    have hle := hsuf.length_le
    rcases hp with hlt | ⟨rfl, -⟩
    · exact .inl (by omega)
    · rcases (hr.resumesAt _ hi hf).progress hd hh with hne | ⟨hf', -⟩
      · have hlen : rest.length ≠ d.length := fun hc => hne (hsuf.eq_of_length hc)
        exact .inl (by omega)
      · by_cases hlen : rest.length = d.length
        · exact .inr ⟨hsuf.eq_of_length hlen, hf'⟩
        · exact .inl (by omega)

end Run

/-! ## Lawful consumers -/

/-- What a whole run from state `s` satisfies, however it is implemented. -/
structure LawfulAt (finished : σ → Bool)
    (run : σ → List α → Except ε (σ × List α)) (Inv : σ → Prop) (s : σ) : Prop where
  stop : ∀ {data}, data = [] ∨ finished s = true → run s data = .ok (s, data)
  keeps : ∀ {s' data rest}, run s data = .ok (s', rest) → Inv s'
  rest : ∀ {s' data rest}, run s data = .ok (s', rest) →
    rest = [] ∨ finished s' = true
  suffix : ∀ {s' data rest}, run s data = .ok (s', rest) → rest <:+ data
  progress : ∀ {s' data rest}, finished s = false → data ≠ [] →
    run s data = .ok (s', rest) → rest.length < data.length
  append : ∀ xs ys, run s (xs ++ ys) = run s xs >>= fun r => run r.1 (r.2 ++ ys)

/-- A consumer whose runs may be cut anywhere. -/
def Lawful (finished : σ → Bool) (run : σ → List α → Except ε (σ × List α))
    (Inv : σ → Prop) : Prop :=
  ∀ s, Inv s → LawfulAt finished run Inv s

theorem Resumable.lawful {timeout : ε} {finished : σ → Bool}
    {handler : σ → List α → Except ε (σ × List α)} {Inv : σ → Prop} {rank : σ → Nat}
    (hr : Resumable finished handler Inv rank) :
    Lawful finished (run timeout finished handler) Inv := fun _ hi =>
  { stop := run_stop
    keeps := hr.run_inv hi
    rest := hr.run_rest hi
    suffix := hr.run_suffix hi
    progress := hr.run_progress hi
    append := hr.run_append hi }

section Lawful

variable {finished : σ → Bool} {run : σ → List α → Except ε (σ × List α)}
  {Inv : σ → Prop}

/-- A failed run is not repaired by more input. -/
theorem LawfulAt.error {s : σ} (hl : LawfulAt finished run Inv s) {xs : List α}
    {e : ε} (h : run s xs = .error e) (ys : List α) : run s (xs ++ ys) = .error e := by
  rw [hl.append, h]
  rfl

/-- A run that finished leaves more input behind. -/
theorem Lawful.leaves (hl : Lawful finished run Inv) {s s' : σ} (hi : Inv s)
    {xs rest : List α} (hf : finished s' = true)
    (h : run s xs = .ok (s', rest)) (ys : List α) :
    run s (xs ++ ys) = .ok (s', rest ++ ys) := by
  rw [(hl s hi).append, h, ok_bind]
  exact (hl s' ((hl s hi).keeps h)).stop (.inr hf)

/-- A run that finished does not depend on what it left. -/
theorem Lawful.taken (hl : Lawful finished run Inv) {s s' : σ} (hi : Inv s)
    {xs rest : List α} (hf : finished s' = true) (h : run s (xs ++ rest) = .ok (s', rest)) :
    run s xs = .ok (s', []) := by
  rw [(hl s hi).append, bind_eq_ok] at h
  obtain ⟨⟨s1, r1⟩, h1, h2⟩ := h
  have hi1 := (hl s hi).keeps h1
  simp only at h2
  cases hf1 : finished s1 with
  | true =>
      rw [(hl s1 hi1).stop (.inr hf1)] at h2
      simp only [Except.ok.injEq, Prod.mk.injEq, List.append_left_eq_self] at h2
      rw [h1, h2.1, h2.2]
  | false =>
      -- it would have to finish without taking anything
      obtain rfl : r1 = [] := by simpa [hf1] using (hl s hi).rest h1
      rw [List.nil_append] at h2
      by_cases hr : rest = []
      · rw [(hl s1 hi1).stop (.inl hr)] at h2
        cases h2
        rw [hf1] at hf
        cases hf
      · have hlt := (hl s1 hi1).progress hf1 hr h2
        exact absurd hlt (Nat.lt_irrefl _)

/-- A run that did not finish goes on with more input. -/
theorem LawfulAt.unfinished {s s' : σ} (hl : LawfulAt finished run Inv s)
    {xs rest : List α} (hf : finished s' = false)
    (h : run s xs = .ok (s', rest)) (ys : List α) :
    rest = [] ∧ run s (xs ++ ys) = run s' ys := by
  have hrest : rest = [] := by simpa [hf] using hl.rest h
  subst hrest
  exact ⟨rfl, by rw [hl.append, h, ok_bind, List.nil_append]⟩

/-- A consumer that is another one under a constructor. -/
theorem LawfulAt.map {τ : Type u} {finished' : τ → Bool}
    {run' : τ → List α → Except ε (τ × List α)} {Inv' : τ → Prop} (e : τ → σ)
    (hf : ∀ t, finished (e t) = finished' t)
    (hrun : ∀ t data, run (e t) data = (run' t data).map fun r => (e r.1, r.2))
    (hi : ∀ t, Inv' t → Inv (e t)) {t : τ} (hl : LawfulAt finished' run' Inv' t) :
    LawfulAt finished run Inv (e t) := by
  have hok : ∀ {s' data rest}, run (e t) data = .ok (s', rest) →
      ∃ t', s' = e t' ∧ run' t data = .ok (t', rest) := by
    intro s' data rest h
    rw [hrun] at h
    cases hr : run' t data with
    | error e => simp [hr, Except.map] at h
    | ok r =>
        simp only [hr, Except.map, Except.ok.injEq, Prod.mk.injEq] at h
        exact ⟨r.1, h.1.symm, by rw [← h.2]⟩
  refine ⟨?_, ?_, ?_, ?_, ?_, ?_⟩
  · intro data h
    rw [hrun, hl.stop (by rwa [← hf])]
    rfl
  · intro s' data rest h
    obtain ⟨t', rfl, ht⟩ := hok h
    exact hi t' (hl.keeps ht)
  · intro s' data rest h
    obtain ⟨t', rfl, ht⟩ := hok h
    rw [hf]
    exact hl.rest ht
  · intro s' data rest h
    obtain ⟨t', rfl, ht⟩ := hok h
    exact hl.suffix ht
  · intro s' data rest hfin hd h
    obtain ⟨t', rfl, ht⟩ := hok h
    exact hl.progress (by rwa [← hf]) hd ht
  · intro xs ys
    rw [hrun, hrun, hl.append]
    cases hr : run' t xs with
    | error e => rfl
    | ok r => simp only [ok_bind, Except.map, hrun]

end Lawful

/-! ## Input in pieces -/

/-- Call `update` on one piece after the other until the consumer is
finished; the pieces left over start with what the last call handed back. -/
def feed (finished : σ → Bool) (update : σ → List α → Except ε (σ × List α)) :
    σ → List (List α) → Except ε (σ × List (List α))
  | s, [] => .ok (s, [])
  | s, piece :: pieces =>
      if finished s then .ok (s, piece :: pieces)
      else update s piece >>= fun r =>
        if r.2.isEmpty then feed finished update r.1 pieces
        else .ok (r.1, r.2 :: pieces)

section Feed

variable {finished : σ → Bool} {run update : σ → List α → Except ε (σ × List α)}
  {Inv : σ → Prop}

/-- **However the input was cut into non-empty pieces**, feeding the pieces is
one run over all of it. -/
theorem feed_flatten (hl : Lawful finished run Inv)
    (hu : ∀ s data, data ≠ [] → update s data = run s data)
    {s : σ} (hi : Inv s) (pieces : List (List α)) (hp : ∀ p ∈ pieces, p ≠ []) :
    (feed finished update s pieces).map (fun r => (r.1, r.2.flatten))
      = run s pieces.flatten := by
  induction pieces generalizing s with
  | nil => simp [feed, Except.map, (hl s hi).stop]
  | cons piece pieces ih =>
      have hrest : ∀ p ∈ pieces, p ≠ [] := fun p h => hp p (by simp [h])
      cases hf : finished s with
      | true => simp [feed, hf, Except.map, (hl s hi).stop (.inr hf)]
      | false =>
          rw [List.flatten_cons, (hl s hi).append]
          simp only [feed, hf, Bool.false_eq_true, if_false, hu s piece (hp piece (by simp))]
          cases hrun : run s piece with
          | error e => simp [Except.map]
          | ok r =>
              obtain ⟨s1, rest⟩ := r
              have hi1 := (hl s hi).keeps hrun
              simp only [ok_bind]
              by_cases hr0 : rest = []
              · subst hr0
                simpa using ih hi1 hrest
              · have hf1 : finished s1 = true := by
                  simpa [hr0] using (hl s hi).rest hrun
                simp [hr0, Except.map, (hl s1 hi1).stop (.inr hf1)]

/-- The pieces that feeding leaves over are non-empty again. -/
theorem feed_ne_nil {s s' : σ} {pieces pieces' : List (List α)}
    (hp : ∀ p ∈ pieces, p ≠ [])
    (h : feed finished update s pieces = .ok (s', pieces')) :
    ∀ p ∈ pieces', p ≠ [] := by
  induction pieces generalizing s with
  | nil =>
      simp only [feed, Except.ok.injEq, Prod.mk.injEq] at h
      simp [← h.2]
  | cons piece pieces ih =>
      have hrest : ∀ p ∈ pieces, p ≠ [] := fun p hm => hp p (by simp [hm])
      cases hf : finished s with
      | true =>
          simp only [feed, hf, if_true, Except.ok.injEq, Prod.mk.injEq] at h
          rw [← h.2]
          exact hp
      | false =>
          simp only [feed, hf, Bool.false_eq_true, if_false, bind_eq_ok] at h
          obtain ⟨⟨s1, rest⟩, -, h⟩ := h
          by_cases hr : rest = []
          · subst hr
            exact ih hrest (by simpa using h)
          · simp only [List.isEmpty_iff, hr, if_false, Except.ok.injEq,
              Prod.mk.injEq] at h
            rw [← h.2]
            simpa [hr] using hrest

/-- Feeding comes to what a run over all the pieces comes to. -/
theorem feed_eq_ok (hl : Lawful finished run Inv)
    (hu : ∀ s data, data ≠ [] → update s data = run s data) {s s' : σ} (hi : Inv s)
    {pieces : List (List α)} (hp : ∀ p ∈ pieces, p ≠ []) {rest : List α}
    (h : run s pieces.flatten = .ok (s', rest)) :
    ∃ left, feed finished update s pieces = .ok (s', left) ∧ left.flatten = rest
      ∧ ∀ p ∈ left, p ≠ [] := by
  have hf := feed_flatten hl hu hi pieces hp
  rw [h] at hf
  cases he : feed finished update s pieces with
  | error e => simp [he, Except.map] at hf
  | ok r =>
      simp only [he, Except.map, Except.ok.injEq, Prod.mk.injEq] at hf
      obtain ⟨rfl, rfl⟩ := hf
      exact ⟨r.2, rfl, rfl, feed_ne_nil hp he⟩

theorem feed_eq_error (hl : Lawful finished run Inv)
    (hu : ∀ s data, data ≠ [] → update s data = run s data) {s : σ} (hi : Inv s)
    {pieces : List (List α)} (hp : ∀ p ∈ pieces, p ≠ []) {e : ε}
    (h : run s pieces.flatten = .error e) :
    feed finished update s pieces = .error e := by
  have hf := feed_flatten hl hu hi pieces hp
  rw [h] at hf
  cases he : feed finished update s pieces with
  | error e' => simpa [he, Except.map] using hf
  | ok r => simp [he, Except.map] at hf

/-- A run over all the pieces comes to what feeding them comes to. -/
theorem run_of_feed (hl : Lawful finished run Inv)
    (hu : ∀ s data, data ≠ [] → update s data = run s data) {s s' : σ} (hi : Inv s)
    {pieces left : List (List α)} (hp : ∀ p ∈ pieces, p ≠ [])
    (h : feed finished update s pieces = .ok (s', left)) :
    run s pieces.flatten = .ok (s', left.flatten) := by
  rw [← feed_flatten hl hu hi pieces hp, h]
  rfl

end Feed

end Stream
