import Libnio.Stream.Drive

/-!
# Mqtt — what the message parsers share

Why a handler stops, the fixed-size buffers it stores into, the shape that
nearly all handlers have (`field`), and the packing of numbers and strings
into the outgoing bytes.
-/

namespace Libnio.Mqtt

open Stream

abbrev Bytes := List UInt8

/-- For the literal indices into the two-byte buffers. -/
instance neZero_two : @NeZero Nat Zero.ofOfNat0 2 := ⟨Nat.succ_ne_zero 1⟩

/-- Why a handler hands nothing back. -/
inductive Stop where
  /-- It returns -1; `text` is what it logs, empty when it logs nothing. -/
  | error (text : String)
  /-- An `assert` fails. -/
  | assertion
  /-- A store or a load outside of the buffer. -/
  | outOfBounds
  /-- The bound on the rounds of a loop is used up. -/
  | timeout
deriving DecidableEq, Repr

/-- `int update_xxx(const char* data, int dlen)`: the bytes handed back are the
last `ret` bytes of the input. -/
abbrev Handler (σ : Type) := σ → Bytes → Except Stop (σ × Bytes)

def assertThat (p : Prop) [Decidable p] : Except Stop Unit :=
  if p then .ok () else .error .assertion

/-- `buff[i] = b` -/
def store {n : Nat} (buff : Vector UInt8 n) (i : Nat) (b : UInt8) :
    Except Stop (Vector UInt8 n) :=
  if h : i < n then .ok (buff.set i b h) else .error .outOfBounds

/-- `buff[i]` -/
def load {n : Nat} (buff : Vector UInt8 n) (i : Nat) : Except Stop UInt8 :=
  if h : i < n then .ok (buff.get ⟨i, h⟩) else .error .outOfBounds

@[simp] theorem assertThat_true {p : Prop} [Decidable p] (h : p) :
    assertThat p = .ok () := if_pos h

@[simp] theorem assertThat_false {p : Prop} [Decidable p] (h : ¬ p) :
    assertThat p = .error .assertion := if_neg h

theorem store_eq {n i : Nat} (h : i < n) (buff : Vector UInt8 n) (b : UInt8) :
    store buff i b = .ok (buff.set i b h) := dif_pos h

theorem load_eq {n i : Nat} (h : i < n) (buff : Vector UInt8 n) :
    load buff i = .ok (buff.get ⟨i, h⟩) := dif_pos h

/-- `buff` after the bytes `xs` were stored from index 0 on. -/
def fill {n : Nat} (buff : Vector UInt8 n) (xs : Bytes) : Vector UInt8 n :=
  .ofFn fun i => xs.getD i (buff.get i)

@[simp] theorem fill_nil {n : Nat} (buff : Vector UInt8 n) : fill buff [] = buff := by
  ext i hi
  simp [fill, Vector.get]

theorem fill_set {n : Nat} (buff : Vector UInt8 n) (xs : Bytes) (b : UInt8)
    (hk : xs.length < n) : (fill buff xs).set xs.length b hk = fill buff (xs ++ [b]) := by
  apply Vector.ext
  intro i hi
  simp only [fill, Vector.getElem_set, Vector.getElem_ofFn, List.getD_eq_getElem?_getD]
  rcases Nat.lt_trichotomy i xs.length with hlt | rfl | hgt
  · rw [if_neg (by omega), List.getElem?_append_left hlt]
  · simp
  · rw [if_neg (by omega), List.getElem?_eq_none (by omega),
      List.getElem?_eq_none (by simp; omega)]

theorem get_fill {n : Nat} (buff : Vector UInt8 n) {xs : Bytes} (i : Fin n)
    (hi : i.val < xs.length) : (fill buff xs).get i = xs.get ⟨i.val, hi⟩ := by
  have hget : (fill buff xs).get i = xs.getD i.val (buff.get i) := by
    change (fill buff xs)[i.val] = _
    simp only [fill, Vector.getElem_ofFn]
  rw [hget, List.getD_eq_getElem?_getD, List.getElem?_eq_getElem hi]
  rfl

/-! ## Handlers that read a field -/

section Field

variable {σ : Type}

/-- `for (; more && dlen > 0;) { put(*data++); dlen--; }` -/
def eatWhile (more : σ → Bool) (put : σ → UInt8 → Except Stop σ) : Handler σ
  | s, [] => .ok (s, [])
  | s, b :: data =>
      if more s then put s b >>= fun s => eatWhile more put s data
      else .ok (s, b :: data)

/-- The shape of a handler that reads one field: a check, the loop over the
input, and, once the field is complete, the step to the next status. -/
def field (guard : σ → Except Stop Unit) (more : σ → Bool)
    (put : σ → UInt8 → Except Stop σ) (next : σ → Except Stop σ) : Handler σ :=
  fun s data => do
    assertThat (data ≠ [])
    guard s
    let (s, data) ← eatWhile more put s data
    if more s then
      assertThat (data = [])
      return (s, data)
    return (← next s, data)

variable {guard : σ → Except Stop Unit} {more : σ → Bool}
  {put : σ → UInt8 → Except Stop σ} {next : σ → Except Stop σ}

theorem eatWhile_stop {s : σ} (h : more s = false) (data : Bytes) :
    eatWhile more put s data = .ok (s, data) := by
  cases data <;> simp [eatWhile, h]

theorem eatWhile_cons {s : σ} (h : more s = true) (b : UInt8) (data : Bytes) :
    eatWhile more put s (b :: data)
      = put s b >>= fun s => eatWhile more put s data := by
  rw [eatWhile, if_pos h]

theorem eatWhile_append (s : σ) (xs ys : Bytes) :
    eatWhile more put s (xs ++ ys)
      = eatWhile more put s xs >>= fun r => eatWhile more put r.1 (r.2 ++ ys) := by
  induction xs generalizing s with
  | nil => rfl
  | cons b xs ih =>
      cases hm : more s with
      | false => simp [eatWhile_stop hm]
      | true =>
          rw [List.cons_append, eatWhile_cons hm, eatWhile_cons hm]
          cases put s b with
          | error e => rfl
          | ok s1 => exact ih s1

/-- **Rule for the loop**: what every store keeps holds where it stops, and it
stops at the end of the input or of the field. -/
theorem eatWhile_induct {s s' : σ} {data rest : Bytes}
    (h : eatWhile more put s data = .ok (s', rest)) (Q : σ → Prop)
    (hput : ∀ s b s', Q s → more s = true → put s b = .ok s' → Q s') (hs : Q s) :
    Q s' ∧ rest <:+ data ∧ (rest = [] ∨ more s' = false) := by
  induction data generalizing s with
  | nil =>
      cases h
      exact ⟨hs, List.suffix_refl _, .inl rfl⟩
  | cons b data ih =>
      cases hm : more s with
      | false =>
          rw [eatWhile_stop hm] at h
          cases h
          exact ⟨hs, List.suffix_refl _, .inr hm⟩
      | true =>
          rw [eatWhile_cons hm, bind_eq_ok] at h
          obtain ⟨s1, h1, h⟩ := h
          obtain ⟨hq, hsuf, hr⟩ := ih h (hput s b s1 hs hm h1)
          exact ⟨hq, hsuf.trans (List.suffix_cons b data), hr⟩

/-- An incomplete field takes at least one byte. -/
theorem eatWhile_progress {s s' : σ} {data rest : Bytes} (hd : data ≠ [])
    (hm : more s = true) (h : eatWhile more put s data = .ok (s', rest)) :
    rest ≠ data := by
  obtain ⟨b, data, rfl⟩ := List.exists_cons_of_ne_nil hd
  rw [eatWhile_cons hm, bind_eq_ok] at h
  obtain ⟨s1, -, h⟩ := h
  have hsuf := (eatWhile_induct h (fun _ => True)
    (fun _ _ _ _ _ _ => trivial) trivial).2.1
  intro hc
  have := hsuf.length_le
  rw [hc, List.length_cons] at this
  omega

/-- A field handler whose input ends inside of the field. -/
theorem field_partial {s s' : σ} {data : Bytes} (hd : data ≠ [])
    (hg : guard s = .ok ()) (h : eatWhile more put s data = .ok (s', []))
    (hm : more s' = true) :
    field guard more put next s data = .ok (s', []) := by
  simp [field, hd, hg, h, hm]

/-- A field handler whose input completes the field. -/
theorem field_complete {s s' : σ} {data rest : Bytes} (hd : data ≠ [])
    (hg : guard s = .ok ()) (h : eatWhile more put s data = .ok (s', rest))
    (hm : more s' = false) :
    field guard more put next s data = (next s').map fun s => (s, rest) := by
  simp only [field, assertThat_true hd, hg, h, hm, ok_bind, Bool.false_eq_true,
    if_false]
  cases next s' <;> rfl

theorem field_guard {s : σ} {data : Bytes} {e : Stop} (hd : data ≠ [])
    (hg : guard s = .error e) :
    field guard more put next s data = .error e := by
  simp [field, hd, hg]

/-- The loop does not fail when no store does. -/
theorem eatWhile_ok (hput : ∀ s b, more s = true → ∃ s', put s b = .ok s') (s : σ)
    (data : Bytes) : ∃ r, eatWhile more put s data = .ok r := by
  induction data generalizing s with
  | nil => exact ⟨_, rfl⟩
  | cons b data ih =>
      cases hm : more s with
      | false => exact ⟨_, eatWhile_stop hm _⟩
      | true =>
          obtain ⟨s', hs'⟩ := hput s b hm
          rw [eatWhile_cons hm, hs', ok_bind]
          exact ih s'

variable (guard more put next)

/-- What a call of a field handler came to. -/
theorem field_cases {s : σ} {data : Bytes} (hd : data ≠ [])
    (hg : guard s = .ok ()) :
    (∃ e, eatWhile more put s data = .error e ∧
      field guard more put next s data = .error e) ∨
    (∃ s', eatWhile more put s data = .ok (s', []) ∧ more s' = true ∧
      field guard more put next s data = .ok (s', [])) ∨
    (∃ s' rest, eatWhile more put s data = .ok (s', rest) ∧ more s' = false ∧
      field guard more put next s data = (next s').map fun s => (s, rest)) := by
  cases h : eatWhile more put s data with
  | error e => exact .inl ⟨e, rfl, by simp [field, hd, hg, h]⟩
  | ok r =>
      obtain ⟨s', rest⟩ := r
      cases hm : more s' with
      | false => exact .inr (.inr ⟨s', rest, rfl, hm, field_complete hd hg h hm⟩)
      | true =>
          have hrest := (eatWhile_induct h (fun _ => True)
            (fun _ _ _ _ _ _ => trivial) trivial).2.2
          rw [hm] at hrest
          obtain rfl : rest = [] := by simpa using hrest
          exact .inr (.inl ⟨s', rfl, hm, field_partial hd hg h hm⟩)

/-- **Rule for the failures of a field handler** whose stores do not fail: it is the
check that fails, or the step to the next status. -/
theorem field_error (hput : ∀ s b, more s = true → ∃ s', put s b = .ok s') {s : σ}
    {data : Bytes} {e : Stop} (hd : data ≠ [])
    (h : field guard more put next s data = .error e) :
    guard s = .error e ∨ ∃ s' rest, eatWhile more put s data = .ok (s', rest)
      ∧ more s' = false ∧ next s' = .error e := by
  cases hg : guard s with
  | error e' =>
      rw [field_guard hd hg] at h
      cases h
      exact .inl rfl
  | ok _ =>
      rcases field_cases guard more put next hd hg with
        ⟨e', he, -⟩ | ⟨s1, -, -, hf⟩ | ⟨s1, rest, he, hm, hf⟩
      · obtain ⟨r, hr⟩ := eatWhile_ok hput s data
        rw [hr] at he
        cases he
      · rw [hf] at h
        cases h
      · rw [hf] at h
        cases hn : next s1 with
        | error e' =>
            rw [hn] at h
            cases h
            exact .inr ⟨s1, rest, he, hm, hn⟩
        | ok s2 => simp [hn, Except.map] at h

/-- What a call of a field handler that succeeds came to. -/
theorem field_ok {s s' : σ} {data rest : Bytes} (hd : data ≠ [])
    (h : field guard more put next s data = .ok (s', rest)) :
    guard s = .ok () ∧
      (eatWhile more put s data = .ok (s', []) ∧ more s' = true ∧ rest = [] ∨
        ∃ s1, eatWhile more put s data = .ok (s1, rest) ∧ more s1 = false ∧ next s1 = .ok s') := by
  cases hg : guard s with
  | error e =>
      rw [field_guard hd hg] at h
      cases h
  | ok _ =>
      refine ⟨rfl, ?_⟩
      rcases field_cases guard more put next hd hg with
        ⟨e, -, hf⟩ | ⟨s1, he, hm, hf⟩ | ⟨s1, rest1, he, hm, hf⟩ <;> rw [hf] at h
      · cases h
      · cases h
        exact .inl ⟨he, hm, rfl⟩
      · cases hn : next s1 with
        | error e => simp [hn, Except.map] at h
        | ok s2 =>
            simp only [hn, Except.map, Except.ok.injEq, Prod.mk.injEq] at h
            obtain ⟨rfl, rfl⟩ := h
            exact .inr ⟨s1, he, hm, hn⟩

/-- **Rule for a field handler**: `P` inside of the field, `Q` after the call. -/
theorem field_induct {s s' : σ} {data rest : Bytes} (hd : data ≠ [])
    (h : field guard more put next s data = .ok (s', rest)) (P Q : σ → Prop)
    (hput : ∀ s b s', P s → more s = true → put s b = .ok s' → P s')
    (hstay : ∀ s, P s → more s = true → Q s)
    (hnext : ∀ s s', P s → more s = false → next s = .ok s' → Q s') (hs : P s) : Q s' := by
  obtain ⟨-, ⟨he, hm, -⟩ | ⟨s1, he, hm, hn⟩⟩ := field_ok guard more put next hd h
  · exact hstay _ (eatWhile_induct he P hput hs).1 hm
  · exact hnext s1 s' (eatWhile_induct he P hput hs).1 hm hn

/-! ### Cutting the input of a field -/

theorem field_suffix {s s' : σ} {data rest : Bytes} (hd : data ≠ [])
    (h : field guard more put next s data = .ok (s', rest)) : rest <:+ data := by
  obtain ⟨-, ⟨-, -, rfl⟩ | ⟨s1, he, -, -⟩⟩ := field_ok guard more put next hd h
  · exact List.nil_suffix
  · exact (eatWhile_induct he (fun _ => True) (fun _ _ _ _ _ _ => trivial) trivial).2.1

theorem field_progress {s s' : σ} {data rest : Bytes} (hd : data ≠ []) (hm : more s = true)
    (h : field guard more put next s data = .ok (s', rest)) : rest ≠ data := by
  obtain ⟨-, ⟨-, -, rfl⟩ | ⟨s1, he, -, -⟩⟩ := field_ok guard more put next hd h
  · exact hd.symm
  · exact eatWhile_progress hd hm he

/-- A failure comes with any input that begins so. -/
theorem field_error_append {s : σ} {xs : Bytes} {e : Stop} (hx : xs ≠ [])
    (hg : guard s = .ok ()) (h : field guard more put next s xs = .error e) (ys : Bytes) :
    field guard more put next s (xs ++ ys) = .error e := by
  have hxy : xs ++ ys ≠ [] := by simp [hx]
  rcases field_cases guard more put next hx hg with
    ⟨e1, he, hf⟩ | ⟨s1, he, hm1, hf⟩ | ⟨s1, rest1, he, hm1, hf⟩
  · rw [hf] at h
    cases h
    have hes : eatWhile more put s (xs ++ ys) = .error e := by
      rw [eatWhile_append, he]
      rfl
    simp [field, hx, hg, hes]
  · simp [hf] at h
  · have hes : eatWhile more put s (xs ++ ys) = .ok (s1, rest1 ++ ys) := by
      rw [eatWhile_append, he, ok_bind, eatWhile_stop hm1]
    rw [hf] at h
    rw [field_complete hxy hg hes hm1]
    cases hn : next s1 with
    | error e2 => simpa [hn, Except.map] using h
    | ok s2 => simp [hn, Except.map] at h

/-- The next call goes on inside of the field, or the field is complete, and what
follows is left over. -/
theorem field_append {s s' : σ} {xs rest : Bytes} (hx : xs ≠ [])
    (h : field guard more put next s xs = .ok (s', rest)) :
    (∀ ys, field guard more put next s (xs ++ ys) = .ok (s', rest ++ ys)) ∨
      rest = [] ∧ more s' = true ∧ eatWhile more put s xs = .ok (s', []) ∧
        ∀ ys, ys ≠ [] → guard s' = .ok () →
          field guard more put next s (xs ++ ys) = field guard more put next s' ys := by
  have hxy : ∀ ys, xs ++ ys ≠ [] := fun ys => by simp [hx]
  obtain ⟨hg, ⟨he, hm, hrest⟩ | ⟨s1, he, hm, hn⟩⟩ := field_ok guard more put next hx h
  · refine .inr ⟨hrest, hm, he, fun ys hy hg' => ?_⟩
    have hes : eatWhile more put s (xs ++ ys) = eatWhile more put s' ys := by
      rw [eatWhile_append, he, ok_bind, List.nil_append]
    simp only [field, assertThat_true (hxy ys), assertThat_true hy, hg, hg', hes]
  · refine .inl fun ys => ?_
    have hes : eatWhile more put s (xs ++ ys) = .ok (s1, rest ++ ys) := by
      rw [eatWhile_append, he, ok_bind, eatWhile_stop hm]
    rw [field_complete (hxy ys) hg hes hm, hn]
    rfl

/-- **A field handler may be cut anywhere.** `Q` holds inside of the field;
called there, the handler is `field` with these arguments. -/
theorem field_resumesAt {finished : σ → Bool} {handler : Handler σ}
    {Inv : σ → Prop} {rank : σ → Nat} (Q : σ → Prop)
    (hq : ∀ s, Q s → (more s = true ∨ ∃ e, guard s = .error e) →
      ∀ data, data ≠ [] → handler s data = field guard more put next s data)
    (hput : ∀ s b s', Q s → more s = true → put s b = .ok s' → Q s')
    (hmore : ∀ s, Q s → more s = true →
      guard s = .ok () ∧ finished s = false ∧ Inv s)
    (hnext : ∀ s s', Q s → more s = false → next s = .ok s' → Inv s')
    {s : σ} (hs : Q s) (hgo : more s = true ∨ ∃ e, guard s = .error e) :
    ResumesAt finished handler Inv rank s := by
  have hfs := hq s hs hgo
  rcases hgo with hm | ⟨e, he⟩
  swap
  · exact .of_error fun data hd => by rw [hfs data hd, field_guard hd he]
  have hg := (hmore s hs hm).1
  have happ : ∀ {xs : Bytes} (ys : Bytes), xs ≠ [] → xs ++ ys ≠ [] := by
    intro xs ys hx
    simp [hx]
  refine ⟨?_, ?_, ?_, ?_, ?_⟩
  · intro s' data rest hd h
    rw [hfs data hd] at h
    exact field_induct guard more put next hd h Q Inv hput
      (fun s hqs hms => (hmore s hqs hms).2.2) hnext hs
  · intro s' data rest hd h
    rw [hfs data hd] at h
    exact field_suffix guard more put next hd h
  · intro s' data rest hd h
    rw [hfs data hd] at h
    exact .inl (field_progress guard more put next hd hm h)
  · intro xs e hx h ys
    rw [hfs xs hx] at h
    rw [hfs _ (happ ys hx)]
    exact field_error_append guard more put next hx hg h ys
  · intro s' xs rest hx h
    rw [hfs xs hx] at h
    rcases field_append guard more put next hx h with hall | ⟨hrest, hm1, he, hnextcall⟩
    · exact .inl fun ys => by rw [hfs _ (happ ys hx), hall ys]
    · -- the input ended inside of the field: the next call goes on
      have hq1 := (eatWhile_induct he Q hput hs).1
      refine .inr ⟨hrest, (hmore _ hq1 hm1).2.1, fun ys hy => ?_⟩
      rw [hfs _ (happ ys hx), hq s' hq1 (.inl hm1) ys hy]
      exact hnextcall ys hy (hmore _ hq1 hm1).1

/-! ## Fields of a known length -/

section Fills

variable {guard : σ → Except Stop Unit} {more : σ → Bool}
  {put : σ → UInt8 → Except Stop σ} {next : σ → Except Stop σ}

/-- A field of `n` bytes; `f xs` is the state after the first bytes `xs`. -/
structure Fills (more : σ → Bool) (put : σ → UInt8 → Except Stop σ) (f : Bytes → σ)
    (n : Nat) : Prop where
  more_lt : ∀ xs : Bytes, xs.length < n → more (f xs) = true
  stop : ∀ xs : Bytes, xs.length = n → more (f xs) = false
  put_eq : ∀ (xs : Bytes) (b : UInt8), xs.length < n → put (f xs) b = .ok (f (xs ++ [b]))

theorem Fills.eatWhile_append {f : Bytes → σ} {n : Nat} (h : Fills more put f n)
    (pre xs rest : Bytes) (hx : (pre ++ xs).length ≤ n) :
    eatWhile more put (f pre) (xs ++ rest) = eatWhile more put (f (pre ++ xs)) rest := by
  induction xs generalizing pre with
  | nil => simp
  | cons b xs ih =>
      have hlt : pre.length < n := by
        simp only [List.length_append, List.length_cons] at hx
        omega
      rw [List.cons_append, eatWhile_cons (h.more_lt pre hlt), h.put_eq pre b hlt, ok_bind,
        ih (pre ++ [b]) (by simpa using hx), List.append_assoc]
      rfl

/-- Input that covers the field. -/
theorem Fills.field_all {f : Bytes → σ} {n : Nat} (h : Fills more put f n)
    (hg : guard (f []) = .ok ()) {xs : Bytes} (hx : xs.length = n) (h0 : 0 < n)
    (rest : Bytes) :
    field guard more put next (f []) (xs ++ rest)
      = (next (f xs)).map fun s => (s, rest) := by
  have hne : xs ++ rest ≠ [] := by
    intro hc
    rw [(List.append_eq_nil_iff.mp hc).1] at hx
    simp at hx
    omega
  refine field_complete hne hg ?_ (h.stop xs hx)
  rw [h.eatWhile_append [] xs rest (by simp [hx]), List.nil_append,
    eatWhile_stop (h.stop xs hx)]

/-- Input that ends inside of the field. -/
theorem Fills.field_part {f : Bytes → σ} {n : Nat} (h : Fills more put f n)
    (hg : guard (f []) = .ok ()) {xs : Bytes} (hx : xs.length < n) (h0 : xs ≠ []) :
    field guard more put next (f []) xs = .ok (f xs, []) := by
  refine field_partial h0 hg ?_ (h.more_lt xs hx)
  have := h.eatWhile_append [] xs [] (by simp; omega)
  simpa [eatWhile] using this

variable {finished : σ → Bool} {handler : Handler σ} {Inv : σ → Prop} {rank : σ → Nat}
  (late : Stop) (guard : σ → Except Stop Unit) (next : σ → Except Stop σ)

/-- A run over a whole field. -/
theorem Fills.run_all {f : Bytes → σ} {n : Nat} (h : Fills more put f n) {s : σ}
    (hs : f [] = s) (hr : Resumable finished handler Inv rank) (hi : Inv s)
    (hf : finished s = false)
    (hh : ∀ data, data ≠ [] → handler s data = field guard more put next s data)
    (hg : guard s = .ok ()) {xs : Bytes} (hx : xs.length = n) (h0 : 0 < n) (rest : Bytes) :
    Stream.run late finished handler s (xs ++ rest)
      = next (f xs) >>= fun s => Stream.run late finished handler s rest := by
  subst hs
  have hne : xs ++ rest ≠ [] := by
    intro hc
    rw [(List.append_eq_nil_iff.mp hc).1] at hx
    simp at hx
    omega
  rw [hr.run_go hi hf hne, hh _ hne, h.field_all hg hx h0]
  cases next (f xs) <;> rfl

/-- A run over a part of a field. -/
theorem Fills.run_part {f : Bytes → σ} {n : Nat} (h : Fills more put f n) {s : σ}
    (hs : f [] = s) (hr : Resumable finished handler Inv rank) (hi : Inv s)
    (hf : finished s = false)
    (hh : ∀ data, data ≠ [] → handler s data = field guard more put next s data)
    (hg : guard s = .ok ()) {xs : Bytes} (hx : xs.length < n) :
    Stream.run late finished handler s xs = .ok (f xs, []) := by
  subst hs
  by_cases h0 : xs = []
  · subst h0
    exact run_stop (.inl rfl)
  · rw [hr.run_go hi hf h0, hh _ h0, h.field_part hg hx h0, ok_bind]
    exact run_stop (.inl rfl)

/-- A field that is stored in a buffer; `f buff k` is the state with `k` bytes of it
in place. -/
theorem Fills.of_store {size n : Nat} {f : Vector UInt8 size → Nat → σ} (hn : n ≤ size)
    (hmore : ∀ buff k, k ≤ n → more (f buff k) = decide (k < n))
    (hput : ∀ buff k b (hk : k < n),
      put (f buff k) b = .ok (f (buff.set k b (Nat.lt_of_lt_of_le hk hn)) (k + 1)))
    (buff : Vector UInt8 size) : Fills more put (fun xs => f (fill buff xs) xs.length) n where
  more_lt := fun xs h => by rw [hmore _ _ (Nat.le_of_lt h), decide_eq_true h]
  stop := fun xs h => by rw [hmore _ _ (Nat.le_of_eq h), h, decide_eq_false (Nat.lt_irrefl n)]
  put_eq := fun xs b h => by rw [hput _ _ _ h, fill_set, List.length_append, List.length_singleton]

/-- A field that is stored in a buffer and counted in 32 bits. -/
theorem Fills.of_counter {size n : Nat} {f : Vector UInt8 size → UInt32 → σ} (hn : n ≤ size)
    (hlt : n < 4294967296)
    (hmore : ∀ buff k, more (f buff k) = decide (k < UInt32.ofNat n))
    (hput : ∀ buff k b (hk : k.toNat < n),
      put (f buff k) b = .ok (f (buff.set k.toNat b (Nat.lt_of_lt_of_le hk hn)) (k + 1)))
    (buff : Vector UInt8 size) :
    Fills more put (fun xs => f (fill buff xs) (UInt32.ofNat xs.length)) n := by
  have hnat : ∀ k, k ≤ n → (UInt32.ofNat k).toNat = k := by
    intro k hk
    rw [UInt32.toNat_ofNat']
    omega
  refine .of_store (f := fun buff k => f buff (UInt32.ofNat k)) hn ?_ ?_ buff
  · intro buff k hk
    simp only [hmore, UInt32.lt_iff_toNat_lt, hnat k hk, hnat n (Nat.le_refl n)]
  · intro buff k b hk
    have hk' := hnat k (Nat.le_of_lt hk)
    rw [hput _ _ b (by rw [hk']; exact hk), UInt32.ofNat_add]
    simp only [hk']
    rfl

/-- A field whose bytes are counted down; `f xs d` is the state with the bytes `xs` of
it, and `d` of them to come. -/
theorem Fills.of_countdown {f : Bytes → Nat → σ}
    (hmore : ∀ xs d, more (f xs d) = decide (d > 0))
    (hput : ∀ xs b d, put (f xs d) b = .ok (f (xs ++ [b]) (d - 1))) (n : Nat) :
    Fills more put (fun xs => f xs (n - xs.length)) n where
  more_lt := fun xs h => by
    rw [hmore]
    exact decide_eq_true (by omega)
  stop := fun xs h => by simp [hmore, h]
  put_eq := fun xs b h => by
    rw [hput, List.length_append, List.length_singleton, Nat.sub_sub]

end Fills

end Field

/-! ## Packing -/

/-- `MOSQ_MSB(x)` -/
def msb (n : UInt16) : UInt8 := ((n >>> 8) &&& 0xff).toUInt8

/-- `MOSQ_LSB(x)` -/
def lsb (n : UInt16) : UInt8 := (n &&& 0xff).toUInt8

/-- `pack_add(unsigned char, std::string&)` -/
def packAddChar (ch : UInt8) (out : Bytes) : Bytes := out ++ [ch]

/-- `pack_add(unsigned short, std::string&)` -/
def packAddShort (n : UInt16) (out : Bytes) : Bytes := out ++ [msb n] ++ [lsb n]

/-- `pack_add(const std::string&, std::string&)`: the length is cut to sixteen
bits, the string is not. -/
def packAddString (s : Bytes) (out : Bytes) : Bytes :=
  let n := UInt16.ofNat s.length
  let out := out ++ [msb n] ++ [lsb n]
  if n > 0 then out ++ s else out

/-- `unpack_short(in, len, out)`, of the two bytes at `in`. -/
def unpackShort (in0 in1 : UInt8) (len : Nat) : Option UInt16 :=
  if len < 2 then none
  else some (((in0 &&& 0xff).toUInt16 <<< 8) ||| (in1 &&& 0xff).toUInt16)

/-- The number that two bytes announce. -/
def short (hi lo : UInt8) : Nat := hi.toNat * 256 + lo.toNat

theorem short_lt (hi lo : UInt8) : short hi lo < 65536 := by
  have h1 := hi.toNat_lt
  have h2 := lo.toNat_lt
  unfold short
  omega

theorem unpackShort_two (hi lo : UInt8) :
    unpackShort hi lo 2 = some (UInt16.ofNat (short hi lo)) := by
  have h1 := hi.toNat_lt
  have h2 : lo.toNat < 2 ^ 8 := lo.toNat_lt
  have hand : ∀ b : UInt8, b &&& 0xff = b := fun _ => UInt8.and_neg_one
  have hcat : (hi.toUInt16 <<< 8 ||| lo.toUInt16).toNat = short hi lo := by
    rw [UInt16.toNat_or, UInt16.toNat_shiftLeft, UInt8.toNat_toUInt16,
      UInt8.toNat_toUInt16, Nat.shiftLeft_eq]
    have hmod : hi.toNat * 2 ^ (UInt16.toNat 8 % 16) % 2 ^ 16 = 2 ^ 8 * hi.toNat := by
      rw [show UInt16.toNat 8 % 16 = 8 from rfl]
      omega
    rw [hmod, ← Nat.two_pow_add_eq_or_of_lt h2, short]
    omega
  unfold unpackShort
  rw [if_neg (by decide), hand, hand, ← hcat, UInt16.ofNat_toNat]

/-- The number that two bytes stored in a buffer announce. -/
theorem unpackShort_fill {n : Nat} (buff : Vector UInt8 n) (i j : Fin n) (h0 : i.val = 0)
    (h1 : j.val = 1) (hi lo : UInt8) :
    unpackShort ((fill buff [hi, lo]).get i) ((fill buff [hi, lo]).get j) 2
      = some (UInt16.ofNat (short hi lo)) := by
  rw [get_fill buff i (by simp [h0]), get_fill buff j (by simp [h1]),
    unpackShort_two]
  simp [h0, h1]

@[simp] theorem toNat_short (hi lo : UInt8) :
    (UInt16.ofNat (short hi lo)).toNat = short hi lo := by
  have := short_lt hi lo
  rw [UInt16.toNat_ofNat']
  omega

@[simp] theorem toUInt32_short (hi lo : UInt8) :
    (UInt16.ofNat (short hi lo)).toUInt32 = UInt32.ofNat (short hi lo) := by
  have := short_lt hi lo
  apply UInt32.toNat_inj.mp
  rw [UInt16.toNat_toUInt32, toNat_short, UInt32.toNat_ofNat']
  omega

@[simp] theorem short_eq_zero (hi lo : UInt8) :
    UInt16.ofNat (short hi lo) = 0 ↔ short hi lo = 0 := by
  rw [← UInt16.toNat_inj, toNat_short]
  rfl

theorem toNat_msb (n : UInt16) : (msb n).toNat = n.toNat / 256 := by
  have hn := n.toNat_lt
  rw [msb, UInt16.toNat_toUInt8, UInt16.toNat_and, UInt16.toNat_shiftRight,
    show UInt16.toNat 0xff = 2 ^ 8 - 1 from rfl, Nat.and_two_pow_sub_one_eq_mod,
    Nat.shiftRight_eq_div_pow, show UInt16.toNat 8 % 16 = 8 from rfl]
  omega

theorem toNat_lsb (n : UInt16) : (lsb n).toNat = n.toNat % 256 := by
  rw [lsb, UInt16.toNat_toUInt8, UInt16.toNat_and,
    show UInt16.toNat 0xff = 2 ^ 8 - 1 from rfl, Nat.and_two_pow_sub_one_eq_mod]
  omega

theorem msb_short (hi lo : UInt8) : msb (UInt16.ofNat (short hi lo)) = hi := by
  have hlo := lo.toNat_lt
  apply UInt8.toNat_inj.mp
  rw [toNat_msb, toNat_short, short]
  omega

theorem lsb_short (hi lo : UInt8) : lsb (UInt16.ofNat (short hi lo)) = lo := by
  have hlo := lo.toNat_lt
  apply UInt8.toNat_inj.mp
  rw [toNat_lsb, toNat_short, short]
  omega

theorem short_msb_lsb (n : UInt16) : short (msb n) (lsb n) = n.toNat := by
  rw [short, toNat_msb, toNat_lsb]
  omega

theorem toNat_add_ofNat {a : UInt32} {k : Nat} (h : a.toNat + k < 4294967296) :
    (a + UInt32.ofNat k).toNat = a.toNat + k := by
  rw [UInt32.toNat_add, UInt32.toNat_ofNat']
  omega

theorem short_length {s : Bytes} (h : s.length ≤ 65535) :
    s.length = short (msb (UInt16.ofNat s.length)) (lsb (UInt16.ofNat s.length)) := by
  rw [short_msb_lsb, UInt16.toNat_ofNat']
  omega

/-- A string of at most 65535 bytes with its length in front. -/
theorem packAddString_eq {s : Bytes} (h : s.length < 65536) (out : Bytes) :
    packAddString s out
      = out ++ (msb (UInt16.ofNat s.length) :: lsb (UInt16.ofNat s.length) :: s) := by
  have hn : (UInt16.ofNat s.length).toNat = s.length := by
    rw [UInt16.toNat_ofNat']
    omega
  unfold packAddString
  simp only
  split
  · simp
  · rename_i h0
    have hs : s = [] := by
      have : ¬ 0 < (UInt16.ofNat s.length).toNat := fun hc => h0 (UInt16.lt_iff_toNat_lt.mpr hc)
      exact List.eq_nil_of_length_eq_zero (by omega)
    simp [hs]

/-! ## Two bytes that are counted -/

section Counted

variable {σ : Type} {guard : σ → Except Stop Unit} {more : σ → Bool}
  {put : σ → UInt8 → Except Stop σ} {next : σ → Except Stop σ} {late : Stop}
  {finished : σ → Bool} {handler : Handler σ} {Inv : σ → Prop} {rank : σ → Nat}
  {f : Bytes → σ} {s : σ} {nread bodyLen : UInt32} {n k : Nat}

/-- A run over two bytes of a body of `n`, of which `k` have been counted: what comes
next depends on whether the body ends with them. -/
theorem Fills.run_counted (h : Fills more put f 2) (hs : f [] = s)
    (hr : Resumable finished handler Inv rank) (hi : Inv s) (hf : finished s = false)
    (hh : ∀ data, data ≠ [] → handler s data = field guard more put next s data)
    (hg : guard s = .ok ()) (hread : nread.toNat = k) (hbody : bodyLen.toNat = n)
    (hk : k + 2 < 4294967296) {b₀ b₁ : UInt8} {last more' : Except Stop σ}
    (hnext : next (f [b₀, b₁]) = if nread + UInt32.ofNat 2 ≥ bodyLen then last else more')
    (rest : Bytes) :
    Stream.run late finished handler s (b₀ :: b₁ :: rest)
      = if n ≤ k + 2 then last >>= fun s => Stream.run late finished handler s rest
        else more' >>= fun s => Stream.run late finished handler s rest := by
  have hall := h.run_all late guard next hs hr hi hf hh hg (show [b₀, b₁].length = 2 from rfl)
    Nat.zero_lt_two rest
  have hend : nread + UInt32.ofNat 2 ≥ bodyLen ↔ n ≤ k + 2 := by
    rw [ge_iff_le, UInt32.le_iff_toNat_le, toNat_add_ofNat (by rw [hread]; exact hk), hread, hbody]
  refine hall.trans ?_
  rw [hnext]
  simp only [hend]
  split <;> rfl

/-- A run over a length that is counted. -/
theorem Fills.run_length (h : Fills more put f 2) (hs : f [] = s)
    (hr : Resumable finished handler Inv rank) (hi : Inv s) (hf : finished s = false)
    (hh : ∀ data, data ≠ [] → handler s data = field guard more put next s data)
    (hg : guard s = .ok ()) (hread : nread.toNat = k) (hbody : bodyLen.toNat = n)
    (hk : k + 2 < 4294967296) {b₀ b₁ : UInt8} {e₀ e₁ : Stop} {s' : σ}
    (hnext : next (f [b₀, b₁]) = if UInt16.ofNat (short b₀ b₁) = 0 then .error e₀
      else if nread + UInt32.ofNat 2 ≥ bodyLen then .error e₁ else .ok s') (rest : Bytes) :
    Stream.run late finished handler s (b₀ :: b₁ :: rest)
      = if short b₀ b₁ = 0 then .error e₀
        else if n ≤ k + 2 then .error e₁
        else Stream.run late finished handler s' rest := by
  simp only [short_eq_zero] at hnext
  by_cases h0 : short b₀ b₁ = 0
  · rw [if_pos h0] at hnext ⊢
    have hall := h.run_all late guard next hs hr hi hf hh hg
      (show [b₀, b₁].length = 2 from rfl) Nat.zero_lt_two rest
    rw [hnext] at hall
    exact hall
  · rw [if_neg h0] at hnext ⊢
    exact h.run_counted hs hr hi hf hh hg hread hbody hk hnext rest

end Counted

/-! ## Setters -/

/-- After a sequence of calls a field holds what it was given last, where each call
gives it a value or leaves it as it is. -/
theorem get_foldl {σ τ α : Type} {apply : σ → τ → σ} {gives : τ → Option α} (get : σ → α)
    (h : ∀ m c, get (apply m c) = (gives c).getD (get m)) (m : σ) (calls : List τ) :
    get (calls.foldl apply m) = (calls.filterMap gives).getLast?.getD (get m) := by
  induction calls generalizing m with
  | nil => rfl
  | cons c calls ih =>
      rw [List.foldl_cons, ih, h]
      cases hc : gives c with
      | none => simp [hc]
      | some a => simp [hc, List.getLast?_cons]

end Libnio.Mqtt
