import Libnio.Stream.Returns
import Libnio.Trace.Machine
import Mathlib.Data.List.Forall2
import Mathlib.Data.List.Infix

/-!
# Stream — packets one after the other

A *receiver* takes the pieces of a stream and puts out items. `Carries` is said of
one packet: it is one item to a receiver that stands between two packets. Then
`conveys` is about a stream of packets, wherever it breaks off, and a `Link` is a
sender, a channel that hands on what it likes of what has gone out, and a receiver, in
any order of their steps: `run_tracks`.
-/

namespace Stream

universe u v

variable {α ω μ : Type*} {ε : Type u} {σ : Type v}

/-- What a receiver has put out, whether it goes on or has stopped. -/
def outs (out : σ → List ω) (last : ε → List ω) : Except ε σ → List ω
  | .ok s => out s
  | .error e => last e

@[simp] theorem outs_ok (out : σ → List ω) (last : ε → List ω) (s : σ) :
    outs out last (.ok s) = out s := rfl

@[simp] theorem outs_error (out : σ → List ω) (last : ε → List ω) (e : ε) :
    outs out last (.error e : Except ε σ) = last e := rfl

/-- It does not matter where the stream was cut, and an item stays out. `Inv` holds
of the states that a receiver goes through. -/
structure Receiver (recv : σ → List α → Except ε σ) (out : σ → List ω) (last : ε → List ω)
    (Inv : σ → Prop) : Prop where
  nil : ∀ s, recv s [] = .ok s
  keeps : ∀ {s s' xs}, Inv s → recv s xs = .ok s' → Inv s'
  append : ∀ {s}, Inv s → ∀ xs ys, recv s (xs ++ ys) = recv s xs >>= fun s => recv s ys
  grows : ∀ {s}, Inv s → ∀ xs, out s <+: outs out last (recv s xs)

/-- Between two packets, which is where `Idle` holds, the packet is one item with
`P`, and the receiver stands between two packets behind it if it goes on. -/
def Carries (recv : σ → List α → Except ε σ) (out : σ → List ω) (last : ε → List ω)
    (Idle : σ → Prop) (packet : List α) (P : ω → Prop) : Prop :=
  ∀ s, Idle s → ∃ d, P d ∧ outs out last (recv s packet) = out s ++ [d] ∧
    ∀ s', recv s packet = .ok s' → Idle s'

/-- What comes out is there for something that went in. -/
theorem exists_of_mem_forall₂ {R : μ → ω → Prop} {ms : List μ} {ds : List ω}
    (h : List.Forall₂ R ms ds) {d : ω} (hd : d ∈ ds) : ∃ m ∈ ms, R m d := by
  induction h with
  | nil => cases hd
  | cons hr _ ih =>
      rcases List.mem_cons.mp hd with rfl | hd
      · exact ⟨_, List.mem_cons_self, hr⟩
      · obtain ⟨m, hm, hr⟩ := ih hd
        exact ⟨m, List.mem_cons_of_mem _ hm, hr⟩

section Receiver

variable {recv : σ → List α → Except ε σ} {out : σ → List ω} {last : ε → List ω}
  {Inv Idle : σ → Prop} {packet : μ → List α} {Same : μ → ω → Prop}

theorem Carries.mono {p : List α} {P Q : ω → Prop} (h : Carries recv out last Idle p P)
    (hpq : ∀ d, P d → Q d) : Carries recv out last Idle p Q := by
  intro s hs
  obtain ⟨d, hP, hout, hidle⟩ := h s hs
  exact ⟨d, hpq d hP, hout, hidle⟩

/-- Of a part of the stream the receiver has put out no more than of the whole. -/
theorem Receiver.grows_append (hr : Receiver recv out last Inv) {s : σ} (hi : Inv s)
    (xs ys : List α) : outs out last (recv s xs) <+: outs out last (recv s (xs ++ ys)) := by
  rw [hr.append hi]
  cases h : recv s xs with
  | error e => exact List.prefix_refl _
  | ok s' => exact hr.grows (hr.keeps hi h) ys

/-- What a part of the stream makes of a receiver that the whole does not stop. -/
theorem Receiver.ok_of_append (hr : Receiver recv out last Inv) {s s' : σ} (hi : Inv s)
    {xs ys : List α} (h : recv s (xs ++ ys) = .ok s') :
    ∃ t, recv s xs = .ok t ∧ recv t ys = .ok s' := by
  rw [hr.append hi] at h
  exact bind_eq_ok.mp h

/-- **Packets are conveyed**: of a stream of packets, wherever it breaks off, the
items that are put out are those of the first packets, in their order. -/
theorem Receiver.conveys (hr : Receiver recv out last Inv) (hidle : ∀ s, Idle s → Inv s)
    {ms : List μ} (hm : ∀ m ∈ ms, Carries recv out last Idle (packet m) (Same m)) {s : σ}
    (hs : Idle s) {xs : List α} (hx : xs <+: ms.flatMap packet) :
    ∃ first ds, first <+: ms ∧ List.Forall₂ Same first ds ∧
      outs out last (recv s xs) = out s ++ ds := by
  induction ms generalizing s xs with
  | nil =>
      obtain rfl : xs = [] := List.prefix_nil.mp hx
      exact ⟨[], [], List.nil_prefix, .nil, by rw [hr.nil, outs_ok, List.append_nil]⟩
  | cons m ms ih =>
      obtain ⟨d, hd, hout, hgo⟩ := hm m List.mem_cons_self s hs
      have hfirst : List.Forall₂ Same [m] [d] := .cons hd .nil
      have hone : [m] <+: m :: ms := ⟨ms, rfl⟩
      rw [List.flatMap_cons] at hx
      rcases List.prefix_or_prefix_of_prefix hx (List.prefix_append _ _) with ⟨zs, hzs⟩ | ⟨ys, rfl⟩
      · -- the stream breaks off inside of the first packet
        have hgrow := hr.grows_append (hidle s hs) xs zs
        rw [hzs, hout] at hgrow
        rcases List.prefix_concat_iff.mp hgrow with hall | hpart
        · exact ⟨[m], [d], hone, hfirst, hall⟩
        · have hnone := (hr.grows (hidle s hs) xs).eq_of_length_le hpart.length_le
          exact ⟨[], [], List.nil_prefix, .nil, by rw [← hnone, List.append_nil]⟩
      · -- it goes on behind it
        rw [hr.append (hidle s hs)]
        cases hp : recv s (packet m) with
        | error e =>
            rw [hp] at hout
            exact ⟨[m], [d], hone, hfirst, hout⟩
        | ok t =>
            rw [hp, outs_ok] at hout
            obtain ⟨first, ds, hpre, hsame, hds⟩ := ih
              (fun m' hm' => hm m' (List.mem_cons_of_mem m hm')) (hgo t hp)
              ((List.prefix_append_right_inj _).mp hx)
            refine ⟨m :: first, d :: ds, (List.prefix_cons_inj m).mpr hpre, .cons hd hsame, ?_⟩
            rw [ok_bind, hds, hout, List.append_assoc, List.singleton_append]

/-- Of a stream that is received to its end every packet is put out. -/
theorem Receiver.conveys_all (hr : Receiver recv out last Inv) (hidle : ∀ s, Idle s → Inv s)
    {ms : List μ} (hm : ∀ m ∈ ms, Carries recv out last Idle (packet m) (Same m)) {s s' : σ}
    (hs : Idle s) (h : recv s (ms.flatMap packet) = .ok s') :
    Idle s' ∧ ∃ ds, List.Forall₂ Same ms ds ∧ out s' = out s ++ ds := by
  induction ms generalizing s with
  | nil =>
      rw [List.flatMap_nil, hr.nil] at h
      cases h
      exact ⟨hs, [], .nil, (List.append_nil _).symm⟩
  | cons m ms ih =>
      rw [List.flatMap_cons] at h
      obtain ⟨t, hp, hrest⟩ := hr.ok_of_append (hidle s hs) h
      obtain ⟨d, hd, hout, hgo⟩ := hm m List.mem_cons_self s hs
      rw [hp, outs_ok] at hout
      obtain ⟨hs', ds, hsame, hds⟩ := ih (fun m' hm' => hm m' (List.mem_cons_of_mem m hm'))
        (hgo t hp) hrest
      refine ⟨hs', d :: ds, .cons hd hsame, ?_⟩
      rw [hds, hout, List.append_assoc, List.singleton_append]

/-- Nothing is held back: the packets that have come in whole are put out. -/
theorem Receiver.conveys_whole (hr : Receiver recv out last Inv) (hidle : ∀ s, Idle s → Inv s)
    {ms : List μ} (hm : ∀ m ∈ ms, Carries recv out last Idle (packet m) (Same m)) {s : σ}
    (hs : Idle s) {xs : List α} (hx : ms.flatMap packet <+: xs) {s' : σ}
    (h : recv s xs = .ok s') : ∃ ds, List.Forall₂ Same ms ds ∧ out s ++ ds <+: out s' := by
  obtain ⟨rest, rfl⟩ := hx
  obtain ⟨t, ht, hrest⟩ := hr.ok_of_append (hidle s hs) h
  obtain ⟨hidle', ds, hsame, hds⟩ := hr.conveys_all hidle hm hs ht
  have hgrow := hr.grows (hidle t hidle') rest
  rw [hrest, outs_ok, hds] at hgrow
  exact ⟨ds, hsame, hgrow⟩

/-- A receiver that each packet leaves running is not stopped by a part of a stream
of packets. -/
theorem Receiver.runs_on (hr : Receiver recv out last Inv) (hidle : ∀ s, Idle s → Inv s)
    {ms : List μ} (hm : ∀ m ∈ ms, ∀ s, Idle s → ∃ s', recv s (packet m) = .ok s' ∧ Idle s')
    {s : σ} (hs : Idle s) {xs : List α} (hx : xs <+: ms.flatMap packet) :
    ∃ s', recv s xs = .ok s' := by
  have hall : ∃ s', recv s (ms.flatMap packet) = .ok s' := by
    clear hx
    induction ms generalizing s with
    | nil => exact ⟨s, hr.nil s⟩
    | cons m ms ih =>
        obtain ⟨t, ht, hidle'⟩ := hm m List.mem_cons_self s hs
        obtain ⟨s', hs'⟩ := ih (fun m' hm' => hm m' (List.mem_cons_of_mem m hm')) hidle'
        exact ⟨s', by rw [List.flatMap_cons, hr.append (hidle s hs), ht, ok_bind, hs']⟩
  obtain ⟨s', hs'⟩ := hall
  obtain ⟨rest, hrest⟩ := hx
  rw [← hrest] at hs'
  obtain ⟨t, ht, -⟩ := hr.ok_of_append (hidle s hs) hs'
  exact ⟨t, ht⟩

/-- **Packets cannot be mistaken**: a stream that is the beginning of another one is
put out as the beginning of what that one is put out as. -/
theorem Receiver.unambiguous (hr : Receiver recv out last Inv) (hidle : ∀ s, Idle s → Inv s)
    {ms ms' : List μ} (hm : ∀ m ∈ ms, Carries recv out last Idle (packet m) (Same m))
    (hm' : ∀ m ∈ ms', Carries recv out last Idle (packet m) (Same m))
    (hgo : ∀ m ∈ ms, ∀ s, Idle s → ∃ s', recv s (packet m) = .ok s' ∧ Idle s') {s : σ}
    (hs : Idle s) (h : ms.flatMap packet <+: ms'.flatMap packet) :
    ∃ first ds, first <+: ms' ∧ List.Forall₂ Same ms ds ∧ List.Forall₂ Same first ds := by
  obtain ⟨s', hs'⟩ := hr.runs_on hidle hgo hs (List.prefix_refl _)
  obtain ⟨-, ds, hsame, hout⟩ := hr.conveys_all hidle hm hs hs'
  obtain ⟨first, ds', hfirst, hsame', hout'⟩ := hr.conveys hidle hm' hs h
  rw [hs', outs_ok, hout, List.append_cancel_left_eq] at hout'
  exact ⟨first, ds, hfirst, hsame, hout' ▸ hsame'⟩

end Receiver

/-! ## A sender, a channel and a receiver -/

/-- The two ends, and how much of what has gone out at the one has come in at the
other. -/
structure Link (ς σ ε : Type*) where
  sender : ς
  got : Nat
  receiver : Except ε σ

/-- A step of the sender; a read of some bytes of those on their way; the end of the
connection. -/
inductive LinkLabel (β : Type*) where
  | send (b : β)
  | read (n : Nat)
  | hangup

namespace Link

variable {ς : Type*} {β : Type*} (sendStep : ς → β → Option ς) (gone : ς → List α)
  (recv : σ → List α → Except ε σ) (stop : σ → ε)

/-- A receiver that has stopped reads no more. -/
def step (l : Link ς σ ε) : LinkLabel β → Option (Link ς σ ε)
  | .send b => (sendStep l.sender b).map fun sender => { l with sender }
  | .read n =>
      match l.receiver with
      | .error _ => none
      | .ok s =>
          let data := ((gone l.sender).drop l.got).take n
          if data.isEmpty then none
          else some { l with got := l.got + data.length, receiver := recv s data }
  | .hangup =>
      match l.receiver with
      | .error _ => none
      | .ok s => some { l with receiver := .error (stop s) }

/-- The bytes that have come in. -/
def come (l : Link ς σ ε) : List α := (gone l.sender).take l.got

/-- The receiver has had the bytes that have come in, in one piece. -/
structure Fed (s₀ : σ) (l : Link ς σ ε) : Prop where
  got_le : l.got ≤ (gone l.sender).length
  receiver_eq : l.receiver = recv s₀ (l.come gone)

/-- It has had them, or was stopped behind them. -/
def Tracks (s₀ : σ) (l : Link ς σ ε) : Prop :=
  Fed gone recv s₀ l ∨
    ∃ s, l.receiver = .error (stop s) ∧ Fed gone recv s₀ { l with receiver := .ok s }

variable {sendStep gone recv stop} {out : σ → List ω} {last : ε → List ω} {Inv : σ → Prop}
  {s₀ : σ} {l l' : Link ς σ ε}

/-- What a step does. -/
theorem step_cases {a : LinkLabel β} (hs : l.step sendStep gone recv stop a = some l') :
    (∃ b sender, a = .send b ∧ sendStep l.sender b = some sender ∧ l' = { l with sender }) ∨
    (∃ n s, a = .read n ∧ l.receiver = .ok s ∧ l' = { l with
      got := l.got + (((gone l.sender).drop l.got).take n).length
      receiver := recv s (((gone l.sender).drop l.got).take n) }) ∨
    (∃ s, a = .hangup ∧ l.receiver = .ok s ∧ l' = { l with receiver := .error (stop s) }) := by
  cases a with
  | send b =>
      obtain ⟨sender, hb, rfl⟩ := Option.map_eq_some_iff.mp hs
      exact .inl ⟨b, sender, rfl, hb, rfl⟩
  | read n =>
      rw [step] at hs
      split at hs
      · cases hs
      · rename_i s hrec
        dsimp only at hs
        split at hs
        · cases hs
        · cases hs
          exact .inr (.inl ⟨n, s, rfl, hrec, rfl⟩)
  | hangup =>
      rw [step] at hs
      split at hs
      · cases hs
      · rename_i s hrec
        cases hs
        exact .inr (.inr ⟨s, rfl, hrec, rfl⟩)

theorem fed_start (hr : Receiver recv out last Inv) (sender : ς) :
    Fed gone recv s₀ (⟨sender, 0, .ok s₀⟩ : Link ς σ ε) :=
  ⟨Nat.zero_le _, by rw [come, List.take_zero, hr.nil]⟩

/-- What has gone out stays out. -/
theorem Fed.send (h : Fed gone recv s₀ l) {sender : ς} (hgone : gone l.sender <+: gone sender) :
    Fed gone recv s₀ { l with sender } := by
  obtain ⟨more, hmore⟩ := hgone
  have hcome : ({ l with sender } : Link ς σ ε).come gone = l.come gone := by
    rw [come, come, ← hmore, List.take_append_of_le_length h.got_le]
  refine ⟨?_, ?_⟩
  · rw [← hmore, List.length_append]
    exact Nat.le_add_right_of_le h.got_le
  · rw [hcome]
    exact h.receiver_eq

/-- What is read follows on what was read before. -/
theorem Fed.read (hr : Receiver recv out last Inv) (hi : Inv s₀) (h : Fed gone recv s₀ l) {s : σ}
    (hrec : l.receiver = .ok s) (n : Nat) :
    Fed gone recv s₀ { l with
      got := l.got + (((gone l.sender).drop l.got).take n).length
      receiver := recv s (((gone l.sender).drop l.got).take n) } := by
  have hle := h.got_le
  refine ⟨?_, ?_⟩
  · simp only [List.length_take, List.length_drop]
    omega
  · show recv s _ = recv s₀ ((gone l.sender).take _)
    rw [List.take_add, List.length_take, ← List.take_eq_take_min, hr.append hi, ← come,
      ← h.receiver_eq, hrec, ok_bind]

/-- A step that is not the end of the connection. -/
theorem Fed.step (hr : Receiver recv out last Inv) (hi : Inv s₀) (h : Fed gone recv s₀ l)
    {a : LinkLabel β} (ha : a ≠ .hangup)
    (hgone : ∀ b s', a = .send b → sendStep l.sender b = some s' → gone l.sender <+: gone s')
    (hs : l.step sendStep gone recv stop a = some l') : Fed gone recv s₀ l' := by
  obtain ⟨b, sender, rfl, hb, rfl⟩ | ⟨n, s, -, hrec, rfl⟩ | ⟨s, rfl, -, -⟩ := step_cases hs
  · exact h.send (hgone b sender rfl hb)
  · exact h.read hr hi hrec n
  · exact absurd rfl ha

/-- **One step** keeps it. -/
theorem Tracks.step (hr : Receiver recv out last Inv) (hi : Inv s₀)
    (ht : Tracks gone recv stop s₀ l) {a : LinkLabel β}
    (hgone : ∀ b s', a = .send b → sendStep l.sender b = some s' → gone l.sender <+: gone s')
    (hs : l.step sendStep gone recv stop a = some l') : Tracks gone recv stop s₀ l' := by
  rcases ht with h | ⟨s, hrec, h⟩
  · by_cases ha : a = .hangup
    · obtain ⟨b, sender, rfl, -⟩ | ⟨n, s, rfl, -⟩ | ⟨s, -, hrec, rfl⟩ := step_cases hs
      · cases ha
      · cases ha
      · refine .inr ⟨s, rfl, h.got_le, ?_⟩
        rw [← hrec]
        exact h.receiver_eq
    · exact .inl (h.step hr hi ha hgone hs)
  · obtain ⟨b, sender, rfl, hb, rfl⟩ | ⟨n, t, -, hrec', -⟩ | ⟨t, -, hrec', -⟩ := step_cases hs
    · exact .inr ⟨s, hrec, h.send (hgone b sender rfl hb)⟩
    · rw [hrec] at hrec'
      cases hrec'
    · rw [hrec] at hrec'
      cases hrec'

section Run

open Libnio

variable {P : Link ς σ ε → LinkLabel β → Prop} {S : ς → Prop} {ls : List (LinkLabel β)}

/-- A step leaves the sender as it is, or is one of the sender. -/
theorem sender_step
    (hsend : ∀ l b s', P l (.send b) → S l.sender → sendStep l.sender b = some s' →
      S s' ∧ gone l.sender <+: gone s') {a : LinkLabel β} (hp : P l a) (hS : S l.sender)
    (hs : l.step sendStep gone recv stop a = some l') : S l'.sender := by
  obtain ⟨b, sender, rfl, hb, rfl⟩ | ⟨n, s, -, -, rfl⟩ | ⟨s, -, -, rfl⟩ := step_cases hs
  · exact (hsend l b sender hp hS hb).1
  · exact hS
  · exact hS

/-- **A run** of a link whose sender keeps `S`, by steps that keep what has gone
out. -/
theorem run_tracks (hr : Receiver recv out last Inv) (hi : Inv s₀)
    (hsend : ∀ l b s', P l (.send b) → S l.sender → sendStep l.sender b = some s' →
      S s' ∧ gone l.sender <+: gone s')
    (hm : Trace.Meets (step sendStep gone recv stop) P l ls) (hS : S l.sender)
    (ht : Tracks gone recv stop s₀ l)
    (hrun : Trace.run (step sendStep gone recv stop) l ls = some l') :
    S l'.sender ∧ Tracks gone recv stop s₀ l' := by
  refine Trace.run_induct (I := fun l => S l.sender ∧ Tracks gone recv stop s₀ l) ?_ hm ⟨hS, ht⟩
    hrun
  rintro l a l' hp ⟨hS, ht⟩ hs
  refine ⟨sender_step hsend hp hS hs, ht.step hr hi ?_ hs⟩
  rintro b s' rfl hb
  exact (hsend l b s' hp hS hb).2

/-- **A run** in which the connection stays. -/
theorem run_fed (hr : Receiver recv out last Inv) (hi : Inv s₀)
    (hsend : ∀ l b s', P l (.send b) → S l.sender → sendStep l.sender b = some s' →
      S s' ∧ gone l.sender <+: gone s')
    (hm : Trace.Meets (step sendStep gone recv stop) P l ls) (hS : S l.sender)
    (hf : Fed gone recv s₀ l) (hstay : LinkLabel.hangup ∉ ls)
    (hrun : Trace.run (step sendStep gone recv stop) l ls = some l') :
    S l'.sender ∧ Fed gone recv s₀ l' := by
  have hne := @Trace.meets_of_mem _ _ (step sendStep gone recv stop) _ l ls
    fun a ha => ne_of_mem_of_not_mem ha hstay
  refine Trace.run_induct (I := fun l => S l.sender ∧ Fed gone recv s₀ l) ?_ (hm.and hne) ⟨hS, hf⟩
    hrun
  rintro l a l' ⟨hp, ha⟩ ⟨hS, hf⟩ hs
  refine ⟨sender_step hsend hp hS hs, hf.step hr hi ha ?_ hs⟩
  rintro b s' rfl hb
  exact (hsend l b s' hp hS hb).2

end Run

/-- **What comes in is what has gone out**, of a stream of packets: the first of
them, in their order, and all of them when nothing is on its way and the receiver
goes on. -/
theorem Tracks.conveys (hr : Receiver recv out last Inv) {Idle : σ → Prop}
    (hidle : ∀ s, Idle s → Inv s) {packet : μ → List α} {Same : μ → ω → Prop}
    (hstop : ∀ s, last (stop s) = out s) (ht : Tracks gone recv stop s₀ l) (hs : Idle s₀)
    {ms : List μ} (hm : ∀ m ∈ ms, Carries recv out last Idle (packet m) (Same m))
    (hpre : l.come gone <+: ms.flatMap packet) :
    ∃ first ds, first <+: ms ∧ List.Forall₂ Same first ds ∧
      outs out last l.receiver = out s₀ ++ ds ∧
      ((∃ s, l.receiver = .ok s) → l.come gone = ms.flatMap packet → first = ms) := by
  have houts : outs out last l.receiver = outs out last (recv s₀ (l.come gone)) := by
    rcases ht with h | ⟨s, hrec, h⟩
    · rw [h.receiver_eq]
    · rw [hrec, outs_error, hstop, ← outs_ok out last s]
      exact congrArg (outs out last) h.receiver_eq
  by_cases hall : (∃ s, l.receiver = .ok s) ∧ l.come gone = ms.flatMap packet
  · obtain ⟨⟨s, hrec⟩, hcome⟩ := hall
    have hgo : recv s₀ (ms.flatMap packet) = .ok s := by
      rcases ht with h | ⟨t, hrec', -⟩
      · rw [← hcome, ← h.receiver_eq, hrec]
      · rw [hrec] at hrec'
        cases hrec'
    obtain ⟨-, ds, hsame, hout⟩ := hr.conveys_all hidle hm hs hgo
    exact ⟨ms, ds, List.prefix_refl _, hsame, by rw [hrec, outs_ok, hout], fun _ _ => rfl⟩
  · obtain ⟨first, ds, hfirst, hsame, hout⟩ := hr.conveys hidle hm hs hpre
    exact ⟨first, ds, hfirst, hsame, houts.trans hout, fun h₁ h₂ => absurd ⟨h₁, h₂⟩ hall⟩

end Link

end Stream
