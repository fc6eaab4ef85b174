import Libnio.Stream.Receiver
import Mathlib.Logic.Function.Basic

/-!
# Stream — two ends that answer each other

Both ends of a connection receive, and what an end says is a function of what it has
received. `Duplex.Tracks` holds after every run: each end has had the first of what the
other one has said, and `Duplex.Tracks.conveys` is about what each has put out of it.
-/

namespace Stream

universe u v

variable {α ω μ : Type*} {ε : Type u} {σ : Type v}

inductive Side where
  | left
  | right
deriving DecidableEq

def Side.other : Side → Side
  | left => right
  | right => left

@[simp] theorem Side.other_other (side : Side) : side.other.other = side := by
  cases side <;> rfl

theorem Side.other_ne (side : Side) : side.other ≠ side := by
  cases side <;> decide

/-- How much an end has had of what the other one has said, and its receiver. -/
structure End (σ ε : Type*) where
  got : Nat
  receiver : Except ε σ

/-- An end reads some bytes of those on their way to it, or its connection ends. -/
inductive EndLabel where
  | read (n : Nat)
  | hangup
deriving DecidableEq

/-- The same step, of a link. -/
def EndLabel.label : EndLabel → LinkLabel Empty
  | read n => .read n
  | hangup => .hangup

namespace Duplex

variable (recv : Side → σ → List α → Except ε σ) (out : σ → List ω) (last : ε → List ω)
  (stop : σ → ε) (wire : Side → List ω → List α)

/-- What an end has put out. -/
def put (d : Side → End σ ε) (side : Side) : List ω := outs out last (d side).receiver

/-- An end as the receiver of a link from the other one. -/
def link (d : Side → End σ ε) (side : Side) : Link (List ω) σ ε :=
  ⟨put out last d side.other, (d side).got, (d side).receiver⟩

def step (d : Side → End σ ε) (a : Side × EndLabel) : Option (Side → End σ ε) :=
  ((link out last d a.1).step (fun _ (b : Empty) => b.elim) (wire a.1.other) (recv a.1) stop
    a.2.label).map fun l => Function.update d a.1 ⟨l.got, l.receiver⟩

/-- Each end has had the first of what the other one has said. -/
def Tracks (s₀ : σ) (d : Side → End σ ε) : Prop :=
  ∀ side, Link.Tracks (wire side.other) (recv side) stop s₀ (link out last d side)

variable {recv out last stop wire} {Inv : σ → Prop} {s₀ : σ} {d d' : Side → End σ ε}

theorem tracks_start (hr : ∀ side, Receiver (recv side) out last Inv) :
    Tracks recv out last stop wire s₀ fun _ => ⟨0, .ok s₀⟩ :=
  fun side => .inl (Link.fed_start (hr side) _)

/-- What an end has put out stays put out. -/
theorem put_step (hr : ∀ side, Receiver (recv side) out last Inv) (hi : Inv s₀)
    (hstop : ∀ s, last (stop s) = out s) (ht : Tracks recv out last stop wire s₀ d)
    {a : Side × EndLabel} (hs : step recv out last stop wire d a = some d') (side : Side) :
    put out last d side <+: put out last d' side := by
  obtain ⟨l, hl, rfl⟩ := Option.map_eq_some_iff.mp hs
  unfold put
  by_cases ha : side = a.1
  · subst ha
    rw [Function.update_self]
    obtain ⟨b, -⟩ | ⟨n, s, -, hrec, rfl⟩ | ⟨s, -, hrec, rfl⟩ := Link.step_cases hl
    · exact b.elim
    · have hrec : (d a.1).receiver = .ok s := hrec
      have hinv : Inv s := by
        rcases ht a.1 with h | ⟨t, hrec', -⟩
        · exact (hr a.1).keeps hi (h.receiver_eq.symm.trans hrec)
        · cases hrec.symm.trans hrec'
      rw [hrec]
      exact (hr a.1).grows hinv _
    · have hrec : (d a.1).receiver = .ok s := hrec
      rw [hrec, outs_ok, outs_error, hstop]
  · rw [Function.update_of_ne ha]

/-- **One step** of either end. -/
theorem Tracks.step (hr : ∀ side, Receiver (recv side) out last Inv) (hi : Inv s₀)
    (hstop : ∀ s, last (stop s) = out s)
    (hwire : ∀ side {ds ds'}, ds <+: ds' → wire side ds <+: wire side ds')
    (ht : Tracks recv out last stop wire s₀ d) {a : Side × EndLabel}
    (hs : Duplex.step recv out last stop wire d a = some d') :
    Tracks recv out last stop wire s₀ d' := by
  have hput := put_step hr hi hstop ht hs
  obtain ⟨l, hl, rfl⟩ := Option.map_eq_some_iff.mp hs
  intro side
  -- the link with the end as it was, or as it is after its step
  have hself : ∀ e : End σ ε, e = Function.update d a.1 ⟨l.got, l.receiver⟩ side →
      Link.Tracks (wire side.other) (recv side) stop s₀
        ⟨put out last d side.other, e.got, e.receiver⟩ := by
    rintro e rfl
    by_cases ha : side = a.1
    · subst ha
      rw [Function.update_self]
      have hstep := (ht a.1).step (hr a.1) hi (fun b => b.elim) hl
      have hsender : l.sender = put out last d a.1.other := by
        obtain ⟨b, -⟩ | ⟨n, s, -, -, rfl⟩ | ⟨s, -, -, rfl⟩ := Link.step_cases hl
        · exact b.elim
        · rfl
        · rfl
      rw [← hsender]
      exact hstep
    · rw [Function.update_of_ne ha]
      exact ht side
  rcases hself _ rfl with h | ⟨s, hrec, h⟩
  · exact .inl (h.send (hwire _ (hput _)))
  · exact .inr ⟨s, hrec, h.send (hwire _ (hput _))⟩

/-- **Every run.** -/
theorem Tracks.run (hr : ∀ side, Receiver (recv side) out last Inv) (hi : Inv s₀)
    (hstop : ∀ s, last (stop s) = out s)
    (hwire : ∀ side {ds ds'}, ds <+: ds' → wire side ds <+: wire side ds')
    (ht : Tracks recv out last stop wire s₀ d) {ls : List (Side × EndLabel)}
    (hrun : Libnio.Trace.run (Duplex.step recv out last stop wire) d ls = some d') :
    Tracks recv out last stop wire s₀ d' :=
  Libnio.Trace.run_induct (fun _ _ _ _ ht hs => ht.step hr hi hstop hwire hs)
    (Libnio.Trace.meets_true d ls) ht hrun

/-- **What an end has put out** is the beginning of what the other one has told, and
all of it when everything has come in and the end goes on. -/
theorem Tracks.conveys (hr : ∀ side, Receiver (recv side) out last Inv) {Idle : σ → Prop}
    (hidle : ∀ s, Idle s → Inv s) (hstop : ∀ s, last (stop s) = out s) (hs : Idle s₀)
    (hout : out s₀ = []) {packet : μ → List α} {Same : μ → ω → Prop}
    {told : Side → List ω → List μ}
    (hwire : ∀ side ds, wire side ds = (told side ds).flatMap packet)
    (hm : ∀ side ds, ∀ m ∈ told side.other ds,
      Carries (recv side) out last Idle (packet m) (Same m))
    (ht : Tracks recv out last stop wire s₀ d) (side : Side) :
    ∃ first, first <+: told side.other (put out last d side.other) ∧
      List.Forall₂ Same first (put out last d side) ∧
      ((∃ s, (d side).receiver = .ok s) →
        (d side).got = (wire side.other (put out last d side.other)).length →
        first = told side.other (put out last d side.other)) := by
  have hcome : (link out last d side).come (wire side.other)
      <+: (told side.other (put out last d side.other)).flatMap packet := by
    rw [← hwire]
    exact List.take_prefix _ _
  obtain ⟨first, ds, hfirst, hsame, hput, hall⟩ := (ht side).conveys (hr side) hidle hstop hs
    (hm side _) hcome
  rw [hout, List.nil_append] at hput
  refine ⟨first, hfirst, ?_, ?_⟩
  · have hput : put out last d side = ds := hput
    rw [hput]
    exact hsame
  · intro hok hgot
    refine hall hok ?_
    rw [← hwire]
    show (wire side.other (put out last d side.other)).take (d side).got = _
    rw [hgot, List.take_length]

end Duplex

end Stream
