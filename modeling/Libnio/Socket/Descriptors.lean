import Libnio.Socket.Server
import Libnio.Trace.Amortized
import Libnio.Trace.Custody

/-!
# Socket — who has the descriptors of servers

Each open descriptor of a process is with one of its servers, with the rest of the
program, or with nobody, who never closes it. `descriptors_in_custody`: no two have
the same one, a server closes none but its own, and what comes to nobody is counted.
-/

namespace Libnio.Socket.Process

open Trace Trace.Custody

variable {σ : Type*} (names : Names)

/-! ## Who has a descriptor -/

/-- What a server has. -/
def held (p : Process σ) (s : σ) : Option Int := (p.servers s).bind ServerSocket.held

/-- The calls of `::close` by a server in a turn. -/
def closings (p : Process σ) : Turn σ → List (σ × Int)
  | .open s answer =>
      ((p.servers s).map fun srv => (srv.open answer).closes.map (s, ·)).getD []
  | .accept s wantsAddr answer => (Socket.accept names wantsAddr answer).closes.map (s, ·)
  | .onRead s answer => (Socket.accept names true answer).closes.map (s, ·)
  | .destroy s => ((p.servers s).map fun srv => srv.destroy.map (s, ·)).getD []
  | _ => []

/-- How many descriptors are left open in a turn with nobody to close them: the one
that was open when `open` is called again, the new one when `listen` fails, and
what is accepted without a handler. -/
def loses (p : Process σ) : Turn σ → Nat
  | .open s answer =>
      (if (p.held s).isSome then 1 else 0) +
        if answer.socket.isSome ∧ answer.bind ∧ !answer.listen then 1 else 0
  | .onRead s answer =>
      if (Socket.accept names true answer).ret ≠ -1 ∧
        (p.servers s).all fun srv => !srv.onAccept then 1 else 0
  | _ => 0

/-- Who has a descriptor. -/
inductive Holder (σ : Type*) where
  | server (s : σ)
  | program
  | nobody
deriving DecidableEq

/-- What becomes of the descriptors in a turn. -/
def moves (p : Process σ) : Turn σ → List (Move Int (Holder σ))
  | .open s answer =>
      ((p.held s).map fun fd => .pass fd (.server s) .nobody).toList ++
        match answer.socket with
        | none => []
        | some fd =>
            if !answer.bind then [] else [.take fd (if answer.listen then .server s else .nobody)]
  | .accept _ wantsAddr answer =>
      let r := Socket.accept names wantsAddr answer
      if r.ret = -1 then [] else [.take r.ret .program]
  | .onRead s answer =>
      let r := Socket.accept names true answer
      if r.ret = -1 then []
      else [.take r.ret (if (p.servers s).any ServerSocket.onAccept then .program else .nobody)]
  | .destroy s => ((p.held s).map fun fd => .release fd (.server s)).toList
  | .opens fd => [.take fd .program]
  | .closes fd => [.release fd .program]
  | _ => []

/-- The table says who has the descriptors of the process. -/
structure Agrees (p : Process σ) (t : Int → Option (Holder σ)) : Prop where
  opened : ∀ fd, fd ∈ p.opened ↔ t fd ≠ none
  given : ∀ fd, fd ∈ p.given ↔ t fd = some .program
  held : ∀ s fd, p.held s = some fd ↔ t fd = some (.server s)
  nonneg : ∀ fd, t fd ≠ none → 0 ≤ fd

/-! ## The table follows the process -/

variable {p p' : Process σ} {t : Int → Option (Holder σ)} {s : σ} {srv : Option ServerSocket}
  {fd : Int} {n : Nat}

@[simp] theorem mem_opened_get : fd ∈ (p.get (some n)).opened ↔ fd ∈ p.opened ∨ fd = n := by
  simp [get, or_comm]

@[simp] theorem given_get (o : Option Nat) : (p.get o).given = p.given := rfl

@[simp] theorem held_get (o : Option Nat) : (p.get o).held = p.held := rfl

@[simp] theorem mem_opened_close (fds : List Int) :
    fd ∈ (p.close fds).opened ↔ fd ∈ p.opened ∧ fd ∉ fds := by
  simp [close]

@[simp] theorem given_close (fds : List Int) : (p.close fds).given = p.given := rfl

@[simp] theorem held_close (fds : List Int) : (p.close fds).held = p.held := rfl

@[simp] theorem opened_give (o : Option Int) : (p.give o).opened = p.opened := rfl

@[simp] theorem mem_given_give (o : Option Int) :
    fd ∈ (p.give o).given ↔ fd ∈ p.given ∨ o = some fd := by
  simp [give]

@[simp] theorem held_give (o : Option Int) : (p.give o).held = p.held := rfl

@[simp] theorem mem_opened_drop {x : Int} : x ∈ (p.drop fd).opened ↔ x ∈ p.opened ∧ x ≠ fd := by
  simp [drop]

@[simp] theorem mem_given_drop {x : Int} : x ∈ (p.drop fd).given ↔ x ≠ fd ∧ x ∈ p.given := by
  simp [drop]

@[simp] theorem held_drop (fd : Int) : (p.drop fd).held = p.held := rfl

theorem Agrees.free (h : p.Agrees t) (hf : fd ∉ p.opened) : t fd = none := by
  by_contra hne
  exact hf ((h.opened fd).mpr hne)

theorem Agrees.notMem_given (h : p.Agrees t) (hf : fd ∉ p.opened) : fd ∉ p.given := by
  intro hg
  exact hf ((h.opened fd).mpr (by simp [(h.given fd).mp hg]))

theorem Agrees.not_held (h : p.Agrees t) (hf : fd ∉ p.opened) : p.held s ≠ some fd := by
  intro hs
  exact hf ((h.opened fd).mpr (by simp [(h.held s fd).mp hs]))

/-- One descriptor changes hands. -/
theorem Agrees.change (h : p.Agrees t) {o : Option (Holder σ)} (hfd : o ≠ none → 0 ≤ fd)
    (hopened : ∀ x, x ∈ p'.opened ↔ if x = fd then o ≠ none else x ∈ p.opened)
    (hgiven : ∀ x, x ∈ p'.given ↔ if x = fd then o = some .program else x ∈ p.given)
    (hheld : ∀ s x, p'.held s = some x ↔
      if x = fd then o = some (.server s) else p.held s = some x) :
    p'.Agrees (Function.update t fd o) := by
  constructor
  · intro x
    rw [hopened, Function.update_apply, h.opened]
    split <;> rfl
  · intro x
    rw [hgiven, Function.update_apply, h.given]
    split <;> rfl
  · intro s x
    rw [hheld, Function.update_apply, h.held]
    split <;> rfl
  · intro x
    rw [Function.update_apply]
    split
    next hx => rwa [hx]
    next => exact h.nonneg x

/-- No two servers have the same descriptor. -/
theorem Agrees.unique (h : p.Agrees t) {r : σ} (hr : p.held r = some fd)
    (hs : p.held s = some fd) : r = s := by
  have htr := (h.held r fd).mp hr
  have hts := (h.held s fd).mp hs
  simpa [htr] using hts

/-- The program closes what it has. -/
theorem Agrees.release_program (h : p.Agrees t) (hfd : fd ∈ p.given) :
    (p.drop fd).Agrees (Function.update t fd none) := by
  have ht := (h.given fd).mp hfd
  refine h.change (by simp) ?_ ?_ ?_
  · intro x
    by_cases hx : x = fd <;> simp [hx]
  · intro x
    by_cases hx : x = fd <;> simp [hx]
  · intro r x
    by_cases hx : x = fd
    · simp [hx, h.held, ht]
    · simp [hx]

section Program

variable (h : p.Agrees t) (hn : (n : Int) ∉ p.opened)
include h hn

theorem Agrees.take_nobody : (p.get (some n)).Agrees (Function.update t n (some .nobody)) := by
  refine h.change (fun _ => Int.natCast_nonneg n) ?_ ?_ ?_
  · intro x
    by_cases hx : x = n <;> simp [hx]
  · intro x
    by_cases hx : x = n
    · simp [hx, h.notMem_given hn]
    · simp [hx]
  · intro r x
    by_cases hx : x = n
    · simp [hx, h.not_held hn]
    · simp [hx]

theorem Agrees.take_program :
    ((p.get (some n)).give (some n)).Agrees (Function.update t n (some .program)) := by
  refine h.change (fun _ => Int.natCast_nonneg n) ?_ ?_ ?_
  · intro x
    by_cases hx : x = n <;> simp [hx]
  · intro x
    by_cases hx : x = n <;> simp [hx, eq_comm]
  · intro r x
    by_cases hx : x = n
    · simp [hx, h.not_held hn]
    · simp [hx]

end Program

theorem get_none (p : Process σ) : p.get none = p := by
  ext <;> simp [get]

theorem give_none (p : Process σ) : p.give none = p := by
  ext <;> simp [give]

theorem close_nil (p : Process σ) : p.close [] = p := by
  ext <;> simp [close]

theorem close_get (hn : (n : Int) ∉ p.opened) : (p.get (some n)).close [(n : Int)] = p := by
  ext x
  · rfl
  · simp only [mem_opened_close, mem_opened_get, List.mem_singleton]
    grind
  · rfl

theorem Agrees.invalid (h : p.Agrees t) : (-1 : Int) ∉ p.opened := by
  intro hm
  have := h.nonneg _ ((h.opened _).mp hm)
  omega

theorem Agrees.close_invalid (h : p.Agrees t) : p.close [-1] = p := by
  have hneg := h.invalid
  ext x
  · rfl
  · simp only [mem_opened_close, List.mem_singleton]
    grind
  · rfl

theorem agrees_start (opened : Finset Nat) :
    (start opened : Process σ).Agrees fun fd =>
      if fd ∈ opened.image Nat.cast then some .program else none := by
  constructor
  · intro fd
    rw [start]
    split <;> simp [*]
  · intro fd
    rw [start]
    split <;> simp [*]
  · intro s fd
    simp [start, held]
  · intro fd
    split
    next hfd =>
      obtain ⟨n, -, rfl⟩ := Finset.mem_image.mp hfd
      exact fun _ => Int.natCast_nonneg n
    next => exact fun h => absurd rfl h

variable [DecidableEq σ]

theorem held_setServer (p : Process σ) (s : σ) (srv : Option ServerSocket) :
    (p.setServer s srv).held = Function.update p.held s (srv.bind ServerSocket.held) := by
  funext r
  by_cases hr : r = s
  · simp [held, setServer, hr]
  · simp [held, setServer, Function.update_of_ne hr]

@[simp] theorem opened_setServer : (p.setServer s srv).opened = p.opened := rfl

@[simp] theorem given_setServer : (p.setServer s srv).given = p.given := rfl

/-- A server that has what it had. -/
theorem Agrees.setServer (h : p.Agrees t) (hs : srv.bind ServerSocket.held = p.held s) :
    (p.setServer s srv).Agrees t := by
  refine ⟨h.opened, h.given, ?_, h.nonneg⟩
  intro r x
  rw [held_setServer, hs, Function.update_eq_self, h.held]

/-- A server no longer has its descriptor. -/
theorem Agrees.held_dropped (h : p.Agrees t) (hfd : p.held s = some fd) (r : σ) (x : Int) :
    Function.update p.held s none r = some x ↔ if x = fd then False else p.held r = some x := by
  by_cases hr : r = s
  · subst hr
    simp only [Function.update_self, hfd]
    grind
  · rw [Function.update_of_ne hr]
    split
    next hx =>
      subst hx
      exact ⟨fun hrx => hr (h.unique hrx hfd), False.elim⟩
    next => rfl

theorem Agrees.abandon (h : p.Agrees t) (hfd : p.held s = some fd)
    (hs : srv.bind ServerSocket.held = none) :
    (p.setServer s srv).Agrees (Function.update t fd (some .nobody)) := by
  have ht := (h.held s fd).mp hfd
  refine h.change (fun _ => h.nonneg fd (by simp [ht])) ?_ ?_ ?_
  · intro x
    by_cases hx : x = fd
    · simp [hx, h.opened, ht]
    · simp [hx]
  · intro x
    by_cases hx : x = fd
    · simp [hx, h.given, ht]
    · simp [hx]
  · intro r x
    rw [held_setServer, hs, h.held_dropped hfd]
    simp

/-- A server closes what it has and is gone. -/
theorem Agrees.release_server (h : p.Agrees t) (hfd : p.held s = some fd) :
    ((p.close [fd]).setServer s none).Agrees (Function.update t fd none) := by
  have ht := (h.held s fd).mp hfd
  refine h.change (by simp) ?_ ?_ ?_
  · intro x
    by_cases hx : x = fd <;> simp [hx]
  · intro x
    by_cases hx : x = fd
    · simp [hx, h.given, ht]
    · simp [hx]
  · intro r x
    rw [held_setServer, held_close, Option.bind_none, h.held_dropped hfd]
    simp

theorem Agrees.take_server (h : p.Agrees t) (hn : (n : Int) ∉ p.opened)
    (hs : p.held s = none) {v : ServerSocket} (hv : v.lfd = n) :
    ((p.get (some n)).setServer s (some v)).Agrees (Function.update t n (some (.server s))) := by
  have hheld : v.held = some (n : Int) := by simp [ServerSocket.held, hv]
  refine h.change (fun _ => Int.natCast_nonneg n) ?_ ?_ ?_
  · intro x
    by_cases hx : x = n <;> simp [hx]
  · intro x
    by_cases hx : x = n
    · simp [hx, h.notMem_given hn]
    · simp [hx]
  · intro r x
    rw [held_setServer, held_get, Option.bind_some, hheld]
    by_cases hr : r = s
    · subst hr
      simp [hs]
      grind
    · rw [Function.update_of_ne hr]
      by_cases hx : x = n
      · simp [hx, h.not_held hn, Ne.symm hr]
      · simp [hx]

/-! ## One turn -/

theorem setServer_setServer (v : Option ServerSocket) :
    (p.setServer s v).setServer s srv = p.setServer s srv := by
  simp [setServer]

/-- What a server had is left with nobody. -/
theorem Agrees.abandoned (h : p.Agrees t) {v : ServerSocket} (hv : v.held = none) :
    ∃ t₁, run move t ((p.held s).map fun fd => .pass fd (.server s) .nobody).toList = some t₁ ∧
      (p.setServer s (some v)).Agrees t₁ := by
  cases hs : p.held s with
  | none => exact ⟨t, rfl, h.setServer (by simpa [hs] using hv)⟩
  | some fd =>
      refine ⟨_, ?_, h.abandon hs hv⟩
      simp [run_cons, move, (h.held s fd).mp hs]

theorem Agrees.open (h : p.Agrees t) {v : ServerSocket} {answer : OpenAnswer}
    (hfree : p.Free answer.socket) :
    ∃ t', run move t (moves names p (.open s answer)) = some t' ∧
      (((p.get answer.socket).close (v.open answer).closes).setServer s
        (some (v.open answer).server)).Agrees t' := by
  obtain ⟨t₁, ht₁, hq⟩ := h.abandoned (s := s) (v := { v with lfd := -1 }) (by rfl)
  obtain ⟨socket, bind, listen⟩ := answer
  rw [moves, run_append, ht₁, Option.bind_some]
  cases socket with
  | none =>
      refine ⟨t₁, rfl, ?_⟩
      dsimp only [ServerSocket.open]
      rwa [get_none, close_nil]
  | some n =>
      have hn : (n : Int) ∉ (p.setServer s (some { v with lfd := -1 })).opened := hfree n rfl
      have ht₁n := hq.free hn
      cases bind with
      | false =>
          refine ⟨t₁, rfl, ?_⟩
          have heq := close_get hn
          rw [← heq] at hq
          exact hq
      | true =>
          cases listen with
          | false =>
              refine ⟨_, by simp [run_cons, move, ht₁n]; rfl, ?_⟩
              have hlost := hq.take_nobody hn
              rw [← hlost.close_invalid] at hlost
              exact hlost
          | true =>
              refine ⟨_, by simp [run_cons, move, ht₁n]; rfl, ?_⟩
              have hheld : (p.setServer s (some { v with lfd := -1 })).held s = none := by
                rw [held_setServer, Function.update_self]
                rfl
              have htaken := hq.take_server hn hheld (v := { v with lfd := n }) rfl
              have heq : ((p.setServer s (some { v with lfd := -1 })).get (some n)).setServer s
                  (some { v with lfd := (n : Int) }) =
                  (p.get (some n)).setServer s (some { v with lfd := (n : Int) }) :=
                setServer_setServer (p := p.get (some n)) _
              rw [heq, ← close_nil (p.get (some n))] at htaken
              exact htaken

/-- The new descriptor is with the program if `accept` has returned it to the program, or
`on_read` has a handler for it. -/
theorem Agrees.accepted (h : p.Agrees t) (wantsAddr : Bool) {answer : AcceptAnswer}
    (hfree : p.Free answer.fd) (toProgram : Bool) :
    let r := Socket.accept names wantsAddr answer
    ∃ t', run move t (if r.ret = -1 then []
        else [.take r.ret (if toProgram then .program else .nobody)]) = some t' ∧
      (((p.get answer.fd).close r.closes).give
        (if r.ret = -1 ∨ toProgram = false then none else some r.ret)).Agrees t' := by
  obtain ⟨n, hfd, hr⟩ | ⟨hfd, hr⟩ | ⟨n, addr, hfd, hr⟩ := accept_cases names wantsAddr answer
  all_goals rw [hr, hfd]
  · refine ⟨t, rfl, ?_⟩
    have hn : (n : Int) ∉ p.opened := hfree n hfd
    have heq : ((p.get (some n)).close [(n : Int)]).give none = p := by rw [close_get hn, give_none]
    rw [← heq] at h
    exact h
  · refine ⟨t, rfl, ?_⟩
    have heq : ((p.get none).close []).give none = p := by rw [get_none, close_nil, give_none]
    rw [← heq] at h
    exact h
  · have hn : (n : Int) ∉ p.opened := hfree n hfd
    have htn := h.free hn
    have hret : (n : Int) ≠ -1 := by omega
    cases toProgram with
    | true =>
        refine ⟨Function.update t n (some .program), by simp [run_cons, move, htn, hret], ?_⟩
        simpa [hret, close_nil] using h.take_program hn
    | false =>
        refine ⟨Function.update t n (some .nobody), by simp [run_cons, move, htn, hret], ?_⟩
        simpa [close_nil, give_none] using h.take_nobody hn

/-- **The table follows**: what a turn does is moves of the descriptors, each by the one
who has it. -/
theorem Agrees.turn (h : p.Agrees t) {turn : Turn σ} (hs : step names p turn = some p') :
    ∃ t', run move t (moves names p turn) = some t' ∧ p'.Agrees t' := by
  cases turn with
  | construct s =>
      obtain ⟨hnone, heq⟩ := Option.ite_none_right_eq_some.mp hs
      cases heq
      refine ⟨t, rfl, h.setServer ?_⟩
      rw [Process.held, Option.isNone_iff_eq_none.mp hnone]
      rfl
  | setHandlers s onAccept onError =>
      obtain ⟨v, hv, heq⟩ := Option.map_eq_some_iff.mp hs
      cases heq
      refine ⟨t, rfl, h.setServer ?_⟩
      rw [Process.held, hv]
      rfl
  | «open» s answer =>
      obtain ⟨v, hv, hs⟩ := Option.bind_eq_some_iff.mp hs
      obtain ⟨hfree, heq⟩ := Option.ite_none_right_eq_some.mp hs
      cases heq
      exact h.open names hfree
  | accept s wantsAddr answer =>
      obtain ⟨v, hv, hs⟩ := Option.bind_eq_some_iff.mp hs
      obtain ⟨⟨hfree, _⟩, heq⟩ := Option.ite_none_right_eq_some.mp hs
      cases heq
      rw [moves]
      simpa using h.accepted names wantsAddr hfree true
  | onRead s answer =>
      obtain ⟨v, hv, hs⟩ := Option.bind_eq_some_iff.mp hs
      obtain ⟨⟨hfree, _⟩, heq⟩ := Option.ite_none_right_eq_some.mp hs
      cases heq
      rw [moves, hv, Option.any_some, v.onRead_fd]
      exact h.accepted names true hfree v.onAccept
  | destroy s =>
      obtain ⟨v, hv, heq⟩ := Option.map_eq_some_iff.mp hs
      cases heq
      have hheld : p.held s = v.held := by
        rw [Process.held, hv]
        rfl
      by_cases hlfd : v.lfd ≥ 0
      · have hv' : v.held = some v.lfd := if_pos hlfd
        rw [hv'] at hheld
        have htv := (h.held s v.lfd).mp hheld
        rw [moves, hheld, ServerSocket.destroy, if_pos hlfd]
        exact ⟨_, by simp [run_cons, move, htv], h.release_server hheld⟩
      · have hv' : v.held = none := if_neg hlfd
        rw [hv'] at hheld
        rw [moves, hheld, ServerSocket.destroy, if_neg hlfd, close_nil]
        exact ⟨t, rfl, h.setServer hheld.symm⟩
  | opens n =>
      obtain ⟨hfree, heq⟩ := Option.ite_none_right_eq_some.mp hs
      cases heq
      have hn : (n : Int) ∉ p.opened := hfree n rfl
      have htn := h.free hn
      exact ⟨_, by simp [moves, run_cons, move, htn], h.take_program hn⟩
  | closes fd =>
      obtain ⟨hfd, heq⟩ := Option.ite_none_right_eq_some.mp hs
      cases heq
      exact ⟨_, by simp [moves, run_cons, move, (h.given fd).mp hfd], h.release_program hfd⟩

/-- Nobody never lets go of a descriptor. -/
theorem moves_leaves (turn : Turn σ) :
    ∀ m ∈ moves names p turn, Move.leaves .nobody m = false := by
  cases turn with
  | «open» s answer =>
      obtain ⟨socket, bind, listen⟩ := answer
      cases hs : p.held s <;> cases socket <;> cases bind <;> simp [moves, hs, Move.leaves]
  | accept => rw [moves]; split <;> simp [Move.leaves]
  | onRead => rw [moves]; split <;> simp [Move.leaves]
  | destroy s => cases hs : p.held s <;> simp [moves, hs, Move.leaves]
  | _ => simp [moves, Move.leaves]

/-- What nobody gets is what the turn loses. -/
theorem countP_moves {turn : Turn σ} (hs : step names p turn = some p') :
    (moves names p turn).countP (Move.gives .nobody) = loses names p turn := by
  cases turn with
  | «open» s answer =>
      obtain ⟨socket, bind, listen⟩ := answer
      cases hh : p.held s <;> cases socket <;> cases bind <;> cases listen <;>
        simp [moves, loses, hh, Move.gives]
  | accept =>
      simp only [moves, loses]
      split <;> simp [Move.gives]
  | onRead s answer =>
      obtain ⟨v, hv, -⟩ := Option.bind_eq_some_iff.mp hs
      rw [moves, loses, hv, Option.any_some, Option.all_some]
      by_cases hret : (Socket.accept names true answer).ret = -1
      · simp [hret]
      · cases v.onAccept <;> simp [hret, Move.gives]
  | destroy s => cases hh : p.held s <;> simp [moves, loses, hh, Move.gives]
  | _ => simp [moves, loses, Move.gives]

/-- **A server closes what it has**, whenever it closes what was open. -/
theorem Agrees.closes (h : p.Agrees t) {turn : Turn σ} (hs : step names p turn = some p') :
    ∀ c ∈ closings names p turn, c.2 ∈ p.opened → p.held c.1 = some c.2 := by
  have haccept {s : σ} {wantsAddr : Bool} {answer : AcceptAnswer} (hfree : p.Free answer.fd) :
      ∀ c ∈ (Socket.accept names wantsAddr answer).closes.map (s, ·), c.2 ∈ p.opened →
        p.held c.1 = some c.2 := by
    obtain ⟨n, hfd, hr⟩ | ⟨hfd, hr⟩ | ⟨n, addr, hfd, hr⟩ := accept_cases names wantsAddr answer
    · simpa [hr] using fun hn => absurd hn (hfree n hfd)
    · simp [hr]
    · simp [hr]
  cases turn with
  | «open» s answer =>
      obtain ⟨v, hv, hs⟩ := Option.bind_eq_some_iff.mp hs
      obtain ⟨hfree, -⟩ := Option.ite_none_right_eq_some.mp hs
      obtain ⟨socket, bind, listen⟩ := answer
      have hneg := h.invalid
      rw [closings, hv, Option.map_some, Option.getD_some]
      cases socket with
      | none => simp [ServerSocket.open]
      | some n =>
          have hn : (n : Int) ∉ p.opened := hfree n rfl
          cases bind <;> cases listen <;> simp [ServerSocket.open, hn, hneg]
  | accept s wantsAddr answer =>
      obtain ⟨v, hv, hs⟩ := Option.bind_eq_some_iff.mp hs
      obtain ⟨⟨hfree, -⟩, -⟩ := Option.ite_none_right_eq_some.mp hs
      exact haccept hfree
  | onRead s answer =>
      obtain ⟨v, hv, hs⟩ := Option.bind_eq_some_iff.mp hs
      obtain ⟨⟨hfree, -⟩, -⟩ := Option.ite_none_right_eq_some.mp hs
      exact haccept hfree
  | destroy s =>
      obtain ⟨v, hv, -⟩ := Option.map_eq_some_iff.mp hs
      rw [closings, hv, Option.map_some, Option.getD_some, ServerSocket.destroy]
      split
      next hlfd =>
        intro c hc _
        rw [List.map_singleton, List.mem_singleton] at hc
        rw [hc, Process.held, hv, Option.bind_some]
        exact if_pos hlfd
      next => simp
  | _ => simp [closings]

/-- **Step to run.** -/
theorem Agrees.turns (h : p.Agrees t) {lost : Finset Int} (hlost : Has t .nobody lost)
    {turns : List (Turn σ)} (hr : run (step names) p turns = some p') :
    ∃ t' lost', p'.Agrees t' ∧ Has t' .nobody lost' ∧
      lost'.card = lost.card + spent (step names) (loses names) p turns := by
  induction turns generalizing p t lost with
  | nil =>
      cases hr
      exact ⟨t, lost, h, hlost, rfl⟩
  | cons turn turns ih =>
      rw [run_cons] at hr
      obtain ⟨q, hq, hr⟩ := Option.bind_eq_some_iff.mp hr
      obtain ⟨t₁, ht₁, h₁⟩ := h.turn names hq
      obtain ⟨lost₁, hlost₁, hcard₁⟩ := hlost.run (moves_leaves names turn) ht₁
      obtain ⟨t₂, lost₂, h₂, hlost₂, hcard₂⟩ := ih h₁ hlost₁ hr
      refine ⟨t₂, lost₂, h₂, hlost₂, ?_⟩
      rw [hcard₂, hcard₁, countP_moves names hq, spent_some hq, Nat.add_assoc]

/-- **Descriptors of servers.** In every run, however the servers take turns and
whatever number the kernel gives again: a server has an open descriptor that
neither the program nor another server has; what the servers close is what they
have, if it was open at all; and what is open with nobody to close it is as much
as the turns have lost. -/
theorem descriptors_in_custody {opened : Finset Nat} {turns : List (Turn σ)}
    (hr : run (step names) (start opened) turns = some p) :
    (∀ s fd, p.held s = some fd →
      fd ∈ p.opened ∧ fd ∉ p.given ∧ ∀ r, p.held r = some fd → r = s) ∧
    p.given ⊆ p.opened ∧
    Meets (step names) (fun q turn =>
      ∀ c ∈ closings names q turn, c.2 ∈ q.opened → q.held c.1 = some c.2)
      (start opened) turns ∧
    ∃ lost : Finset Int,
      (∀ fd, fd ∈ lost ↔ fd ∈ p.opened ∧ fd ∉ p.given ∧ ∀ s, p.held s ≠ some fd) ∧
      lost.card = spent (step names) (loses names) (start opened) turns := by
  have hstart := agrees_start (σ := σ) opened
  have hnobody : Has (fun fd : Int => if fd ∈ opened.image Nat.cast then some (.program : Holder σ)
      else none) .nobody ∅ := by
    intro fd
    dsimp only
    split <;> simp
  obtain ⟨t, lost, h, hlost, hcard⟩ := hstart.turns names hnobody hr
  refine ⟨?_, ?_, ?_, lost, ?_, by simpa using hcard⟩
  · intro s fd hs
    have ht := (h.held s fd).mp hs
    refine ⟨(h.opened fd).mpr (by simp [ht]), ?_, fun r hr => h.unique hr hs⟩
    rw [h.given, ht]
    simp
  · intro fd hfd
    exact (h.opened fd).mpr (by simp [(h.given fd).mp hfd])
  · refine meets_induct (I := fun q => ∃ t, Agrees q t) ?_ ?_ (meets_taken hr) ⟨_, hstart⟩
    · rintro q turn q' - ⟨t, h⟩ hq
      obtain ⟨t', -, h'⟩ := h.turn names hq
      exact ⟨t', h'⟩
    · rintro q turn ⟨q', hq⟩ ⟨t, h⟩
      exact h.closes names hq
  · intro fd
    rw [hlost fd, h.opened, h.given]
    simp only [ne_eq, h.held]
    rcases t fd with _ | (_ | _ | _) <;> simp

/-- A `listen` that fails, a client without a handler and an `open` over an open socket;
the number `6` is given twice, for a client and then to another server. -/
def twoServers : List (Turn Bool) :=
  [.construct true, .open true ⟨some 3, true, false⟩, .open true ⟨some 4, true, true⟩,
    .onRead true (.accepted 5 .other), .setHandlers true true true,
    .onRead true (.accepted 6 (.inet [127, 0, 0, 1] 80)), .closes 6, .construct false,
    .open false ⟨some 6, true, true⟩, .open true ⟨some 7, true, true⟩, .destroy true]

theorem descriptors_in_custody_two :
    ∃ p ∈ run (step ⟨fun _ => some "127.0.0.1", fun _ => none⟩) (start ∅) twoServers,
      p.opened = {3, 4, 5, 6} ∧ p.held false = some 6 ∧
      ∃ lost : Finset Int,
        (∀ fd, fd ∈ lost ↔ fd ∈ p.opened ∧ fd ∉ p.given ∧ ∀ s, p.held s ≠ some fd) ∧
        lost.card = 3 := by
  have hr : run (step ⟨fun _ => some "127.0.0.1", fun _ => none⟩) (start ∅) twoServers =
      some _ := rfl
  exact ⟨_, hr, by decide, by decide, (descriptors_in_custody _ hr).2.2.2⟩

end Libnio.Socket.Process
