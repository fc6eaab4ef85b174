import Libnio.Common.ArrayIter
import Libnio.Event.Backends

/-!
# Event — select over its array

`select_event_wait` goes through `es->ready`, an array that it fills with its files,
runs through with `foreach` and empties. Every run over the array is the run that goes
through the list of the files instead.
-/

namespace Libnio.Event

open Common Stream NioEvent

variable {ι π : Type} [DecidableEq ι]

namespace Loop

section Wait

variable (host : Host ι (EventSelect ι) π) (behave : Behaviour ι π)

/-- `select_event_wait`, with the array `es->ready`: `foreach` for at most so many
rounds. -/
def selectWaitArray (rounds : Nat) (s : Loop ι (EventSelect ι) π) (arr : NioArray ι)
    (ready : Dir → Int → Bool) (except : Int → Bool) :
    Except ArrayFault (Option (Nat × Loop ι (EventSelect ι) π × NioArray ι)) :=
  let (rset, wset, xset) := (s.ev.backend.set .read, s.ev.backend.set .write, s.ev.backend.xset)
  let s := { s with ev := s.ev.scan }
  let nfds := s.ev.backend.maxfd + 1
  let rset := selectSet nfds (ready .read) rset
  let xset := selectSet nfds except xset
  let n := selectCount nfds rset + selectCount nfds xset
  if n = 0 then .ok (some (0, s, arr))
  else do
    let arr ← arr.appendAll s.ev.backend.ready
    match ← arr.foreachUp (selectOne host behave rset wset xset) rounds s with
    | none => return none
    | some s =>
        let arr ← arr.nioArrayClean false
        return some (n, s, arr)

/-- A call, or `nio_event_wait`. -/
def arrayRound (rounds : Nat) (s : Loop ι (EventSelect ι) π) (arr : NioArray ι) :
    Round ι π ((Dir → Int → Bool) × (Int → Bool)) →
      Except ArrayFault (Option (Loop ι (EventSelect ι) π × NioArray ι))
  | .call c => .ok (some (s.call host c, arr))
  | .wait w => do
      let r ← selectWaitArray host behave rounds { s with ev := s.ev.prepare host } arr w.1 w.2
      return r.map Prod.snd

def arrayRun (rounds : Nat) (s : Loop ι (EventSelect ι) π) (arr : NioArray ι) :
    List (Round ι π ((Dir → Int → Bool) × (Int → Bool))) →
      Except ArrayFault (Option (Loop ι (EventSelect ι) π × NioArray ι))
  | [] => .ok (some (s, arr))
  | r :: rs => do
      match ← s.arrayRound host behave rounds arr r with
      | none => return none
      | some (s, arr) => arrayRun rounds s arr rs

end Wait

variable {fd : ι → Int} {size : Int} {rounds : Nat}

/-- **A wait** over the array, which it finds and leaves empty, is one over the list. -/
theorem selectWaitArray_eq (host : Host ι (EventSelect ι) π) (behave : Behaviour ι π)
    {s : Loop ι (EventSelect ι) π} (h : s.ev.Selected fd)
    (hfd : Function.Injective fd) (hfits : ∀ fe, 0 ≤ fd fe ∧ fd fe < size)
    (hsize : size ≤ 2 ^ 30 - 16) (hr : size ≤ rounds) {arr : NioArray ι} (ha : arr.Holds [])
    (hs : arr.Sized) (ready : Dir → Int → Bool) (except : Int → Bool) :
    ∃ arr', s.selectWaitArray host behave rounds arr ready except
        = .ok (some ((s.selectWait host behave ready except).1,
            (s.selectWait host behave ready except).2, arr')) ∧
      arr'.Holds [] ∧ arr'.Sized := by
  -- there are no more files to go through than descriptors
  have hlen : s.ev.scan.backend.ready.length ≤ size.toNat :=
    h.scan.packs.length_entries_le hfd hfits
  simp only [selectWaitArray, selectWait]
  split
  · exact ⟨arr, rfl, ha, hs⟩
  · generalize selectOne host behave _ _ _ = body
    obtain ⟨a₁, a₂, hall, hloop, hclean, ha₂, hs₂⟩ := ha.pass hs s.ev.scan.backend.ready
      (by omega) body (show _ ≤ rounds by omega) { s with ev := s.ev.scan }
    refine ⟨a₂, ?_, ha₂, hs₂⟩
    rw [hall, ok_bind, hloop, ok_bind]
    dsimp only
    rw [hclean]
    rfl

end Loop

namespace Backend

open NioEvent

variable {fd : ι → Int} {espipe : Int → Bool} {size : Int} {rounds : Nat}

/-- A run over the array is the run over the list, in whatever state it begins. -/
theorem arrayRun_eq (hfd : Function.Injective fd) (hfits : ∀ fe, 0 ≤ fd fe ∧ fd fe < size)
    (hsize : size ≤ 2 ^ 30 - 16) (hr : size ≤ rounds) (behave : Behaviour ι π)
    {accepts : ι → Bool} {s : Loop ι (EventSelect ι) π}
    (h : Tied (EventSelect.host espipe) (Selected fd) accepts s) {arr : NioArray ι}
    (ha : arr.Holds []) (hs : arr.Sized)
    (rs : List (Round ι π ((Dir → Int → Bool) × (Int → Bool)))) :
    ∃ arr', s.arrayRun (EventSelect.host espipe) behave rounds arr rs
        = .ok (some ((select espipe).run behave s rs, arr')) ∧ arr'.Holds [] ∧ arr'.Sized := by
  induction rs generalizing s arr with
  | nil => exact ⟨arr, rfl, ha, hs⟩
  | cons r rs ih =>
      have hnext : Tied (EventSelect.host espipe) (Selected fd) accepts
          ((select espipe).round behave s r) :=
        h.run select_plain (select_ties hfd) [r]
      obtain ⟨arr₁, hround, ha₁, hs₁⟩ : ∃ arr₁,
          s.arrayRound (EventSelect.host espipe) behave rounds arr r
            = .ok (some ((select espipe).round behave s r, arr₁)) ∧ arr₁.Holds [] ∧
          arr₁.Sized := by
        cases r with
        | call c => exact ⟨arr, rfl, ha, hs⟩
        | wait w =>
            have hp : Selected fd (s.ev.prepare (EventSelect.host espipe)) :=
              (h.prepare (select_ties hfd)).ties
            obtain ⟨arr₁, hwait, ha₁, hs₁⟩ := Loop.selectWaitArray_eq (EventSelect.host espipe)
              behave (s := { s with ev := s.ev.prepare _ }) hp hfd hfits hsize hr ha hs w.1 w.2
            refine ⟨arr₁, ?_, ha₁, hs₁⟩
            rw [Loop.arrayRound, hwait]
            rfl
      obtain ⟨arr₂, hrun, hend⟩ := ih hnext ha₁ hs₁
      refine ⟨arr₂, ?_, hend⟩
      rw [Loop.arrayRun, hround, ok_bind]
      exact hrun

/-- **The array is a list.** Whatever is called, from outside or by callbacks in a wait, and
whatever is ready: `select_event_wait` over `es->ready` does in every round what it does
over the list of its files, and no cell of the array is read or written that it does not
have. Each round finds the array empty. -/
theorem select_over_array (hfd : Function.Injective fd)
    (hfits : ∀ fe, 0 ≤ fd fe ∧ fd fe < size) (hsize : size ≤ 2 ^ 30 - 16) (hr : size ≤ rounds)
    (memory : Nat → Option ι) (espipe : Int → Bool) (behave : Behaviour ι π)
    (oneshot direct : Bool) (setsize : Int)
    (rs : List (Round ι π ((Dir → Int → Bool) × (Int → Bool)))) :
    let s : Loop ι _ π := .start oneshot direct setsize fd (.create size)
    ∃ arr₀ arr, NioArray.nioArrayCreate 100 memory = .ok arr₀ ∧
      s.arrayRun (EventSelect.host espipe) behave rounds arr₀ rs
        = .ok (some ((select espipe).run behave s rs, arr)) ∧ arr.contents = [] := by
  intro s
  obtain ⟨arr₀, hcreate, ha⟩ : ∃ arr₀, NioArray.nioArrayCreate 100 memory = .ok arr₀ ∧
      arr₀.Holds [] := ⟨_, rfl, rfl, show (0 : Int) ≤ 112 by decide, rfl⟩
  have hs := (NioArray.returns_create 100 memory arr₀ hcreate).1
  have hstart : Tied (EventSelect.host espipe) (Selected fd) _ s :=
    (select_ties hfd).tied_start (selected_create oneshot direct setsize hfits)
  obtain ⟨arr, hrun, hend, -⟩ := arrayRun_eq hfd hfits hsize hr behave hstart ha hs rs
  exact ⟨arr₀, arr, hcreate, hrun, ((NioArray.holds_iff.mp hend).2.2).symm⟩

/-- Two files, one of which is ready. -/
theorem select_over_array_two :
    let fd : Fin 2 → Int := fun fe => 3 + fe.val
    let rs : List (Round (Fin 2) Unit ((Dir → Int → Bool) × (Int → Bool))) :=
      [.call (.add .read 0 ()), .call (.add .read 1 ()),
        .wait (fun _ d => decide (d = 3), fun _ => false)]
    let s : Loop (Fin 2) _ Unit := .start false false 16 fd (.create 16)
    ∃ arr₀ arr, NioArray.nioArrayCreate 100 (fun _ => (none : Option (Fin 2))) = .ok arr₀ ∧
      s.arrayRun (EventSelect.host fun _ => true) (fun _ => []) 16 arr₀ rs
        = .ok (some ((select fun _ => true).run (fun _ => []) s rs, arr)) ∧ arr.contents = [] := by
  intro fd rs s
  have hfd : Function.Injective fd := by
    intro x y h
    have h' : (3 : Int) + x.val = 3 + y.val := h
    omega
  have hfits : ∀ fe, 0 ≤ fd fe ∧ fd fe < 16 := by
    intro fe
    have h' : fd fe = 3 + fe.val := rfl
    omega
  exact select_over_array hfd hfits (by decide) (show (16 : Int) ≤ (16 : Nat) by decide)
    (fun _ => none) (fun _ => true) (fun _ => []) false false 16 rs

end Backend

end Libnio.Event
