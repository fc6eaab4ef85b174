import Mathlib.Data.List.Sort
import Mathlib.Data.List.TakeWhile
import Mathlib.Tactic.Ring

/-!
# Timer — the timers of an event

`timers_` of `nio_event.cpp` and what `add_timer`, `del_timer`, `reset_timer`
and the first loop of `trigger_timers` make of it. Timers are named by any type
`τ`; the key under which a timer stands is in nanoseconds.
-/

namespace Libnio.Timer

/-- What a `long long` holds of a result: 64 bits of it. -/
def longLong (n : Int) : Int := n.bmod (2 ^ 64)

theorem longLong_of_lt {n : Int} (h : -2 ^ 63 ≤ n) (h' : n < 2 ^ 63) : longLong n = n := by
  unfold longLong
  rw [Int.bmod_eq_of_le] <;> omega

theorem longLong_ge (n : Int) : -2 ^ 63 ≤ longLong n := by
  unfold longLong
  have h := @Int.le_bmod n (2 ^ 64) (by decide)
  omega

/-- `SEC2NS` -/
abbrev sec2ns : Int := 1000000000

/-- `MS2NS` -/
abbrev ms2ns : Int := 1000000

/-- `nio_set_stamp`, of what `clock_gettime` has answered. -/
def setStamp (sec nsec : Int) : Int := longLong (sec * sec2ns + nsec - nsec.tmod ms2ns)

/-- The timers of a `nio_event`: `timers_` in the order of the multimap, and for
each timer its own `stamp_`. -/
structure Timers (τ : Type) where
  /-- `ev_->stamp` -/
  stamp : Int
  counter : UInt32
  timers : List (Int × τ)
  /-- `event_timer::get_expire()` -/
  expire : τ → Int

variable {τ : Type} [DecidableEq τ]

/-- `std::multimap::insert`: behind the entries with this key. -/
def insert (e : Int × τ) (timers : List (Int × τ)) : List (Int × τ) :=
  timers.orderedInsert (fun a b => a.1 < b.1) e

namespace Timers

/-- The key of a timer that is added now. -/
def due (ev : Timers τ) (ms : Int) : Int :=
  longLong (ev.stamp + ms * ms2ns + (ev.counter.toNat : Int) % ms2ns)

/-- `nio_event::add_timer` -/
def addTimer (ev : Timers τ) (tm : τ) (ms : Int) : Timers τ :=
  { ev with counter := ev.counter + 1,
            expire := Function.update ev.expire tm (ev.due ms),
            timers := insert (ev.due ms, tm) ev.timers }

/-- `nio_event::del_timer`: the first entry of the equal range that is `tm`. -/
def delTimer (ev : Timers τ) (tm : τ) : Timers τ :=
  { ev with timers := ev.timers.erase (ev.expire tm, tm) }

/-- `nio_event::reset_timer` -/
def resetTimer (ev : Timers τ) (tm : τ) (ms : Int) : Timers τ :=
  (ev.delTimer tm).addTimer tm ms

/-- The timers that the first loop of `trigger_timers` moves into its vector. -/
def expired (ev : Timers τ) : List (Int × τ) := ev.timers.takeWhile (fun e => e.1 ≤ ev.stamp)

/-- What that loop leaves. -/
def collect (ev : Timers τ) : Timers τ :=
  { ev with timers := ev.timers.dropWhile (fun e => e.1 ≤ ev.stamp) }

/-- The timers that have an entry. -/
def names (ev : Timers τ) : List τ := ev.timers.map Prod.snd

end Timers

/-! ## The order of the multimap -/

/-- The keys do not decrease. -/
def Sorted (timers : List (Int × τ)) : Prop := timers.Pairwise (fun a b => a.1 ≤ b.1)

omit [DecidableEq τ] in
theorem perm_insert (e : Int × τ) (timers : List (Int × τ)) :
    (insert e timers).Perm (e :: timers) :=
  List.perm_orderedInsert _ e timers

omit [DecidableEq τ] in
theorem mem_insert {e f : Int × τ} {timers : List (Int × τ)} :
    f ∈ insert e timers ↔ f = e ∨ f ∈ timers := by
  rw [(perm_insert e timers).mem_iff, List.mem_cons]

omit [DecidableEq τ] in
theorem Sorted.insert {timers : List (Int × τ)} (h : Sorted timers) (e : Int × τ) :
    Sorted (insert e timers) := by
  induction timers with
  | nil => simp [Sorted, Timer.insert]
  | cons f timers ih =>
      obtain ⟨hf, ht⟩ := List.pairwise_cons.mp h
      unfold Timer.insert at ih ⊢
      rw [List.orderedInsert_cons]
      split
      · rename_i hlt
        refine List.pairwise_cons.mpr ⟨?_, h⟩
        intro g hg
        rcases List.mem_cons.mp hg with rfl | hg
        · exact hlt.le
        · exact hlt.le.trans (hf g hg)
      · rename_i hge
        refine List.pairwise_cons.mpr ⟨?_, ih ht⟩
        intro g hg
        rcases mem_insert.mp hg with rfl | hg
        · exact not_lt.mp hge
        · exact hf g hg

omit [DecidableEq τ] in
/-- On sorted keys the loop that breaks at the first later key finds every
timer that is due. -/
theorem Sorted.takeWhile_eq {timers : List (Int × τ)} (h : Sorted timers) (stamp : Int) :
    timers.takeWhile (fun e => e.1 ≤ stamp) = timers.filter (fun e => e.1 ≤ stamp) := by
  induction timers with
  | nil => rfl
  | cons f timers ih =>
      obtain ⟨hf, ht⟩ := List.pairwise_cons.mp h
      rw [List.takeWhile_cons, List.filter_cons]
      split
      · rw [ih ht]
      · rename_i hlate
        symm
        rw [List.filter_eq_nil_iff]
        intro g hg
        have hfg := hf g hg
        simp only [decide_eq_true_eq] at hlate ⊢
        omega

/-! ## One operation -/

namespace Timers

@[simp] theorem addTimer_stamp (ev : Timers τ) (tm : τ) (ms : Int) :
    (ev.addTimer tm ms).stamp = ev.stamp := rfl

@[simp] theorem delTimer_stamp (ev : Timers τ) (tm : τ) : (ev.delTimer tm).stamp = ev.stamp := rfl

@[simp] theorem resetTimer_stamp (ev : Timers τ) (tm : τ) (ms : Int) :
    (ev.resetTimer tm ms).stamp = ev.stamp := rfl

@[simp] theorem delTimer_expire (ev : Timers τ) (tm : τ) :
    (ev.delTimer tm).expire = ev.expire := rfl

theorem mem_addTimer {ev : Timers τ} {tm : τ} {ms : Int} {e : Int × τ} :
    e ∈ (ev.addTimer tm ms).timers ↔ e = (ev.due ms, tm) ∨ e ∈ ev.timers := mem_insert

theorem names_addTimer (ev : Timers τ) (tm : τ) (ms : Int) :
    (ev.addTimer tm ms).names.Perm (tm :: ev.names) := by
  have h := (perm_insert (ev.due ms, tm) ev.timers).map Prod.snd
  exact h

theorem count_addTimer (ev : Timers τ) (tm : τ) (ms : Int) (other : τ) :
    (ev.addTimer tm ms).names.count other = ev.names.count other + if tm = other then 1 else 0 := by
  rw [(ev.names_addTimer tm ms).count_eq, List.count_cons]
  simp

theorem mem_delTimer {ev : Timers τ} {tm : τ} {e : Int × τ} (h : e ∈ (ev.delTimer tm).timers) :
    e ∈ ev.timers := List.mem_of_mem_erase h

theorem names_delTimer_sublist (ev : Timers τ) (tm : τ) :
    List.Sublist (ev.delTimer tm).names ev.names :=
  (List.erase_sublist).map Prod.snd

/-- A delete does not touch another timer's entries. -/
theorem count_delTimer_of_ne (ev : Timers τ) {tm other : τ} (h : tm ≠ other) :
    (ev.delTimer tm).names.count other = ev.names.count other := by
  unfold names delTimer
  induction ev.timers with
  | nil => rfl
  | cons e timers ih =>
      by_cases he : e = (ev.expire tm, tm)
      · subst he
        simp [h]
      · rw [List.erase_cons_tail (by simpa using he)]
        simp only [List.map_cons, List.count_cons, ih]

/-- A timer whose only entry is the one it knows of has none left. -/
theorem count_delTimer_self (ev : Timers τ) {tm : τ} (hone : ev.names.count tm ≤ 1)
    (hkey : ∀ key, (key, tm) ∈ ev.timers → key = ev.expire tm) :
    (ev.delTimer tm).names.count tm = 0 := by
  unfold names delTimer at *
  revert hone hkey
  induction ev.timers with
  | nil => intros; rfl
  | cons e timers ih =>
      intro hone hkey
      by_cases he : e = (ev.expire tm, tm)
      · subst he
        simp only [List.map_cons, List.count_cons_self] at hone
        simp only [List.erase_cons_head]
        omega
      · rw [List.erase_cons_tail (by simpa using he)]
        -- an entry of `tm` with another key is ruled out
        have hne : e.2 ≠ tm := by
          rintro rfl
          have hk := hkey e.1 (by simp)
          exact he (Prod.ext hk rfl)
        simp only [List.map_cons, List.count_cons] at hone ⊢
        have hz : (if e.2 == tm then 1 else 0) = 0 := by simp [hne]
        rw [hz] at hone ⊢
        exact ih hone (fun key hk => hkey key (List.mem_cons_of_mem _ hk))

omit [DecidableEq τ] in
theorem expired_append_collect (ev : Timers τ) : ev.expired ++ ev.collect.timers = ev.timers :=
  List.takeWhile_append_dropWhile

omit [DecidableEq τ] in
theorem le_of_mem_expired {ev : Timers τ} {e : Int × τ} (h : e ∈ ev.expired) : e.1 ≤ ev.stamp := by
  have he := List.mem_takeWhile_imp h
  simpa using he

end Timers

end Libnio.Timer
