import Libnio.Event.Turns

/-!
# Event — two backends that agree

A backend whose operations may fail, but never do of what it is asked for, makes
of an event what one makes of it that cannot fail. `Meant` is what the files are
between two calls, whichever the mode.
-/

namespace Libnio.Event

variable {ι κ π : Type}

/-- The second host does as the first one, of all that is asked where `J` holds. -/
structure Host.Agrees (host host' : Host ι κ π) (J : NioEvent ι κ π → Prop) : Prop where
  espipe : host'.espipe = host.espipe
  add : ∀ {ev}, J ev → ∀ dir fe, host'.add dir ev.oneshot ev.backend fe (ev.files fe)
    = host.add dir ev.oneshot ev.backend fe (ev.files fe)
  del : ∀ {ev}, J ev → ∀ dir fe, (ev.files fe).mask dir = true →
    host'.del dir ev.oneshot ev.backend fe (ev.files fe)
      = host.del dir ev.oneshot ev.backend fe (ev.files fe)
  /-- both are `NULL`, or neither is -/
  delReadwrite : (host.delReadwrite = none ∧ host'.delReadwrite = none) ∨
    ∃ op op', host.delReadwrite = some op ∧ host'.delReadwrite = some op' ∧
      ∀ {ev}, J ev → ∀ fe, ((ev.files fe).mask .read || (ev.files fe).mask .write) = true →
        op' ev.oneshot ev.backend fe (ev.files fe) = op ev.oneshot ev.backend fe (ev.files fe)
  eventFflush : host'.eventFflush = host.eventFflush

theorem Host.Agrees.refl (host : Host ι κ π) (J : NioEvent ι κ π → Prop) : host.Agrees host J := by
  refine ⟨rfl, fun _ _ _ => rfl, fun _ _ _ _ => rfl, ?_, rfl⟩
  cases h : host.delReadwrite with
  | none => exact .inl ⟨rfl, rfl⟩
  | some op => exact .inr ⟨op, op, rfl, rfl, fun _ _ _ => rfl⟩

variable [DecidableEq ι]

namespace NioEvent

variable {host host' : Host ι κ π} {J : NioEvent ι κ π → Prop}

/-! ## The operations -/

theorem agrees_oper_add (ha : host.Agrees host' J) {ev : NioEvent ι κ π} (hj : J ev) (dir : Dir)
    (fe : ι) : ev.oper (.add dir) (host'.add dir) fe = ev.oper (.add dir) (host.add dir) fe := by
  simp only [oper, ha.add hj]

theorem agrees_oper_del (ha : host.Agrees host' J) {ev : NioEvent ι κ π} (hj : J ev) (dir : Dir)
    (fe : ι) (hm : (ev.files fe).mask dir = true) :
    ev.oper (.del dir) (host'.del dir) fe = ev.oper (.del dir) (host.del dir) fe := by
  simp only [oper, ha.del hj dir fe hm]

/-- One bit of `oper` that asks for an add. -/
theorem agrees_pending_add (hb : Backed host J) (ha : host.Agrees host' J) {ev : NioEvent ι κ π}
    (hj : J ev) (dir : Dir) (fe : ι) :
    ev.pending (.add dir) (host'.add dir) (·.operAdd dir) fe
      = ev.pending (.add dir) (host.add dir) (·.operAdd dir) fe ∧
    J (ev.pending (.add dir) (host.add dir) (·.operAdd dir) fe) := by
  unfold pending
  split
  · exact ⟨agrees_oper_add ha hj dir fe, hb.add hj dir fe⟩
  · exact ⟨rfl, hj⟩

/-- One bit of `oper` that asks for a deletion, of a side in the mask. -/
theorem agrees_pending_del (hb : Backed host J) (ha : host.Agrees host' J) {ev : NioEvent ι κ π}
    (hj : J ev) (dir : Dir) (fe : ι)
    (hm : (ev.files fe).operDel dir = true → (ev.files fe).mask dir = true) :
    ev.pending (.del dir) (host'.del dir) (·.operDel dir) fe
      = ev.pending (.del dir) (host.del dir) (·.operDel dir) fe ∧
    J (ev.pending (.del dir) (host.del dir) (·.operDel dir) fe) := by
  unfold pending
  split
  · rename_i hd
    exact ⟨agrees_oper_del ha hj dir fe (hm hd), hb.del hj dir fe (hm hd)⟩
  · exact ⟨rfl, hj⟩

/-- The deletion of the one side leaves what waits of the other in the mask. -/
theorem held_after_del (hb : Backed host J) {ev : NioEvent ι κ π} (hh : ev.DelsHeld) {dir d : Dir}
    (hd : d ≠ dir) (fe : ι) :
    let ev' := ev.pending (.del dir) (host.del dir) (·.operDel dir) fe
    (ev'.files fe).operDel d = true → (ev'.files fe).mask d = true := by
  intro ev' h
  simp only [ev', pending] at h ⊢
  split at h
  · rename_i hbit
    rw [if_pos hbit, oper_files, if_pos rfl]
    rw [oper_files, if_pos rfl] at h
    exact (hb.other hd _ _ _ _).trans (hh fe d h).1
  · rename_i hbit
    rw [if_neg hbit]
    exact (hh fe d h).1

/-! ## The calls -/

theorem agrees_add (hb : Backed host J) (ha : host.Agrees host' J) {ev : NioEvent ι κ π}
    (hj : J ev) (dir : Dir) (fe : ι) (proc : π) :
    ev.add host' dir fe proc = ev.add host dir fe proc := by
  have hj₁ := hb.unasked hj (unasked_setOperDel ev fe dir false)
  have hj₂ := hb.unasked hj₁ (unasked_setType _ fe .sock)
  unfold NioEvent.add
  dsimp only
  rw [ha.espipe, agrees_oper_add ha hj₂]

theorem agrees_del (hb : Backed host J) (ha : host.Agrees host' J) {ev : NioEvent ι κ π}
    (hj : J ev) (dir : Dir) (fe : ι) : ev.del host' dir fe = ev.del host dir fe := by
  have hj₁ := hb.unasked hj (unasked_setOperAdd ev fe dir false)
  unfold NioEvent.del
  dsimp only
  cases hm : ((ev.modify fe (·.setOperAdd dir false)).files fe).mask dir with
  | true => rw [agrees_oper_del ha hj₁ dir fe hm]
  | false => rfl

theorem agrees_delMasked (hb : Backed host J) (ha : host.Agrees host' J) {ev : NioEvent ι κ π}
    (hj : J ev) (fe : ι) : ev.delMasked host' fe = ev.delMasked host fe := by
  have hside : ∀ (dir : Dir) (ev : NioEvent ι κ π), J ev →
      (if (ev.files fe).mask dir then ev.oper (.del dir) (host'.del dir) fe else ev)
        = if (ev.files fe).mask dir then ev.oper (.del dir) (host.del dir) fe else ev := by
    intro dir ev hj
    split
    · rename_i hm
      exact agrees_oper_del ha hj dir fe hm
    · rfl
  have hread : J (if (ev.files fe).mask .read then ev.oper (.del .read) (host.del .read) fe
      else ev) := by
    split
    · rename_i hm
      exact hb.del hj .read fe hm
    · exact hj
  rcases ha.delReadwrite with ⟨h, h'⟩ | ⟨op, op', h, h', hop⟩
  · simp only [delMasked, h, h']
    rw [hside .read ev hj, hside .write _ hread]
  · simp only [delMasked, h, h']
    split
    · rename_i hm
      simp only [oper, hop hj fe hm]
    · rfl

theorem agrees_delReadwrite (hb : Backed host J) (ha : host.Agrees host' J)
    {ev : NioEvent ι κ π} (hj : J ev) (fe : ι) :
    ev.delReadwrite host' fe = ev.delReadwrite host fe := by
  simp only [NioEvent.delReadwrite, fflush, agrees_delMasked hb ha hj, ha.eventFflush]

theorem agrees_apply (hb : Backed host J) (ha : host.Agrees host' J) {ev : NioEvent ι κ π}
    (hj : J ev) (c : Call ι π) : ev.apply host' c = ev.apply host c := by
  cases c with
  | add dir fe proc => exact congrArg Prod.snd (agrees_add hb ha hj dir fe proc)
  | del dir fe => exact agrees_del hb ha hj dir fe
  | delReadwrite fe => exact agrees_delReadwrite hb ha hj fe

theorem agrees_prepareOne (hb : Backed host J) (ha : host.Agrees host' J) {ev : NioEvent ι κ π}
    (hj : J ev) (hh : ev.DelsHeld) (fe : ι) :
    ev.prepareOne host' fe = ev.prepareOne host fe := by
  obtain ⟨h₁, hj₁⟩ := agrees_pending_del hb ha hj .read fe fun h => (hh fe .read h).1
  obtain ⟨h₂, hj₂⟩ := agrees_pending_del hb ha hj₁ .write fe (held_after_del hb hh (by simp) fe)
  obtain ⟨h₃, hj₃⟩ := agrees_pending_add hb ha hj₂ .read fe
  obtain ⟨h₄, -⟩ := agrees_pending_add hb ha hj₃ .write fe
  simp only [NioEvent.prepareOne]
  rw [h₁, h₂, h₃, h₄]

theorem agrees_prepare (hb : Backed host J) (ha : host.Agrees host' J) {ev : NioEvent ι κ π}
    (hj : J ev) (hh : ev.DelsHeld) : ev.prepare host' = ev.prepare host := by
  have hloop : ∀ (n : Nat) (ev : NioEvent ι κ π), J ev → ev.DelsHeld →
      prepareLoop host' n ev = prepareLoop host n ev := by
    intro n
    induction n with
    | zero => exact fun _ _ _ => rfl
    | succ n ih =>
        intro ev hj hh
        rw [prepareLoop, prepareLoop]
        split
        · rfl
        · rename_i fe _
          obtain ⟨hj', hh'⟩ := hb.prepareOne hj hh fe
          rw [agrees_prepareOne hb ha hj hh, ih _ hj' hh']
  rw [NioEvent.prepare, NioEvent.prepare, hloop _ ev hj hh]

end NioEvent

/-! ## Both modes -/

namespace Loop

open History NioEvent

variable {host : Host ι κ π} {accepts : ι → Bool} {s : Loop ι κ π}

/-- A run of either mode, between two calls. -/
def Meant (host : Host ι κ π) (accepts : ι → Bool) (s : Loop ι κ π) : Prop :=
  s.Deferred host accepts ∨ s.Direct host accepts

theorem meant_start (host : Host ι κ π) (oneshot direct : Bool) (setsize : Int) (fd : ι → Int)
    (backend : κ) :
    (start oneshot direct setsize fd backend : Loop ι κ π).Meant host
      fun fe => decide (fd fe < setsize) && host.espipe (fd fe) := by
  cases direct with
  | false => exact .inl (deferred_start host oneshot setsize fd backend)
  | true => exact .inr (direct_start host oneshot setsize fd backend)

theorem Meant.call (hs : host.Succeeds) (h : s.Meant host accepts) (c : Call ι π) :
    (s.call host c).Meant host accepts :=
  h.imp (fun h => h.call hs c) fun h => h.call hs c

theorem Meant.invoke (h : s.Meant host accepts) (dir : Dir) (fe : ι) (proc : π) :
    Meant host accepts { s with log := s.log ++ [.invoke dir fe proc] } :=
  h.imp (fun h => h.invoke dir fe proc) fun h => h.invoke dir fe proc

theorem Meant.prepare (hs : host.Succeeds) (h : s.Meant host accepts) :
    Meant host accepts { s with ev := s.ev.prepare host } :=
  h.imp (fun h => (h.prepare hs).1) fun h => h.prepare

/-- What the backend keeps for itself is of no matter to the files. -/
theorem Meant.setBackend (h : s.Meant host accepts) (f : κ → κ) :
    Meant host accepts { s with ev := s.ev.setBackend f } :=
  h.imp
    (fun h => ⟨⟨h.follows.typesOk, h.follows.accepts_eq, h.follows.proc_eq⟩, h.direct_eq, h.nodup,
      h.pending, h.dels⟩)
    fun h => ⟨⟨h.follows.typesOk, h.follows.accepts_eq, h.follows.proc_eq⟩, h.direct_eq,
      h.ring_eq, h.mask_eq⟩

/-- **After `nio_event_prepare` the masks are the interest**, in both modes. -/
theorem Meant.prepared (hs : host.Succeeds) (h : s.Meant host accepts) (fe : ι) (dir : Dir) :
    ((s.ev.prepare host).files fe).mask dir = wanted accepts dir fe s.log := by
  rcases h with h | h
  · obtain ⟨hp, hring⟩ := h.prepare hs
    have hpend := hp.pending fe
    have hidle := hpend.idle (by rw [hring]; rfl) dir
    have hwant := hpend.want_eq dir
    rw [hidle.1, hidle.2, Bool.not_false, Bool.and_true, Bool.or_false] at hwant
    exact hwant.symm
  · exact h.prepare.mask_eq fe dir

end Loop

end Libnio.Event
