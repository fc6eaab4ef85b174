import Libnio.Event.Event

/-!
# Event — what the calls do to a file

For each call what it leaves as it is, and what becomes of the procs; nothing
is assumed of the backend here.
-/

namespace Libnio.Event

variable {ι κ π : Type}

/-- The type of a file is what `lseek` says of its descriptor, and only a
socket has been registered for anything. -/
structure NioFile.TypeOk (host : Host ι κ π) (file : NioFile π) : Prop where
  nosock : file.type = .nosock → host.espipe file.fd = false
  sock : file.type = .sock → host.espipe file.fd = true
  idle : file.type ≠ .sock → ∀ dir,
    file.mask dir = false ∧ file.operAdd dir = false ∧ file.operDel dir = false

namespace NioEvent

variable (host : Host ι κ π)

/-- `nio_event_add_read` and `nio_event_add_write` take this file. -/
def accepts (ev : NioEvent ι κ π) (fe : ι) : Bool :=
  decide ((ev.files fe).fd < ev.setsize) && host.espipe (ev.files fe).fd

def TypesOk (ev : NioEvent ι κ π) : Prop := ∀ fe, (ev.files fe).TypeOk host

theorem typesOk_create (oneshot direct : Bool) (setsize : Int) (fd : ι → Int) (backend : κ) :
    TypesOk host (create oneshot direct setsize fd backend : NioEvent ι κ π) := by
  intro fe
  exact ⟨fun h => (by cases h), fun h => (by cases h), fun _ _ => ⟨rfl, rfl, rfl⟩⟩

/-! ## What a call leaves alone -/

/-- The event and the procs of its files, and which file each is. -/
structure Keeps (ev ev' : NioEvent ι κ π) : Prop where
  oneshot : ev'.oneshot = ev.oneshot
  direct : ev'.direct = ev.direct
  setsize : ev'.setsize = ev.setsize
  fd : ∀ fe, (ev'.files fe).fd = (ev.files fe).fd
  proc : ∀ fe, (ev'.files fe).proc = (ev.files fe).proc

theorem Keeps.refl (ev : NioEvent ι κ π) : Keeps ev ev :=
  ⟨rfl, rfl, rfl, fun _ => rfl, fun _ => rfl⟩

theorem Keeps.trans {ev₁ ev₂ ev₃ : NioEvent ι κ π} (h : Keeps ev₁ ev₂) (h' : Keeps ev₂ ev₃) :
    Keeps ev₁ ev₃ :=
  ⟨h'.oneshot.trans h.oneshot, h'.direct.trans h.direct, h'.setsize.trans h.setsize,
    fun fe => (h'.fd fe).trans (h.fd fe), fun fe => (h'.proc fe).trans (h.proc fe)⟩

variable {host} in
theorem Keeps.accepts {ev ev' : NioEvent ι κ π} (h : Keeps ev ev') (fe : ι) :
    ev'.accepts host fe = ev.accepts host fe := by
  rw [NioEvent.accepts, NioEvent.accepts, h.fd, h.setsize]

theorem keeps_fflush (ev : NioEvent ι κ π) : Keeps ev (ev.fflush host) := by
  unfold fflush
  split <;> exact ⟨rfl, rfl, rfl, fun _ => rfl, fun _ => rfl⟩

theorem keeps_ring (ev : NioEvent ι κ π) (ring : NioRing ι) : Keeps ev { ev with ring } :=
  ⟨rfl, rfl, rfl, fun _ => rfl, fun _ => rfl⟩

/-! ## Adding -/

variable [DecidableEq ι]

/-- What `nio_event_add_read` and `nio_event_add_write` come to when there is
something to ask of the backend. -/
def arm (dir : Dir) (fe : ι) (ev : NioEvent ι κ π) : NioEvent ι κ π :=
  let ev := ev.modify fe (·.setType .sock)
  let ev := if ev.direct then ev.oper (.add dir) (host.add dir) fe else ev.enqueue fe
  ev.modify fe (·.setOperAdd dir true)

variable {host}

/-- An accepted file gets its proc. -/
theorem add_accepted {ev : NioEvent ι κ π} {fe : ι} (hok : TypesOk host ev)
    (ha : ev.accepts host fe = true) (dir : Dir) (proc : π) :
    ev.add host dir fe proc =
      let ev := ev.modify fe (·.setOperDel dir false)
      let ev := if !(ev.files fe).mask dir || ev.oneshot then ev.arm host dir fe else ev
      (true, ev.modify fe (·.setProc dir (some proc))) := by
  rw [accepts, Bool.and_eq_true, decide_eq_true_eq] at ha
  obtain ⟨hfd, hsock⟩ := ha
  have htype : (ev.files fe).type ≠ .nosock := by
    intro hc
    rw [(hok fe).nosock hc] at hsock
    cases hsock
  have hfd' : ¬ (ev.files fe).fd ≥ ev.setsize := by omega
  simp only [add, if_neg htype, if_neg hfd', modify_files, if_true, NioFile.setOperDel_fd,
    NioFile.setOperDel_type, hsock, Bool.true_eq_false, and_false, if_false]
  split <;> rfl

/-- Another one is left alone, but for what is known of its type. -/
theorem add_refused {ev : NioEvent ι κ π} {fe : ι} (hok : TypesOk host ev)
    (ha : ev.accepts host fe = false) (dir : Dir) (proc : π) :
    (ev.add host dir fe proc).1 = false ∧
      ((ev.add host dir fe proc).2 = ev ∨
        (ev.files fe).type = .none ∧ host.espipe (ev.files fe).fd = false ∧
        (ev.add host dir fe proc).2
          = (ev.modify fe (·.setOperDel dir false)).modify fe (·.setType .nosock)) := by
  by_cases htype : (ev.files fe).type = .nosock
  · simp [add, htype]
  by_cases hfd : (ev.files fe).fd ≥ ev.setsize
  · simp [add, htype, hfd]
  have hsock : host.espipe (ev.files fe).fd = false := by
    simpa [accepts, show (ev.files fe).fd < ev.setsize by omega] using ha
  have hnone : (ev.files fe).type = .none := by
    cases ht : (ev.files fe).type with
    | none => rfl
    | nosock => exact absurd ht htype
    | sock =>
        rw [(hok fe).sock ht] at hsock
        cases hsock
  have hmask := ((hok fe).idle (by rw [hnone]; simp) dir).1
  simp [add, hfd, hsock, hnone, hmask]

/-! ## What is kept, call by call -/

theorem keeps_modify (ev : NioEvent ι κ π) (fe : ι) {f : NioFile π → NioFile π}
    (hfd : ∀ file, (f file).fd = file.fd) (hproc : ∀ file, (f file).proc = file.proc) :
    Keeps ev (ev.modify fe f) := by
  refine ⟨rfl, rfl, rfl, fun e => ?_, fun e => ?_⟩
  · rw [modify_files]
    split
    · rename_i he
      rw [he, hfd]
    · rfl
  · rw [modify_files]
    split
    · rename_i he
      rw [he, hproc]
    · rfl

theorem keeps_oper (ev : NioEvent ι κ π) (kind : OperKind) (op : EventOper ι κ π) (fe : ι) :
    Keeps ev (ev.oper kind op fe) := by
  refine ⟨rfl, rfl, rfl, fun e => ?_, fun e => ?_⟩
  · rw [oper_files]
    split
    · rename_i he
      rw [he]
    · rfl
  · rw [oper_files]
    split
    · rename_i he
      rw [he]
    · rfl

@[simp] theorem enqueue_files (ev : NioEvent ι κ π) (fe : ι) :
    (ev.enqueue fe).files = ev.files := by
  unfold enqueue
  split <;> rfl

theorem keeps_enqueue (ev : NioEvent ι κ π) (fe : ι) : Keeps ev (ev.enqueue fe) := by
  unfold enqueue
  split <;> exact ⟨rfl, rfl, rfl, fun _ => rfl, fun _ => rfl⟩

/-- What is kept when a side gets its proc. -/
theorem Keeps.setProc {ev ev' : NioEvent ι κ π} (h : Keeps ev ev') (fe : ι) (dir : Dir)
    (proc : Option π) :
    Keeps (ev.modify fe (·.setProc dir proc)) (ev'.modify fe (·.setProc dir proc)) := by
  refine ⟨h.oneshot, h.direct, h.setsize, fun e => ?_, fun e => ?_⟩
  · rw [modify_files, modify_files]
    split
    · exact h.fd fe
    · exact h.fd e
  · rw [modify_files, modify_files]
    split
    · simp only [NioFile.setProc, h.proc]
    · exact h.proc e

variable (host)

theorem keeps_arm (dir : Dir) (fe : ι) (ev : NioEvent ι κ π) :
    Keeps ev (ev.arm host dir fe) := by
  have h₁ : Keeps ev (ev.modify fe (·.setType .sock)) :=
    keeps_modify _ _ (fun _ => rfl) fun _ => rfl
  have h₂ : ∀ ev : NioEvent ι κ π,
      Keeps ev (if ev.direct then ev.oper (.add dir) (host.add dir) fe else ev.enqueue fe) := by
    intro ev
    split
    · exact keeps_oper _ _ _ _
    · exact keeps_enqueue _ _
  exact (h₁.trans (h₂ _)).trans (keeps_modify _ _ (fun _ => rfl) fun _ => rfl)

theorem add_keeps {ev : NioEvent ι κ π} {fe : ι} (hok : TypesOk host ev)
    (ha : ev.accepts host fe = true) (dir : Dir) (proc : π) :
    Keeps (ev.modify fe (·.setProc dir (some proc))) (ev.add host dir fe proc).2 := by
  rw [add_accepted hok ha]
  refine Keeps.setProc ?_ fe dir (some proc)
  have h₁ : Keeps ev (ev.modify fe (·.setOperDel dir false)) :=
    keeps_modify _ _ (fun _ => rfl) fun _ => rfl
  split
  · exact h₁.trans (keeps_arm host dir fe _)
  · exact h₁

theorem refused_keeps {ev : NioEvent ι κ π} {fe : ι} (hok : TypesOk host ev)
    (ha : ev.accepts host fe = false) (dir : Dir) (proc : π) :
    Keeps ev (ev.add host dir fe proc).2 := by
  obtain ⟨-, h | ⟨-, -, h⟩⟩ := add_refused hok ha dir proc
  · rw [h]
    exact .refl ev
  · rw [h]
    have h₁ : Keeps ev (ev.modify fe (·.setOperDel dir false)) :=
      keeps_modify _ _ (fun _ => rfl) fun _ => rfl
    exact h₁.trans (keeps_modify _ _ (fun _ => rfl) fun _ => rfl)

theorem del_keeps (dir : Dir) (fe : ι) (ev : NioEvent ι κ π) :
    Keeps (ev.modify fe (·.setProc dir none)) (ev.del host dir fe) := by
  refine Keeps.setProc ?_ fe dir none
  have h₁ : Keeps ev (ev.modify fe (·.setOperAdd dir false)) :=
    keeps_modify _ _ (fun _ => rfl) fun _ => rfl
  split
  · split
    · exact h₁.trans (keeps_oper _ _ _ _)
    · exact (h₁.trans (keeps_enqueue _ _)).trans
        (keeps_modify _ _ (fun _ => rfl) fun _ => rfl)
  · exact h₁

theorem keeps_delMasked (fe : ι) (ev : NioEvent ι κ π) : Keeps ev (ev.delMasked host fe) := by
  unfold delMasked
  split
  · split
    · exact keeps_oper _ _ _ _
    · exact .refl ev
  · have h : ∀ (dir : Dir) (ev : NioEvent ι κ π),
        Keeps ev (if (ev.files fe).mask dir then ev.oper (.del dir) (host.del dir) fe else ev) := by
      intro dir ev
      split
      · exact keeps_oper _ _ _ _
      · exact .refl ev
    exact (h .read ev).trans (h .write _)

/-- `nio_event_del_readwrite` keeps both procs. -/
theorem delReadwrite_keeps (fe : ι) (ev : NioEvent ι κ π) :
    Keeps ev (ev.delReadwrite host fe) := by
  refine Keeps.trans ?_ (keeps_fflush host _)
  refine Keeps.trans ?_ (keeps_modify _ _ (fun _ => rfl) fun _ => rfl)
  have h₁ := keeps_delMasked host fe ev
  split
  · exact h₁.trans (keeps_ring _ _)
  · exact h₁

/-- **Where procs come from.** A call leaves a proc, takes it away, or is the one
that hands it to its file. -/
theorem apply_proc (ev : NioEvent ι κ π) (c : Call ι π) (e : ι) (d : Dir) :
    ((ev.apply host c).files e).proc d = (ev.files e).proc d ∨
      ((ev.apply host c).files e).proc d = none ∨
      ∃ proc, c = .add d e proc ∧ ((ev.apply host c).files e).proc d = some proc := by
  -- a proc that is set at the end
  have hset : ∀ {v : NioEvent ι κ π} (dir : Dir) (fe : ι) (proc : Option π), Keeps ev v →
      ((v.modify fe (·.setProc dir proc)).files e).proc d
        = if e = fe ∧ d = dir then proc else (ev.files e).proc d := by
    intro v dir fe proc hv
    rw [modify_files]
    by_cases he : e = fe
    · subst he
      rw [if_pos rfl, NioFile.setProc_proc, hv.proc, Function.update_apply]
      simp only [true_and]
    · rw [if_neg he, if_neg (fun h => he h.1), hv.proc]
  cases c with
  | add dir fe proc =>
      have hadded : ∀ {v : NioEvent ι κ π}, Keeps ev v →
          ((v.modify fe (·.setProc dir (some proc))).files e).proc d = (ev.files e).proc d ∨
          ((v.modify fe (·.setProc dir (some proc))).files e).proc d = none ∨
          ∃ p, (Call.add dir fe proc : Call ι π) = .add d e p ∧
            ((v.modify fe (·.setProc dir (some proc))).files e).proc d = some p := by
        intro v hv
        rw [hset dir fe (some proc) hv]
        split
        · rename_i h
          obtain ⟨rfl, rfl⟩ := h
          exact .inr (.inr ⟨proc, rfl, rfl⟩)
        · exact .inl rfl
      have hdel : Keeps ev (ev.modify fe (·.setOperDel dir false)) :=
        keeps_modify _ _ (fun _ => rfl) fun _ => rfl
      unfold NioEvent.apply NioEvent.add
      dsimp only
      split
      · exact .inl rfl
      · split
        · exact .inl rfl
        · split
          · split
            · have htype : Keeps ev ((ev.modify fe (·.setOperDel dir false)).modify fe
                  (·.setType .nosock)) := hdel.trans (keeps_modify _ _ (fun _ => rfl) fun _ => rfl)
              exact .inl (by rw [htype.proc])
            · exact hadded (hdel.trans (keeps_arm host dir fe _))
          · exact hadded hdel
  | del dir fe =>
      have hv := del_keeps host dir fe ev
      show ((ev.del host dir fe).files e).proc d = _ ∨ ((ev.del host dir fe).files e).proc d
        = none ∨ _
      rw [hv.proc, hset dir fe none (.refl ev)]
      split
      · exact .inr (.inl rfl)
      · exact .inl rfl
  | delReadwrite fe =>
      left
      show ((ev.delReadwrite host fe).files e).proc d = _
      rw [(delReadwrite_keeps host fe ev).proc]

theorem keeps_pending (kind : OperKind) (op : EventOper ι κ π) (bit : NioFile π → Bool)
    (fe : ι) (ev : NioEvent ι κ π) : Keeps ev (ev.pending kind op bit fe) := by
  unfold pending
  split
  · exact keeps_oper _ _ _ _
  · exact .refl ev

theorem keeps_prepareOne (fe : ι) (ev : NioEvent ι κ π) : Keeps ev (ev.prepareOne host fe) := by
  refine Keeps.trans ?_ (keeps_modify _ _ (fun _ => rfl) fun _ => rfl)
  refine Keeps.trans ?_ (keeps_ring _ _)
  exact (((keeps_pending _ _ _ _ _).trans (keeps_pending _ _ _ _ _)).trans
    (keeps_pending _ _ _ _ _)).trans (keeps_pending _ _ _ _ _)

theorem prepare_keeps (ev : NioEvent ι κ π) : Keeps ev (ev.prepare host) := by
  refine Keeps.trans ?_ (keeps_ring _ _)
  generalize ev.ring.entries.length = n
  induction n generalizing ev with
  | zero => exact .refl ev
  | succ n ih =>
      rw [prepareLoop]
      split
      · exact .refl ev
      · exact (keeps_prepareOne host _ ev).trans (ih _)

/-! ## What is known of the types -/

variable {host}

theorem typesOk_modify {ev : NioEvent ι κ π} (hok : TypesOk host ev) {fe : ι}
    {f : NioFile π → NioFile π} (hf : (f (ev.files fe)).TypeOk host) :
    TypesOk host (ev.modify fe f) := by
  intro e
  rw [modify_files]
  split
  · exact hf
  · exact hok e

theorem typesOk_oper {ev : NioEvent ι κ π} (hok : TypesOk host ev) {fe : ι}
    (hs : (ev.files fe).type = .sock) (kind : OperKind) (op : EventOper ι κ π) :
    TypesOk host (ev.oper kind op fe) := by
  intro e
  rw [oper_files]
  split
  · exact ⟨(hok fe).nosock, (hok fe).sock, fun hc => absurd hs hc⟩
  · exact hok e

theorem typesOk_enqueue {ev : NioEvent ι κ π} (hok : TypesOk host ev) (fe : ι) :
    TypesOk host (ev.enqueue fe) := by
  unfold enqueue
  split <;> exact hok

omit [DecidableEq ι] in
/-- A file that is not a socket has no bit set. -/
theorem TypesOk.sock_of_mask {ev : NioEvent ι κ π} (hok : TypesOk host ev) {fe : ι} {dir : Dir}
    (h : (ev.files fe).mask dir = true) : (ev.files fe).type = .sock := by
  by_contra hc
  rw [((hok fe).idle hc dir).1] at h
  cases h

theorem typesOk_arm {ev : NioEvent ι κ π} (hok : TypesOk host ev) {fe : ι}
    (hs : host.espipe (ev.files fe).fd = true) (dir : Dir) :
    TypesOk host (ev.arm host dir fe) := by
  have hsock : ∀ file : NioFile π, file.fd = (ev.files fe).fd → file.type = .sock →
      file.TypeOk host := fun file hfd ht =>
    ⟨fun hc => (by rw [ht] at hc; cases hc), fun _ => (by rw [hfd, hs]), fun hc => absurd ht hc⟩
  have h₁ : TypesOk host (ev.modify fe (·.setType .sock)) :=
    typesOk_modify hok (hsock _ rfl rfl)
  have ht₁ : ((ev.modify fe (·.setType .sock)).files fe).type = .sock := by simp
  simp only [arm]
  split
  · exact typesOk_modify (typesOk_oper h₁ ht₁ _ _) (hsock _ (by simp) (by simp))
  · exact typesOk_modify (typesOk_enqueue h₁ fe)
      (hsock _ (by rw [enqueue_files]; simp) (by rw [enqueue_files]; simp))

theorem typesOk_add {ev : NioEvent ι κ π} (hok : TypesOk host ev) (dir : Dir) (fe : ι)
    (proc : π) : TypesOk host (ev.add host dir fe proc).2 := by
  have hdel : (·.setOperDel dir false : NioFile π → NioFile π) (ev.files fe) |>.TypeOk host := by
    refine ⟨(hok fe).nosock, (hok fe).sock, fun ht d => ?_⟩
    obtain ⟨hm, ha, hd⟩ := (hok fe).idle ht d
    refine ⟨hm, ha, ?_⟩
    simp [NioFile.setOperDel, Function.update_apply, hd]
  cases ha : ev.accepts host fe with
  | true =>
      have hs : host.espipe (ev.files fe).fd = true := by
        rw [accepts, Bool.and_eq_true] at ha
        exact ha.2
      have h₁ := typesOk_modify hok hdel
      have hproc : ∀ ev : NioEvent ι κ π, TypesOk host ev →
          TypesOk host (ev.modify fe (·.setProc dir (some proc))) := fun ev h =>
        typesOk_modify h ⟨(h fe).nosock, (h fe).sock, (h fe).idle⟩
      rw [add_accepted hok ha]
      refine hproc _ ?_
      split
      · exact typesOk_arm h₁ (by simpa using hs) dir
      · exact h₁
  | false =>
      obtain ⟨-, h | ⟨-, hs, h⟩⟩ := add_refused hok ha dir proc
      · rw [h]
        exact hok
      · rw [h]
        have h₁ := typesOk_modify hok hdel
        have ht : (ev.files fe).type ≠ .sock := fun hc => by
          rw [(hok fe).sock hc] at hs
          cases hs
        refine typesOk_modify h₁ ⟨fun _ => ?_, fun hc => (by cases hc), fun _ => ?_⟩
        · simpa using hs
        · exact (h₁ fe).idle (by simpa using ht)

theorem typesOk_del {ev : NioEvent ι κ π} (hok : TypesOk host ev) (dir : Dir) (fe : ι) :
    TypesOk host (ev.del host dir fe) := by
  have h₁ : TypesOk host (ev.modify fe (·.setOperAdd dir false)) := by
    refine typesOk_modify hok ⟨(hok fe).nosock, (hok fe).sock, fun ht d => ?_⟩
    obtain ⟨hm, ha, hd⟩ := (hok fe).idle ht d
    exact ⟨hm, by simp [NioFile.setOperAdd, Function.update_apply, ha], hd⟩
  have hproc : ∀ ev : NioEvent ι κ π, TypesOk host ev →
      TypesOk host (ev.modify fe (·.setProc dir none)) := fun ev h =>
    typesOk_modify h ⟨(h fe).nosock, (h fe).sock, (h fe).idle⟩
  unfold del
  refine hproc _ ?_
  split
  · rename_i hm
    have hs := h₁.sock_of_mask hm
    split
    · exact typesOk_oper h₁ hs _ _
    · refine typesOk_modify (typesOk_enqueue h₁ fe) ?_
      rw [enqueue_files]
      exact ⟨(h₁ fe).nosock, (h₁ fe).sock, fun hc => absurd hs hc⟩
  · exact h₁

theorem typesOk_delMasked {ev : NioEvent ι κ π} (hok : TypesOk host ev) (fe : ι) :
    TypesOk host (ev.delMasked host fe) := by
  unfold delMasked
  split
  · split
    · rename_i hm
      rw [Bool.or_eq_true] at hm
      exact typesOk_oper hok (hm.elim hok.sock_of_mask hok.sock_of_mask) _ _
    · exact hok
  · have h : ∀ (dir : Dir) (ev : NioEvent ι κ π), TypesOk host ev → TypesOk host
        (if (ev.files fe).mask dir then ev.oper (.del dir) (host.del dir) fe else ev) := by
      intro dir ev hok
      split
      · rename_i hm
        exact typesOk_oper hok (hok.sock_of_mask hm) _ _
      · exact hok
    exact h .write _ (h .read ev hok)

theorem typesOk_clearOper {ev : NioEvent ι κ π} (hok : TypesOk host ev) (fe : ι) :
    TypesOk host (ev.modify fe (·.clearOper)) :=
  typesOk_modify hok ⟨(hok fe).nosock, (hok fe).sock,
    fun ht dir => ⟨((hok fe).idle ht dir).1, rfl, rfl⟩⟩

theorem typesOk_delReadwrite {ev : NioEvent ι κ π} (hok : TypesOk host ev) (fe : ι) :
    TypesOk host (ev.delReadwrite host fe) := by
  have hring : ∀ ev : NioEvent ι κ π, TypesOk host ev → TypesOk host
      (if ev.ring.linked fe then { ev with ring := ev.ring.detach fe } else ev) := by
    intro ev hok
    split <;> exact hok
  have hflush : ∀ ev : NioEvent ι κ π, TypesOk host ev → TypesOk host (ev.fflush host) := by
    intro ev hok
    unfold fflush
    split <;> exact hok
  exact hflush _ (typesOk_clearOper (hring _ (typesOk_delMasked hok fe)) fe)

/-- One bit of `oper` of a file. -/
theorem typesOk_pending {ev : NioEvent ι κ π} (hok : TypesOk host ev) (kind : OperKind)
    (op : EventOper ι κ π) (fe : ι) {bit : NioFile π → Bool}
    (hbit : ∀ file : NioFile π, file.TypeOk host → bit file = true → file.type = .sock) :
    TypesOk host (ev.pending kind op bit fe) := by
  unfold pending
  split
  · rename_i hb
    exact typesOk_oper hok (hbit _ (hok fe) hb) kind op
  · exact hok

theorem typesOk_prepareOne {ev : NioEvent ι κ π} (hok : TypesOk host ev) (fe : ι) :
    TypesOk host (ev.prepareOne host fe) := by
  have hadd : ∀ (dir : Dir) (file : NioFile π), file.TypeOk host → file.operAdd dir = true →
      file.type = .sock := by
    intro dir file h hb
    by_contra hc
    rw [(h.idle hc dir).2.1] at hb
    cases hb
  have hdel : ∀ (dir : Dir) (file : NioFile π), file.TypeOk host → file.operDel dir = true →
      file.type = .sock := by
    intro dir file h hb
    by_contra hc
    rw [(h.idle hc dir).2.2] at hb
    cases hb
  have h₁ := typesOk_pending hok (.del .read) (host.del .read) fe (hdel .read)
  have h₂ := typesOk_pending h₁ (.del .write) (host.del .write) fe (hdel .write)
  have h₃ := typesOk_pending h₂ (.add .read) (host.add .read) fe (hadd .read)
  have h₄ := typesOk_pending h₃ (.add .write) (host.add .write) fe (hadd .write)
  have h₅ : ∀ (ev : NioEvent ι κ π) (ring : NioRing ι), TypesOk host ev →
      TypesOk host { ev with ring } := fun _ _ h => h
  exact typesOk_clearOper (h₅ _ _ h₄) fe

theorem typesOk_prepare {ev : NioEvent ι κ π} (hok : TypesOk host ev) :
    TypesOk host (ev.prepare host) := by
  change TypesOk host (prepareLoop host ev.ring.entries.length ev)
  generalize ev.ring.entries.length = n
  induction n generalizing ev with
  | zero => exact hok
  | succ n ih =>
      rw [prepareLoop]
      split
      · exact hok
      · exact ih (typesOk_prepareOne hok _)

theorem typesOk_apply {ev : NioEvent ι κ π} (hok : TypesOk host ev) (c : Call ι π) :
    TypesOk host (ev.apply host c) := by
  cases c with
  | add dir fe proc => exact typesOk_add hok dir fe proc
  | del dir fe => exact typesOk_del hok dir fe
  | delReadwrite fe => exact typesOk_delReadwrite hok fe

end NioEvent

end Libnio.Event
