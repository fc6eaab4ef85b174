import Libnio.Socket.Bytes

/-!
# Socket — what a writable event reports

`client_socket::write_callback` against `event_proc::write_proc`, after every
answer to the `flush`: which handler is told, and over whole runs that it is told
of the bytes it has written when they are gone, and not before.
-/

namespace Libnio.Socket

open Event (Dir)

section Log

variable {γ ρ υ : Type}

/-- The handler that is entered, and of which object; not by a timer. -/
def Act.notice : Act γ ρ υ → Option (Owner γ ρ × Handler)
  | .enter (.client c h _ false) => some (.client c, h)
  | .enter (.proc p h _) => some (.proc p, h)
  | _ => none

/-- An update of this kind reports nothing. -/
theorem Within.notice {o : Owner γ ρ} {ks : List Kind} {d : Update γ ρ υ} (h : Within o ks d)
    (henter : .enter ∉ ks) (hclose : .enterClose ∉ ks) : d.acts.filterMap Act.notice = [] := by
  obtain ⟨-, hk⟩ := h
  cases d with
  | enter r =>
      rw [Update.kind] at hk
      split at hk
      · exact absurd hk hclose
      · exact absurd hk henter
  | _ => rfl

theorem World.CallWithin.notice {c : Call γ ρ υ} {d : Update γ ρ υ} (h : World.CallWithin c d) :
    d.acts.filterMap Act.notice = [] := by
  unfold World.CallWithin at h
  cases hown : c.owner with
  | none =>
      rw [hown] at h
      obtain ⟨tc, u, rfl, -⟩ := h
      rfl
  | some o =>
      rw [hown] at h
      refine Within.notice h ?_ ?_
      · cases c <;> simp [Call.kinds]
      · cases c <;> simp [Call.kinds]

end Log

namespace World

variable {γ ρ υ κ : Type}

/-- What a step has reported. -/
def notices (w w' : World γ ρ υ κ) : List (Owner γ ρ × Handler) :=
  (w'.log.drop w.log.length).filterMap Act.notice

/-- The handler is set; a proc has them all. -/
def hears (w : World γ ρ υ κ) : Owner γ ρ → Handler → Bool
  | .client c, h => (w.clients c).handlers h
  | .proc _, _ => true

/-- The handler is told, if it is set. -/
def told (w : World γ ρ υ κ) (o : Owner γ ρ) (h : Handler) : List (Owner γ ρ × Handler) :=
  if w.hears o h then [(o, h)] else []

/-- The callback that `wait` calls next. -/
def called (w : World γ ρ υ κ) : Option (File γ ρ × Callback) :=
  match w.running, w.phase with
  | none, .dispatch _ (some later) => some later
  | none, .dispatch (ee :: _) none =>
      ee.ptr.bind fun fe =>
        if ee.hits .read then ((w.ev.files fe).proc .read).map (fe, ·) else none
  | _, _ => none

theorem called_read {w : World γ ρ υ κ} {ee : Event.EpollEvent (File γ ρ)}
    {batch : List (Event.EpollEvent (File γ ρ))} {fe : File γ ρ} {proc : Callback}
    (hr : w.running = none) (hp : w.phase = .dispatch (ee :: batch) none) (hptr : ee.ptr = some fe)
    (hhit : ee.hits .read = true) (hproc : (w.ev.files fe).proc .read = some proc) :
    w.called = some (fe, proc) := by
  unfold called
  rw [hr, hp]
  simp [hptr, hhit, hproc]

theorem called_later {w : World γ ρ υ κ} {batch : List (Event.EpollEvent (File γ ρ))}
    {later : File γ ρ × Callback} (hr : w.running = none)
    (hp : w.phase = .dispatch batch (some later)) : w.called = some later := by
  unfold called
  rw [hr, hp]

/-- The object that is told to be writable next. -/
def writable (w : World γ ρ υ κ) : Option (Owner γ ρ) :=
  match w.called with
  | some ((.client c, _), .writeCallback) => some (.client c)
  | some ((.proc p, _), .writeProc) => some (.proc p)
  | _ => none

/-! ## One writable event -/

variable [DecidableEq γ] [DecidableEq ρ]

/-- What a writable event reports: a hard error, and nothing else; without one
`on_write`, when nothing is left to be sent; and the same as `write_proc` of any
proc with the same bytes in its buffer. -/
structure Notified (w : World γ ρ υ κ) (o : Owner γ ρ) (answer : WriteAnswer)
    (w' : World γ ρ υ κ) : Prop where
  error : w.buf o ≠ [] → answer = .hardError → w.notices w' = w.told o .onError
  write : w.buf o = [] ∨ answer ≠ .hardError →
    w.notices w' = if w'.buf o = [] then w.told o .onWrite else []
  alike : ∀ (v : World γ ρ υ κ) p, v.buf (.proc p) = w.buf o →
    w.notices w' = (v.notices (v.writeProc p answer)).flatMap fun n => w.told o n.2

/-- What a writable event has to report. -/
def due (w : World γ ρ υ κ) (o : Owner γ ρ) (answer : WriteAnswer) : List (Owner γ ρ × Handler) :=
  if w.buf o ≠ [] ∧ answer = .hardError then w.told o .onError
  else if (Outgoing.flush (w.buf o) answer).buf = [] then w.told o .onWrite
  else []

/-- What it reports: a socket with something to flush tells `on_write` of a part
of it only. -/
def reports (w : World γ ρ υ κ) (answer : WriteAnswer) : Owner γ ρ → List (Owner γ ρ × Handler)
  | .client c =>
      if (w.clients c).buf ≠ [] ∧ answer = .hardError then w.told (.client c) .onError
      else if (w.clients c).buf ≠ [] ∧ (answer.taken (w.clients c).buf.length = 0 ∨
          (Outgoing.flush (w.clients c).buf answer).buf = []) then []
      else w.told (.client c) .onWrite
  | .proc p => w.due (.proc p) answer

variable {w w' : World γ ρ υ κ} {o : Owner γ ρ} {answer : WriteAnswer}

omit [DecidableEq γ] [DecidableEq ρ] in
theorem notices_of_log {acts : List (Act γ ρ υ)} (h : w'.log = w.log ++ acts) :
    w.notices w' = acts.filterMap Act.notice := by
  rw [notices, h, List.drop_left]

omit [DecidableEq γ] [DecidableEq ρ] in
theorem mem_told {n : Owner γ ρ × Handler} {h : Handler} (hn : n ∈ w.told o h) : n = (o, h) := by
  unfold told at hn
  split at hn
  · exact List.mem_singleton.mp hn
  · cases hn

end World

/-! ## A flush -/

namespace Outgoing

variable {buf : List UInt8} {answer : WriteAnswer}

/-- The result of a `flush` of something. -/
theorem flush_ret (hb : buf ≠ []) (answer : WriteAnswer) :
    ((flush buf answer).ret = -1 ↔ answer = .hardError) ∧
      ((flush buf answer).ret = 0 ↔ answer ≠ .hardError ∧ answer.taken buf.length = 0) := by
  have hlen : 0 < buf.length := List.length_pos_iff.mpr hb
  cases answer with
  | wrote n =>
      have hne : ((min n buf.length : Nat) : Int) ≠ -1 := by omega
      have hret : (flush buf (.wrote n)).ret = (min n buf.length : Nat) := by
        simp only [flush, List.isEmpty_iff, hb, if_false, WriteAnswer.ret, hne]
        split <;> rfl
      rw [hret, WriteAnswer.taken, Int.natCast_eq_zero]
      refine ⟨iff_of_false hne (fun h => by cases h), ?_⟩
      exact (and_iff_right fun h => by cases h).symm
  | wouldBlock =>
      have hne : (-1 : Int) ≠ buf.length := by omega
      simp [flush, hb, WriteAnswer.ret, WriteAnswer.taken, hne]
  | hardError =>
      have hne : (-1 : Int) ≠ buf.length := by omega
      simp [flush, hb, WriteAnswer.ret, WriteAnswer.taken, hne]

/-- Nothing is left of nothing, and everything of what the kernel has not taken. -/
theorem flush_buf_nil : (flush [] answer).buf = [] := rfl

theorem flush_buf_of_taken (h : answer.taken buf.length = 0) : (flush buf answer).buf = buf := by
  have hbytes := flush_bytes buf answer
  have htaken : (flush buf answer).taken = [] := by
    unfold flush
    dsimp only
    split
    · rfl
    · rw [h]
      split
      · rfl
      · split <;> rfl
  rw [htaken] at hbytes
  exact hbytes

end Outgoing

namespace World

variable {γ ρ υ κ : Type} [DecidableEq γ] [DecidableEq ρ] [DecidableEq υ] {sys : Sys γ ρ κ}
  {w w' : World γ ρ υ κ} {o : Owner γ ρ} {answer : WriteAnswer}

/-! ## The two callbacks -/

/-- What a writable event does to the buffers and reports. -/
structure Answered (w : World γ ρ υ κ) (o : Owner γ ρ) (answer : WriteAnswer)
    (w' : World γ ρ υ κ) : Prop where
  buf : ∀ o', w'.buf o' = if o = o' then (Outgoing.flush (w.buf o) answer).buf else w.buf o'
  notices : w.notices w' = w.reports answer o

omit [DecidableEq γ] [DecidableEq ρ] [DecidableEq υ] in
/-- A handler that is told after `acts`. -/
theorem notices_callHandler {v : World γ ρ υ κ} (acts : List (Act γ ρ υ)) {c : γ} (h : Handler)
    (fd : Int) (hl : v.log = w.log ++ acts) (hacts : acts.filterMap Act.notice = [])
    (hset : (v.clients c).handlers = (w.clients c).handlers) :
    w.notices (v.callHandler c h fd false) = w.told (.client c) h := by
  unfold callHandler told hears
  rw [hset]
  split
  · have hlog : (v.enter (.client c h fd false)).log
        = w.log ++ (acts ++ [.enter (.client c h fd false)]) := by
      rw [← List.append_assoc, ← hl]
      rfl
    rw [notices_of_log hlog, List.filterMap_append, hacts]
    rfl
  · rw [notices_of_log hl, hacts]

omit [DecidableEq γ] [DecidableEq ρ] [DecidableEq υ] in
theorem buf_callHandler (v : World γ ρ υ κ) (c : γ) (h : Handler) (fd : Int) (timeout : Bool) :
    (v.callHandler c h fd timeout).buf o = v.buf o := by
  unfold callHandler
  split
  · cases o <;> rfl
  · rfl

omit [DecidableEq ρ] [DecidableEq υ] in
theorem handlers_setClient (w : World γ ρ υ κ) (c : γ) {f : ClientSocket γ ρ → ClientSocket γ ρ}
    (hf : ∀ cli, (f cli).handlers = cli.handlers) :
    ((w.setClient c f).clients c).handlers = (w.clients c).handlers := by
  show (Function.update w.clients c (f (w.clients c)) c).handlers = _
  rw [Function.update_self, hf]

/-- **The write callback of a socket.** -/
theorem writeCallback_answered (w : World γ ρ υ κ) (c : γ) (fe : File γ ρ) (answer : WriteAnswer) :
    Answered w (.client c) answer (w.writeCallback c fe answer) := by
  -- in front of the flush nothing is logged, sent or set
  generalize hv : (w.setClient c (·.setFlag .write false)).disarmTimer c .write = v
  have hbuf : ∀ o', v.buf o' = w.buf o' := by
    intro o'
    rw [← hv]
    unfold disarmTimer
    split
    · exact (buf_setClient _ c (f := (·.setWaiting .write false)) fun _ => rfl).trans
        (w.buf_setClient c (f := (·.setFlag .write false)) fun _ => rfl)
    · exact w.buf_setClient c (f := (·.setFlag .write false)) fun _ => rfl
  have hlog : v.log = w.log := by
    rw [← hv]
    unfold disarmTimer
    split <;> rfl
  have hset : (v.clients c).handlers = (w.clients c).handlers := by
    have hflag : ((w.setClient c (·.setFlag .write false)).clients c).handlers
        = (w.clients c).handlers := handlers_setClient w c fun _ => rfl
    rw [← hv, ← hflag]
    unfold disarmTimer
    split
    · exact handlers_setClient _ c (f := (·.setWaiting .write false)) fun _ => rfl
    · rfl
  have hwbuf : (v.clients c).buf = (w.clients c).buf := hbuf (.client c)
  unfold writeCallback
  dsimp only
  rw [hv, hwbuf]
  by_cases hb : (w.clients c).buf = []
  · simp only [hb, List.isEmpty_nil, Bool.not_true, Bool.false_eq_true, if_false]
    refine ⟨?_, ?_⟩
    · intro o'
      rw [buf_callHandler, hbuf]
      split
      · rename_i ho
        subst ho
        show (w.clients c).buf = (Outgoing.flush (w.clients c).buf answer).buf
        rw [hb]
        rfl
      · rfl
    · rw [notices_callHandler [] .onWrite _ (hlog.trans (List.append_nil _).symm) rfl hset, reports,
        if_neg (fun h => h.1 hb), if_neg (fun h => h.1 hb)]
  · have hne : (!(w.clients c).buf.isEmpty) = true := by simpa using hb
    rw [if_pos hne]
    generalize hu : (v.setClient c (·.setBuf (Outgoing.flush (w.clients c).buf answer).buf)).sent
      (.client c) (Outgoing.flush (w.clients c).buf answer).taken = u
    have hubuf : ∀ o', u.buf o' = if .client c = o' then
        (Outgoing.flush (w.buf (.client c)) answer).buf else w.buf o' := by
      intro o'
      rw [← hu, buf_sent, hbuf]
      rfl
    have hulog : u.log =
        w.log ++ [.taken (.client c) (Outgoing.flush (w.clients c).buf answer).taken] := by
      rw [← hu, ← hlog]
      rfl
    have huset : (u.clients c).handlers = (w.clients c).handlers := by
      rw [← hu, ← hset]
      exact handlers_setClient v c (f := (·.setBuf _)) fun _ => rfl
    have htell : ∀ h fd, w.notices (u.callHandler c h fd false) = w.told (.client c) h :=
      fun h fd => notices_callHandler _ h fd hulog rfl huset
    obtain ⟨hhard, hzero⟩ := Outgoing.flush_ret hb answer
    by_cases he : answer = .hardError
    · rw [if_pos (hhard.mpr he)]
      refine ⟨fun o' => (buf_callHandler ..).trans (hubuf o'), ?_⟩
      rw [htell, reports, if_pos ⟨hb, he⟩]
    · rw [if_neg (fun h => he (hhard.mp h))]
      -- the branch of `if (ret == 0 || cli->buf_->empty())`
      by_cases hret : answer.taken (w.clients c).buf.length = 0 ∨
          (Outgoing.flush (w.clients c).buf answer).buf = []
      · rw [if_pos (hret.imp (fun h => hzero.mpr ⟨he, h⟩) List.isEmpty_iff.mpr)]
        refine ⟨hubuf, ?_⟩
        rw [notices_of_log hulog, reports, if_neg (fun h => he h.2), if_pos ⟨hb, hret⟩]
        rfl
      · rw [if_neg (fun h => hret (h.imp (fun h => (hzero.mp h).2) List.isEmpty_iff.mp))]
        refine ⟨fun o' => (buf_callHandler ..).trans (hubuf o'), ?_⟩
        rw [htell, reports, if_neg (fun h => he h.2), if_neg (fun h => hret h.2)]

omit [DecidableEq υ] in
/-- **The write callback of a proc.** -/
theorem writeProc_answered (w : World γ ρ υ κ) (p : ρ) (answer : WriteAnswer) :
    Answered w (.proc p) answer (w.writeProc p answer) := by
  have htell : ∀ {v : World γ ρ υ κ} {acts : List (Act γ ρ υ)} (h : Handler),
      v.log = w.log ++ acts → acts.filterMap Act.notice = [] →
      w.notices (v.enter (.proc p h false)) = w.told (.proc p) h := by
    intro v acts h hl hacts
    have hlog :
        (v.enter (.proc p h false)).log = w.log ++ (acts ++ [.enter (.proc p h false)]) := by
      rw [← List.append_assoc, ← hl]
      rfl
    rw [notices_of_log hlog, List.filterMap_append, hacts]
    rfl
  have hbufEnter : ∀ (v : World γ ρ υ κ) (h : Handler) o', (v.enter (.proc p h false)).buf o'
      = v.buf o' := by
    intro v h o'
    cases o' <;> rfl
  unfold writeProc
  by_cases hb : (w.procs p).buf = []
  · simp only [hb, List.isEmpty_nil, Bool.not_true, Bool.false_eq_true, if_false]
    refine ⟨?_, ?_⟩
    · intro o'
      rw [hbufEnter]
      split
      · rename_i ho
        subst ho
        show (w.procs p).buf = (Outgoing.flush (w.procs p).buf answer).buf
        rw [hb]
        rfl
      · rfl
    · have hflush : (Outgoing.flush (w.buf (.proc p)) answer).buf = [] := by
        show (Outgoing.flush (w.procs p).buf answer).buf = []
        rw [hb]
        rfl
      rw [htell .onWrite (List.append_nil _).symm rfl, reports, due, if_neg (fun h => h.1 hb),
        if_pos hflush]
  · have hne : (!(w.procs p).buf.isEmpty) = true := by simpa using hb
    rw [if_pos hne]
    dsimp only
    generalize hu : (w.setProc p fun proc => { proc with
      buf := (Outgoing.flush (w.procs p).buf answer).buf }).sent (.proc p)
        (Outgoing.flush (w.procs p).buf answer).taken = u
    have hubuf : ∀ o', u.buf o' = if .proc p = o' then
        (Outgoing.flush (w.buf (.proc p)) answer).buf else w.buf o' := by
      intro o'
      rw [← hu, buf_procSent]
      rfl
    have hulog : u.log =
        w.log ++ [.taken (.proc p) (Outgoing.flush (w.procs p).buf answer).taken] := by
      rw [← hu]
      rfl
    obtain ⟨hhard, hzero⟩ := Outgoing.flush_ret hb answer
    by_cases he : answer = .hardError
    · rw [if_pos (hhard.mpr he)]
      refine ⟨fun o' => (hbufEnter ..).trans (hubuf o'), ?_⟩
      rw [htell .onError hulog rfl, reports, due, if_pos ⟨hb, he⟩]
    · rw [if_neg (fun h => he (hhard.mp h))]
      by_cases hflush : (Outgoing.flush (w.procs p).buf answer).buf = []
      · -- then the kernel has taken something
        have hret : ¬ ((Outgoing.flush (w.procs p).buf answer).ret = 0 ∨
            (!(Outgoing.flush (w.procs p).buf answer).buf.isEmpty) = true) := by
          rintro (h | h)
          · rw [Outgoing.flush_buf_of_taken (hzero.mp h).2] at hflush
            exact hb hflush
          · simp [hflush] at h
        rw [if_neg hret]
        refine ⟨fun o' => (hbufEnter ..).trans (hubuf o'), ?_⟩
        rw [htell .onWrite hulog rfl, reports, due, if_neg (fun h => he h.2)]
        exact (if_pos hflush).symm
      · rw [if_pos (.inr (by simpa using hflush))]
        refine ⟨hubuf, ?_⟩
        rw [notices_of_log hulog, reports, due, if_neg (fun h => he h.2)]
        exact (if_neg hflush).symm

/-! ## One against the other -/

/-- What reads the kernel's answer in this world takes nothing of what is
buffered, or there is nothing, or nobody is told. -/
def Untaken (w : World γ ρ υ κ) (c : γ) (answer : WriteAnswer) : Prop :=
  (w.clients c).handlers .onWrite = true →
    (w.clients c).buf = [] ∨ answer.taken (w.clients c).buf.length = 0

omit [DecidableEq υ] in
/-- What is due is what all of it says. -/
theorem notified_iff (hbuf : w'.buf o = (Outgoing.flush (w.buf o) answer).buf) :
    Notified w o answer w' ↔ w.notices w' = w.due o answer := by
  constructor
  · intro h
    unfold due
    split
    · rename_i hhard
      exact h.error hhard.1 hhard.2
    · rename_i hsoft
      rw [← hbuf]
      refine h.write ?_
      by_cases hb : w.buf o = []
      · exact .inl hb
      · exact .inr fun he => hsoft ⟨hb, he⟩
  · intro h
    refine ⟨?_, ?_, ?_⟩
    · intro hb he
      rw [h, due, if_pos ⟨hb, he⟩]
    · intro hsoft
      have hn : ¬ (w.buf o ≠ [] ∧ answer = .hardError) := fun hc => hsoft.elim hc.1 (· hc.2)
      rw [h, due, if_neg hn, hbuf]
    · intro v p hv
      have htold : ∀ hd, (v.told (.proc p) hd).flatMap (fun n => w.told o n.2) = w.told o hd := by
        intro hd
        exact List.append_nil _
      rw [h, (writeProc_answered v p answer).notices, reports, due, due, hv]
      split
      · exact (htold .onError).symm
      · split
        · exact (htold .onWrite).symm
        · rfl

omit [DecidableEq γ] [DecidableEq ρ] [DecidableEq υ] in
theorem reports_iff (w : World γ ρ υ κ) (c : γ) (answer : WriteAnswer) :
    w.reports answer (.client c) = w.due (.client c) answer ↔ w.Untaken c answer := by
  have hbuf : w.buf (.client c) = (w.clients c).buf := rfl
  have htold : w.told (.client c) .onWrite = [] ↔ (w.clients c).handlers .onWrite ≠ true := by
    unfold told hears
    split <;> simp_all
  rw [reports, due, Untaken, hbuf]
  by_cases hb : (w.clients c).buf = []
  · have hflush : (Outgoing.flush (w.clients c).buf answer).buf = [] := by
      rw [hb]
      exact Outgoing.flush_buf_nil
    rw [if_neg (fun h => h.1 hb), if_neg (fun h => h.1 hb), if_neg (fun h => h.1 hb), if_pos hflush]
    exact iff_of_true rfl fun _ => .inl hb
  · by_cases he : answer = .hardError
    · rw [if_pos ⟨hb, he⟩, if_pos ⟨hb, he⟩, he]
      simp [WriteAnswer.taken]
    · have hsoft : ¬ ((w.clients c).buf ≠ [] ∧ answer = .hardError) := fun h => he h.2
      rw [if_neg hsoft, if_neg hsoft]
      by_cases htaken : answer.taken (w.clients c).buf.length = 0
      · rw [if_pos ⟨hb, .inl htaken⟩, Outgoing.flush_buf_of_taken htaken, if_neg hb]
        exact iff_of_true rfl fun _ => .inr htaken
      · -- a part is reported, and the whole is not
        by_cases hflush : (Outgoing.flush (w.clients c).buf answer).buf = []
        · rw [if_pos ⟨hb, .inr hflush⟩, if_pos hflush, eq_comm, htold]
          simp [hb, htaken]
        · rw [if_neg (fun h => h.2.elim htaken hflush), if_neg hflush, htold]
          simp [hb, htaken]

omit [DecidableEq υ] in
/-- **The callback of a socket** reports what it should just when nothing is
taken. -/
theorem Answered.client_iff {c : γ} (h : Answered w (.client c) answer w') :
    Notified w (.client c) answer w' ↔ w.Untaken c answer := by
  have hbuf := h.buf (.client c)
  rw [if_pos rfl] at hbuf
  rw [notified_iff hbuf, h.notices, reports_iff]

omit [DecidableEq υ] in
theorem Answered.proc {p : ρ} (h : Answered w (.proc p) answer w') :
    Notified w (.proc p) answer w' := by
  have hbuf := h.buf (.proc p)
  rw [if_pos rfl] at hbuf
  exact (notified_iff hbuf).mpr h.notices

/-! ## One step -/

/-- A step in which nobody is told of what it has written, and nothing that is
buffered is sent to the end. -/
structure TellsNobody (w w' : World γ ρ υ κ) : Prop where
  notices : ∀ o, (o, Handler.onWrite) ∉ w.notices w'
  buf : ∀ o, w.buf o ≠ [] → w'.buf o ≠ []

/-- The callback that is called next is called. -/
theorem next_called (sys : Sys γ ρ κ) {fe : File γ ρ} {proc : Callback}
    (h : w.called = some (fe, proc))
    (answer : Answer) : w.running = none ∧ ∃ phase,
      w.next sys answer = (w.setPhase phase).callback sys fe proc answer := by
  unfold called at h
  split at h
  · rename_i batch later hr hp
    cases h
    refine ⟨hr, .dispatch batch none, ?_⟩
    rw [next, hp]
  · rename_i ee batch hr hp
    obtain ⟨fe', hptr, hfe'⟩ := Option.bind_eq_some_iff.mp h
    obtain ⟨hhit, hmap⟩ := Option.ite_none_right_eq_some.mp hfe'
    obtain ⟨proc', hproc, hpair⟩ := Option.map_eq_some_iff.mp hmap
    cases hpair
    refine ⟨hr, .dispatch batch
      (if ee.hits .write then ((w.ev.files fe).proc .write).map (fe, ·) else none), ?_⟩
    rw [next, hp]
    dsimp only
    rw [entry, hptr]
    dsimp only
    rw [hproc]
    exact if_pos hhit
  · cases h

/-- **A writable event is answered.** -/
theorem step_answered (sys : Sys γ ρ κ) (h : w.writable = some o) (answer : Answer) :
    ∃ w', w.step sys (.next answer) = some w' ∧ Answered w o answer.write w' := by
  unfold writable at h
  split at h
  · rename_i c n hc
    cases h
    obtain ⟨hr, phase, hnext⟩ := next_called sys hc answer
    have hanswered := writeCallback_answered (w.setPhase phase) c (.client c, n) answer.write
    refine ⟨_, ?_, hanswered.buf, hanswered.notices⟩
    rw [step, hr]
    exact hnext
  · rename_i p n hc
    cases h
    obtain ⟨hr, phase, hnext⟩ := next_called sys hc answer
    have hanswered := writeProc_answered (w.setPhase phase) p answer.write
    refine ⟨_, ?_, hanswered.buf, hanswered.notices⟩
    rw [step, hr]
    exact hnext
  · cases h

omit [DecidableEq γ] [DecidableEq ρ] [DecidableEq υ] in
/-- The step of a world with the same buffers. -/
theorem TellsNobody.of_acts (acts : List (Act γ ρ υ)) (hl : w'.log = w.log ++ acts)
    (hacts : ∀ o, (o, Handler.onWrite) ∉ acts.filterMap Act.notice)
    (hb : ∀ o, w'.buf o = w.buf o) : TellsNobody w w' := by
  refine ⟨?_, ?_⟩
  · intro o
    rw [notices_of_log hl]
    exact hacts o
  · intro o hne
    rw [hb]
    exact hne

omit [DecidableEq γ] [DecidableEq ρ] [DecidableEq υ] in
theorem TellsNobody.of_enter {v : World γ ρ υ κ} {r : Running γ ρ υ} (hl : v.log = w.log)
    (hr : ∀ o, Act.notice (.enter r) ≠ some (o, Handler.onWrite))
    (hb : ∀ o, (v.enter r).buf o = w.buf o) : TellsNobody w (v.enter r) := by
  refine TellsNobody.of_acts [.enter r] ?_ ?_ hb
  · rw [← hl]
    rfl
  · intro o hmem
    obtain ⟨a, ha, hn⟩ := List.mem_filterMap.mp hmem
    rw [List.mem_singleton.mp ha] at hn
    exact hr o hn

omit [DecidableEq γ] [DecidableEq ρ] [DecidableEq υ] in
theorem TellsNobody.of_told {c : γ} {h : Handler} (hn : w.notices w' = w.told (.client c) h)
    (hh : h ≠ .onWrite) (hb : ∀ o, w'.buf o = w.buf o) : TellsNobody w w' := by
  refine ⟨?_, ?_⟩
  · intro o hmem
    rw [hn] at hmem
    exact hh (congrArg Prod.snd (mem_told hmem)).symm
  · intro o hne
    rw [hb]
    exact hne

omit [DecidableEq ρ] in
theorem log_disarmTimer (w : World γ ρ υ κ) (c : γ) (dir : Dir) :
    (w.disarmTimer c dir).log = w.log := by
  unfold disarmTimer
  split <;> rfl

omit [DecidableEq ρ] in
theorem handlers_disarmTimer (w : World γ ρ υ κ) (c : γ) (dir : Dir) :
    ((w.disarmTimer c dir).clients c).handlers = (w.clients c).handlers := by
  unfold disarmTimer
  split
  · exact handlers_setClient _ c (f := (·.setWaiting dir false)) fun _ => rfl
  · rfl

/-- Functions without a flush leave the buffers as they are. -/
theorem Updates.buf_eq {o' : Owner γ ρ} {ks : List Kind} (hd : Updates sys (Within o' ks) w w')
    (hk : .buf ∉ ks) (o : Owner γ ρ) : w'.buf o = w.buf o := by
  refine hd.buf ?_
  intro d hq buf taken hout
  exact hk (hq.outgoing hout).2

/-- **Any other callback.** -/
theorem callback_quiet {fe : File γ ρ} {proc : Callback} {answer : Answer} (hown : w.Owned)
    (h : w.callback sys fe proc answer = some w') (hwrite : proc ≠ .writeCallback)
    (hproc : proc ≠ .writeProc) : TellsNobody w w' := by
  have hb := (callback_updates hown h).buf_eq (by cases proc <;> simp_all [Callback.kinds])
  obtain ⟨o', n⟩ := fe
  cases o' with
  | client c =>
      cases proc with
      | connectCallback =>
          obtain ⟨-, h⟩ := Option.ite_none_right_eq_some.mp h
          cases h
          refine TellsNobody.of_enter ?_ (fun o => by simp [Act.notice]) hb
          split <;> split <;> rfl
      | readCallback =>
          cases h
          refine TellsNobody.of_told (notices_callHandler [] .onRead _ ?_ rfl ?_) (by decide) hb
          · exact (log_disarmTimer ..).trans (List.append_nil _).symm
          · exact (handlers_disarmTimer ..).trans
              (handlers_setClient w c (f := (·.setFlag .read false)) fun _ => rfl)
      | writeCallback => exact absurd rfl hwrite
      | _ => cases h
  | proc p =>
      cases proc with
      | connectProc =>
          cases h
          refine TellsNobody.of_enter ?_ (fun o => by simp [Act.notice]) hb
          unfold procWriteDisable procDisable
          split <;> rfl
      | readProc =>
          cases h
          exact TellsNobody.of_enter rfl (fun o => by simp [Act.notice]) hb
      | writeProc => exact absurd rfl hproc
      | _ => cases h

/-- **A timer** tells of itself. -/
theorem fire_quiet (sys : Sys γ ρ κ) (t : TimerName γ υ) (batch : List (TimerName γ υ)) :
    TellsNobody w (w.fire t batch) := by
  cases t with
  | user u =>
      refine TellsNobody.of_enter rfl (fun o => by simp [Act.notice]) ?_
      intro o
      cases o <;> rfl
  | client c dir =>
      have hb : ∀ o, (w.fire (.client c dir) batch).buf o = w.buf o := by
        intro o
        have hd : Updates sys _ (w.setPhase (.timers batch (some (c, dir)))) _ :=
          onTimer_updates c dir
        exact hd.buf_eq (by decide) o
      have hcall : ∀ {v : World γ ρ υ κ} (h : Handler) (fd : Int), v.log = w.log →
          ∃ acts, (v.callHandler c h fd true).log = w.log ++ acts ∧
            ∀ o, (o, Handler.onWrite) ∉ acts.filterMap Act.notice := by
        intro v h fd hl
        unfold callHandler
        split
        · refine ⟨[.enter (.client c h fd true)], ?_, fun o => by simp [Act.notice]⟩
          rw [← hl]
          rfl
        · exact ⟨[], by rw [hl, List.append_nil], fun o => by simp⟩
      have hacts : ∃ acts, (w.fire (.client c dir) batch).log = w.log ++ acts ∧
          ∀ o, (o, Handler.onWrite) ∉ acts.filterMap Act.notice := by
        unfold fire onTimer
        cases dir with
        | read => exact hcall _ _ rfl
        | write =>
            dsimp only
            split
            · exact hcall _ _ rfl
            · exact hcall _ _ rfl
      obtain ⟨acts, hl, hnone⟩ := hacts
      exact TellsNobody.of_acts _ hl hnone hb

/-- **A call** tells nobody, and only adds to what is buffered. -/
theorem perform_quiet (hown : w.Owned) {c : Call γ ρ υ} {r : Int × (Int × Nat) × World γ ρ υ κ}
    (h : w.perform sys c = some r) {a : Act γ ρ υ} (ha : a.notice = none) :
    TellsNobody w (r.2.2.logged a) := by
  have hd := perform_updates hown h
  refine ⟨?_, ?_⟩
  · intro o
    obtain ⟨acts, hl⟩ := hd.keeps (P := fun v => w.log <+: v.log)
      (fun v d _ hv => hv.trans (update_log v d)) List.prefix_rfl
    have hfilter := hd.filterMap_log (f := Act.notice) fun d hq => hq.notice
    rw [← hl, List.filterMap_append, List.append_right_eq_self] at hfilter
    have hlog : (r.2.2.logged a).log = w.log ++ (acts ++ [a]) := by
      rw [← List.append_assoc, hl]
      rfl
    rw [notices_of_log hlog, List.filterMap_append, hfilter]
    simp [ha]
  · intro o hb
    show r.2.2.buf o ≠ []
    cases hs : c.sends with
    | none =>
        rw [hd.buf (o := o)]
        · exact hb
        · intro d hq buf taken hout
          obtain ⟨s, hs', -⟩ := hq.outgoing hout
          rw [hs] at hs'
          cases hs'
    | some s =>
        rw [(perform_left hown h hs).buf]
        split
        · rename_i ho
          rw [ho, Outgoing.write_buffered hb]
          exact fun hnil => hb (List.append_eq_nil_iff.mp hnil).1
        · exact hb

omit [DecidableEq γ] [DecidableEq ρ] [DecidableEq υ] in
theorem TellsNobody.of_same (hl : w'.log = w.log) (hb : ∀ o, w'.buf o = w.buf o) :
    TellsNobody w w' :=
  TellsNobody.of_acts [] (by rw [hl, List.append_nil]) (fun o => by simp) hb

/-- **Any other step of `wait`.** -/
theorem move_quiet (hown : w.Owned) {answer : Answer} (hm : Move sys answer w w')
    (hr : w.running = none) (hw : w.writable = none) : TellsNobody w w' := by
  have hown' : ∀ phase, (w.setPhase phase).Owned := fun _ => ⟨hown.client, hown.proc⟩
  -- a callback that is called is not one of the two
  have hother : ∀ {fe : File γ ρ} {proc : Callback} {phase : Phase γ ρ υ},
      w.called = some (fe, proc) → (w.setPhase phase).callback sys fe proc answer = some w' →
      TellsNobody w w' := by
    rintro ⟨o', n⟩ proc phase hc h
    have hquiet : proc ≠ .writeCallback → proc ≠ .writeProc → TellsNobody w w' := by
      intro h₁ h₂
      have hq := callback_quiet (hown' phase) h h₁ h₂
      exact ⟨hq.notices, hq.buf⟩
    unfold writable at hw
    rw [hc] at hw
    cases proc with
    | writeCallback =>
        cases o' with
        | client c => cases hw
        | proc p => cases h
    | writeProc =>
        cases o' with
        | client c => cases h
        | proc p => cases hw
    | _ => exact hquiet (by decide) (by decide)
  have hsame : ∀ v : World γ ρ υ κ, v.log = w.log → v.clients = w.clients → v.procs = w.procs →
      TellsNobody w v := by
    intro v hl hc hp
    refine TellsNobody.of_same hl ?_
    intro o
    cases o with
    | client c => exact congrArg (fun f => (f c).buf) hc
    | proc p => exact congrArg (fun f => (f p).buf) hp
  cases hm with
  | procClose hp hi =>
      rename_i i p
      have hd : Updates sys _ (w.setPhase (.procsFree (i + 1))) _ := procClose_updates p
      refine TellsNobody.of_acts [.close (.proc p), .enter (.proc p .onClose false)] ?_
        (fun o => by simp [Act.notice]) fun o => hd.buf_eq (by decide) o
      exact List.append_assoc _ _ _
  | procsDone hp hi => exact hsame _ rfl rfl rfl
  | close hp hi =>
      rename_i i c
      have hd : Updates sys _ (w.setPhase (.clientsFree (i + 1))) _ := close_updates c
      refine TellsNobody.of_told (notices_callHandler [.close (.client c)] .onClose _ ?_ rfl ?_)
        (by decide) fun o => hd.buf_eq (by decide) o
      · refine congrArg (· ++ [Act.close _]) ?_
        exact (log_disarmTimer ..).trans (log_disarmTimer ..)
      · exact (handlers_disarmTimer ..).trans (handlers_disarmTimer (w.setPhase _) c .read)
  | clientsDone hp hi => exact hsame _ rfl rfl rfl
  | fetch hp => exact hsame _ rfl rfl rfl
  | skip hp hl => exact hsame _ rfl rfl rfl
  | read hp hl hptr hhit hproc hc => exact hother (called_read hr hp hptr hhit hproc) hc
  | write hp hc => exact hother (called_later hr hp) hc
  | trigger hp =>
      unfold triggerTimers
      split
      · exact hsame _ rfl rfl rfl
      · exact hsame _ rfl rfl rfl
  | clearFlag hp =>
      refine TellsNobody.of_same rfl ?_
      intro o
      exact buf_setClient _ _ (f := (·.setFlag _ false)) fun _ => rfl
  | fire hp => exact fire_quiet sys _ _
  | done hp => exact hsame _ rfl rfl rfl

/-- **Any step but a writable event.** -/
theorem step_quiet (hown : w.Owned) {l : Label γ ρ υ} (hs : w.step sys l = some w')
    (hw : ∀ answer, l = .next answer → w.writable = none) : TellsNobody w w' := by
  cases stepped hs with
  | call hm h => exact perform_quiet hown h rfl
  | ret hr =>
      refine TellsNobody.of_same rfl ?_
      intro o
      cases o <;> rfl
  | wait hr hp =>
      refine TellsNobody.of_acts [.wait] rfl (fun o => by simp [Act.notice]) ?_
      intro o
      cases o <;> rfl
  | next hr hm => exact move_quiet hown hm hr (hw _ rfl)

/-! ## Every run -/

/-- **Write completion.** A step that answers a writable event reports what it
should; no step tells of a write while something is left of it, and the one that
sends the last of it does tell. -/
structure Notifies (sys : Sys γ ρ κ) (w : World γ ρ υ κ) (l : Label γ ρ υ) : Prop where
  decides : ∀ answer o, l = .next answer → w.writable = some o → ∀ w' ∈ w.step sys l,
    Notified w o answer.write w'
  sent : ∀ w' ∈ w.step sys l, ∀ o, (o, Handler.onWrite) ∈ w.notices w' → w'.buf o = []
  drained : ∀ w' ∈ w.step sys l, ∀ o, w.buf o ≠ [] → w'.buf o = [] →
    w.notices w' = w.told o .onWrite

/-- A writable event of a socket finds nothing to flush, or a kernel that takes
nothing, or a socket without `on_write`. -/
def Idle (w : World γ ρ υ κ) : Label γ ρ υ → Prop
  | .next answer => ∀ c, w.writable = some (.client c) → w.Untaken c answer.write
  | _ => True

omit [DecidableEq υ] in
/-- A writable event that is answered as it should. -/
theorem Notified.sent (h : Notified w o answer w') (ha : Answered w o answer w') :
    (∀ o', (o', Handler.onWrite) ∈ w.notices w' → w'.buf o' = []) ∧
      ∀ o', w.buf o' ≠ [] → w'.buf o' = [] → w.notices w' = w.told o' .onWrite := by
  have hbuf := ha.buf o
  rw [if_pos rfl] at hbuf
  have hdue := (notified_iff hbuf).mp h
  refine ⟨?_, ?_⟩
  · intro o' hmem
    rw [hdue, due] at hmem
    split at hmem
    · cases mem_told hmem
    · split at hmem
      · rename_i hnil
        cases mem_told hmem
        rw [hbuf, hnil]
      · cases hmem
  · intro o' hne hnil
    -- only the buffer of the event can be emptied
    have ho : o = o' := by
      by_contra hno
      rw [ha.buf, if_neg hno] at hnil
      exact hne hnil
    subst ho
    have hsoft : ¬ (w.buf o ≠ [] ∧ answer = .hardError) := by
      rintro ⟨-, rfl⟩
      rw [hbuf, Outgoing.flush_buf_of_taken rfl] at hnil
      exact hne hnil
    rw [hdue, due, if_neg hsoft, if_pos (hbuf.symm.trans hnil)]

/-- **One step.** -/
theorem notifies_iff (hown : w.Owned) (l : Label γ ρ υ) : Notifies sys w l ↔ w.Idle l := by
  have hquiet : (∀ answer, l = .next answer → w.writable = none) → Notifies sys w l := by
    intro hw
    refine ⟨?_, ?_, ?_⟩
    · intro answer o hl ho
      rw [hw answer hl] at ho
      cases ho
    · intro w' hs o hmem
      exact absurd hmem ((step_quiet hown hs hw).notices o)
    · intro w' hs o hne hnil
      exact absurd hnil ((step_quiet hown hs hw).buf o hne)
  cases l with
  | next answer =>
      cases hw : w.writable with
      | none =>
          refine iff_of_true (hquiet fun _ _ => hw) ?_
          intro c hc
          rw [hw] at hc
          cases hc
      | some o =>
          obtain ⟨w', hs, ha⟩ := step_answered sys hw answer
          have hone : Notifies sys w (.next answer) ↔ Notified w o answer.write w' := by
            constructor
            · exact fun h => h.decides answer o rfl hw w' hs
            · intro h
              obtain ⟨hsent, hdrained⟩ := h.sent ha
              refine ⟨?_, ?_, ?_⟩
              · intro answer' o' hl ho u hu
                cases hl
                cases hw.symm.trans ho
                cases hs.symm.trans hu
                exact h
              · intro u hu
                cases hs.symm.trans hu
                exact hsent
              · intro u hu
                cases hs.symm.trans hu
                exact hdrained
          rw [hone]
          cases o with
          | client c =>
              rw [ha.client_iff]
              constructor
              · intro h c' hc'
                cases hw.symm.trans hc'
                exact h
              · exact fun h => h c hw
          | proc p =>
              refine iff_of_true ha.proc ?_
              intro c hc
              cases hw.symm.trans hc
  | call c => exact iff_of_true (hquiet fun _ h => by cases h) trivial
  | ret => exact iff_of_true (hquiet fun _ h => by cases h) trivial
  | wait => exact iff_of_true (hquiet fun _ h => by cases h) trivial

end World

section Run

variable {γ ρ υ κ : Type} [DecidableEq γ] [DecidableEq ρ] [DecidableEq υ]

/-- **Write completion over whole runs.** Every step reports what it should
exactly in the runs in which each writable event of a socket finds nothing to
flush, a kernel that takes nothing, or no `on_write` to be told. -/
theorem notifies_run_iff (sys : Sys γ ρ κ) (setup : Setup γ ρ) (oneshot direct : Bool)
    (setsize : Int) (fd : File γ ρ → Int) (backend : κ) (sec nsec : Int)
    (ls : List (Label γ ρ υ)) :
    Trace.Meets (World.step sys) (World.Notifies sys)
        (World.start setup oneshot direct setsize fd backend sec nsec) ls ↔
      Trace.Meets (World.step sys) (fun w => w.Idle)
        (World.start setup oneshot direct setsize fd backend sec nsec) ls := by
  have hstart : (World.start setup oneshot direct setsize fd backend sec nsec :
      World γ ρ υ κ).Owned := World.owned_start ..
  have hkeep : ∀ (w : World γ ρ υ κ) l w', w.Owned → w.step sys l = some w' → w'.Owned :=
    fun w l w' hown hs => (World.kept_owned sys).step hown hs hown
  constructor
  · intro h
    exact Trace.meets_induct (I := World.Owned) (fun w l w' _ hown hs => hkeep w l w' hown hs)
      (fun w l hn hown => (World.notifies_iff hown l).mp hn) h hstart
  · intro h
    exact Trace.meets_induct (I := World.Owned) (fun w l w' _ hown hs => hkeep w l w' hown hs)
      (fun w l hn hown => (World.notifies_iff hown l).mpr hn) h hstart

/-- Three bytes, of which the kernel takes one. When the socket is writable and
the kernel takes the other two, nobody is told; when it takes one of them,
`on_write` is told, with the last one still in the buffer. A proc is told of the
one, and not of the other. -/
theorem drained_not_notified :
    let start := World.fresh (.handled true true) false File.turn
    let blocked := Answer.writable 0 .wouldBlock
    let ls : List (Label Nat Nat Nat) :=
      [.call (.write 0 (.counting 3) 0 (.wrote 1)),
        .call (.procWrite 0 (.counting 3) (.wrote 1)), .wait, .next blocked, .next blocked,
        .next blocked, .next blocked]
    (∃ w, Trace.run (World.step .table) start ls = some w ∧
      w.writable = some (.client 0) ∧ w.buf (.client 0) = [1, 2] ∧ w.buf (.proc 0) = [1, 2] ∧
      (∃ w', w.step .table (.next (.writable 0 (.wrote 2))) = some w' ∧ w'.buf (.client 0) = [] ∧
        w.notices w' = [] ∧ w.notices (w.writeProc 0 (.wrote 2)) = [(.proc 0, .onWrite)]) ∧
      ∃ w', w.step .table (.next (.writable 0 (.wrote 1))) = some w' ∧ w'.buf (.client 0) = [2] ∧
        w.notices w' = [(.client 0, .onWrite)] ∧ w.notices (w.writeProc 0 (.wrote 1)) = []) ∧
    ¬ Trace.Meets (World.step .table) (World.Notifies .table) start
      (ls ++ [.next (.writable 0 (.wrote 2))]) := by
  intro start blocked ls
  have hany : (Trace.run (World.step .table) start ls).any (fun w =>
      w.writable = some (.client 0) && w.hears (.client 0) .onWrite &&
      w.buf (.client 0) = [1, 2] && w.buf (.proc 0) = [1, 2] &&
      (w.step .table (.next (.writable 0 (.wrote 2)))).any (fun w' =>
        w'.buf (.client 0) = [] && w.notices w' = [] &&
          w.notices (w.writeProc 0 (.wrote 2)) = [(.proc 0, .onWrite)]) &&
      (w.step .table (.next (.writable 0 (.wrote 1)))).any (fun w' =>
        w'.buf (.client 0) = [2] && w.notices w' = [(.client 0, .onWrite)] &&
          w.notices (w.writeProc 0 (.wrote 1)) = [])) = true := by
    decide +kernel
  obtain ⟨w, hrun, hw⟩ := Trace.run_any hany
  simp only [Bool.and_eq_true, decide_eq_true_eq, Option.any_eq_true] at hw
  obtain ⟨⟨⟨⟨⟨hwr, hset⟩, hb⟩, hpb⟩, w₁, hs₁, ⟨hb₁, hn₁⟩, hp₁⟩, w₂, hs₂, ⟨hb₂, hn₂⟩, hp₂⟩ := hw
  refine ⟨⟨w, hrun, hwr, hb, hpb, ⟨w₁, hs₁, hb₁, hn₁, hp₁⟩, w₂, hs₂, hb₂, hn₂, hp₂⟩, ?_⟩
  intro hm
  obtain ⟨-, hlast⟩ := Trace.meets_append.mp hm
  have hdrained := (hlast w hrun).1.drained w₁ hs₁ (.client 0) (by rw [hb]; decide) hb₁
  rw [hn₁, World.told, if_pos hset] at hdrained
  cases hdrained

end Run

end Libnio.Socket
