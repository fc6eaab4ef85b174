import Libnio.Socket.Step

/-!
# Socket — the bytes that go out

What is handed to `write` against what the kernel has taken and what `buf_`
still holds, over whole runs. Both are read off the log; the calls, callbacks
and timers that have no part in it keep the balance by their updates.
-/

namespace Libnio.Socket

open Event (Dir)

/-! ## What a log says -/

section Log

variable {γ ρ υ : Type}

/-- The object that a `write` is for, what it is given and the kernel's answer. -/
def Call.sends : Call γ ρ υ → Option (Owner γ ρ × Data × WriteAnswer)
  | .write c data _ answer => some (.client c, data, answer)
  | .procWrite p data answer => some (.proc p, data, answer)
  | _ => none

/-- It asks for a `::write` that ends in a hard error. -/
def Label.hardError [DecidableEq γ] [DecidableEq ρ] (o : Owner γ ρ) : Label γ ρ υ → Bool
  | .call c => c.sends.any fun s => s.1 = o && s.2.2 = .hardError
  | _ => false

namespace Act

/-- What the kernel takes of what the object sends. -/
def accepted [DecidableEq γ] [DecidableEq ρ] (o : Owner γ ρ) : Act γ ρ υ → List UInt8
  | .taken o' bytes => if o' = o then bytes else []
  | _ => []

/-- What is passed to `write`. -/
def given [DecidableEq γ] [DecidableEq ρ] (o : Owner γ ρ) : Act γ ρ υ → List UInt8
  | .call c _ _ _ =>
      match c.sends with
      | some s => if s.1 = o then s.2.1.bytes else []
      | none => []
  | _ => []

/-- A `write` does not fail and reads nothing outside of its data. -/
def Sound (o : Owner γ ρ) : Act γ ρ υ → Prop
  | .call c _ ret copied =>
      ∀ s ∈ c.sends, s.1 = o → ret ≠ -1 ∧ 0 ≤ copied.1 ∧ copied.1 + copied.2 ≤ s.2.1.len
  | _ => True

/-- The entry has no part in what the object sends. -/
def Apart (o : Owner γ ρ) : Act γ ρ υ → Prop
  | .call c _ _ _ => ∀ s ∈ c.sends, s.1 ≠ o
  | .taken o' _ => o' ≠ o
  | _ => True

variable [DecidableEq γ] [DecidableEq ρ] {o : Owner γ ρ} {a : Act γ ρ υ}

theorem Apart.accepted (h : a.Apart o) : a.accepted o = [] := by
  cases a with
  | taken o' bytes => exact if_neg h
  | call c r ret copied => rfl
  | enter r => rfl
  | close o' => rfl
  | wait => rfl

theorem Apart.given (h : a.Apart o) : a.given o = [] := by
  cases a with
  | call c r ret copied =>
      show (match c.sends with
        | some s => if s.1 = o then s.2.1.bytes else []
        | none => []) = []
      cases hs : c.sends with
      | none => rfl
      | some s => exact if_neg (h s hs)
  | taken o' bytes => rfl
  | enter r => rfl
  | close o' => rfl
  | wait => rfl

omit [DecidableEq γ] [DecidableEq ρ] in
theorem Apart.sound (h : a.Apart o) : a.Sound o := by
  cases a with
  | call c r ret copied => exact fun s hs ho => absurd ho (h s hs)
  | taken o' bytes => trivial
  | enter r => trivial
  | close o' => trivial
  | wait => trivial

end Act

/-- The bytes that an update leaves in `buf_`, and those that the kernel has taken. -/
def Update.outgoing : Update γ ρ υ → Option (Owner γ ρ × List UInt8 × List UInt8)
  | .setBuf c buf taken => some (.client c, buf, taken)
  | .setProcBuf p buf taken => some (.proc p, buf, taken)
  | _ => none

/-- An update that sends logs what the kernel has taken. -/
theorem Update.acts_of_outgoing {d : Update γ ρ υ} {o : Owner γ ρ} {buf taken : List UInt8}
    (h : d.outgoing = some (o, buf, taken)) : d.acts = [.taken o taken] := by
  cases d with
  | setBuf c buf' taken' =>
      cases h
      rfl
  | setProcBuf p buf' taken' =>
      cases h
      rfl
  | _ => cases h

theorem Update.apart_of_outgoing {d : Update γ ρ υ} (h : d.outgoing = none) {o : Owner γ ρ} :
    ∀ a ∈ d.acts, a.Apart o := by
  intro a ha
  cases d with
  | setBuf c buf taken => cases h
  | setProcBuf p buf taken => cases h
  | enter r =>
      rw [List.mem_singleton.mp ha]
      trivial
  | close o' =>
      rw [List.mem_singleton.mp ha]
      trivial
  | _ => cases ha

end Log

namespace World

variable {γ ρ υ κ : Type}

/-- `buf_` of an object. -/
def buf (w : World γ ρ υ κ) : Owner γ ρ → List UInt8
  | .client c => (w.clients c).buf
  | .proc p => (w.procs p).buf

variable [DecidableEq γ] [DecidableEq ρ]

/-- The bytes that the kernel has accepted, followed by those in `buf_`, are the
data of all calls of `write` in their order; none of these has failed or read
outside of its data. -/
structure Intact (o : Owner γ ρ) (w : World γ ρ υ κ) : Prop where
  bytes : w.log.flatMap (·.accepted o) ++ w.buf o = w.log.flatMap (·.given o)
  calls : ∀ a ∈ w.log, a.Sound o

/-- The same within a call, which has already put in `more`. -/
structure IntactWith (o : Owner γ ρ) (more : List UInt8) (w : World γ ρ υ κ) : Prop where
  bytes : w.log.flatMap (·.accepted o) ++ w.buf o = w.log.flatMap (·.given o) ++ more
  calls : ∀ a ∈ w.log, a.Sound o

variable {o : Owner γ ρ} {more : List UInt8} {w w' : World γ ρ υ κ}

theorem Intact.ahead (h : w.Intact o) : w.IntactWith o [] :=
  ⟨by rw [List.append_nil, h.bytes], h.calls⟩

theorem IntactWith.intact (h : w.IntactWith o []) : w.Intact o :=
  ⟨by rw [h.bytes, List.append_nil], h.calls⟩

/-- What the kernel has accepted, followed by `buf_`. -/
def stream (w : World γ ρ υ κ) (o : Owner γ ρ) : List UInt8 :=
  w.log.flatMap (·.accepted o) ++ w.buf o

/-- On the way from one world to another nothing is given to the stream of the
object, and nothing of it is lost. -/
structure KeepsStream (o : Owner γ ρ) (w w' : World γ ρ υ κ) : Prop where
  stream : w'.stream o = w.stream o
  log : ∃ acts, w'.log = w.log ++ acts ∧ ∀ a ∈ acts, a.given o = [] ∧ a.Sound o

namespace KeepsStream

theorem refl (o : Owner γ ρ) (w : World γ ρ υ κ) : KeepsStream o w w :=
  ⟨rfl, [], (List.append_nil _).symm, by simp⟩

theorem trans {w'' : World γ ρ υ κ} (h : KeepsStream o w w') (h' : KeepsStream o w' w'') :
    KeepsStream o w w'' := by
  obtain ⟨acts, hl, ha⟩ := h.log
  obtain ⟨acts', hl', ha'⟩ := h'.log
  refine ⟨h'.stream.trans h.stream, acts ++ acts', ?_, ?_⟩
  · rw [hl', hl, List.append_assoc]
  · intro a hmem
    exact (List.mem_append.mp hmem).elim (ha a) (ha' a)

/-- Entries that have no part in what the object sends. -/
theorem of_acts (acts : List (Act γ ρ υ)) (hb : w'.buf o = w.buf o)
    (hl : w'.log = w.log ++ acts) (ha : ∀ a ∈ acts, a.Apart o) : KeepsStream o w w' := by
  have haccepted : acts.flatMap (·.accepted o) = [] :=
    List.flatMap_eq_nil_iff.mpr fun a hmem => (ha a hmem).accepted
  refine ⟨?_, acts, hl, fun a hmem => ⟨(ha a hmem).given, (ha a hmem).sound⟩⟩
  rw [World.stream, World.stream, hb, hl, List.flatMap_append, haccepted, List.append_nil]

theorem of_same (hb : w'.buf o = w.buf o) (hl : w'.log = w.log) : KeepsStream o w w' :=
  of_acts [] hb (by rw [hl, List.append_nil]) (by simp)

theorem logged {a : Act γ ρ υ} (ha : a.Apart o) : KeepsStream o w (w.logged a) := by
  refine of_acts [a] rfl rfl ?_
  intro b hb
  rw [List.mem_singleton.mp hb]
  exact ha

end KeepsStream

theorem stream_logged {a : Act γ ρ υ} (ha : a.accepted o = []) :
    (w.logged a).stream o = w.stream o := by
  show (w.log ++ [a]).flatMap _ ++ w.buf o = w.log.flatMap _ ++ w.buf o
  rw [List.flatMap_append, List.flatMap_singleton, ha, List.append_nil]

/-- Bytes go to the kernel, from `buf_` or from what a call has put in. -/
theorem stream_sent {taken : List UInt8} (extra : List UInt8)
    (hl : w'.log = w.log ++ [.taken o taken])
    (hb : taken ++ w'.buf o = w.buf o ++ extra) : w'.stream o = w.stream o ++ extra := by
  rw [stream, stream, hl, List.flatMap_append, List.flatMap_singleton]
  show _ ++ (if o = o then taken else []) ++ _ = _
  rw [if_pos rfl, List.append_assoc, hb, List.append_assoc]

theorem IntactWith.keepsStream (h : w.IntactWith o more) (hs : KeepsStream o w w') :
    w'.IntactWith o more := by
  obtain ⟨acts, hl, ha⟩ := hs.log
  have hgiven : acts.flatMap (·.given o) = [] :=
    List.flatMap_eq_nil_iff.mpr fun a hmem => (ha a hmem).1
  refine ⟨?_, ?_⟩
  · have hstream := hs.stream
    unfold stream at hstream
    rw [hstream, h.bytes, hl, List.flatMap_append, hgiven, List.append_nil]
  · intro a hmem
    rw [hl] at hmem
    rcases List.mem_append.mp hmem with hmem | hmem
    · exact h.calls a hmem
    · exact (ha a hmem).2

/-! ## Deeds -/

omit [DecidableEq ρ] in
theorem buf_setClient (w : World γ ρ υ κ) (c : γ) {f : ClientSocket γ ρ → ClientSocket γ ρ}
    (hf : ∀ cli, (f cli).buf = cli.buf) : (w.setClient c f).buf o = w.buf o := by
  cases o with
  | client c' =>
      show (Function.update w.clients c (f (w.clients c)) c').buf = (w.clients c').buf
      rcases eq_or_ne c' c with rfl | hc
      · rw [Function.update_self, hf]
      · rw [Function.update_of_ne hc]
  | proc p => rfl

omit [DecidableEq γ] in
theorem buf_setProc (w : World γ ρ υ κ) (p : ρ) {f : EventProc γ ρ → EventProc γ ρ}
    (hf : ∀ proc, (f proc).buf = proc.buf) : (w.setProc p f).buf o = w.buf o := by
  cases o with
  | client c => rfl
  | proc p' =>
      show (Function.update w.procs p (f (w.procs p)) p').buf = (w.procs p').buf
      rcases eq_or_ne p' p with rfl | hp
      · rw [Function.update_self, hf]
      · rw [Function.update_of_ne hp]

section Deeds

variable [DecidableEq υ] {sys : Sys γ ρ κ}

omit [DecidableEq υ] in
theorem buf_sent (w : World γ ρ υ κ) (c : γ) (bytes taken : List UInt8) :
    ((w.setClient c (·.setBuf bytes)).sent (.client c) taken).buf o
      = if Owner.client c = o then bytes else w.buf o := by
  cases o with
  | client c' =>
      show (Function.update w.clients c _ c').buf = _
      rcases eq_or_ne c' c with rfl | hc
      · rw [Function.update_self, if_pos rfl]
        rfl
      · rw [Function.update_of_ne hc, if_neg (fun h => hc (Owner.client.inj h).symm)]
        rfl
  | proc p => rfl

omit [DecidableEq υ] in
theorem buf_procSent (w : World γ ρ υ κ) (p : ρ) (bytes taken : List UInt8) :
    ((w.setProc p fun proc => { proc with buf := bytes }).sent (.proc p) taken).buf o
      = if Owner.proc p = o then bytes else w.buf o := by
  cases o with
  | client c => rfl
  | proc p' =>
      show (Function.update w.procs p _ p').buf = _
      rcases eq_or_ne p' p with rfl | hp
      · rw [Function.update_self, if_pos rfl]
      · rw [Function.update_of_ne hp, if_neg (fun h => hp (Owner.proc.inj h).symm)]
        rfl

/-- **What an update makes of a buffer.** -/
theorem update_buf (sys : Sys γ ρ κ) (w : World γ ρ υ κ) (d : Update γ ρ υ) :
    (w.update sys d).buf o = match d.outgoing with
      | some (o', buf, _) => if o' = o then buf else w.buf o
      | none => w.buf o := by
  cases d with
  | setFlag c dir b => exact w.buf_setClient c fun _ => rfl
  | armTimer c dir ms =>
      show (if _ then w else w.armTimer c dir ms).buf o = w.buf o
      split
      · rfl
      · exact buf_setClient _ c fun _ => rfl
  | disarmTimer c dir =>
      show (if _ then _ else w).buf o = w.buf o
      split
      · exact buf_setClient _ c fun _ => rfl
      · rfl
  | startConnecting c ms =>
      exact (buf_setClient _ c (f := (·.setWaiting .write true)) fun _ => rfl).trans
        (buf_setClient _ c (f := (·.setConnecting .write true)) fun _ => rfl)
  | stopConnecting c =>
      show (if _ then _ else w).buf o = w.buf o
      split
      · exact (buf_setClient _ c (f := (·.setConnecting .write false)) fun _ => rfl).trans
          (w.buf_setClient c (f := (·.setWaiting .write false)) fun _ => rfl)
      · rfl
  | timerFired c dir => exact w.buf_setClient c fun _ => rfl
  | connectTimeout c => exact w.buf_setClient c fun _ => rfl
  | setFe c fe => exact w.buf_setClient c (f := fun cli => { cli with fe := some fe }) fun _ => rfl
  | setBuf c buf taken => exact buf_sent w c buf taken
  | setProcBuf p buf taken => exact buf_procSent w p buf taken
  | delayClose c =>
      show (if _ then _ else w).buf o = w.buf o
      split
      · exact w.buf_setClient c (f := fun cli => { cli with closing := true }) fun _ => rfl
      · rfl
  | procDelayClose p =>
      show (if _ then _ else w).buf o = w.buf o
      split
      · exact w.buf_setProc p (f := fun proc => { proc with closing := true }) fun _ => rfl
      · rfl
  | _ => rfl

/-- Deeds of another object, and those that leave `buf_` alone. -/
theorem Updates.buf {Q : Update γ ρ υ → Prop} (hd : Updates sys Q w w')
    (hq : ∀ d, Q d → ∀ buf taken, d.outgoing ≠ some (o, buf, taken)) : w'.buf o = w.buf o := by
  refine hd.keeps (P := fun v => v.buf o = w.buf o) ?_ rfl
  intro v d hdq hv
  rw [update_buf, ← hv]
  split
  · rename_i o' buf taken hout
    refine if_neg ?_
    rintro rfl
    exact hq d hdq buf taken hout
  · rfl

/-- **One update.** What goes out comes from `buf_`; nothing else touches that. -/
theorem KeepsStream.update (sys : Sys γ ρ κ) (d : Update γ ρ υ)
    (hd : ∀ buf taken, d.outgoing = some (o, buf, taken) → taken ++ buf = w.buf o) :
    KeepsStream o w (w.update sys d) := by
  have hbuf := update_buf (o := o) sys w d
  have hlog := update_acts sys w d
  cases hout : d.outgoing with
  | none =>
      rw [hout] at hbuf
      exact .of_acts _ hbuf hlog (d.apart_of_outgoing hout)
  | some s =>
      obtain ⟨o', buf, taken⟩ := s
      rw [hout] at hbuf
      rw [d.acts_of_outgoing hout] at hlog
      by_cases ho : o' = o
      · subst ho
        refine ⟨?_, [.taken o' taken], hlog, ?_⟩
        · have hstream := stream_sent [] hlog (by
            rw [List.append_nil, hbuf, ← hd buf taken hout]
            exact congrArg _ (if_pos rfl))
          rwa [List.append_nil] at hstream
        · intro a ha
          rw [List.mem_singleton.mp ha]
          exact ⟨rfl, trivial⟩
      · refine .of_acts _ (hbuf.trans (if_neg ho)) hlog ?_
        intro a ha
        rw [List.mem_singleton.mp ha]
        exact ho

/-- Deeds of another object, and those that leave `buf_` alone. -/
theorem Updates.keepsStream {Q : Update γ ρ υ → Prop} (hd : Updates sys Q w w')
    (hq : ∀ d, Q d → ∀ buf taken, d.outgoing ≠ some (o, buf, taken)) : KeepsStream o w w' :=
  hd.keeps (P := fun v => KeepsStream o w v)
    (fun _ d hdq hw => hw.trans (.update sys d fun buf taken he => absurd he (hq d hdq buf taken)))
    (.refl o w)

end Deeds

end World

/-- An update that sends is of the kind, and for its object. -/
theorem Within.outgoing {γ ρ υ : Type} {o o' : Owner γ ρ} {ks : List Kind} {d : Update γ ρ υ}
    {buf taken : List UInt8} (h : Within o' ks d) (hs : d.outgoing = some (o, buf, taken)) :
    o' = o ∧ .buf ∈ ks := by
  obtain ⟨hfor, hk⟩ := h
  cases d <;> simp only [Update.outgoing, reduceCtorEq, Option.some.injEq, Prod.mk.injEq] at hs
  · exact ⟨hfor.symm.trans hs.1, hk⟩
  · exact ⟨hfor.symm.trans hs.1, hk⟩

/-- An update that neither sends nor enters a handler nor closes logs nothing. -/
theorem Within.acts {γ ρ υ : Type} {o : Owner γ ρ} {ks : List Kind} {d : Update γ ρ υ}
    (h : Within o ks d) (hbuf : .buf ∉ ks) (henter : .enter ∉ ks) (hclose : .enterClose ∉ ks)
    (hc : .close ∉ ks) : d.acts = [] := by
  obtain ⟨-, hk⟩ := h
  cases d with
  | setBuf c buf taken => exact absurd hk hbuf
  | setProcBuf p buf taken => exact absurd hk hbuf
  | enter r =>
      rw [Update.kind] at hk
      split at hk
      · exact absurd hk hclose
      · exact absurd hk henter
  | close o' => exact absurd hk hc
  | _ => rfl

/-- A call whose updates send is a `write`, for this object. -/
theorem World.CallWithin.outgoing {γ ρ υ : Type} {o : Owner γ ρ} {c : Call γ ρ υ}
    {d : Update γ ρ υ} {buf taken : List UInt8} (h : World.CallWithin c d)
    (hs : d.outgoing = some (o, buf, taken)) : ∃ s ∈ c.sends, s.1 = o := by
  unfold World.CallWithin at h
  cases hown : c.owner with
  | none =>
      rw [hown] at h
      obtain ⟨tc, u, rfl, -⟩ := h
      cases hs
  | some o' =>
      rw [hown] at h
      obtain ⟨rfl, hk⟩ := Within.outgoing h hs
      cases c with
      | write c data ms answer =>
          cases hown
          exact ⟨_, rfl, rfl⟩
      | procWrite p data answer =>
          cases hown
          exact ⟨_, rfl, rfl⟩
      | _ => simp [Call.kinds] at hk

/-! ## A call of `write` -/

/-- When a `write` returns something else than `-1`, where the `write_await` for
the rest of the data answers with `b`. -/
theorem Outgoing.write_result (buf : List UInt8) (data : Data) {answer : WriteAnswer}
    (hhard : answer ≠ .hardError) {b : Bool} {P : Prop}
    (hp : (write buf data answer).awaits = true → (b = true ↔ P)) :
    (if (write buf data answer).awaits then
        if b then (write buf data answer).ret else -1
      else (write buf data answer).ret) ≠ -1 ↔
      (buf = [] → answer ≠ .wouldBlock ∧ (answer.taken data.len < data.len → P)) := by
  by_cases hb : buf = []
  · cases answer with
    | hardError => exact absurd rfl hhard
    | wouldBlock =>
        rw [write_wouldBlock hb]
        simp [hb]
    | wrote n =>
        have hle : min n data.len ≤ data.len := Nat.min_le_right ..
        rw [write_wrote hb] at hp ⊢
        by_cases hall : min n data.len = data.len
        · simp [hb, WriteAnswer.taken, hall]
        · have hn : n < data.len := by omega
          have hbp := hp (by simpa using hall)
          cases b <;> simp [hb, WriteAnswer.taken, hn, hn.le, hn.ne, ← hbp]
  · rw [write_buffered hb]
    simp [hb]

namespace World

variable {γ ρ υ κ : Type} [DecidableEq γ] [DecidableEq ρ] {o : Owner γ ρ}
  {more : List UInt8} {w w' : World γ ρ υ κ}

/-- `write_await` succeeds: it may leave the registration to a timer callback
that is running, or the event takes the file. -/
def MayRegister (sys : Sys γ ρ κ) (w : World γ ρ υ κ) : Owner γ ρ → Prop
  | .client c => w.ev.oneshot = true ∧ (w.clients c).flags .write = true ∨
      ∀ fe ∈ (w.clients c).fe, w.ev.accepts sys.host fe = true
  | .proc p => ∀ fe ∈ (w.procs p).fe, w.ev.accepts sys.host fe = true

/-- What the step finds lets a `write` of this object go well: with nothing in
`buf_` the kernel would not block, and where it takes a part of the data
`write_await` succeeds. -/
def WriteGoesWell (sys : Sys γ ρ κ) (o : Owner γ ρ) (w : World γ ρ υ κ) : Label γ ρ υ → Prop
  | .call c => ∀ s ∈ c.sends, s.1 = o → w.buf o = [] →
      s.2.2 ≠ .wouldBlock ∧ (s.2.2.taken s.2.1.len < s.2.1.len → w.MayRegister sys o)
  | _ => True

section Decide

variable (sys : Sys γ ρ κ)

instance (w : World γ ρ υ κ) (o : Owner γ ρ) : Decidable (MayRegister sys w o) :=
  match o with
  | .client _ => inferInstanceAs (Decidable (_ ∨ ∀ _ ∈ _, _))
  | .proc _ => inferInstanceAs (Decidable (∀ _ ∈ _, _))

instance (o : Owner γ ρ) (w : World γ ρ υ κ) : DecidablePred (WriteGoesWell sys o w)
  | .call _ => inferInstanceAs (Decidable (∀ _ ∈ _, _ → _ → _ ∧ _))
  | .ret => .isTrue trivial
  | .wait => .isTrue trivial
  | .next _ => .isTrue trivial

end Decide

section Calls

variable [DecidableEq υ] {sys : Sys γ ρ κ}

omit [DecidableEq υ] in
theorem add_fst (hok : w.ev.TypesOk sys.host) (dir : Dir) (fe : File γ ρ) (proc : Callback) :
    (w.ev.add sys.host dir fe proc).1 = w.ev.accepts sys.host fe := by
  cases ha : w.ev.accepts sys.host fe with
  | true => rw [Event.NioEvent.add_accepted hok ha]
  | false => exact (Event.NioEvent.add_refused hok ha dir proc).1

theorem await_fst (hok : w.ev.TypesOk sys.host) (dir : Dir) (proc : Callback) {c : γ} (ms : Int)
    {fe : File γ ρ} (hfe : (w.clients c).fe = some fe) :
    ∃ v, w.await sys dir proc c ms = some
      (w.ev.oneshot && (w.clients c).flags dir || w.ev.accepts sys.host fe, v) := by
  unfold await
  rw [hfe]
  dsimp only
  by_cases hskip : w.ev.oneshot = true ∧ (w.clients c).flags dir = true
  · simp only [hskip, Bool.not_true, Bool.or_self, Bool.false_eq_true, if_false, Bool.and_self,
      Bool.true_or]
    split
    · exact ⟨_, rfl⟩
    · split <;> exact ⟨_, rfl⟩
  · have hadd : (!w.ev.oneshot || !(w.clients c).flags dir) = true := by
      cases ho : w.ev.oneshot <;> cases hf : (w.clients c).flags dir <;> simp_all
    have hskip' : (w.ev.oneshot && (w.clients c).flags dir) = false := by
      simpa [Bool.and_eq_true, ← Bool.not_eq_true] using hskip
    simp only [hadd, if_true, addEvent, add_fst hok, hskip', Bool.false_or]
    cases w.ev.accepts sys.host fe
    · exact ⟨_, rfl⟩
    · simp only [Bool.not_true, Bool.false_eq_true, if_false]
      split
      · exact ⟨_, rfl⟩
      · split <;> exact ⟨_, rfl⟩

/-- What a `write` of this object leaves of the buffers and the log. -/
structure WriteLeaves (o : Owner γ ρ) (out : Written) (w w' : World γ ρ υ κ) : Prop where
  buf : ∀ o', w'.buf o' = if o = o' then out.buf else w.buf o'
  log : w'.log = w.log ++ [.taken o out.taken]

/-- Then comes a `write_await`, or nothing. -/
theorem WriteLeaves.updates {out : Written} (h : WriteLeaves o out w w') {w'' : World γ ρ υ κ}
    {ks : List Kind} (hd : Updates sys (Within o ks) w' w'') (hk : ks ⊆ [.add, .arm]) :
    WriteLeaves o out w w'' := by
  refine ⟨?_, ?_⟩
  · intro o'
    rw [hd.buf, h.buf]
    intro d hq buf taken hout
    exact absurd (hk (hq.outgoing hout).2) (by decide)
  · rw [← h.log]
    refine hd.keeps (P := fun v => v.log = w'.log) ?_ rfl
    intro v d hq hv
    have hacts := (hq.mono hk).acts (by decide) (by decide) (by decide) (by decide)
    rw [update_acts, hacts, List.append_nil, hv]

/-- **One call of `write`** does to the bytes what `Outgoing.write` says. -/
theorem perform_left (hown : w.Owned) {c : Call γ ρ υ} {r : Int × (Int × Nat) × World γ ρ υ κ}
    (h : w.perform sys c = some r) {s : Owner γ ρ × Data × WriteAnswer} (hs : c.sends = some s) :
    WriteLeaves s.1 (Outgoing.write (w.buf s.1) s.2.1 s.2.2) w r.2.2 := by
  cases c with
  | write c data ms answer =>
      cases hs
      change w.write sys c data ms answer = some r at h
      unfold write at h
      split at h
      · cases h
      have hsent : WriteLeaves (.client c) (Outgoing.write (w.clients c).buf data answer) w
          ((w.setClient c (·.setBuf (Outgoing.write (w.clients c).buf data answer).buf)).sent
            (.client c) (Outgoing.write (w.clients c).buf data answer).taken) :=
        ⟨fun o' => buf_sent w c _ _, rfl⟩
      have hown' :
          ((w.setClient c (·.setBuf (Outgoing.write (w.clients c).buf data answer).buf)).sent
          (.client c) (Outgoing.write (w.clients c).buf data answer).taken).Owned := by
        have ho := hown.setClient c
          (f := (·.setBuf (Outgoing.write (w.clients c).buf data answer).buf)) fun _ => rfl
        exact ⟨ho.client, ho.proc⟩
      dsimp only at h
      split at h
      · obtain ⟨s, hs, rfl⟩ := Option.map_eq_some_iff.mp h
        exact hsent.updates (await_updates hown' hs) (by decide)
      · cases h
        exact hsent
  | procWrite p data answer =>
      cases hs
      change w.procWrite sys p data answer = some r at h
      unfold procWrite at h
      split at h
      · cases h
      have hsent : WriteLeaves (.proc p) (Outgoing.write (w.procs p).buf data answer) w
          ((w.setProc p fun proc => { proc with
            buf := (Outgoing.write (w.procs p).buf data answer).buf }).sent (.proc p)
              (Outgoing.write (w.procs p).buf data answer).taken) :=
        ⟨fun o' => buf_procSent w p _ _, rfl⟩
      have hown' : ((w.setProc p fun proc => { proc with
          buf := (Outgoing.write (w.procs p).buf data answer).buf }).sent (.proc p)
            (Outgoing.write (w.procs p).buf data answer).taken).Owned := by
        have ho := hown.setProc p (f := fun proc => { proc with
          buf := (Outgoing.write (w.procs p).buf data answer).buf }) fun _ => rfl
        exact ⟨ho.client, ho.proc⟩
      dsimp only at h
      split at h
      · cases h
        have hd : Updates sys _ _ _ := procAwait_updates hown' .write .writeProc p
        exact hsent.updates hd (by decide)
      · cases h
        exact hsent
  | _ => cases hs

omit [DecidableEq υ] in
/-- The stream of the object grows by what is sent and buffered. -/
theorem WriteLeaves.stream_iff {out : Written} (h : WriteLeaves o out w w') (bytes : List UInt8) :
    w'.stream o = w.stream o ++ bytes ↔ out.taken ++ out.buf = w.buf o ++ bytes := by
  rw [stream, stream, h.buf, if_pos rfl, h.log, List.flatMap_append, List.flatMap_singleton]
  show _ ++ (if o = o then out.taken else []) ++ _ = _ ↔ _
  rw [if_pos rfl, List.append_assoc, List.append_assoc, List.append_cancel_left_eq]

omit [DecidableEq υ] in
theorem WriteLeaves.stream_other {out : Written} (h : WriteLeaves o out w w') {o' : Owner γ ρ}
    (ho : o ≠ o') : w'.stream o' = w.stream o' := by
  rw [stream, stream, h.buf, if_neg ho, h.log, List.flatMap_append, List.flatMap_singleton]
  show _ ++ (if o = o' then out.taken else []) ++ _ = _
  rw [if_neg ho, List.append_nil]

/-- What a call of `write` returns, what it reads and what it does to the bytes. -/
structure Wrote (sys : Sys γ ρ κ) (o : Owner γ ρ) (data : Data) (answer : WriteAnswer)
    (w : World γ ρ υ κ) (r : Int × (Int × Nat) × World γ ρ υ κ) : Prop where
  ret : r.1 ≠ -1 ↔ (w.buf o = [] →
    answer ≠ .wouldBlock ∧ (answer.taken data.len < data.len → w.MayRegister sys o))
  copied : r.2.1 = (Outgoing.write (w.buf o) data answer).copied
  ahead : ¬ Blocks (w.buf o) answer → w.Intact o → r.2.2.IntactWith o data.bytes

omit [DecidableEq υ] in
/-- The bytes of a call that goes well come out of its data. -/
theorem WriteLeaves.ahead {data : Data} {answer : WriteAnswer}
    (h : WriteLeaves o (Outgoing.write (w.buf o) data answer) w w')
    (hnb : ¬ Blocks (w.buf o) answer) (hhard : answer ≠ .hardError) (hi : w.Intact o) :
    w'.IntactWith o data.bytes := by
  have hbytes : (Outgoing.write (w.buf o) data answer).taken ++
      (Outgoing.write (w.buf o) data answer).buf = w.buf o ++ data.bytes :=
    (Outgoing.write_bytes hnb hhard).2.1
  have hstream : w'.stream o = w.stream o ++ data.bytes := by
    refine stream_sent _ h.log ?_
    rw [h.buf, if_pos rfl]
    exact hbytes
  refine ⟨?_, ?_⟩
  · unfold stream at hstream
    rw [hstream, hi.bytes, h.log, List.flatMap_append]
    show _ = _ ++ [] ++ _
    rw [List.append_nil]
  · intro a ha
    rw [h.log] at ha
    rcases List.mem_append.mp ha with ha | ha
    · exact hi.calls a ha
    · rw [List.mem_singleton.mp ha]
      trivial

omit [DecidableEq γ] [DecidableEq ρ] [DecidableEq υ] in
/-- A `write` that waits has an empty buffer, and a file to wait for. -/
theorem file_of_awaits {buf : List UInt8} {fe : Option (File γ ρ)} {data : Data}
    {answer : WriteAnswer} (hnone : ¬ (buf.isEmpty && fe.isNone) = true)
    (hawaits : (Outgoing.write buf data answer).awaits = true) : ∃ f, fe = some f := by
  have hbuf : buf = [] := by
    by_contra hne
    rw [Outgoing.write_buffered hne] at hawaits
    cases hawaits
  rw [hbuf, List.isEmpty_nil, Bool.true_and, Option.isNone_iff_eq_none] at hnone
  exact Option.ne_none_iff_exists'.mp hnone

theorem write_wrote (hok : w.ev.TypesOk sys.host) {c : γ} {data : Data} {ms : Int}
    {answer : WriteAnswer} {r : Int × (Int × Nat) × World γ ρ υ κ} (hown : w.Owned)
    (h : w.write sys c data ms answer = some r) (hhard : answer ≠ .hardError) :
    Wrote sys (.client c) data answer w r := by
  have hleft : WriteLeaves (.client c) _ w r.2.2 :=
    perform_left (c := .write c data ms answer) hown h rfl
  have hahead := fun hnb hi => hleft.ahead hnb hhard hi
  unfold write at h
  split at h
  · cases h
  rename_i hnone
  dsimp only at h
  -- the world in front of `write_await`
  generalize hv : (w.setClient c (·.setBuf (Outgoing.write (w.clients c).buf
    data answer).buf)).sent (.client c) (Outgoing.write (w.clients c).buf data answer).taken =
        v at h
  split at h
  · rename_i hawaits
    obtain ⟨s, hs, rfl⟩ := Option.map_eq_some_iff.mp h
    obtain ⟨fe, hfe⟩ := file_of_awaits hnone hawaits
    have hev : v.ev = w.ev := by rw [← hv]; rfl
    have hcli : (v.clients c).fe = some fe ∧ (v.clients c).flags = (w.clients c).flags := by
      rw [← hv]
      show (Function.update w.clients c _ c).fe = _ ∧ (Function.update w.clients c _ c).flags = _
      rw [Function.update_self]
      exact ⟨hfe, rfl⟩
    obtain ⟨x, hx⟩ := await_fst (hev ▸ hok : v.ev.TypesOk sys.host) .write .writeCallback ms hcli.1
    obtain rfl := Option.some.inj (hs.symm.trans hx)
    refine ⟨?_, rfl, hahead⟩
    show (if _ then (Outgoing.write (w.clients c).buf data answer).ret else -1) ≠ -1 ↔ _
    have hmay : (v.ev.oneshot && (v.clients c).flags .write || v.ev.accepts sys.host fe) = true ↔
        w.MayRegister sys (.client c) := by
      rw [hev, hcli.2]
      simp [MayRegister, hfe]
    have hresult := Outgoing.write_result (w.clients c).buf data hhard fun _ => hmay
    rw [if_pos hawaits] at hresult
    exact hresult
  · rename_i hawaits
    cases h
    refine ⟨?_, rfl, hahead⟩
    have hresult := Outgoing.write_result (w.clients c).buf data hhard
      (b := true) (P := w.MayRegister sys (.client c)) fun h => absurd h hawaits
    rw [if_neg hawaits] at hresult
    exact hresult

theorem procWrite_wrote (hok : w.ev.TypesOk sys.host) {p : ρ} {data : Data}
    {answer : WriteAnswer} {r : Int × (Int × Nat) × World γ ρ υ κ} (hown : w.Owned)
    (h : w.procWrite sys p data answer = some r) (hhard : answer ≠ .hardError) :
    Wrote sys (.proc p) data answer w r := by
  have hleft : WriteLeaves (.proc p) _ w r.2.2 :=
    perform_left (c := .procWrite p data answer) hown h rfl
  have hahead := fun hnb hi => hleft.ahead hnb hhard hi
  unfold procWrite at h
  split at h
  · cases h
  rename_i hnone
  dsimp only at h
  generalize hv : (w.setProc p fun proc => { proc with buf := (Outgoing.write (w.procs p).buf
    data answer).buf }).sent (.proc p) (Outgoing.write (w.procs p).buf data answer).taken = v at h
  split at h
  · rename_i hawaits
    cases h
    obtain ⟨fe, hfe⟩ := file_of_awaits hnone hawaits
    have hev : v.ev = w.ev := by rw [← hv]; rfl
    have hfe' : (v.procs p).fe = some fe := by
      rw [← hv]
      show (Function.update w.procs p _ p).fe = _
      rw [Function.update_self]
      exact hfe
    refine ⟨?_, rfl, hahead⟩
    show (if (v.procWriteAwait sys p).1 then (Outgoing.write (w.procs p).buf data answer).ret
      else -1) ≠ -1 ↔ _
    have hmay : (v.procWriteAwait sys p).1 = true ↔ w.MayRegister sys (.proc p) := by
      have hadd : (v.procWriteAwait sys p).1 = (v.ev.add sys.host .write fe .writeProc).1 := by
        unfold procWriteAwait procAwait
        rw [hfe']
        rfl
      rw [hadd, hev, add_fst hok]
      simp [MayRegister, hfe]
    have hresult := Outgoing.write_result (w.procs p).buf data hhard fun _ => hmay
    rw [if_pos hawaits] at hresult
    exact hresult
  · rename_i hawaits
    cases h
    refine ⟨?_, rfl, hahead⟩
    have hresult := Outgoing.write_result (w.procs p).buf data hhard
      (b := true) (P := w.MayRegister sys (.proc p)) fun h => absurd h hawaits
    rw [if_neg hawaits] at hresult
    exact hresult

/-- **One call of `write`**, of a socket or a proc. -/
theorem perform_wrote (hok : w.ev.TypesOk sys.host) (hown : w.Owned) {c : Call γ ρ υ}
    {r : Int × (Int × Nat) × World γ ρ υ κ} (h : w.perform sys c = some r)
    {s : Owner γ ρ × Data × WriteAnswer} (hs : c.sends = some s) (hhard : s.2.2 ≠ .hardError) :
    Wrote sys s.1 s.2.1 s.2.2 w r := by
  cases c with
  | write c data ms answer =>
      cases hs
      exact write_wrote hok hown h hhard
  | procWrite p data answer =>
      cases hs
      exact procWrite_wrote hok hown h hhard
  | _ => cases hs

/-! ## One step -/

omit [DecidableEq υ] in
/-- A call of `write` that goes well. -/
theorem Wrote.intact {data : Data} {answer : WriteAnswer} {r : Int × (Int × Nat) × World γ ρ υ κ}
    (hwrote : Wrote sys o data answer w r) (hi : w.Intact o) (hhard : answer ≠ .hardError)
    (hret : r.1 ≠ -1) {c : Call γ ρ υ} (hs : c.sends = some (o, data, answer)) :
    (r.2.2.logged (.call c w.running r.1 r.2.1)).Intact o := by
  have hnb : ¬ Blocks (w.buf o) answer := fun hb => (hwrote.ret.mp hret hb.1).1 hb.2
  have ha := hwrote.ahead hnb hi
  refine ⟨?_, ?_⟩
  · show (r.2.2.log ++ [_]).flatMap _ ++ r.2.2.buf o = (r.2.2.log ++ [_]).flatMap _
    rw [List.flatMap_append, List.flatMap_append, List.flatMap_singleton, List.flatMap_singleton]
    show _ ++ [] ++ _ = _ ++ (match c.sends with
      | some s => if s.1 = o then s.2.1.bytes else []
      | none => [])
    rw [hs]
    show _ ++ [] ++ _ = _ ++ if o = o then data.bytes else []
    rw [if_pos rfl, List.append_nil, ha.bytes]
  · intro a hmem
    rcases List.mem_append.mp hmem with hmem | hmem
    · exact ha.calls a hmem
    · rw [List.mem_singleton.mp hmem]
      intro s hs' _
      obtain rfl := Option.some.inj (hs.symm.trans hs')
      refine ⟨hret, ?_⟩
      rw [hwrote.copied]
      exact (Outgoing.write_bytes hnb hhard).2.2.1

theorem KeepsStream.flush (sys : Sys γ ρ κ) (h : KeepsStream o w w') (c : γ)
    (answer : WriteAnswer) :
    KeepsStream o w (w'.update sys (.setBuf c (Outgoing.flush (w'.clients c).buf answer).buf
      (Outgoing.flush (w'.clients c).buf answer).taken)) := by
  refine h.trans (.update sys _ ?_)
  intro buf taken he
  cases he
  exact Outgoing.flush_bytes _ answer

theorem KeepsStream.procFlush (sys : Sys γ ρ κ) (w : World γ ρ υ κ) (p : ρ) (answer : WriteAnswer) :
    KeepsStream o w (w.update sys (.setProcBuf p (Outgoing.flush (w.procs p).buf answer).buf
      (Outgoing.flush (w.procs p).buf answer).taken)) := by
  refine .update sys _ ?_
  intro buf taken he
  cases he
  exact Outgoing.flush_bytes _ answer

theorem KeepsStream.writeCallback (sys : Sys γ ρ κ) (w : World γ ρ υ κ) (c : γ) (fe : File γ ρ)
    (answer : WriteAnswer) : KeepsStream o w (w.writeCallback c fe answer) := by
  have hcall : ∀ {v : World γ ρ υ κ} (hd : Handler) (fd : Int), KeepsStream o w v →
      KeepsStream o w (v.callHandler c hd fd false) := by
    intro v hd fd hv
    unfold callHandler
    split
    · exact hv.trans (.update sys (.enter (.client c hd fd false)) fun _ _ he => by cases he)
    · exact hv
  have hflag : KeepsStream o w _ := .update sys (.setFlag c .write false) fun _ _ he => by cases he
  have hdisarm := hflag.trans (.update sys (.disarmTimer c .write) fun _ _ he => by cases he)
  unfold World.writeCallback
  dsimp only
  split
  · have hsent := hdisarm.flush sys c answer
    split
    · exact hcall _ _ hsent
    · split
      · exact hsent
      · exact hcall _ _ hsent
  · exact hcall _ _ hdisarm

theorem KeepsStream.writeProc (sys : Sys γ ρ κ) (w : World γ ρ υ κ) (p : ρ) (answer : WriteAnswer) :
    KeepsStream o w (w.writeProc p answer) := by
  have henter : ∀ {v : World γ ρ υ κ} (hd : Handler), KeepsStream o w v →
      KeepsStream o w (v.enter (.proc p hd false)) := by
    intro v hd hv
    exact hv.trans (.update sys (.enter (.proc p hd false)) fun _ _ he => by cases he)
  unfold World.writeProc
  split
  · have hsent : KeepsStream o w _ := .procFlush sys w p answer
    dsimp only
    split
    · exact henter _ hsent
    · split
      · exact hsent
      · exact henter _ hsent
  · exact henter _ (.refl o w)

/-- **A callback** sends no more than what it takes out of `buf_`. -/
theorem KeepsStream.callback (hown : w.Owned) {fe : File γ ρ} {proc : Callback} {answer : Answer}
    (hc : w.callback sys fe proc answer = some w') : KeepsStream o w w' := by
  have hquiet : .buf ∉ proc.kinds → KeepsStream o w w' := by
    intro hk
    refine (callback_updates hown hc).keepsStream ?_
    intro d hd buf taken hsend
    exact hk (hd.outgoing hsend).2
  obtain ⟨o', n⟩ := fe
  cases proc with
  | connectCallback => exact hquiet (by decide)
  | readCallback => exact hquiet (by decide)
  | connectProc => exact hquiet (by decide)
  | readProc => exact hquiet (by decide)
  | writeCallback =>
      cases o' with
      | client c =>
          cases hc
          exact .writeCallback sys w c _ _
      | proc p => cases hc
  | writeProc =>
      cases o' with
      | client c => cases hc
      | proc p =>
          cases hc
          exact .writeProc sys w p _

/-- **A step of `wait`.** -/
theorem KeepsStream.move (hown : w.Owned) {answer : Answer} (hm : Move sys answer w w') :
    KeepsStream o w w' := by
  have hown' : ∀ phase, (w.setPhase phase).Owned := fun _ => ⟨hown.client, hown.proc⟩
  have hphase : ∀ phase, KeepsStream o w (w.setPhase phase) := fun _ => .of_same rfl rfl
  have hupdates : ∀ {phase : Phase γ ρ υ} {v' : World γ ρ υ κ} {o' : Owner γ ρ} {ks : List Kind},
      Updates sys (Within o' ks) (w.setPhase phase) v' → .buf ∉ ks → KeepsStream o w v' := by
    intro phase v' o' ks hd hk
    refine (hphase phase).trans (hd.keepsStream ?_)
    intro d hq buf taken hsend
    exact hk (hq.outgoing hsend).2
  cases hm with
  | procClose hp hi => exact hupdates (procClose_updates _) (by decide)
  | procsDone hp hi => exact .of_same rfl rfl
  | close hp hi => exact hupdates (close_updates _) (by decide)
  | clientsDone hp hi => exact .of_same rfl rfl
  | fetch hp => exact .of_same rfl rfl
  | skip hp hl => exact hphase _
  | read hp hl hptr hhit hproc hc => exact (hphase _).trans (.callback (hown' _) hc)
  | write hp hc => exact (hphase _).trans (.callback (hown' _) hc)
  | trigger hp =>
      unfold triggerTimers
      split
      · exact .of_same rfl rfl
      · exact hphase _
  | clearFlag hp =>
      exact (hphase _).trans (.update sys (.setFlag _ _ false) fun _ _ he => by cases he)
  | fire hp =>
      rename_i t batch
      cases t with
      | client c dir => exact hupdates (onTimer_updates c dir) (by decide)
      | user u =>
          exact (hphase _).trans (.update sys (.enter (.onTimer u)) fun _ _ he => by cases he)
  | done hp => exact hphase _

/-- **Any step but a `write`** of the object. -/
theorem KeepsStream.step (hown : w.Owned) {l : Label γ ρ υ} (hs : w.step sys l = some w')
    (hno : ∀ c, l = .call c → ∀ s ∈ c.sends, s.1 ≠ o) : KeepsStream o w w' := by
  cases stepped hs with
  | ret hr => exact .of_same rfl rfl
  | wait hr hp =>
      have hlogged : KeepsStream o w (w.logged .wait) := .logged trivial
      exact hlogged.trans (.of_same rfl rfl)
  | next hr hm => exact .move hown hm
  | call hm hp =>
      rename_i c r
      refine KeepsStream.trans ((perform_updates hown hp).keepsStream ?_) (.logged (hno c rfl))
      intro d hd buf taken hd'
      obtain ⟨s, hs', ho⟩ := hd.outgoing hd'
      exact hno c rfl s hs' ho

/-- A call of `write` fails where it does not go smoothly. -/
theorem failed_step {l : Label γ ρ υ} (hs : w.step sys l = some w') (hok : w.ev.TypesOk sys.host)
    (hown : w.Owned) (hsoft : l.hardError o = false) (hn : ¬ w.WriteGoesWell sys o l) :
    ∃ a ∈ w'.log, ¬ a.Sound o := by
  cases stepped hs with
  | ret hr => exact absurd trivial hn
  | wait hr hp => exact absurd trivial hn
  | next hr hm => exact absurd trivial hn
  | call hm h =>
      rename_i c r
      change ¬ ∀ s ∈ c.sends, _ at hn
      push Not at hn
      obtain ⟨s, hsends, rfl, hbuf, hfail⟩ := hn
      have hhard : s.2.2 ≠ .hardError := by
        intro he
        rw [Option.mem_def] at hsends
        simp [Label.hardError, hsends, he] at hsoft
      refine ⟨_, List.mem_append_right _ (List.mem_singleton_self _), ?_⟩
      intro hsound
      obtain ⟨hlt, hno⟩ := hfail (((perform_wrote hok hown h hsends hhard).ret.mp
        (hsound s hsends rfl).1 hbuf).1)
      exact hno
          (((perform_wrote hok hown h hsends hhard).ret.mp (hsound s hsends rfl).1 hbuf).2 hlt)

/-- **One step.** -/
theorem Intact.step (h : w.Intact o) {l : Label γ ρ υ} (hs : w.step sys l = some w')
    (hok : w.ev.TypesOk sys.host) (hown : w.Owned) (hsoft : l.hardError o = false)
    (hsm : w.WriteGoesWell sys o l) : w'.Intact o := by
  by_cases hsends : ∃ c, l = .call c ∧ ∃ s ∈ c.sends, s.1 = o
  · obtain ⟨c, rfl, s, hsends, rfl⟩ := hsends
    cases stepped hs with
    | call hm hp =>
        have hhard : s.2.2 ≠ .hardError := by
          intro he
          rw [Option.mem_def] at hsends
          simp [Label.hardError, hsends, he] at hsoft
        have hwrote := perform_wrote hok hown hp hsends hhard
        exact hwrote.intact h hhard (hwrote.ret.mpr (hsm s hsends rfl)) hsends
  · push Not at hsends
    exact (h.ahead.keepsStream (.step hown hs hsends)).intact

end Calls

end World

/-! ## Every run -/

section Run

variable {γ ρ υ κ : Type} [DecidableEq γ] [DecidableEq ρ] [DecidableEq υ]

/-- **No byte is lost** exactly where every `write` of the object goes smoothly:
with nothing in `buf_` the kernel does not answer that it would block, and where
it takes a part of the data the rest can be waited for. -/
theorem bytes_intact (sys : Sys γ ρ κ) (setup : Setup γ ρ) (oneshot direct : Bool) (setsize : Int)
    (fd : File γ ρ → Int) (backend : κ) (sec nsec : Int) (ls : List (Label γ ρ υ))
    (w : World γ ρ υ κ) (o : Owner γ ρ) :
    Trace.run (World.step sys) (World.start setup oneshot direct setsize fd backend sec nsec) ls
      = some w → (∀ l ∈ ls, l.hardError o = false) →
    (w.Intact o ↔ Trace.Meets (World.step sys) (World.WriteGoesWell sys o)
      (World.start setup oneshot direct setsize fd backend sec nsec) ls) := by
  intro hrun hsoft
  have hstart : (World.start setup oneshot direct setsize fd backend sec nsec :
      World γ ρ υ κ).Owned := World.owned_start ..
  have htypes : (World.start setup oneshot direct setsize fd backend sec nsec :
      World γ ρ υ κ).ev.TypesOk sys.host := 
    Event.NioEvent.typesOk_create sys.host oneshot direct setsize fd backend
  have hreach : ∀ {pre : List (Label γ ρ υ)} {t : World γ ρ υ κ}, Trace.run (World.step sys)
      (World.start setup oneshot direct setsize fd backend sec nsec) pre = some t →
      t.Owned ∧ t.ev.TypesOk sys.host := fun ht => (World.kept_typesOk sys).run ht hstart htypes
  constructor
  · intro hi
    rw [Trace.meets_iff]
    intro pre l post hls t ht
    by_contra hn
    obtain ⟨hown, hok⟩ := hreach ht
    -- what this step logs is still in the log at the end
    rw [hls, Trace.run_append, Option.mem_def.mp ht, Option.bind_some, Trace.run_cons] at hrun
    obtain ⟨t', ht', hrun⟩ := Option.bind_eq_some_iff.mp hrun
    obtain ⟨a, ha, hfail⟩ := World.failed_step ht' hok hown (hsoft l (by simp [hls])) hn
    have hlog := ((World.kept_log sys t'.log).run hrun
      ((World.kept_owned sys).step hown ht' hown) List.prefix_rfl).2
    exact hfail (hi.calls a (hlog.subset ha))
  · intro hm
    have hm' :
      Trace.Meets (World.step sys) (fun v l => v.WriteGoesWell sys o l ∧ l.hardError o = false)
        (World.start setup oneshot direct setsize fd backend sec nsec) ls := by
      rw [Trace.meets_iff] at hm ⊢
      intro pre l post hls t ht
      exact ⟨hm pre l post hls t ht, hsoft l (by simp [hls])⟩
    refine (Trace.run_induct (I := fun v => (v.Owned ∧ v.ev.TypesOk sys.host) ∧ v.Intact o)
      ?_ hm' ⟨⟨hstart, htypes⟩, ⟨?_, ?_⟩⟩ hrun).2
    · intro v l v' hl hv hs
      obtain ⟨⟨hown, hok⟩, hi⟩ := hv
      exact ⟨⟨(World.kept_owned sys).step hown hs hown, (World.kept_typesOk sys).step hown hs hok⟩,
        hi.step hs hok hown hl.2 hl.1⟩
    · cases o <;> rfl
    · intro a ha
      cases ha

/-- Three bytes, of which the kernel takes one, then one more, and the rest when
the socket is writable. -/
theorem bytes_intact_parts :
    let start := World.fresh (.handled true true) false File.turn
    let blocked := Answer.writable 0 .wouldBlock
    let ls : List (Label Nat Nat Nat) :=
      [.call (.write 0 (.counting 3) 0 (.wrote 1)), .call (.write 0 (.counting 3) 0 .wouldBlock),
        .wait, .next blocked, .next blocked, .next blocked, .next blocked,
        .next (.writable 0 (.wrote 2))]
    ∃ w, Trace.run (World.step .table) start ls = some w ∧
      w.buf (.client 0) = [0, 1, 2] ∧ w.Intact (.client 0) := by
  intro start blocked ls
  have hany : (Trace.run (World.step .table) start ls).any
      (fun w => w.buf (.client 0) = [0, 1, 2]) := by
    decide +kernel
  obtain ⟨w, hrun, hw⟩ := Trace.run_any hany
  have hsmooth : Trace.Meets (World.step .table) (World.WriteGoesWell .table (.client 0))
      start ls := by
    decide +kernel
  exact ⟨w, hrun, of_decide_eq_true hw,
    (bytes_intact .table (.handled true true) false false 1024 _ _ 0 0 ls w (.client 0) hrun
      (by decide)).mpr hsmooth⟩

/-- A `write` that would block returns `-1`, and puts the byte in front of the
data into `buf_`. -/
theorem blocked_not_intact :
    let data : Data := ⟨fun i => if i = -1 then 7 else UInt8.ofNat i.toNat, 3⟩
    let ls : List (Label Nat Nat Nat) := [.call (.write 0 data 0 .wouldBlock)]
    ∃ w, Trace.run (World.step .table) (.fresh (.handled true true) false File.turn) ls = some w ∧
      (∀ l ∈ ls, l.hardError (.client 0) = false) ∧ w.buf (.client 0) = [7, 0, 1, 2] ∧
      ¬ w.Intact (.client 0) := by
  intro data ls
  have hany : (Trace.run (World.step .table) (.fresh (.handled true true) false File.turn) ls).any
      (fun w => w.buf (.client 0) = [7, 0, 1, 2] && w.log.flatMap (·.accepted (.client 0)) = [] &&
        w.log.flatMap (·.given (.client 0)) = [0, 1, 2]) := by
    decide +kernel
  obtain ⟨w, hrun, hw⟩ := Trace.run_any hany
  simp only [Bool.and_eq_true, decide_eq_true_eq] at hw
  obtain ⟨⟨hbuf, haccepted⟩, hgiven⟩ := hw
  refine ⟨w, hrun, by decide, hbuf, ?_⟩
  intro hi
  have hbytes := hi.bytes
  rw [haccepted, hbuf, hgiven] at hbytes
  cases hbytes

end Run

end Libnio.Socket
