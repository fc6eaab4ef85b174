import Mathlib.Data.List.TakeDrop
import Mathlib.Tactic.Ring

/-!
# Socket — what is written

The part of `client_socket::write` and `flush` that `event_proc::write` and
`flush` have as well: the answer of the kernel, what is copied into `buf_`, and
what is returned.
-/

namespace Libnio.Socket

/-- What `::write` answers: a count, or `-1` with this `errno`. -/
inductive WriteAnswer where
  | wrote (n : Nat)
  /-- `EAGAIN`, `EWOULDBLOCK` -/
  | wouldBlock
  | hardError
deriving DecidableEq

/-- `ssize_t` that `::write` returns for `len` bytes, of which it takes no more
than there are. -/
def WriteAnswer.ret (len : Nat) : WriteAnswer → Int
  | .wrote n => (min n len : Nat)
  | .wouldBlock => -1
  | .hardError => -1

/-- How many of `len` bytes the kernel has taken. -/
def WriteAnswer.taken (len : Nat) : WriteAnswer → Nat
  | .wrote n => min n len
  | .wouldBlock => 0
  | .hardError => 0

/-- `const void *data, size_t len`, with the memory around it. -/
structure Data where
  mem : Int → UInt8
  len : Nat

/-- The bytes 0, 1 and so on. -/
def Data.counting (len : Nat) : Data := ⟨fun i => UInt8.ofNat i.toNat, len⟩

/-- The `n` bytes from `data + off` on. -/
def Data.span (data : Data) (off : Int) (n : Nat) : List UInt8 :=
  (List.range n).map fun (i : Nat) => data.mem (off + i)

/-- What the caller has given. -/
def Data.bytes (data : Data) : List UInt8 := data.span 0 data.len

/-- What a `write` does to its object. -/
structure Written where
  /-- `ret`, unless `write_await` fails -/
  ret : Int
  buf : List UInt8
  /-- what the kernel has taken -/
  taken : List UInt8
  /-- the offset and the length of what is appended to `buf_` -/
  copied : Int × Nat
  /-- `write_await` is called -/
  awaits : Bool

namespace Outgoing

/-- `buf_->append((const char*) data + off, n)` -/
def append (buf : List UInt8) (data : Data) (off : Int) (n : Nat) : List UInt8 :=
  buf ++ data.span off n

/-- `client_socket::write`, `event_proc::write`: with a `ret` of `-1` for an
answer that would block, `data + ret` is in front of `data` and `len - ret` is
more than `len`. -/
def write (buf : List UInt8) (data : Data) (answer : WriteAnswer) : Written :=
  if !buf.isEmpty then
    { ret := 0, buf := append buf data 0 data.len, taken := [], copied := (0, data.len),
      awaits := false }
  else
    let ret := answer.ret data.len
    let taken := data.span 0 (answer.taken data.len)
    if ret = data.len then { ret, buf, taken, copied := (0, 0), awaits := false }
    else if ret = -1 ∧ answer = .hardError then
      { ret := -1, buf, taken, copied := (0, 0), awaits := false }
    else
      let n := (data.len - ret).toNat
      { ret, buf := append buf data ret n, taken, copied := (ret, n), awaits := true }

/-- What a `flush` does to its object. -/
structure Flushed where
  ret : Int
  buf : List UInt8
  taken : List UInt8

/-- `client_socket::flush`, `event_proc::flush` -/
def flush (buf : List UInt8) (answer : WriteAnswer) : Flushed :=
  if buf.isEmpty then { ret := 0, buf, taken := [] }
  else
    let ret := answer.ret buf.length
    let taken := buf.take (answer.taken buf.length)
    if ret = buf.length then { ret, buf := [], taken }
    else if ret = -1 then
      { ret := if answer = .hardError then -1 else 0, buf, taken }
    else { ret, buf := buf.drop ret.toNat, taken }

end Outgoing

/-! ## No byte is lost -/

/-- What is read of the data lies within it. -/
def Written.Inside (w : Written) (data : Data) : Prop :=
  0 ≤ w.copied.1 ∧ w.copied.1 + w.copied.2 ≤ data.len

@[simp] theorem Data.length_span (data : Data) (off : Int) (n : Nat) :
    (data.span off n).length = n := by
  simp [Data.span]

theorem Data.span_append (data : Data) (off : Int) (m n : Nat) :
    data.span off m ++ data.span (off + m) n = data.span off (m + n) := by
  unfold Data.span
  rw [List.range_add, List.map_append, List.map_map]
  congr 1
  refine List.map_congr_left ?_
  intro i _
  show data.mem (off + m + i) = data.mem (off + (m + i : Nat))
  congr 1
  push_cast
  ring

/-- Nothing is lost by a `flush`, whatever the answer. -/
theorem Outgoing.flush_bytes (buf : List UInt8) (answer : WriteAnswer) :
    (flush buf answer).taken ++ (flush buf answer).buf = buf := by
  unfold flush
  split
  · rfl
  · cases answer with
    | wrote n =>
        have hne : ((min n buf.length : Nat) : Int) ≠ -1 := by omega
        simp only [WriteAnswer.ret, WriteAnswer.taken, Nat.cast_inj, hne, if_false,
            Int.toNat_natCast]
        split
        · rename_i h
          rw [h, List.take_length, List.append_nil]
        · rw [List.take_append_drop]
    | wouldBlock =>
        have hne : (-1 : Int) ≠ buf.length := by omega
        simp [WriteAnswer.ret, WriteAnswer.taken, hne]
    | hardError =>
        have hne : (-1 : Int) ≠ buf.length := by omega
        simp [WriteAnswer.ret, WriteAnswer.taken, hne]

/-- The answer lets `write` go wrong: nothing is buffered and the kernel would
block. -/
def Blocks (buf : List UInt8) (answer : WriteAnswer) : Prop := buf = [] ∧ answer = .wouldBlock

instance (buf : List UInt8) (answer : WriteAnswer) : Decidable (Blocks buf answer) :=
  inferInstanceAs (Decidable (_ ∧ _))

namespace Outgoing

variable {buf : List UInt8} {data : Data} {answer : WriteAnswer}

theorem write_buffered (h : buf ≠ []) :
    write buf data answer =
      { ret := 0
        buf := append buf data 0 data.len
        taken := []
        copied := (0, data.len)
        awaits := false } := by
  simp [write, h]

/-- A `write` whose answer is a count. -/
theorem write_wrote (h : buf = []) (n : Nat) :
    write buf data (.wrote n) =
      { ret := (min n data.len : Nat)
        buf := data.span (min n data.len : Nat) (data.len - min n data.len)
        taken := data.span 0 (min n data.len)
        copied := if min n data.len = data.len then (0, 0)
          else ((min n data.len : Nat), data.len - min n data.len)
        awaits := decide (min n data.len ≠ data.len) } := by
  subst h
  have hne : ((min n data.len : Nat) : Int) ≠ -1 := by omega
  simp only [write, List.isEmpty_nil, Bool.not_true, Bool.false_eq_true, if_false,
    WriteAnswer.ret, WriteAnswer.taken, Nat.cast_inj, hne, false_and]
  split
  · rename_i hall
    rw [hall, Nat.sub_self]
    simp [Data.span]
  · rename_i hpart
    have hle : min n data.len ≤ data.len := Nat.min_le_right ..
    have hsub : ((data.len : Int) - (min n data.len : Nat)).toNat = data.len - min n data.len := by
      omega
    simp only [append, List.nil_append, hsub, hpart, ne_eq, not_false_eq_true, decide_true]

/-- A `write` that would block: it appends the byte in front of the data. -/
theorem write_wouldBlock (h : buf = []) :
    write buf data .wouldBlock =
      { ret := -1
        buf := data.span (-1) (data.len + 1)
        taken := []
        copied := (-1, data.len + 1)
        awaits := true } := by
  subst h
  have hne : (-1 : Int) ≠ data.len := by omega
  simp [write, append, WriteAnswer.ret, WriteAnswer.taken, hne, Data.span]

/-- **One write.** Without a hard error, what the kernel has taken and what is
buffered grow by the data, within its bounds and with a result that is not
`-1`, unless the answer blocks. -/
theorem write_bytes (hnb : ¬ Blocks buf answer) (hhard : answer ≠ .hardError) :
    let w := write buf data answer
    (buf = [] ∨ w.taken = []) ∧ w.taken ++ w.buf = buf ++ data.bytes ∧ w.Inside data ∧
      0 ≤ w.ret := by
  by_cases hb : buf = []
  · cases answer with
    | hardError => exact absurd rfl hhard
    | wouldBlock => exact absurd ⟨hb, rfl⟩ hnb
    | wrote n =>
        have hle : min n data.len ≤ data.len := Nat.min_le_right ..
        rw [write_wrote hb]
        refine ⟨.inl hb, ?_, ?_, ?_⟩
        · have hspan := data.span_append 0 (min n data.len) (data.len - min n data.len)
          rw [Nat.add_sub_cancel' hle, zero_add] at hspan
          rw [hb, List.nil_append, hspan]
          rfl
        · unfold Written.Inside
          dsimp only
          split
          · simp
          · dsimp only
            omega
        · show (0 : Int) ≤ (min n data.len : Nat)
          omega
  · rw [write_buffered hb]
    refine ⟨.inr rfl, rfl, ?_, le_rfl⟩
    unfold Written.Inside
    simp

/-- **All of it or nothing**: the data are appended just when something is
buffered already, or the answer is a count. -/
theorem write_appends_iff (hd : 0 < data.len) :
    (write buf data answer).taken ++ (write buf data answer).buf = buf ++ data.bytes ↔
      (buf = [] → ∃ n, answer = .wrote n) := by
  by_cases hb : buf = []
  · cases answer with
    | wrote n =>
        refine iff_of_true ?_ fun _ => ⟨n, rfl⟩
        exact (write_bytes (fun h => by cases h.2) (by simp)).2.1
    | wouldBlock =>
        refine iff_of_false ?_ fun h => by simpa using h hb
        intro h
        have hlen := congrArg List.length h
        rw [write_wouldBlock hb, hb] at hlen
        simp [Data.bytes] at hlen
    | hardError =>
        refine iff_of_false ?_ fun h => by simpa using h hb
        intro h
        have hlen := congrArg List.length h
        have hne : (-1 : Int) ≠ data.len := by omega
        simp [write, hb, WriteAnswer.ret, WriteAnswer.taken, Data.bytes, Data.span, hne] at hlen
        omega
  · refine iff_of_true ?_ fun h => absurd h hb
    rw [write_buffered hb]
    rfl

end Outgoing

end Libnio.Socket
