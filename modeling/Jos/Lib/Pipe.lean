/-
# Pipes: one reader and one writer on a page of shared memory

`struct Pipe` has two counters that only grow and `PIPEBUFSIZ` bytes.
`devpipe_write` stores a byte and then advances `p_wpos`; `devpipe_read` takes
a byte and then advances `p_rpos`. Each side waits while the other has to move
first. Between any two accesses to the page the other side may run, any number
of times.

A side's own counter changes only by its own stores, so a step of the model is
one access that the other side can see or disturb: the load of the other side's
counter in the test, the access to `p_buf`, the store of the own counter. What
`_pipeisclosed` answers is left open.

The counters are signed 32-bit integers, `%` truncates towards zero, and the
test for a full pipe is done unsigned, as `sizeof` is.

* `fifo_of_run`: while `p_wpos` does not overflow, the reader gets what the
  writer wrote, in order, from slots inside the buffer.
* `out_of_buffer`: after `2 ^ 31 + 1` bytes the counters are negative, and the
  next byte is stored in front of the buffer.
-/
import Jos.Base.Bytes
import Jos.Base.Ring
import Jos.Base.Steps

namespace Jos
namespace Lib
namespace Pipe

abbrev PIPEBUFSIZ : ℕ := 32

/-- `INT_MAX`. -/
abbrev INT_MAX : ℤ := 2 ^ 31 - 1

/-- Where a reader is: out of a call; before the test, with what it has read and how many bytes are
left to read; before the load from the buffer; before the store of `p_rpos`. -/
inductive ReadPc
  | idle
  | test (got : List UInt8) (left : ℕ)
  | load (got : List UInt8) (left : ℕ)
  | advance (got : List UInt8) (left : ℕ)

/-- Where a writer is, with the number of bytes written and those left to write. -/
inductive WritePc
  | idle
  | test (i : ℕ) (buf : List UInt8)
  | store (i : ℕ) (x : UInt8) (buf : List UInt8)
  | advance (i : ℕ) (x : UInt8) (buf : List UInt8)

/-- The pipe, the two sides, the results of their last calls, the bytes accepted from the writer and
delivered to the reader, and whether an access has gone outside `p_buf`. -/
structure Sys where
  rpos : ℤ
  wpos : ℤ
  buf : ℕ → UInt8
  reader : ReadPc
  writer : WritePc
  readRet : List UInt8
  writeRet : ℕ
  accepted : List UInt8
  delivered : List UInt8
  outside : Bool

/-- A new pipe. -/
def init : Sys := ⟨0, 0, fun _ => 0, .idle, .idle, [], 0, [], [], false⟩

/-- `p_rpos++` and `p_wpos++`. -/
def incr (pos : ℤ) : ℤ := toInt32 (ofInt32 (pos + 1))

/-- The index of a position. -/
def index (pos : ℤ) : ℤ := pos.tmod PIPEBUFSIZ

/-- The index is in `p_buf`. -/
def InBuf (pos : ℤ) : Prop := 0 ≤ index pos ∧ index pos < PIPEBUFSIZ

instance (pos : ℤ) : Decidable (InBuf pos) := inferInstanceAs (Decidable (_ ∧ _))

/-- The test for a full pipe, in unsigned arithmetic. -/
def Full (wpos rpos : ℤ) : Prop := ofInt32 wpos ≥ (ofInt32 rpos + PIPEBUFSIZ) % 2 ^ 32

instance (wpos rpos : ℤ) : Decidable (Full wpos rpos) := inferInstanceAs (Decidable (_ ≥ _))

/-- The next step of `devpipe_read`; `closed` is what `_pipeisclosed` says if it is asked. -/
def devpipeRead (closed : Bool) (s : Sys) : Sys :=
  match s.reader with
  | .idle => s
  | .test got 0 => { s with reader := .idle, readRet := got }
  | .test got (left + 1) =>
    if s.rpos = s.wpos then
      if got ≠ [] then { s with reader := .idle, readRet := got }
      else if closed then { s with reader := .idle, readRet := [] }
      else s
    else { s with reader := .load got left }
  | .load got left =>
    if InBuf s.rpos then
      let x := s.buf (index s.rpos).toNat
      { s with reader := .advance (got ++ [x]) left, delivered := s.delivered ++ [x] }
    else { s with outside := true }
  | .advance got left => { s with reader := .test got left, rpos := incr s.rpos }

/-- The next step of `devpipe_write`. -/
def devpipeWrite (closed : Bool) (s : Sys) : Sys :=
  match s.writer with
  | .idle => s
  | .test i [] => { s with writer := .idle, writeRet := i }
  | .test i (x :: buf) =>
    if Full s.wpos s.rpos then
      if closed then { s with writer := .idle, writeRet := 0 } else s
    else { s with writer := .store i x buf }
  | .store i x buf =>
    if InBuf s.wpos then
      { s with writer := .advance i x buf, buf := Function.update s.buf (index s.wpos).toNat x }
    else { s with outside := true }
  | .advance i x buf =>
    { s with writer := .test (i + 1) buf, wpos := incr s.wpos, accepted := s.accepted ++ [x] }

/-- What can happen: a side that is out of a call makes one, or a side takes a step. -/
inductive Ev
  | read (n : ℕ)
  | write (buf : List UInt8)
  | reader (closed : Bool)
  | writer (closed : Bool)

def step : Ev → Sys → Sys
  | .read n, s => match s.reader with
    | .idle => { s with reader := .test [] n }
    | _ => s
  | .write buf, s => match s.writer with
    | .idle => { s with writer := .test 0 buf }
    | _ => s
  | .reader closed, s => devpipeRead closed s
  | .writer closed, s => devpipeWrite closed s

/-! ### The invariant

While the counters have not overflowed they are the numbers of bytes accepted
and taken. A reader between its load and its store has one byte more than
`p_rpos` says; a writer between its store and its advance has one byte in the
buffer that is not yet counted.
-/

/-- One if the reader has a byte that `p_rpos` does not count. -/
def ReadPc.ahead : ReadPc → ℕ
  | .advance .. => 1
  | _ => 0

structure Inv (s : Sys) : Prop where
  /-- The bytes not counted as taken are in their slots. -/
  ring : ∃ r : ℕ, s.rpos = r ∧ s.delivered.length = r + s.reader.ahead ∧
    Ring.Holds PIPEBUFSIZ s.buf s.accepted r
  order : s.delivered = s.accepted.take s.delivered.length
  wpos : s.wpos = s.accepted.length
  small : s.accepted.length < 2 ^ 31
  /-- What a side has found out about the other stays true. -/
  reading : ∀ got left, s.reader = .load got left → s.rpos < s.wpos
  taken : ∀ got left, s.reader = .advance got left → s.rpos < s.wpos
  storing : ∀ i x buf, s.writer = .store i x buf → s.wpos < s.rpos + PIPEBUFSIZ
  stored : ∀ i x buf, s.writer = .advance i x buf → s.wpos < s.rpos + PIPEBUFSIZ ∧
    s.buf (s.accepted.length % PIPEBUFSIZ) = x
  inside : s.outside = false

/-- No overflow: the writer does not advance `p_wpos` from `INT_MAX`. -/
def NoOverflow : Ev → Sys → Prop
  | .writer _, s => s.wpos < INT_MAX
  | _, _ => True

instance (e : Ev) (s : Sys) : Decidable (NoOverflow e s) :=
  match e with
  | .writer _ => inferInstanceAs (Decidable (_ < _))
  | .read _ | .write _ | .reader _ => .isTrue trivial

theorem index_natCast (n : ℕ) : index n = (n % PIPEBUFSIZ : ℕ) := by
  exact (Int.ofNat_tmod n PIPEBUFSIZ).symm

theorem inBuf_natCast (n : ℕ) : InBuf n := by
  rw [InBuf, index_natCast]
  have := Nat.mod_lt n (show 0 < PIPEBUFSIZ by decide)
  omega

theorem incr_natCast {n : ℕ} (h : n < 2 ^ 31 - 1) : incr n = (n + 1 : ℕ) := by
  rw [incr, toInt32_ofInt32 (by omega) (by omega)]
  rfl

theorem full_natCast {w r : ℕ} (hw : w < 2 ^ 31) (hr : r < 2 ^ 31) : Full w r ↔ r + PIPEBUFSIZ ≤ w := by
  rw [Full, ofInt32_natCast (by omega), ofInt32_natCast (by omega),
    Nat.mod_eq_of_lt (show r + 32 < 2 ^ 32 by omega)]

variable {s : Sys}

theorem Inv.reader (h : Inv s) (closed : Bool) : Inv (devpipeRead closed s) := by
  obtain ⟨r, hr, hd, hring⟩ := h.ring
  have hw := h.wpos
  have hle := hring.le
  unfold devpipeRead
  split
  · exact h
  · next got hpc =>
    rw [hpc] at hd
    exact { h with ring := ⟨r, hr, hd, hring⟩, reading := nofun, taken := nofun }
  · next got left hpc =>
    rw [hpc] at hd
    split
    · split
      · exact { h with ring := ⟨r, hr, hd, hring⟩, reading := nofun, taken := nofun }
      · split
        · exact { h with ring := ⟨r, hr, hd, hring⟩, reading := nofun, taken := nofun }
        · exact h
    · next hne =>
      refine { h with ring := ⟨r, hr, hd, hring⟩, reading := fun _ _ _ => ?_, taken := nofun }
      show s.rpos < s.wpos
      omega
  · next got left hpc =>
    have hlt := h.reading got left hpc
    have hlt' : r < s.accepted.length := by omega
    have hidx : (index s.rpos).toNat = r % PIPEBUFSIZ := by rw [hr, index_natCast, Int.toNat_natCast]
    rw [hpc] at hd
    have hdr : s.delivered.length = r := hd
    rw [if_pos (by rw [hr]; exact inBuf_natCast r)]
    refine { h with ring := ⟨r, hr, ?_, hring⟩, order := ?_, reading := nofun, taken := fun _ _ _ => hlt }
    · simp [hdr, ReadPc.ahead]
    · show s.delivered ++ [_] = s.accepted.take (s.delivered ++ [_]).length
      rw [List.length_append, List.length_singleton, hdr, hring.front hlt', hidx, ← hdr, ← h.order]
  · next got left hpc =>
    have hlt := h.taken got left hpc
    have hlt' : r < s.accepted.length := by omega
    have hsmall := h.small
    rw [hpc] at hd
    have hr' : incr s.rpos = (r + 1 : ℕ) := by rw [hr, incr_natCast (by omega)]
    refine { h with ring := ⟨r + 1, hr', hd, hring.drop hlt'⟩, reading := nofun, taken := nofun,
                    storing := fun i x buf hs => ?_, stored := fun i x buf hs => ⟨?_, (h.stored i x buf hs).2⟩ }
    · have := h.storing i x buf hs
      show s.wpos < incr s.rpos + PIPEBUFSIZ
      omega
    · have := (h.stored i x buf hs).1
      show s.wpos < incr s.rpos + PIPEBUFSIZ
      omega

theorem Inv.writer (h : Inv s) (closed : Bool) (hC : s.wpos < INT_MAX) : Inv (devpipeWrite closed s) := by
  obtain ⟨r, hr, hd, hring⟩ := h.ring
  have hw := h.wpos
  have hle := hring.le
  have hsmall := h.small
  replace hC : s.wpos < 2147483647 := hC
  unfold devpipeWrite
  split
  · exact h
  · exact { h with storing := nofun, stored := nofun }
  · next i x buf hpc =>
    split
    · split
      · exact { h with storing := nofun, stored := nofun }
      · exact h
    · next hf =>
      rw [hw, hr, full_natCast hsmall (by omega)] at hf
      refine { h with storing := fun _ _ _ _ => ?_, stored := nofun }
      show s.wpos < s.rpos + PIPEBUFSIZ
      omega
  · next i x buf hpc =>
    have hroom := h.storing i x buf hpc
    have hidx : (index s.wpos).toNat = s.accepted.length % PIPEBUFSIZ := by
      rw [hw, index_natCast, Int.toNat_natCast]
    rw [if_pos (by rw [hw]; exact inBuf_natCast _), hidx]
    refine { h with ring := ⟨r, hr, hd, hring.fill (by omega) x⟩, storing := nofun, stored := fun _ _ _ hs => ?_ }
    obtain ⟨rfl, rfl, rfl⟩ := WritePc.advance.inj hs
    exact ⟨hroom, Function.update_self ..⟩
  · next i x buf hpc =>
    obtain ⟨hroom, hx⟩ := h.stored i x buf hpc
    have hlen : (s.accepted ++ [x]).length = s.accepted.length + 1 := by simp
    have hdle : s.delivered.length ≤ s.accepted.length := by
      rw [h.order, List.length_take]
      exact Nat.min_le_right _ _
    have hw' : incr s.wpos = (s.accepted.length + 1 : ℕ) := by rw [hw, incr_natCast (by omega)]
    refine { h with
      ring := ⟨r, hr, hd, hring.add (by omega) hx⟩
      order := ?_
      wpos := by rw [hlen]; exact hw'
      small := by rw [hlen]; omega
      reading := fun got left hg => ?_
      taken := fun got left hg => ?_
      storing := nofun
      stored := nofun }
    · show s.delivered = (s.accepted ++ [x]).take s.delivered.length
      rw [List.take_append_of_le_length hdle]
      exact h.order
    · have := h.reading got left hg
      show s.rpos < incr s.wpos
      omega
    · have := h.taken got left hg
      show s.rpos < incr s.wpos
      omega

theorem Inv.step (h : Inv s) (e : Ev) (hC : NoOverflow e s) : Inv (step e s) := by
  cases e with
  | read n =>
    simp only [Pipe.step]
    split
    · next hpc =>
      obtain ⟨r, hr, hd, hring⟩ := h.ring
      rw [hpc] at hd
      exact { h with ring := ⟨r, hr, hd, hring⟩, reading := nofun, taken := nofun }
    · exact h
  | write buf =>
    simp only [Pipe.step]
    split
    · exact { h with storing := nofun, stored := nofun }
    · exact h
  | reader closed => exact h.reader closed
  | writer closed => exact h.writer closed hC

theorem Inv.init : Inv init where
  ring := ⟨0, rfl, rfl, Ring.Holds.empty _ _⟩
  order := rfl
  wpos := rfl
  small := by simp [Pipe.init]
  reading := nofun
  taken := nofun
  storing := nofun
  stored := nofun
  inside := rfl

/-- What is asked of a pipe. -/
structure Fifo (s : Sys) : Prop where
  /-- The reader has a beginning of what the writer wrote. -/
  order : s.delivered <+: s.accepted
  bounded : s.accepted.length ≤ s.delivered.length + PIPEBUFSIZ
  /-- No access has gone outside the buffer, and the next one does not. -/
  inside : s.outside = false ∧ InBuf s.rpos ∧ InBuf s.wpos
  /-- A pipe that is empty is not taken for a full one. -/
  room : s.rpos = s.wpos → ¬ Full s.wpos s.rpos

theorem Inv.fifo (h : Inv s) : Fifo s := by
  obtain ⟨r, hr, hd, hring⟩ := h.ring
  have hle := hring.le
  have hroom := hring.room
  have hsmall := h.small
  have hsize : 0 < PIPEBUFSIZ := by decide
  refine ⟨?_, by omega, ⟨h.inside, ?_, ?_⟩, fun heq => ?_⟩
  · rw [h.order]
    exact List.take_prefix _ _
  · rw [hr]
    exact inBuf_natCast r
  · rw [h.wpos]
    exact inBuf_natCast _
  · rw [hr, h.wpos] at heq
    rw [h.wpos, hr, full_natCast hsmall (by omega)]
    omega

/-- **A pipe is a queue**, for any interleaving of the accesses of its two sides, while `p_wpos` does
not overflow. -/
theorem fifo_of_run (es : List Ev) (h : Throughout step NoOverflow es init) : Fifo (exec step es init) :=
  (exec_invariant_of (fun e _ hs hC => hs.step e hC) es Inv.init h).fifo

theorem fifo_of_run_one :
    let es : List Ev := [.write [7, 8], .writer false, .writer false, .read 4, .writer false, .reader false,
      .reader false, .reader false]
    Throughout step NoOverflow es init ∧ Fifo (exec step es init) :=
  have h : Throughout step NoOverflow [.write [7, 8], .writer false, .writer false, .read 4, .writer false,
      .reader false, .reader false, .reader false] init := by decide
  ⟨h, fifo_of_run _ h⟩

/-! ### After `2 ^ 31` bytes -/

/-- Both sides are out of a call and the counters are at `n` bytes. -/
def Quiet (n : ℕ) (s : Sys) : Prop :=
  s.reader = .idle ∧ s.writer = .idle ∧ s.rpos = toInt32 n ∧ s.wpos = toInt32 n

/-- One byte is written, then read. -/
def oneByte : List Ev :=
  [.write [0], .writer false, .writer false, .writer false, .writer false,
    .read 1, .reader false, .reader false, .reader false, .reader false]

theorem incr_toInt32 {n : ℕ} (h : n ≤ 2 ^ 31) : incr (toInt32 n) = toInt32 (n + 1) := by
  unfold incr toInt32 ofInt32
  split <;> split <;> split <;> omega

theorem inBuf_toInt32 {n : ℕ} (h : n ≤ 2 ^ 31) : InBuf (toInt32 n) := by
  rcases Nat.lt_or_eq_of_le h with hlt | rfl
  · rw [toInt32_of_lt hlt]
    exact inBuf_natCast n
  · decide

theorem not_full_toInt32 {n : ℕ} (h : n ≤ 2 ^ 31) : ¬ Full (toInt32 n) (toInt32 n) := by
  have hn : ofInt32 (toInt32 n) = n := by
    unfold ofInt32 toInt32
    split <;> omega
  rw [Full, hn]
  show ¬ n ≥ (n + 32) % 2 ^ 32
  omega

theorem toInt32_ne_succ {n : ℕ} (h : n ≤ 2 ^ 31) : toInt32 n ≠ toInt32 (n + 1) := by
  unfold toInt32
  split <;> split <;> omega

theorem Quiet.oneByte {n : ℕ} (hn : n ≤ 2 ^ 31) (h : Quiet n s) : Quiet (n + 1) (exec step oneByte s) := by
  obtain ⟨hr, hw, hrp, hwp⟩ := h
  have hfull := not_full_toInt32 hn
  have hin := inBuf_toInt32 hn
  have hne := toInt32_ne_succ hn
  have hinc := incr_toInt32 hn
  simp only [Pipe.oneByte, exec, Pipe.step, hr, hw, devpipeWrite, devpipeRead, hrp, hwp, hfull, hin, hinc, hne,
    if_true, if_false]
  exact ⟨rfl, rfl, rfl, rfl⟩

theorem exists_quiet : ∀ n, n ≤ 2 ^ 31 + 1 → ∃ es, Quiet n (exec step es init)
  | 0, _ => ⟨[], rfl, rfl, rfl, rfl⟩
  | n + 1, hn => by
    obtain ⟨es, h⟩ := exists_quiet n (by omega)
    refine ⟨es ++ oneByte, ?_⟩
    rw [exec_append]
    exact h.oneByte (by omega)

/-- There is a run that takes the counters to `2 ^ 31 + 1`, where the index of the next byte is -31:
writing it goes outside the buffer. -/
theorem out_of_buffer : ∃ es, (exec step es init).wpos = toInt32 (2 ^ 31 + 1) ∧
    index (exec step es init).wpos = -31 ∧
    (exec step [.write [0], .writer false, .writer false] (exec step es init)).outside = true := by
  obtain ⟨es, hr, hw, hrp, hwp⟩ := exists_quiet (2 ^ 31 + 1) (Nat.le_refl _)
  refine ⟨es, hwp, by rw [hwp]; decide, ?_⟩
  have hfull : ¬ Full (toInt32 (2 ^ 31 + 1)) (toInt32 (2 ^ 31 + 1)) := by decide
  have hin : ¬ InBuf (toInt32 (2 ^ 31 + 1)) := by decide
  simp only [exec, step, hw, devpipeWrite, hrp, hwp, if_neg hfull, if_neg hin]

end Pipe
end Lib
end Jos
