/-
# The bitmap on the disk

`alloc_block`, `occupy_block` and `free_block` write a changed bit through to
the disk, so that the bitmap there is that in memory after each of them. They
flush the first bitmap block, and no other: `check_super` admits disks with
more, and a bit that is in a later one stays in memory.

* `bitmap_through_of_run`: the disk follows as long as every bit that changes is
  in the first bitmap block.
* `free_beyond_first`: `free_block(32768)` on a disk of 40000 blocks.

Key definitions: `Through`, `BitCall`, `BitCall.Right`, `BitCall.First`.
Key theorems: `BitCall.right_of_first`, `bitmap_through_of_run`.
-/
import Jos.Base.Steps
import Jos.Fs.Effects

namespace Jos
namespace Fs

/-- The bitmap on the disk is the one in memory. -/
def Through (s : FsSt) : Prop := ∀ b < s.nblocks, bitSet s.disk b = bitSet s.mem b

/-- The bits in memory are as before, but for that of `b`. -/
def OnlyBit (b : ℕ) (v : Bool) (s s' : FsSt) : Prop :=
  ∀ c, bitSet s'.mem c = if c = b then v else bitSet s.mem c

/-- A call on the bitmap. -/
inductive BitCall
  | alloc
  | occupy (b : ℕ)
  | free (b : ℕ)

def BitCall.call : BitCall → FsM Unit
  | .alloc => do let _ ← allocBlock
  | .occupy b => occupyBlock b
  | .free b => freeBlock b

/-- The state after the call, also if it fails. -/
def BitCall.step (c : BitCall) (s : FsSt) : FsSt := after c.call s

/-- The call is about a block of the disk. -/
def BitCall.Below (s : FsSt) : BitCall → Prop
  | .alloc => True
  | .occupy b => b < s.nblocks
  | .free b => b < s.nblocks

/-- What the call does is right; `occupy_block` asserts that the block is free. -/
def BitCall.Right (s : FsSt) : BitCall → Prop
  | .alloc => (∀ b, (∃ s', allocBlock s = .ok b s') ↔ Lowest s b) ∧
      ((∃ s', allocBlock s = .error (.err .noDisk) s') ↔ Full s) ∧
      ∀ b s', allocBlock s = .ok b s' → OnlyBit b false s s'
  | .occupy b => bitSet s.mem b = true → ∃ s', occupyBlock b s = .ok () s' ∧ OnlyBit b false s s'
  | .free b => b ≠ 0 → ∃ s', freeBlock b s = .ok () s' ∧ OnlyBit b true s s'

/-- The bit that changes is in the first bitmap block. -/
def BitCall.First (s : FsSt) : BitCall → Prop
  | .alloc => ∀ b, Lowest s b → b < BLKBITSIZE
  | .occupy b => b < BLKBITSIZE
  | .free b => b < BLKBITSIZE

/-- The file system has been opened: the super block is in order, and the first
bitmap block is mapped or in use. -/
structure BitmapOk (s : FsSt) : Prop where
  size : 2 < s.nblocks ∧ s.nblocks ≤ DISKBLOCKS
  two : Mappable s 2
  through : Through s

section
variable {s s' : FsSt} {b : ℕ} {v : Bool}

theorem Marked.nblocks (h : Marked b v s s') : s'.nblocks = s.nblocks := by
  have := two_le_bitBlk b
  simp only [FsSt.nblocks, h.mem 1 (by omega)]

/-- A bit of the first bitmap block is written through. -/
theorem Marked.through (h : Marked b v s s') (hb : b < BLKBITSIZE) (ht : Through s) : Through s' := by
  intro c hc
  have h2 : s'.disk 2 = s'.mem 2 := h.disk2.resolve_right fun hx => hx.2.1 (bitBlk_first hb)
  by_cases hc2 : bitBlk c = 2
  · exact bitSet_congr (by rw [hc2, h2])
  · rw [h.nblocks] at hc
    rw [bitSet_congr (h.disk _ hc2), ht c hc, bitSet_congr (h.mem _ (by rwa [bitBlk_first hb]))]

/-- A bit of another is not. -/
theorem Marked.not_through (h : Marked b v s s') (hb : BLKBITSIZE ≤ b) (hlt : b < s.nblocks) (ht : Through s)
    (hne : bitSet s.mem b ≠ v) : ¬ Through s' := by
  intro ht'
  have hb2 : bitBlk b ≠ 2 := by
    have := Nat.div_pos hb (by decide)
    unfold bitBlk
    omega
  have hbit := ht' b (by rwa [h.nblocks])
  rw [bitSet_congr (h.disk _ hb2), ht b hlt, h.bit b, if_pos rfl] at hbit
  exact hne hbit

theorem Marked.bitmapOk (h : Marked b v s s') (hb : b < BLKBITSIZE) (hi : BitmapOk s)
    (hc : (s'.cache (bitBlk b)).isSome = true) : BitmapOk s' where
  size := by
    rw [h.nblocks]
    exact hi.size
  two := .inl (by rwa [bitBlk_first hb] at hc)
  through := h.through hb hi.through

theorem BitmapOk.alloc (h : BitmapOk s) (hf : BitCall.alloc.First s) :
    Run allocBlock s (fun b s' => Lowest s b ∧ OnlyBit b false s s' ∧ BitmapOk s')
      (fun e s' => e = .err .noDisk ∧ Full s ∧ BitmapOk s') := by
  refine (allocBlock_ready (fun c hc => ?_) h.size.1).mono ?_ ?_
  · rw [bitBlk_first (hf c hc)]
    exact h.two
  · rintro b s' ⟨hlow, hm, hc⟩
    exact ⟨hlow, hm.bit, hm.bitmapOk (hf b hlow) h hc⟩
  · rintro e s' ⟨rfl, rfl, hfull⟩
    exact ⟨rfl, hfull, h.size, h.two, h.through⟩

theorem BitmapOk.occupy (h : BitmapOk s) (hb : b < BLKBITSIZE) (hf : blockIsFree s b = true) {E : Fault → FsSt → Prop} :
    Run (occupyBlock b) s (fun _ s' => OnlyBit b false s s' ∧ BitmapOk s') E :=
  (occupyBlock_ready hf (by rw [bitBlk_first hb]; exact h.two) h.size.1).mono
    (fun _ _ hm => ⟨hm.1.bit, hm.1.bitmapOk hb h hm.2⟩) fun _ _ h => h

theorem BitmapOk.free (h : BitmapOk s) (hb : b < BLKBITSIZE) (h0 : b ≠ 0) {E : Fault → FsSt → Prop} :
    Run (freeBlock b) s (fun _ s' => OnlyBit b true s s' ∧ BitmapOk s') E :=
  (freeBlock_ready h0 (by rw [bitBlk_first hb]; exact h.two) h.size.1).mono
    (fun _ _ hm => ⟨hm.1.bit, hm.1.bitmapOk hb h hm.2.1⟩) fun _ _ h => h

theorem Lowest.unique {b' : ℕ} (h : Lowest s b) (h' : Lowest s b') : b = b' := by
  rcases lt_trichotomy b b' with hlt | heq | hlt
  · exact absurd h.free (by rw [h'.least b h.pos hlt]; decide)
  · exact heq
  · exact absurd h'.free (by rw [h.least b' h'.pos hlt]; decide)

/-- Each call does what it is for. -/
theorem BitCall.right_of_first (h : BitmapOk s) {c : BitCall} (hb : c.Below s) (hf : c.First s) : c.Right s := by
  cases c with
  | alloc =>
    have hrun := h.alloc hf
    cases hx : allocBlock s with
    | ok b s' =>
      obtain ⟨hlow, hbit, -⟩ := hrun.of_ok hx
      refine ⟨fun b' => ?_, ?_, fun b' s'' he => ?_⟩
      · rw [hx]
        exact ⟨fun ⟨_, he⟩ => (EStateM.Result.ok.inj he).1 ▸ hlow, fun hl => ⟨s', by rw [hlow.unique hl]⟩⟩
      · rw [hx]
        exact iff_of_false (by simp) fun hfull => absurd hlow.free (by rw [hfull b hlow.pos hlow.lt]; decide)
      · rw [hx] at he
        obtain ⟨rfl, rfl⟩ := EStateM.Result.ok.inj he
        exact hbit
    | error e s' =>
      obtain ⟨rfl, hfull, -⟩ := hrun.of_error hx
      refine ⟨fun b' => ?_, ?_, fun b' s'' he => ?_⟩
      · rw [hx]
        exact iff_of_false (by simp) fun hl => absurd hl.free (by rw [hfull b' hl.pos hl.lt]; decide)
      · rw [hx]
        exact iff_of_true ⟨s', rfl⟩ hfull
      · rw [hx] at he
        cases he
  | occupy b =>
    intro hset
    have hfree : blockIsFree s b = true := by rw [blockIsFree, hset, decide_eq_true (show b < s.nblocks from hb)]; rfl
    obtain ⟨_, s', hx, hbit, -⟩ := (h.occupy hf hfree).exists_ok
    exact ⟨s', hx, hbit⟩
  | free b =>
    intro h0
    obtain ⟨_, s', hx, hbit, -⟩ := (h.free hf h0).exists_ok
    exact ⟨s', hx, hbit⟩

/-- Each call leaves the disk with the bitmap in memory, also one that stops. -/
theorem BitmapOk.step (h : BitmapOk s) {c : BitCall} (hf : c.First s) : BitmapOk (c.step s) := by
  refine after_of_run ?_
  cases c with
  | alloc => exact .bind ((h.alloc hf).mono (fun _ _ hx => hx.2.2) fun _ _ hx => hx.2.2) fun _ _ h => .pure h
  | occupy b =>
    by_cases hfree : blockIsFree s b = true
    · exact (h.occupy hf hfree).mono (fun _ _ hx => hx.2) fun _ _ hx => hx
    · refine .getBind ?_
      rw [if_neg hfree]
      exact .throw h
  | free b =>
    by_cases h0 : b = 0
    · show Run (if b = 0 then _ else _) s _ _
      rw [if_pos h0]
      exact .throw h
    · exact (h.free hf h0).mono (fun _ _ hx => hx.2) fun _ _ hx => hx

end

/-- In every run in which every bit that changes is in the first bitmap block,
the bitmap on the disk is that in memory after each call, and each call does
what it is for. -/
theorem bitmap_through_of_run {s t : FsSt} (h : BitmapOk s) (cs : List BitCall)
    (hcs : Throughout BitCall.step (fun c s => c.Below s ∧ c.First s) cs s) (ht : exec BitCall.step cs s = t) :
    Through t ∧ ∀ c : BitCall, c.Below t → c.First t → c.Right t ∧ Through (c.step t) := by
  have hok : BitmapOk t := by
    rw [← ht]
    exact exec_invariant_of (fun c s hs hc => hs.step hc.2) cs h hcs
  exact ⟨hok.through, fun c hb hf => ⟨BitCall.right_of_first hok hb hf, (hok.step hf).through⟩⟩

/-- A disk of `n` blocks that are all in use. -/
def takenDisk (n : ℕ) : FsSt := boot fun b => if b = 1 then Block.zero.put32 4 n else Block.zero

theorem takenDisk_nblocks {n : ℕ} (hn : n < 2 ^ 32) : (takenDisk n).nblocks = n := by
  show ((if 1 = 1 then Block.zero.put32 4 n else Block.zero) : Block).le32 4 = n
  rw [if_pos rfl, Block.le32_put32, Nat.mod_eq_of_lt hn]

theorem takenDisk_ok {n : ℕ} (h2 : 3 < n) (hn : n ≤ DISKBLOCKS) : BitmapOk (takenDisk n) := by
  have hlt : n < 2 ^ 32 := lt_of_le_of_lt hn (by decide)
  have hb := takenDisk_nblocks hlt
  refine ⟨?_, .inr ⟨by decide, ?_, ?_⟩, fun _ _ => rfl⟩
  · rw [hb]
    exact ⟨by omega, hn⟩
  · rw [hb]
    omega
  · have hsame : (takenDisk n).mem (bitBlk 2) = (takenDisk 0).mem (bitBlk 2) := rfl
    rw [bitSet_congr hsame]
    decide

theorem bitmap_through_hundred : Through (exec BitCall.step [.free 50] (takenDisk 100)) := by
  refine (bitmap_through_of_run (takenDisk_ok (by decide) (by decide)) [.free 50] ⟨⟨?_, ?_⟩, trivial⟩ rfl).1
  · show 50 < (takenDisk 100).nblocks
    rw [takenDisk_nblocks (by decide)]
    decide
  · exact (by decide : 50 < BLKBITSIZE)

/-- The bit of block 32768 is the first of the second bitmap block. -/
theorem free_beyond_first : ∃ s s', BitmapOk s ∧ 32768 < s.nblocks ∧ freeBlock 32768 s = .ok () s' ∧ ¬ Through s' := by
  have hok := takenDisk_ok (n := 40000) (by decide) (by decide)
  have hn := takenDisk_nblocks (n := 40000) (by decide)
  have hthree : Here (takenDisk 40000) (bitBlk 32768) := ⟨by decide, by rw [hn]; decide, by decide⟩
  obtain ⟨_, s', hx, hm⟩ := (freeBlock_ok (b := 32768) (by decide) hthree hok.size.1).exists_ok
  exact ⟨_, s', hok, by rw [hn]; decide, hx,
    hm.1.not_through (by decide) (by rw [hn]; decide) hok.through (by decide)⟩

end Fs
end Jos
