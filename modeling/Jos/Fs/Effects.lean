/-
# What the functions of the cache do

The server reads and writes `mem`; the disk follows when a page is flushed.
Each primitive is described once, by what it does to `mem`, `disk`, the dirty
bits and the trace (`Loaded`, `Stored`, `Flushed`), and whether it can panic;
no later proof looks at the page table.

`Keeps J` is the frame of everything built from them: the blocks in `J` are
left alone in the cache, on the disk and in every image written meanwhile, and
stay marked in use. `Coh`, a clean page is what the disk holds, is kept by
every function of the server.

Key definitions: `Loaded`, `Stored`, `Flushed`, `Coh`, `Held`, `Keeps`, `withBit`.
Key theorems: `store_run`, `flushBlock_run`, `allocBlock_ready`, `freeBlock_ready`.
-/
import Jos.Fs.File
import Mathlib.Data.List.Basic

namespace Jos
namespace Fs

open Block Function

/-- A failing call whose code the caller looks at. -/
theorem attempt_run {α : Type} {x : FsM α} {s : FsSt} {Q : α → FsSt → Prop} {E : Fault → FsSt → Prop}
    (h : Run x s Q E) :
    Run (attempt x) s (fun r s' => (∃ a, r = .ok a ∧ Q a s') ∨ ∃ e, r = .error e ∧ E (.err e) s')
      (fun e s' => (∃ p, e = .panic p) ∧ E e s') := by
  unfold Run attempt at *
  rcases hx : x s with ⟨a, s'⟩ | ⟨e | p, s'⟩
  · rw [hx] at h
    exact .inl ⟨a, rfl, h⟩
  · rw [hx] at h
    exact .inr ⟨e, rfl, h⟩
  · rw [hx] at h
    exact ⟨⟨p, rfl⟩, h⟩

/-! ### The primitives -/

/-- A page was read in, or nothing happened. -/
structure Loaded (s s' : FsSt) : Prop where
  mem : s'.mem = s.mem
  disk : s'.disk = s.disk
  dirty : s'.dirty = s.dirty
  trace : s'.trace = s.trace

/-- `n` bytes were stored into block `b`. -/
structure Stored (b off n : ℕ) (src : ℕ → UInt8) (s s' : FsSt) : Prop where
  mem : s'.mem = update s.mem b ((s.mem b).write off n src)
  disk : s'.disk = s.disk
  dirty : s'.dirty = update s.dirty b true
  trace : s'.trace = s.trace

/-- Block `b` was written to disk if it was dirty. -/
structure Flushed (b : ℕ) (s s' : FsSt) : Prop where
  mem : s'.mem = s.mem
  dirty : s'.dirty = update s.dirty b false
  disk : (s.dirty b = false ∧ s'.disk = s.disk ∧ s'.trace = s.trace) ∨
    (s.dirty b = true ∧ s'.disk = update s.disk b (s.mem b) ∧
      s'.trace = .write (update s.disk b (s.mem b)) :: s.trace)

theorem Loaded.refl (s : FsSt) : Loaded s s := ⟨rfl, rfl, rfl, rfl⟩

theorem Loaded.trans {s s' s'' : FsSt} (h : Loaded s s') (h' : Loaded s' s'') : Loaded s s'' :=
  ⟨h'.mem.trans h.mem, h'.disk.trans h.disk, h'.dirty.trans h.dirty, h'.trace.trans h.trace⟩

theorem mem_setPage (s : FsSt) (b : ℕ) (p : Page) : (s.setPage b p).mem = update s.mem b p.data := by
  funext c
  by_cases h : c = b
  · subst h
    simp [FsSt.mem, FsSt.setPage]
  · simp [FsSt.mem, FsSt.setPage, h]

theorem dirty_setPage (s : FsSt) (b : ℕ) (p : Page) :
    (s.setPage b p).dirty = update s.dirty b p.dirty := by
  funext c
  by_cases h : c = b
  · subst h
    simp [FsSt.dirty, FsSt.setPage]
  · simp [FsSt.dirty, FsSt.setPage, h]

theorem mem_of_page {s : FsSt} {b : ℕ} {p : Page} (h : s.cache b = some p) : s.mem b = p.data := by
  simp [FsSt.mem, h]

theorem dirty_of_page {s : FsSt} {b : ℕ} {p : Page} (h : s.cache b = some p) : s.dirty b = p.dirty := by
  simp [FsSt.dirty, h]

theorem mem_of_none {s : FsSt} {b : ℕ} (h : s.cache b = none) : s.mem b = s.disk b := by
  simp [FsSt.mem, h]

theorem dirty_of_none {s : FsSt} {b : ℕ} (h : s.cache b = none) : s.dirty b = false := by
  simp [FsSt.dirty, h]

theorem loaded_setPage {s : FsSt} {b : ℕ} (h : s.cache b = none) :
    Loaded s (s.setPage b ⟨s.disk b, false⟩) where
  mem := by rw [mem_setPage, ← mem_of_none h, update_eq_self]
  disk := rfl
  dirty := by rw [dirty_setPage, ← dirty_of_none h, update_eq_self]
  trace := rfl

/-- How a primitive can stop the server: a panic, none of the assertions on
directory sizes, with nothing done but a page read in. -/
def Stopped (s : FsSt) (e : Fault) (s' : FsSt) : Prop :=
  Loaded s s' ∧ ∃ p, e = .panic p ∧ p.Basic

theorem diskaddr_run (b : ℕ) (s : FsSt) :
    Run (diskaddr b) s (fun r s' => r = b ∧ s' = s ∧ b ≠ 0 ∧ b < s.nblocks)
      (fun e s' => s' = s ∧ e = .panic (.badBlock b) ∧ (b = 0 ∨ s.nblocks ≤ b)) := by
  refine .getBind ?_
  split_ifs with h
  · exact .throw ⟨rfl, rfl, h⟩
  · exact .pure ⟨rfl, rfl, by omega, by omega⟩

theorem stopped_badBlock {s s' : FsSt} {e : Fault} {b : ℕ} {P : Prop}
    (h : s' = s ∧ e = .panic (.badBlock b) ∧ P) : Stopped s e s' := by
  obtain ⟨rfl, rfl, -⟩ := h
  exact ⟨Loaded.refl _, _, rfl, by simp⟩

theorem touch_run (b : ℕ) (s : FsSt) : Run (touch b) s (fun _ s' => Loaded s s') (Stopped s) := by
  refine .getBind ?_
  split_ifs with h
  · exact .pure (Loaded.refl s)
  · have hl := loaded_setPage (Option.not_isSome_iff_eq_none.mp h)
    refine .step (diskaddr_run b s) (fun _ _ h => stopped_badBlock h) ?_
    rintro _ _ ⟨-, rfl, -⟩
    refine .setBind ?_
    split_ifs
    · exact .throw ⟨hl, _, rfl, by simp⟩
    · exact .pure hl

theorem store_run (b off n : ℕ) (src : ℕ → UInt8) (s : FsSt) :
    Run (store b off n src) s (fun _ s' => Stored b off n src s s') (Stopped s) := by
  refine .bind (touch_run b s) ?_
  intro _ s1 h
  refine .modify ⟨?_, h.disk, ?_, h.trace⟩
  · rw [mem_setPage, h.mem]
  · rw [dirty_setPage, h.dirty]

theorem flushBlock_run (b : ℕ) (s : FsSt) :
    Run (flushBlock b) s (fun _ s' => Flushed b s s')
      (fun e s' => s' = s ∧ e = .panic (.badBlock b) ∧ (b = 0 ∨ s.nblocks ≤ b)) := by
  refine .getBind ?_
  cases hp : s.cache b with
  | none =>
    refine .pure ⟨rfl, ?_, .inl ⟨dirty_of_none hp, rfl, rfl⟩⟩
    rw [← dirty_of_none hp, update_eq_self]
  | some p =>
    show Run (if p.dirty then _ else _) s _ _
    split_ifs with hd
    · refine .step (diskaddr_run b s) (fun _ _ h => h) ?_
      rintro _ _ ⟨-, rfl, -⟩
      have hm := mem_of_page hp
      refine .set ⟨?_, ?_, .inr ⟨(dirty_of_page hp).trans hd, ?_, ?_⟩⟩
      · funext c
        by_cases hc : c = b
        · subst hc
          simp [FsSt.mem, FsSt.setPage, hp]
        · simp [FsSt.mem, FsSt.setPage, FsSt.putDisk, hc]
      · rw [dirty_setPage]
        rfl
      · simp [FsSt.setPage, FsSt.putDisk, hm]
      · simp [FsSt.setPage, FsSt.putDisk, hm]
    · have hd' : s.dirty b = false := by rw [dirty_of_page hp]; simpa using hd
      refine .pure ⟨rfl, ?_, .inl ⟨hd', rfl, rfl⟩⟩
      rw [← hd', update_eq_self]

/-- `flush_sector` never fails, and leaves the page dirty. -/
theorem flushSector_run (b off : ℕ) (s : FsSt) (E : Fault → FsSt → Prop) :
    Run (flushSector b off) s (fun _ s' => s'.mem = s.mem ∧ s'.dirty = s.dirty ∧
      ((s.dirty b = false ∧ s'.disk = s.disk ∧ s'.trace = s.trace) ∨
        (s.dirty b = true ∧ s'.disk = update s.disk b ((s.disk b).write (off / SECTSIZE * SECTSIZE)
          SECTSIZE fun i => s.mem b (off / SECTSIZE * SECTSIZE + i)) ∧
          s'.trace = .write s'.disk :: s.trace))) E := by
  refine .getBind ?_
  cases hp : s.cache b with
  | none => exact .pure ⟨rfl, rfl, .inl ⟨dirty_of_none hp, rfl, rfl⟩⟩
  | some p =>
    show Run (if p.dirty then _ else _) s _ _
    split_ifs with hd
    · refine .set ⟨?_, rfl, .inr ⟨(dirty_of_page hp).trans hd, ?_, rfl⟩⟩
      · funext c
        by_cases hc : c = b
        · subst hc
          simp [FsSt.mem, FsSt.putDisk, hp]
        · simp [FsSt.mem, FsSt.putDisk, hc]
      · simp [FsSt.putDisk, mem_of_page hp]
    · exact .pure ⟨rfl, rfl, .inl ⟨by rw [dirty_of_page hp]; simpa using hd, rfl, rfl⟩⟩

/-! ### The bitmap -/

/-- The image with the bitmap word of block `b` replaced. -/
def withWord (m : Disk) (b w : ℕ) : Disk :=
  update m (bitBlk b) ((m (bitBlk b)).put32 (bitOff b) w)

theorem bitSet_congr {m m' : Disk} {b : ℕ} (h : m' (bitBlk b) = m (bitBlk b)) : bitSet m' b = bitSet m b := by
  simp only [bitSet, bitWord, h]

theorem bitSet_withWord_same {m : Disk} {b b' w : ℕ} (h : b' / 32 = b / 32) :
    bitSet (withWord m b w) b' = (w % 2 ^ 32).testBit (b' % 32) := by
  have h1 : bitBlk b' = bitBlk b := by simp only [bitBlk, BLKBITSIZE, BLKSIZE]; omega
  have h2 : bitOff b' = bitOff b := by simp only [bitOff, h]
  simp only [bitSet, bitWord, withWord, h1, h2, update_self, le32_put32]

theorem bitSet_withWord_other {m : Disk} {b b' w : ℕ} (h : b' / 32 ≠ b / 32) :
    bitSet (withWord m b w) b' = bitSet m b' := by
  by_cases h1 : bitBlk b' = bitBlk b
  · have h2 : bitOff b' + 4 ≤ bitOff b ∨ bitOff b + 4 ≤ bitOff b' := by
      simp only [bitBlk, BLKBITSIZE, BLKSIZE] at h1
      simp only [bitOff]
      omega
    simp only [bitSet, bitWord, withWord, h1, update_self, le32_put32_out h2]
  · exact bitSet_congr (update_of_ne h1 _ _)

theorem bitSet_of_word {m : Disk} {b b' : ℕ} (h : b' / 32 = b / 32) :
    bitSet m b' = (bitWord m b).testBit (b' % 32) := by
  have h1 : bitBlk b' = bitBlk b := by simp only [bitBlk, BLKBITSIZE, BLKSIZE]; omega
  have h2 : bitOff b' = bitOff b := by simp only [bitOff, h]
  simp only [bitSet, bitWord, h1, h2]

/-- `free_block` sets one bit. -/
theorem bitSet_free (m : Disk) (b b' : ℕ) :
    bitSet (withWord m b (bitWord m b ||| 1 <<< (b % 32))) b' = if b' = b then true else bitSet m b' := by
  by_cases h : b' / 32 = b / 32
  · have hd : (b % 32 = b' % 32) ↔ b' = b := by omega
    rw [bitSet_withWord_same h, bitSet_of_word h, Nat.testBit_mod_two_pow, Nat.testBit_or,
      Nat.one_shiftLeft, Nat.testBit_two_pow]
    simp only [hd, Nat.mod_lt b' (show 0 < 32 by omega), decide_true, Bool.true_and]
    split_ifs <;> simp_all
  · have hne : b' ≠ b := by rintro rfl; exact h rfl
    rw [bitSet_withWord_other h, if_neg hne]

/-- `occupy_block` clears the bit of a free block. -/
theorem bitSet_occupy {m : Disk} {b : ℕ} (hb : bitSet m b = true) (b' : ℕ) :
    bitSet (withWord m b (bitWord m b ^^^ 1 <<< (b % 32))) b' = if b' = b then false else bitSet m b' := by
  by_cases h : b' / 32 = b / 32
  · have hd : (b % 32 = b' % 32) ↔ b' = b := by omega
    rw [bitSet_withWord_same h, bitSet_of_word h, Nat.testBit_mod_two_pow, Nat.testBit_xor,
      Nat.one_shiftLeft, Nat.testBit_two_pow]
    simp only [hd, Nat.mod_lt b' (show 0 < 32 by omega), decide_true, Bool.true_and]
    split_ifs with he
    · subst he
      rw [bitSet] at hb
      simp [hb]
    · simp [he]
  · have hne : b' ≠ b := by rintro rfl; exact h rfl
    rw [bitSet_withWord_other h, if_neg hne]

/-- The bit of block `b` was set to `v`, and the first bitmap block written. -/
structure Marked (b : ℕ) (v : Bool) (s s' : FsSt) : Prop where
  mem : ∀ c, c ≠ bitBlk b → s'.mem c = s.mem c
  bit : ∀ c, bitSet s'.mem c = if c = b then v else bitSet s.mem c
  dirty : s'.dirty = update (update s.dirty (bitBlk b) true) 2 false
  disk : ∀ c, c ≠ 2 → s'.disk c = s.disk c
  disk2 : s'.disk 2 = s'.mem 2 ∨ (s'.disk 2 = s.disk 2 ∧ bitBlk b ≠ 2 ∧ s.dirty 2 = false)
  evs : ∃ evs, s'.trace = evs ++ s.trace ∧ ∀ e ∈ evs, e = .write s'.disk ∨ (e = .freed b ∧ v = true)

theorem two_le_bitBlk (b : ℕ) : 2 ≤ bitBlk b := Nat.le_add_right _ _

theorem bitBlk_first {b : ℕ} (hb : b < BLKBITSIZE) : bitBlk b = 2 := by
  rw [bitBlk, Nat.div_eq_of_lt hb]

theorem bitSet_first {m m' : Disk} {b : ℕ} (hb : b < BLKBITSIZE) (h : m' 2 = m 2) : bitSet m' b = bitSet m b :=
  bitSet_congr (by rw [bitBlk_first hb, h])

theorem Stored.withWord {b w : ℕ} {s s' : FsSt} (h : Stored (bitBlk b) (bitOff b) 4 (bytes32 w) s s') :
    s'.mem = withWord s.mem b w := h.mem

theorem Stored.nblocks {b off n : ℕ} {src : ℕ → UInt8} {s s' : FsSt} (h : Stored b off n src s s')
    (hb : b ≠ 1) : s'.nblocks = s.nblocks := by
  simp only [FsSt.nblocks, h.mem, update_of_ne hb.symm]

/-- A changed bitmap word, then the flush of the first bitmap block. -/
theorem marked_of_stored {b w : ℕ} {v : Bool} {s s1 s2 s' : FsSt}
    (hw : ∀ c, bitSet (withWord s.mem b w) c = if c = b then v else bitSet s.mem c)
    (h1 : Stored (bitBlk b) (bitOff b) 4 (bytes32 w) s s1)
    (h2 : s2 = s1 ∨ (s2 = s1.log (.freed b) ∧ v = true)) (h3 : Flushed 2 s2 s') : Marked b v s s' := by
  have hm : s2.mem = s1.mem := by rcases h2 with rfl | ⟨rfl, -⟩ <;> rfl
  have hd : s2.disk = s1.disk := by rcases h2 with rfl | ⟨rfl, -⟩ <;> rfl
  have hy : s2.dirty = s1.dirty := by rcases h2 with rfl | ⟨rfl, -⟩ <;> rfl
  have ht : ∃ evs, s2.trace = evs ++ s.trace ∧ ∀ e ∈ evs, e = .freed b ∧ v = true := by
    rcases h2 with rfl | ⟨rfl, rfl⟩
    · exact ⟨[], h1.trace, by simp⟩
    · refine ⟨[.freed b], ?_, by simp⟩
      simp [FsSt.log, h1.trace]
  obtain ⟨evs, ht, hevs⟩ := ht
  have hmem : s'.mem = withWord s.mem b w := by rw [h3.mem, hm, h1.withWord]
  have hdirty : s'.dirty = update (update s.dirty (bitBlk b) true) 2 false := by
    rw [h3.dirty, hy, h1.dirty]
  rcases h3.disk with ⟨hc, hdisk, htr⟩ | ⟨-, hdisk, htr⟩
  · have hne : bitBlk b ≠ 2 := by
      intro he
      rw [hy, h1.dirty, he, update_self] at hc
      cases hc
    rw [hy, h1.dirty, update_of_ne hne.symm] at hc
    refine ⟨?_, ?_, hdirty, ?_, .inr ⟨?_, hne, hc⟩, evs, htr.trans ht, fun e he => .inr (hevs e he)⟩
    · intro c hcb
      rw [hmem, withWord, update_of_ne hcb]
    · rw [hmem]
      exact hw
    · intro c _
      rw [hdisk, hd, h1.disk]
    · rw [hdisk, hd, h1.disk]
  · refine ⟨?_, ?_, hdirty, ?_, .inl ?_, .write s'.disk :: evs, ?_, ?_⟩
    · intro c hcb
      rw [hmem, withWord, update_of_ne hcb]
    · rw [hmem]
      exact hw
    · intro c hc2
      rw [hdisk, update_of_ne hc2, hd, h1.disk]
    · rw [hdisk, update_self, h3.mem]
    · rw [htr, ht, hdisk, List.cons_append]
    · intro e he
      rcases List.mem_cons.mp he with rfl | he
      · exact .inl rfl
      · exact .inr (hevs e he)

theorem firstFree_some {s : FsSt} : ∀ {n b c : ℕ}, firstFree s n b = some c → b ≤ c ∧ blockIsFree s c = true ∧
    ∀ d, b ≤ d → d < c → blockIsFree s d = false
  | 0, _, _, h => by simp [firstFree] at h
  | n + 1, b, c, h => by
    rw [firstFree] at h
    split_ifs at h with hf
    · obtain rfl : b = c := by simpa using h
      exact ⟨le_rfl, hf, fun d h1 h2 => by omega⟩
    · obtain ⟨h1, h2, h3⟩ := firstFree_some h
      refine ⟨by omega, h2, fun d hb hd => ?_⟩
      by_cases he : d = b
      · rw [he]
        exact Bool.eq_false_iff.mpr hf
      · exact h3 d (by omega) hd

theorem firstFree_none {s : FsSt} : ∀ {n b : ℕ}, firstFree s n b = none → ∀ c, b ≤ c → c < b + n →
    blockIsFree s c = false
  | 0, b, _, c, h1, h2 => by omega
  | n + 1, b, h, c, h1, h2 => by
    rw [firstFree] at h
    split_ifs at h with hf
    by_cases hc : c = b
    · rw [hc]
      exact Bool.eq_false_iff.mpr hf
    · exact firstFree_none h c (by omega) (by omega)

/-! ### Blocks that are there

An access to a block in use does not fail. -/

/-- A block number that is in range and in use. -/
def Here (s : FsSt) (b : ℕ) : Prop := b ≠ 0 ∧ b < s.nblocks ∧ bitSet s.mem b = false

/-- The page of block `b` is mapped, or can be. -/
def Mappable (s : FsSt) (b : ℕ) : Prop := (s.cache b).isSome = true ∨ Here s b

/-- The first free block. -/
structure Lowest (s : FsSt) (b : ℕ) : Prop where
  pos : b ≠ 0
  lt : b < s.nblocks
  free : bitSet s.mem b = true
  least : ∀ c, c ≠ 0 → c < b → bitSet s.mem c = false

section
variable {s s' : FsSt} {b : ℕ} {E : Fault → FsSt → Prop}

theorem Here.not_free (h : Here s b) : blockIsFree s b = false := by
  rw [blockIsFree, h.2.2, Bool.and_false]

theorem Loaded.here (h : Loaded s s') {c : ℕ} : Here s' c ↔ Here s c := by
  simp only [Here, FsSt.nblocks, h.mem]

theorem Stored.here {c off n : ℕ} {src : ℕ → UInt8} (h : Stored c off n src s s') (h1 : c ≠ 1) (hb : bitBlk b ≠ c) :
    Here s' b ↔ Here s b := by
  rw [Here, Here, h.nblocks h1, bitSet_congr (by rw [h.mem, update_of_ne hb])]

/-- A block stays there when another one is freed. -/
theorem Here.of_marked {c : ℕ} {v : Bool} (hm : Marked c v s s') (hne : b ≠ c) (hb : Here s b) : Here s' b := by
  obtain ⟨h0, hlt, hbit⟩ := hb
  refine ⟨h0, ?_, by rw [hm.bit, if_neg hne, hbit]⟩
  rw [FsSt.nblocks, hm.mem 1 (by have := two_le_bitBlk c; omega), ← FsSt.nblocks]
  exact hlt

theorem diskaddr_ok (h0 : b ≠ 0) (hlt : b < s.nblocks) : Run (diskaddr b) s (fun r s' => r = b ∧ s' = s) E := by
  unfold diskaddr
  refine .getBind ?_
  rw [if_neg (by omega)]
  exact .pure ⟨rfl, rfl⟩

theorem cached_setPage (s : FsSt) (b : ℕ) (p : Page) : ((s.setPage b p).cache b).isSome = true := by
  simp [FsSt.setPage]

theorem touch_ready (h : Mappable s b) :
    Run (touch b) s (fun _ s' => Loaded s s' ∧ (s'.cache b).isSome = true) E := by
  unfold touch
  refine .getBind ?_
  split_ifs with hc
  · exact .pure ⟨Loaded.refl s, hc⟩
  · have h := h.resolve_left hc
    have hl := loaded_setPage (s := s) (b := b) (by simpa using hc)
    refine .bind (diskaddr_ok h.1 h.2.1) ?_
    rintro _ s1 ⟨-, hs1⟩
    refine .setBind ?_
    have hf : blockIsFree (s.setPage b ⟨s.disk b, false⟩) b = false := by
      rw [blockIsFree, hl.mem, h.2.2, Bool.and_false]
    rw [hf]
    exact .pure ⟨hl, cached_setPage s b _⟩

theorem touch_ok (h : Here s b) : Run (touch b) s (fun _ s' => Loaded s s') E :=
  (touch_ready (.inr h)).post (fun _ _ h => h.1)

theorem store_ready (h : Mappable s b) (off n : ℕ) (src : ℕ → UInt8) :
    Run (store b off n src) s (fun _ s' => Stored b off n src s s' ∧ (s'.cache b).isSome = true) E := by
  unfold store
  refine .bind (touch_ready h) ?_
  rintro _ s1 ⟨h1, -⟩
  refine .modify ⟨⟨?_, h1.disk, ?_, h1.trace⟩, cached_setPage s1 b _⟩
  · rw [mem_setPage, h1.mem]
  · rw [dirty_setPage, h1.dirty]

theorem store_ok (h : Here s b) (off n : ℕ) (src : ℕ → UInt8) :
    Run (store b off n src) s (fun _ s' => Stored b off n src s s') E :=
  (store_ready (.inr h) off n src).post (fun _ _ h => h.1)

theorem load32_ok {p : Ptr} (h : Here s p.blk) :
    Run (load32 p) s (fun v s' => v = (s.mem p.blk).le32 p.off ∧ Loaded s s') E := by
  unfold load32
  refine .bind (touch_ok h) ?_
  intro _ s1 h1
  refine .getBind ?_
  exact .pure ⟨by rw [h1.mem], h1⟩

theorem clearBlock_ok (h : Here s b) :
    Run (clearBlock b) s (fun _ s' => Stored b 0 BLKSIZE (fun _ => 0) s s') E := by
  unfold clearBlock
  refine .bind (diskaddr_ok h.1 h.2.1) ?_
  rintro _ s1 ⟨rfl, hs1⟩
  rw [hs1]
  exact store_ok h _ _ _

theorem flushBlock_ok (h0 : b ≠ 0) (hlt : b < s.nblocks) : Run (flushBlock b) s (fun _ s' => Flushed b s s') E :=
  (flushBlock_run b s).mono (fun _ _ h => h) fun _ _ h => by
    obtain ⟨-, -, h | h⟩ := h
    · exact absurd h h0
    · omega

/-- A page that is mapped stays so. -/
theorem flushBlock_mapped {c : ℕ} (b : ℕ) (h : (s.cache c).isSome = true) :
    Run (flushBlock b) s (fun _ s' => (s'.cache c).isSome = true) (fun _ _ => True) := by
  refine .getBind ?_
  cases hp : s.cache b with
  | none => exact .pure h
  | some p =>
    show Run (if p.dirty then _ else _) s _ _
    split_ifs
    · refine .step (diskaddr_run b s) (fun _ _ _ => trivial) fun _ _ _ => .set ?_
      by_cases hc : c = b
      · rw [hc]
        exact cached_setPage _ b _
      · simpa [FsSt.setPage, FsSt.putDisk, hc] using h
    · exact .pure h

theorem flushTwo_ready (hc : (s.cache b).isSome = true) (hn : 2 < s.nblocks) :
    Run (flushBlock 2) s (fun _ s' => Flushed 2 s s' ∧ (s'.cache b).isSome = true) E :=
  ((flushBlock_ok (E := fun _ _ => False) (by omega) hn).and (flushBlock_mapped 2 hc)).mono (fun _ _ h => h)
    fun _ _ h => h.1.elim

/-- `free_block` leaves a note, and may write the bitmap after it. -/
def Noted (b : ℕ) (s s' : FsSt) : Prop :=
  s'.trace = .freed b :: s.trace ∨ ∃ d, s'.trace = .write d :: .freed b :: s.trace

theorem freeBlock_ready (h0 : b ≠ 0) (h : Mappable s (bitBlk b)) (hn : 2 < s.nblocks) :
    Run (freeBlock b) s (fun _ s' => Marked b true s s' ∧ (s'.cache (bitBlk b)).isSome = true ∧ Noted b s s') E := by
  unfold freeBlock
  rw [if_neg h0]
  refine .getBind (.bind (store_ready h _ _ _) ?_)
  rintro _ s1 ⟨h1, hc1⟩
  have hn1 : s1.nblocks = s.nblocks := h1.nblocks (by have := two_le_bitBlk b; omega)
  refine .modifyBind ((flushTwo_ready (s := s1.log (.freed b)) hc1 ?_).post ?_)
  · show 2 < s1.nblocks
    omega
  · rintro _ s' ⟨h, hc⟩
    have htr : (s1.log (.freed b)).trace = .freed b :: s.trace := congrArg _ h1.trace
    refine ⟨marked_of_stored (bitSet_free s.mem b) h1 (.inr ⟨rfl, rfl⟩) h, hc, ?_⟩
    rw [Noted, ← htr]
    exact h.disk.imp (fun h => h.2.2) fun h => ⟨_, h.2.2⟩

theorem freeBlock_ok (h0 : b ≠ 0) (h : Here s (bitBlk b)) (hn : 2 < s.nblocks) :
    Run (freeBlock b) s (fun _ s' => Marked b true s s' ∧ Noted b s s') E :=
  (freeBlock_ready h0 (.inr h) hn).post (fun _ _ h => ⟨h.1, h.2.2⟩)

theorem occupyBlock_ready (hf : blockIsFree s b = true) (h : Mappable s (bitBlk b)) (hn : 2 < s.nblocks) :
    Run (occupyBlock b) s (fun _ s' => Marked b false s s' ∧ (s'.cache (bitBlk b)).isSome = true) E := by
  unfold occupyBlock
  refine .getBind ?_
  rw [if_pos hf]
  refine .bind (store_ready h _ _ _) ?_
  rintro _ s1 ⟨h1, hc1⟩
  have hn1 : s1.nblocks = s.nblocks := h1.nblocks (by have := two_le_bitBlk b; omega)
  refine (flushTwo_ready hc1 (by omega)).post ?_
  rintro _ s' ⟨h, hc⟩
  simp only [blockIsFree, Bool.and_eq_true] at hf
  exact ⟨marked_of_stored (bitSet_occupy hf.2) h1 (.inl rfl) h, hc⟩

/-- No block is free. -/
def Full (s : FsSt) : Prop := ∀ b, b ≠ 0 → b < s.nblocks → bitSet s.mem b = false

/-- `alloc_block` takes the first free block, and fails only if there is none. -/
theorem allocBlock_ready (h : ∀ c, Lowest s c → Mappable s (bitBlk c)) (hn : 2 < s.nblocks) :
    Run allocBlock s (fun b s' => Lowest s b ∧ Marked b false s s' ∧ (s'.cache (bitBlk b)).isSome = true)
      (fun e s' => e = .err .noDisk ∧ s' = s.log .full ∧ Full s) := by
  have hfree : ∀ {b}, b < s.nblocks → blockIsFree s b = false → bitSet s.mem b = false := fun hlt hnot => by
    rwa [blockIsFree, decide_eq_true hlt, Bool.true_and] at hnot
  unfold allocBlock
  refine .getBind ?_
  cases hb : firstFree s (s.nblocks - 1) 1 with
  | none =>
    exact .modifyBind (.throw ⟨rfl, rfl, fun b h0 hlt => hfree hlt (firstFree_none hb b (by omega) (by omega))⟩)
  | some b =>
    obtain ⟨h1, h2, h3⟩ := firstFree_some hb
    have hb2 := h2
    simp only [blockIsFree, Bool.and_eq_true, decide_eq_true_eq] at hb2
    have hlow : Lowest s b := ⟨by omega, hb2.1, hb2.2, fun c h0 hc => hfree (by omega) (h3 c (by omega) hc)⟩
    exact .bind (occupyBlock_ready h2 (h b hlow) hn) fun _ s' h => .pure ⟨hlow, h⟩

theorem allocBlock_ok (h : ∀ c < s.nblocks, Here s (bitBlk c)) (hn : 2 < s.nblocks) :
    Run allocBlock s (fun b s' => b ≠ 0 ∧ b < s.nblocks ∧ bitSet s.mem b = true ∧ Marked b false s s')
      (fun e s' => e = .err .noDisk ∧ s' = s.log .full ∧ Full s) :=
  (allocBlock_ready (fun c hc => .inr (h c hc.lt)) hn).mono (fun _ _ h => ⟨h.1.pos, h.1.lt, h.1.free, h.2.1⟩)
    fun _ _ h => h

end

/-! ### Frames -/

/-- A clean page is what the disk holds. -/
def Coh (s : FsSt) : Prop := ∀ b, s.dirty b = false → s.mem b = s.disk b

/-- Block `b` is in use in the cache and on the disk. -/
def InUse (s : FsSt) (b : ℕ) : Prop := bitSet s.mem b = false ∧ bitSet s.disk b = false

/-- `s_nblocks`, in the cache and on the disk. -/
def Sized (N : ℕ) (s : FsSt) : Prop := (s.mem 1).le32 4 = N ∧ (s.disk 1).le32 4 = N

/-- The image `d` has the blocks in `J` as the disk had them, and still marks
them in use. -/
structure Spares (J : ℕ → Prop) (s : FsSt) (d : Disk) : Prop where
  same : ∀ b, J b → d b = s.disk b
  inUse : ∀ b, J b ∨ b = 2 → InUse s b → bitSet d b = false
  sized : ∀ N, Sized N s → (d 1).le32 4 = N

/-- What may happen while the blocks in `J` are left alone. No block is taken for
a transaction whose record, in block 3, stays as it is. -/
def Event.Spares (J : ℕ → Prop) (s : FsSt) : Event → Prop
  | .write d => Fs.Spares J s d
  | .freed b => ¬ J b
  | .full => True
  | .taken _ => ¬ J 3
  | _ => False

/-- What happened on the way from one state to the next. -/
def Evs (P : Event → Prop) (s s' : FsSt) : Prop := ∃ evs, s'.trace = evs ++ s.trace ∧ ∀ e ∈ evs, P e

/-- The blocks in `J` are left alone, in the cache, on the disk and in every
image written on the way. -/
structure Keeps (J : ℕ → Prop) (s s' : FsSt) : Prop where
  coh : Coh s → Coh s'
  mem : ∀ b, J b → s'.mem b = s.mem b
  disk : ∀ b, J b → s'.disk b = s.disk b
  dirty : ∀ b, J b → s'.dirty b = s.dirty b
  inUse : ∀ b, J b ∨ b = 2 → InUse s b → InUse s' b
  sized : ∀ N, Sized N s → Sized N s'
  evs : Evs (Event.Spares J s) s s'

section
variable {J J' : ℕ → Prop} {s s' s'' : FsSt} {P Q : Event → Prop} {b : ℕ}

theorem Evs.refl : Evs P s s := ⟨[], rfl, by simp⟩

theorem Evs.trans (h : Evs P s s') (h' : Evs P s' s'') : Evs P s s'' := by
  obtain ⟨e1, ht1, h1⟩ := h
  obtain ⟨e2, ht2, h2⟩ := h'
  refine ⟨e2 ++ e1, by rw [ht2, ht1, List.append_assoc], fun e he => ?_⟩
  exact (List.mem_append.mp he).elim (h2 e) (h1 e)

theorem Evs.mono (h : Evs P s s') (hPQ : ∀ e, P e → Q e) : Evs Q s s' := by
  obtain ⟨evs, ht, he⟩ := h
  exact ⟨evs, ht, fun e hm => hPQ e (he e hm)⟩

theorem evs_of_eq (h : s'.trace = s.trace) : Evs P s s' := ⟨[], h, by simp⟩

theorem evs_cons {e : Event} (h : s'.trace = e :: s.trace) (he : P e) : Evs P s s' :=
  ⟨[e], h, by simpa using he⟩

theorem Keeps.refl (J : ℕ → Prop) (s : FsSt) : Keeps J s s :=
  ⟨id, fun _ _ => rfl, fun _ _ => rfl, fun _ _ => rfl, fun _ _ => id, fun _ => id, Evs.refl⟩

theorem Keeps.spares (h : Keeps J s s') {d : Disk} (hd : Spares J s' d) : Spares J s d :=
  ⟨fun b hb => (hd.same b hb).trans (h.disk b hb), fun b hb hu => hd.inUse b hb (h.inUse b hb hu),
    fun N hN => hd.sized N (h.sized N hN)⟩

theorem Keeps.trans (h : Keeps J s s') (h' : Keeps J s' s'') : Keeps J s s'' where
  coh := h'.coh ∘ h.coh
  mem b hb := (h'.mem b hb).trans (h.mem b hb)
  disk b hb := (h'.disk b hb).trans (h.disk b hb)
  dirty b hb := (h'.dirty b hb).trans (h.dirty b hb)
  inUse b hb hu := h'.inUse b hb (h.inUse b hb hu)
  sized N hN := h'.sized N (h.sized N hN)
  evs := by
    refine h.evs.trans (h'.evs.mono fun e he => ?_)
    cases e with
    | write d => exact h.spares he
    | freed b => exact he
    | full => trivial
    | taken b => exact he
    | commit t hs => exact he
    | ending t m y => exact he

theorem Loaded.keeps (h : Loaded s s') (J : ℕ → Prop) : Keeps J s s' where
  coh hs b hb := by
    rw [h.dirty] at hb
    rw [h.mem, h.disk, hs b hb]
  mem _ _ := by rw [h.mem]
  disk _ _ := by rw [h.disk]
  dirty _ _ := by rw [h.dirty]
  inUse _ _ hu := by rwa [InUse, h.mem, h.disk]
  sized _ hN := by rwa [Sized, h.mem, h.disk]
  evs := evs_of_eq h.trace

/-- A store outside `J` that changes no bit of a block in `J` and not the size
of the disk. -/
theorem Stored.keeps {off n : ℕ} {src : ℕ → UInt8} (h : Stored b off n src s s') (hb : ¬ J b)
    (hbit : ∀ c, J c → bitBlk c ≠ b) (h2 : b ≠ 2) (h1 : b = 1 → 8 ≤ off) : Keeps J s s' where
  coh hs c hc := by
    by_cases hcb : c = b
    · rw [h.dirty, hcb, update_self] at hc
      cases hc
    · rw [h.dirty, update_of_ne hcb] at hc
      rw [h.mem, h.disk, update_of_ne hcb, hs c hc]
  mem c hc := by
    rw [h.mem, update_of_ne]
    rintro rfl
    exact hb hc
  disk _ _ := by rw [h.disk]
  dirty c hc := by
    rw [h.dirty, update_of_ne]
    rintro rfl
    exact hb hc
  inUse c hc hu := by
    refine ⟨?_, by rw [h.disk]; exact hu.2⟩
    rw [bitSet_congr (m := s.mem)]
    · exact hu.1
    · rw [h.mem, update_of_ne]
      rcases hc with hc | rfl
      · exact hbit c hc
      · exact h2.symm
  sized N hN := by
    refine ⟨?_, by rw [h.disk]; exact hN.2⟩
    rw [h.mem]
    by_cases hb1 : b = 1
    · have := h1 hb1
      rw [hb1, update_self, le32_write_out (by omega)]
      exact hN.1
    · rw [update_of_ne (Ne.symm hb1)]
      exact hN.1
  evs := evs_of_eq h.trace

/-- A bit of the disk after one block was written from the cache. -/
theorem bitSet_update_mem {c : ℕ} (hu : InUse s c) : bitSet (update s.disk b (s.mem b)) c = false := by
  by_cases h : bitBlk c = b
  · rw [bitSet_congr (m := s.mem), hu.1]
    rw [h, update_self]
  · rw [bitSet_congr (m := s.disk), hu.2]
    exact update_of_ne h _ _

theorem sized_update_mem {N : ℕ} (h : Sized N s) : (update s.disk b (s.mem b) 1).le32 4 = N := by
  by_cases hb : 1 = b
  · rw [← hb, update_self]
    exact h.1
  · rw [update_of_ne hb]
    exact h.2

theorem Flushed.keeps (h : Flushed b s s') (hb : ¬ J b) : Keeps J s s' := by
  have hne : ∀ c, J c → c ≠ b := by
    rintro c hc rfl
    exact hb hc
  have hdirty : ∀ c, J c → s'.dirty c = s.dirty c := fun c hc => by
    rw [h.dirty, update_of_ne (hne c hc)]
  rcases h.disk with ⟨hcl, hd, ht⟩ | ⟨-, hd, ht⟩
  · have hsame : s'.dirty = s.dirty := by rw [h.dirty, ← hcl, update_eq_self]
    exact Loaded.keeps ⟨h.mem, hd, hsame, ht⟩ J
  · refine ⟨?_, fun c _ => by rw [h.mem], ?_, hdirty, ?_, ?_, evs_cons ht ⟨?_, ?_, ?_⟩⟩
    · intro hs c hc
      by_cases hcb : c = b
      · rw [h.mem, hd, hcb, update_self]
      · rw [h.dirty, update_of_ne hcb] at hc
        rw [h.mem, hd, update_of_ne hcb, hs c hc]
    · intro c hc
      rw [hd, update_of_ne (hne c hc)]
    · intro c _ hu
      exact ⟨by rw [h.mem]; exact hu.1, by rw [hd]; exact bitSet_update_mem hu⟩
    · intro N hN
      exact ⟨by rw [h.mem]; exact hN.1, by rw [hd]; exact sized_update_mem hN⟩
    · exact fun c hc => update_of_ne (hne c hc) _ _
    · exact fun c _ hu => bitSet_update_mem hu
    · exact fun N hN => sized_update_mem hN

theorem Marked.keeps {v : Bool} (h : Marked b v s s') (hb : ¬ J b) (hbit : ∀ c, J c → c ≠ bitBlk b) (h2 : ¬ J 2)
    (hb2 : b ≠ 2) : Keeps J s s' := by
  have hne : ∀ c, J c ∨ c = 2 → c ≠ b := by
    rintro c hc rfl
    exact hc.elim hb hb2
  have hne2 : ∀ c, J c → c ≠ 2 := by
    rintro c hc rfl
    exact h2 hc
  have hbitd : ∀ c, J c ∨ c = 2 → InUse s c → bitSet s'.disk c = false := by
    intro c hc hu
    have hmem : bitSet s'.mem c = false := by rw [h.bit, if_neg (hne c hc), hu.1]
    by_cases hc2 : bitBlk c = 2
    · rcases h.disk2 with hd | ⟨hd, -⟩
      · rwa [bitSet_congr (m := s'.mem) (by rw [hc2, hd])]
      · rw [bitSet_congr (m := s.disk) (by rw [hc2, hd]), hu.2]
    · rw [bitSet_congr (m := s.disk) (h.disk _ hc2), hu.2]
  have hsized : ∀ N, Sized N s → (s'.disk 1).le32 4 = N := fun N hN => by
    rw [h.disk 1 (by omega)]
    exact hN.2
  refine ⟨?_, fun c hc => h.mem c (hbit c hc), fun c hc => h.disk c (hne2 c hc), ?_, ?_, ?_, ?_⟩
  · intro hs c hc
    rw [h.dirty] at hc
    by_cases hc2 : c = 2
    · subst hc2
      rcases h.disk2 with hd | ⟨hd, hn2, hcl⟩
      · exact hd.symm
      · rw [h.mem 2 hn2.symm, hd, hs 2 hcl]
    · rw [update_of_ne hc2] at hc
      have hcb : c ≠ bitBlk b := by
        rintro rfl
        rw [update_self] at hc
        cases hc
      rw [update_of_ne hcb] at hc
      rw [h.mem c hcb, h.disk c hc2, hs c hc]
  · intro c hc
    rw [h.dirty, update_of_ne (hne2 c hc), update_of_ne (hbit c hc)]
  · intro c hc hu
    exact ⟨by rw [h.bit, if_neg (hne c hc), hu.1], hbitd c hc hu⟩
  · intro N hN
    have := two_le_bitBlk b
    exact ⟨by rw [h.mem 1 (by omega)]; exact hN.1, hsized N hN⟩
  · obtain ⟨evs, ht, hevs⟩ := h.evs
    refine ⟨evs, ht, fun e hm => ?_⟩
    rcases hevs e hm with rfl | ⟨rfl, -⟩
    · exact ⟨fun c hc => h.disk c (hne2 c hc), hbitd, hsized⟩
    · exact hb

/-- An event that is not about blocks in `J` is logged. -/
theorem keeps_log {e : Event} (he : e.Spares J s) : Keeps J s (s.log e) :=
  ⟨id, fun _ _ => rfl, fun _ _ => rfl, fun _ _ => rfl, fun _ _ => id, fun _ => id, evs_cons rfl he⟩

end

end Fs
end Jos
