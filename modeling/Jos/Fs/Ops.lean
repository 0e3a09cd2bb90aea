/-
# Creating, reading, writing and removing files

The specifications of the functions of `fs/fs.c` the request handlers call.
Each is a short sequence of the changes described so far (`Grown`, `Edit`) with
what it does to the one file it is about. `Moved`, what they all have in
common, is all an invariant needs; the rest says what the file holds after.

Key definitions: `Moved`, `Stretched`, `Slot`, `Created`, `Removed`, `Written`.
Key theorems: `dirAllocFile_run`, `fileFlush_run`, `fileCreate_run`,
`fileRemove_run`, `fileRead_run`, `fileWrite_run`.
-/
import Jos.Fs.Dirs

namespace Jos
namespace Fs

open Block Function

/-- The invariant and the frame are kept. -/
structure Moved (L : Layout) (own own' : ℕ → Use) (s s' : FsSt) : Prop where
  inv : FInv L own' s'.mem
  keeps : Keeps L.J s s'
  bitmap : s.dirty 2 = false → s'.dirty 2 = false
  leak : ∀ b < L.nb, bitSet s'.mem b = false → own' b = .none → bitSet s.mem b = false ∧ own b = .none

/-- A panic: the assertion on a directory's size, where sizes may be anything. -/
def Panics (L : Layout) (s : FsSt) (e : Fault) (s' : FsSt) : Prop :=
  ∃ p, e = .panic p ∧ Keeps L.J s s' ∧ ¬ L.D

section
variable {L : Layout} {own own' own'' : ℕ → Use} {s s' s'' : FsSt} {a f : Ptr} {e : Fault}

theorem Moved.trans (h : Moved L own own' s s') (h' : Moved L own' own'' s' s'') : Moved L own own'' s s'' where
  inv := h'.inv
  keeps := h.keeps.trans h'.keeps
  bitmap := h'.bitmap ∘ h.bitmap
  leak b hlt hb hn := by
    obtain ⟨h1, h2⟩ := h'.leak b hlt hb hn
    exact h.leak b hlt h1 h2

theorem GrownBut.moved {X : Ptr → Prop} (h : GrownBut L own own' X s s') : Moved L own own' s s' := ⟨h.inv, h.keeps, h.bitmap, h.leak⟩

theorem Edit.moved (h : Edit L own own' a s s') : Moved L own own' s s' := ⟨h.inv, h.keeps, h.bitmap, h.leak⟩

theorem Panics.of_keeps (hk : Keeps L.J s s') (h : Panics L s' e s'') : Panics L s e s'' := by
  obtain ⟨p, rfl, h1, h2⟩ := h
  exact ⟨p, rfl, hk.trans h1, h2⟩

theorem Fails.moved {D : Prop} {P : Err → FsSt → Prop} (h : Fails L own s D P e s') (hD : L.D → D) :
    Panics L s e s' ∨ ∃ er own', e = .err er ∧ Moved L own own' s s' := by
  cases e with
  | err er =>
    obtain ⟨own', hg, -⟩ := h
    exact .inr ⟨er, own', rfl, hg.moved⟩
  | panic p => exact .inl ⟨p, rfl, h.1, h.2 ∘ hD⟩

/-! ### A new entry -/

/-- The size of the directory `a` is set to `n`, among changes that only grow
the file system. -/
def Stretched (L : Layout) (own own' : ℕ → Use) (a : Ptr) (n : ℤ) (s s' : FsSt) : Prop :=
  ∃ own1 s1 s2, Grown L own own1 s s1 ∧ Edit L own1 own1 a s1 s2 ∧ Resized own1 a n s1 s2 ∧
    Grown L own1 own' s2 s'

theorem Stretched.moved {n : ℤ} (h : Stretched L own own' a n s s') : Moved L own own' s s' := by
  obtain ⟨own1, s1, s2, h1, h2, -, h3⟩ := h
  exact (h1.moved.trans h2.moved).trans h3.moved

theorem Resized.refl (h : FInv L own s.mem) (ha : IsRec own a) : Resized own a (fSize s.mem a) s s := by
  have hz := fun k => h.ptr_past (k := k) ha
  refine ⟨fun _ _ => rfl, rfl, rfl, ?_, ?_, .inl rfl, fun _ _ _ _ => rfl⟩
  · intro k hk
    split_ifs with hb
    · rfl
    · exact hz k hk (by omega)
  · intro k hk hb
    rw [hz k hk hb]
    exact h.own_zero

theorem GrownBut.stretched (h : Grown L own own' s s') (ha : IsRec own a) :
    Stretched L own own' a (Fs.fSize s.mem a) s s' := by
  refine ⟨own', s', s', h, Edit.refl h.inv, ?_, .refl h.inv⟩
  rw [← h.fSize ha]
  exact Resized.refl h.inv (h.isRec ha)

/-- Entry `k` of the directory `a`, the first that is free, has a block. -/
structure Slot (L : Layout) (own own' : ℕ → Use) (a : Ptr) (k : ℕ) (s s' : FsSt) : Prop where
  stretched : Stretched L own own' a (max (fSize s.mem a) (4096 * (k / 16 + 1))) s s'
  lt : k / 16 < 1034
  ptr : ptr s'.mem a (k / 16) ≠ 0
  blank : fName s'.mem (entryAt s'.mem a k) 0 = 0
  free : child s.mem a k = none
  least : ∀ k' < k, child s.mem a k' ≠ none

/-- How `dir_alloc_file` fails: the disk, or the directory, is full. -/
def SlotErr (L : Layout) (own : ℕ → Use) (a : Ptr) (s : FsSt) (e : Err) (s' : FsSt) : Prop :=
  ∃ n own', Stretched L own own' a n s s' ∧
    ((e = .noDisk ∧ .full ∈ s'.trace) ∨ (e = .inval ∧ (∀ k, k / 16 < 1034 → child s.mem a k ≠ none) ∧
      ((1034 < blocksUp (fSize s.mem a) ∧ n = fSize s.mem a) ∨
        (blocksUp (fSize s.mem a) = 1034 ∧ n = fSize s.mem a + 4096))))

/-- `dir_alloc_file`. -/
theorem dirAllocFile_run (h : FInv L own s.mem) (ha : IsRec own a) (hlive : Live s.mem a)
    (ht : fType s.mem a = 1) :
    Run (dirAllocFile a) s (fun f s' => ∃ k own', Slot L own own' a k s s' ∧ f = entryAt s'.mem a k)
      (fun e s' => Panics L s e s' ∨ ∃ er, e = .err er ∧ SlotErr L own a s er s') := by
  have hp : ∀ (d d' : Block) (o : ℕ), (∀ i < 128, d (o + i) = d' (o + i)) →
      decide (d o = 0) = decide (d' o = 0) := by
    intro d d' o hd
    have h0 := hd 0 (by omega)
    rw [Nat.add_zero] at h0
    rw [h0]
  -- an entry the search passes over is in use
  have hused : ∀ {own1 : ℕ → Use} {s1 : FsSt} {k : ℕ}, Grown L own own1 s s1 → k / 16 < 1034 →
      ptr s1.mem a (k / 16) ≠ 0 → decide (s1.mem (ptr s1.mem a (k / 16)) (256 * (k % 16)) = 0) = false →
      child s.mem a k ≠ none := by
    intro own1 s1 k hg hk h0 hd
    rw [← hg.child ha ht]
    have hn : fName s1.mem (entryAt s1.mem a k) 0 ≠ 0 := by simpa [fName, entryAt] using hd
    rw [child_some.mpr ⟨hk, h0, hn, rfl⟩]
    simp
  refine .step (dirBlocks_run h ha ht) ?_ ?_
  · rintro e s' ⟨rfl, rfl, hD⟩
    exact .inl ⟨_, rfl, Keeps.refl _ _, hD⟩
  rintro n s0 ⟨hs0, rfl, hdvd⟩
  rw [hs0]
  have hsz := (h.recOk a ha).size
  have hup : (blocksUp (fSize s.mem a) : ℤ) * 4096 = fSize s.mem a := by
    unfold blocksUp
    omega
  refine .step (dirScan_exact hp _ 0 h ha hlive ht (by omega)) ?_ ?_
  · rintro e s' (⟨rfl, h1, own1, hg, h2⟩ | ⟨rfl, hfull, own1, j, hg, -⟩)
    · refine .inr ⟨_, rfl, _, own1, hg.stretched ha, .inr ⟨rfl, ?_, .inl ⟨by omega, rfl⟩⟩⟩
      intro k hk
      obtain ⟨h3, h4⟩ := h2 k (by omega) (by omega)
      exact hused hg hk h3 h4
    · exact .inr ⟨_, rfl, _, own1, hg.stretched ha, .inl ⟨rfl, hfull⟩⟩
  rintro r s1 ⟨own1, hi, htook, hr⟩
  have hg := htook.grown
  rcases hr with ⟨k, rfl, rfl, -, hk16, hk, hpk, hscan⟩ | ⟨rfl, -, hn, hscan⟩
  · have hk0 : ptr s1.mem a (k / 16) ≠ 0 := htook.there _ (by omega) (by omega)
    have hname : fName s1.mem (entryAt s1.mem a k) 0 = 0 := by simpa [fName, entryAt] using hpk
    refine .pure ⟨k, own1, ⟨?_, hk, hk0, hname, ?_, ?_⟩, rfl⟩
    · rw [max_eq_left (by omega)]
      exact hg.stretched ha
    · rw [← hg.child ha ht, child, if_neg (by simp [hname])]
    · intro k' hk'
      obtain ⟨h1, h2⟩ := hscan k' (by omega) hk'
      exact hused hg (by omega) h1 h2
  -- every entry is in use: the directory gets another block
  · have hle : blocksUp (fSize s.mem a) ≤ 1034 := by
      by_contra hc
      have := hn (by omega)
      omega
    have hfull : ∀ k, k < 16 * blocksUp (fSize s.mem a) → child s.mem a k ≠ none := by
      intro k hk
      obtain ⟨h1, h2⟩ := hscan k (by omega) (by omega)
      exact hused hg (by omega) h1 h2
    have ha1 := hg.isRec ha
    have hs1 := hg.fSize ha
    have hn1 : blocksUp (fSize s.mem a + 4096) = blocksUp (fSize s.mem a) + 1 := by
      unfold blocksUp
      omega
    refine .getBind ?_
    refine .bind (store_ok (hg.inv.here_rec ha1) _ _ _) ?_
    intro _ s2 hst
    rw [hs1, show ((BLKSIZE : ℕ) : ℤ) = 4096 from rfl] at hst
    obtain ⟨hed, hres⟩ := resized_store hg.inv ha1 ((hg.live ha).mpr hlive) (by omega) (by omega)
      (fun _ _ => Int.dvd_add hdvd (Int.dvd_refl _))
      (fun k hk hb => hg.inv.ptr_past ha1 hk (by rw [hs1]; omega)) hst
    have hlive2 : Live s2.mem a := by
      rw [Live, hres.name 0 (by omega)]
      exact (hg.live ha).mpr hlive
    refine .step (fileGetBlock_run hed.inv ha1 hlive2 (k := blocksUp (fSize s.mem a))
      (by rw [hres.size]; omega)) ?_ ?_
    · intro e s' he
      cases e with
      | panic p => exact absurd trivial he.2
      | err er =>
        obtain ⟨own3, hg3, he⟩ := he
        refine .inr ⟨er, rfl, _, own3, ⟨own1, s1, s2, hg, hed, hres, hg3⟩, he.imp_right ?_⟩
        rintro ⟨rfl, h1⟩
        exact ⟨rfl, fun k hk => hfull k (by omega), .inr ⟨by omega, rfl⟩⟩
    rintro blk s3 ⟨own3, hg3, hlt, hblk, hptr⟩
    have hdiv : 16 * blocksUp (fSize s.mem a) / 16 = blocksUp (fSize s.mem a) := by omega
    have hmod : 16 * blocksUp (fSize s.mem a) % 16 = 0 := by omega
    have hentry : (⟨blk, 0⟩ : Ptr) = entryAt s3.mem a (16 * blocksUp (fSize s.mem a)) := by
      rw [entryAt, hdiv, hptr, hmod]
    refine .pure ⟨16 * blocksUp (fSize s.mem a), own3, ⟨?_, by omega, by rw [hdiv, hptr]; exact hblk, ?_, ?_, ?_⟩,
      hentry⟩
    · rw [max_eq_right (by omega), show (4096 : ℤ) * (((16 * blocksUp (fSize s.mem a) : ℕ) : ℤ) / 16 + 1) =
        fSize s.mem a + 4096 by omega]
      exact ⟨own1, s1, s2, hg, hed, hres, hg3⟩
    · -- the block is new, so it is blank
      have h0 : ptr s2.mem a (blocksUp (fSize s.mem a)) = 0 := by
        rw [hres.ptr _ hlt, if_pos (by omega)]
        exact hg.inv.ptr_past ha1 hlt (by rw [hs1])
      have hb := (hg3.new a ha1 id _ hlt h0 (by rw [hptr]; exact hblk)).1
        (by rw [hg3.fType ha1, hres.type, hg.fType ha, ht]) 0 (by omega)
      rw [entryAt, hdiv, hmod]
      exact hb
    · rw [child, if_neg]
      rw [hdiv, h.ptr_past ha hlt le_rfl]
      simp
    · exact fun k' hk' => hfull k' hk'

/-! ### Flushing -/

/-- Blocks were written to disk, nothing else. -/
structure Wrote (L : Layout) (s s' : FsSt) : Prop where
  mem : s'.mem = s.mem
  keeps : Keeps L.J s s'
  dirty : ∀ b, s'.dirty b = true → s.dirty b = true

theorem Wrote.refl (L : Layout) (s : FsSt) : Wrote L s s := ⟨rfl, Keeps.refl _ s, fun _ => id⟩

theorem Wrote.trans (h : Wrote L s s') (h' : Wrote L s' s'') : Wrote L s s'' :=
  ⟨h'.mem.trans h.mem, h.keeps.trans h'.keeps, fun b hb => h.dirty b (h'.dirty b hb)⟩

theorem Wrote.clean (h : Wrote L s s') {b : ℕ} (hb : s.dirty b = false) : s'.dirty b = false := by
  by_contra hc
  rw [h.dirty b (by simpa using hc)] at hb
  cases hb

theorem Loaded.wrote (h : Loaded s s') (L : Layout) : Wrote L s s' :=
  ⟨h.mem, h.keeps _, fun b hb => by rwa [h.dirty] at hb⟩

theorem Flushed.wrote {c : ℕ} (h : Flushed c s s') (hc : ¬ L.J c) : Wrote L s s' ∧ s'.dirty c = false := by
  refine ⟨⟨h.mem, h.keeps hc, fun b hb => ?_⟩, by rw [h.dirty, update_self]⟩
  rw [h.dirty] at hb
  by_cases he : b = c
  · rw [he, update_self] at hb
    cases hb
  · rwa [update_of_ne he] at hb

theorem Wrote.edit (h : Wrote L s s') (hi : FInv L own s.mem) : Edit L own own a s s' :=
  Edit.of_mem hi h.mem h.keeps h.clean

theorem Wrote.moved (h : Wrote L s s') (hi : FInv L own s.mem) : Moved L own own s s' := (h.edit hi (a := root)).moved

/-- The loop of `file_flush`. -/
theorem flushLoop_run {E : Fault → FsSt → Prop} : ∀ (n i : ℕ) {s : FsSt}, FInv L own s.mem → IsRec own a →
    Run (flushLoop a n i) s
      (fun _ s' => Wrote L s s' ∧ ∀ k, i ≤ k → k < i + n → k < 1034 → ptr s.mem a k ≠ 0 →
        s'.dirty (ptr s.mem a k) = false) E
  | 0, i, s, _, _ => .pure ⟨Wrote.refl L s, fun k h1 h2 => by omega⟩
  | n + 1, i, s, h, ha => by
    -- the rest of the loop, once block `i` is on disk
    have hend : ∀ s1, Wrote L s s1 → (i < 1034 → ptr s.mem a i ≠ 0 → s1.dirty (ptr s.mem a i) = false) →
        Run (flushLoop a n (i + 1)) s1
          (fun _ s' => Wrote L s s' ∧ ∀ k, i ≤ k → k < i + (n + 1) → k < 1034 → ptr s.mem a k ≠ 0 →
            s'.dirty (ptr s.mem a k) = false) E := by
      intro s1 hw hi
      refine (flushLoop_run n (i + 1) (by rw [hw.mem]; exact h) ha).post ?_
      rintro _ s2 ⟨hw2, hc⟩
      refine ⟨hw.trans hw2, fun k h1 h2 h3 h4 => ?_⟩
      rw [hw.mem] at hc
      by_cases hk : k = i
      · subst hk
        exact hw2.clean (hi h3 h4)
      · exact hc k (by omega) (by omega) h3 h4
    unfold flushLoop
    refine .step (attempt_run (fileBlockWalk_run h ha i)) ?_ ?_
    · rintro e s' ⟨⟨p, rfl⟩, -, ⟨he, -⟩ | ⟨he, -⟩⟩ <;> cases he
    rintro r s1 (⟨p, rfl, rfl, hi, hs⟩ | ⟨e, rfl, rfl, he⟩)
    · refine .bind (load32_ok (h.here_slot ha hs)) ?_
      rintro b s2 ⟨hb, hl⟩
      rw [← hs.ptr] at hb
      by_cases h0 : b = 0
      · rw [if_pos h0]
        exact hend s2 (hl.wrote L) fun _ hne => absurd (hb ▸ h0) hne
      · rw [if_neg h0]
        have hh : Here s2 b := hl.here.mpr (hb ▸ h.here_ptr ha hi (by rwa [← hb]))
        refine .bind (diskaddr_ok hh.1 hh.2.1) ?_
        rintro va s3 ⟨hva, hs3⟩
        rw [hva, hs3]
        refine .bind (flushBlock_ok hh.1 hh.2.1) ?_
        intro _ s3 hf
        have hJ : ¬ L.J b := by
          refine (h.home (.inr ?_)).1
          rw [hb]
          exact h.own_ptr_ne ha hi (by rwa [← hb])
        obtain ⟨hw, hc⟩ := hf.wrote hJ
        refine hend s3 ((hl.wrote L).trans hw) fun _ _ => ?_
        rwa [← hb]
    · refine hend s1 (Wrote.refl L s1) fun hi hne => absurd ?_ hne
      rcases he with ⟨-, h1⟩ | ⟨-, h1, h2⟩
      · omega
      · rw [ptr, if_neg (by omega), if_pos h2]

/-- `file_flush`: the record, the indirect block and, unless the size is so
large that the count of blocks overflows, the blocks of the file are on disk. -/
theorem fileFlush_run {E : Fault → FsSt → Prop} (h : FInv L own s.mem) (ha : IsRec own a) :
    Run (fileFlush a) s
      (fun _ s' => Wrote L s s' ∧ s'.dirty a.blk = false ∧
        (fIndirect s.mem a ≠ 0 → s'.dirty (fIndirect s.mem a) = false) ∧
        (fSize s.mem a < 2 ^ 31 - 4095 → ∀ k < 1034, ptr s.mem a k ≠ 0 → s'.dirty (ptr s.mem a k) = false)) E := by
  refine .getBind ?_
  refine .bind (flushLoop_run _ _ h ha) ?_
  rintro _ s1 ⟨hw1, hc1⟩
  have h1 : FInv L own s1.mem := by rwa [hw1.mem]
  have hh := h1.here_rec ha
  refine .bind (flushBlock_ok hh.1 hh.2.1) ?_
  intro _ s2 hf
  obtain ⟨hw2, hc2⟩ := hf.wrote (h.home ha.kept).1
  have hsz : fSize s.mem a < 2 ^ 31 - 4095 → ∀ k < 1034, ptr s.mem a k ≠ 0 →
      s2.dirty (ptr s.mem a k) = false := by
    intro hlt k hk hp
    refine hw2.clean (hc1 k (by omega) ?_ hk hp)
    have hk' := ((h.recOk a ha).ptr k hk hp).2
    have h0 := (h.recOk a ha).size
    rw [blocksOf, show fSize s.mem a + ((BLKSIZE : ℕ) : ℤ) - 1 = fSize s.mem a + 4095 by simp; ring,
      toInt32_ofInt32 (by omega) (by omega), Int.tdiv_eq_ediv_of_nonneg (by omega)]
    rw [blocksUp] at hk'
    simp only [BLKSIZE, Nat.cast_ofNat]
    omega
  by_cases hi : fIndirect s.mem a = 0
  · rw [if_pos hi]
    exact .pure ⟨hw1.trans hw2, hc2, fun hne => absurd hi hne, hsz⟩
  · rw [if_neg hi]
    have hJ : ¬ L.J (fIndirect s.mem a) := (h.home (.inr (by simp [(h.recOk a ha).ind hi]))).1
    have hm : s2.mem = s.mem := (hw1.trans hw2).mem
    have hh2 : Here s2 (fIndirect s.mem a) := by
      rw [← hm]
      exact (show FInv L own s2.mem by rwa [hm]).here_ind ha (by rwa [hm])
    refine .bind (diskaddr_ok hh2.1 hh2.2.1) ?_
    rintro _ _ ⟨rfl, rfl⟩
    refine (flushBlock_ok hh2.1 hh2.2.1).post ?_
    intro _ s3 hf3
    obtain ⟨hw3, hc3⟩ := hf3.wrote hJ
    exact ⟨(hw1.trans hw2).trans hw3, hw3.clean hc2, fun _ => hc3, fun hlt k hk hp => hw3.clean (hsz hlt k hk hp)⟩

/-! ### file_create -/

/-- The entry `f`, which held nothing, is an empty file called `name`. -/
structure Created (own : ℕ → Use) (f : Ptr) (name : List UInt8) (type : ℕ) (s s' : FsSt) : Prop where
  name : nameOf s'.mem f = name
  type : fType s'.mem f = type
  size : fSize s'.mem f = 0
  ptr : ∀ k, ptr s'.mem f k = 0
  ind : fIndirect s'.mem f = 0
  data : ∀ c g k, own c = .data g k → s'.mem c = s.mem c

theorem cstr_of_getD : ∀ {n : ℕ} {name : List UInt8} {x : ℕ → UInt8}, name.length < n → 0 ∉ name →
    (∀ i ≤ name.length, x i = name.getD i 0) → cstr x n = name
  | n + 1, [], x, _, _, hx => by
    rw [cstr, if_pos]
    simpa using hx 0 (by simp)
  | n + 1, c :: cs, x, hn, h0, hx => by
    have hx0 : x 0 = c := by simpa using hx 0 (by simp)
    have hc : c ≠ 0 := fun hc => h0 (by simp [hc])
    rw [cstr, hx0, if_neg hc]
    congr 1
    refine cstr_of_getD (by simpa using hn) (fun hm => h0 (.tail _ hm)) fun i hi => ?_
    simpa using hx (i + 1) (by simpa using hi)

theorem Slot.of_grown {k : ℕ} (hg : Grown L own own' s s') (ha : IsRec own a)
    (ht : fType s.mem a = 1) (hs : Slot L own' own'' a k s' s'') : Slot L own own'' a k s s'' where
  stretched := by
    obtain ⟨own1, s1, s2, h1, h2, h3, h4⟩ := hs.stretched
    rw [hg.fSize ha] at h3
    exact ⟨own1, s1, s2, hg.trans h1, h2, h3, h4⟩
  lt := hs.lt
  ptr := hs.ptr
  blank := hs.blank
  free := by
    rw [← hg.child ha ht]
    exact hs.free
  least k' hk' := by
    rw [← hg.child ha ht]
    exact hs.least k' hk'

theorem SlotErr.of_grown {er : Err} (hg : Grown L own own' s s') (ha : IsRec own a)
    (ht : fType s.mem a = 1) (hs : SlotErr L own' a s' er s'') : SlotErr L own a s er s'' := by
  obtain ⟨n, own2, ⟨own1, s1, s2, h1, h2, h3, h4⟩, he⟩ := hs
  rw [hg.fSize ha] at he
  simp only [hg.child ha ht] at he
  exact ⟨n, own2, ⟨own1, s1, s2, hg.trans h1, h2, h3, h4⟩, he⟩

theorem Stretched.ext {n : ℤ} (h : Stretched L own own' a n s s') {b : ℕ} (hb : own b ≠ .none) : own' b = own b := by
  obtain ⟨own1, s1, s2, h1, -, -, h4⟩ := h
  have := h1.ext b hb
  rw [h4.ext b (by rwa [this]), this]

theorem Stretched.isRec {n : ℤ} (h : Stretched L own own' a n s s') (hf : IsRec own f) : IsRec own' f :=
  isRec_grown (fun _ hb => h.ext hb) hf

/-- The directory keeps its name and type. -/
theorem Stretched.fType {n : ℤ} (h : Stretched L own own' a n s s') (ha : IsRec own a) :
    fType s'.mem a = fType s.mem a := by
  obtain ⟨own1, s1, s2, h1, -, h3, h4⟩ := h
  rw [h4.fType (h1.isRec ha), h3.type, h1.fType ha]

/-- The new entry is a record that holds nothing. -/
theorem Slot.entry {k : ℕ} (hs : Slot L own own' a k s s') (ha : IsRec own a) (ht : fType s.mem a = 1) :
    IsRec own' (entryAt s'.mem a k) ∧ entryAt s'.mem a k ≠ root ∧ fSize s'.mem (entryAt s'.mem a k) = 0 ∧
      fIndirect s'.mem (entryAt s'.mem a k) = 0 ∧ ∀ i < 10, fDirect s'.mem (entryAt s'.mem a k) i = 0 := by
  have hinv := hs.stretched.moved.inv
  have ha' := hs.stretched.isRec ha
  have ht' : fType s'.mem a = 1 := by rw [hs.stretched.fType ha, ht]
  have hrec := hinv.isRec_entry ha' ht' hs.lt hs.ptr
  have hroot : entryAt s'.mem a k ≠ root := by
    intro he
    have := hinv.own_entry ha' ht' hs.lt hs.ptr
    rw [he, show root.blk = 1 from rfl, hinv.own_one] at this
    cases this
  have hok := hinv.recOk _ hrec
  obtain ⟨h1, h2⟩ := hok.dead hroot hs.blank
  refine ⟨hrec, hroot, h1, h2, fun i hi => ?_⟩
  by_contra hp
  have hp' : Fs.ptr s'.mem (entryAt s'.mem a k) i ≠ 0 := by rwa [Fs.ptr, if_pos hi]
  have := (hok.ptr i (by omega) hp').2
  rw [h1] at this
  simp [blocksUp] at this

/-- The two stores of `file_create`, into an entry that holds nothing. -/
theorem created_of_stored {name : List UInt8} {type : ℕ} {s1 s2 : FsSt} (h : FInv L own s.mem) (hf : IsRec own f)
    (hroot : f ≠ root) (hsz : fSize s.mem f = 0) (hi : fIndirect s.mem f = 0)
    (hd : ∀ i < 10, fDirect s.mem f i = 0) (hlen : name.length < 128) (h0 : 0 ∉ name) (htype : type < 2 ^ 32)
    (h1 : Stored f.blk f.off (name.length + 1) (fun i => name.getD i 0) s s1)
    (h2 : Stored f.blk (f.off + 132) 4 (bytes32 type) s1 s2) :
    Edit L own own f s s2 ∧ Created own f name type s s2 ∧ Edit L own own f s s1 := by
  have hempty : ∀ m : Disk, (∀ o, 128 ≤ o → o + 4 ≤ 132 ∨ 136 ≤ o → (m f.blk).le32 (f.off + o) =
      (s.mem f.blk).le32 (f.off + o)) → fSize m f = 0 ∧ RecOk L own m f ∧ ∀ k, ptr m f k = 0 := by
    intro m hw
    have hs' : fSize m f = 0 := by rw [fSize, hw 128 (by omega) (by omega), ← fSize, hsz]
    refine ⟨hs', recOk_of_empty hs' ((hw 176 (by omega) (by omega)).trans hi) fun k hk => ?_⟩
    rw [fDirect, Nat.add_assoc, hw _ (by omega) (by omega), ← Nat.add_assoc]
    exact hd k hk
  -- both stores leave the size and the pointers alone
  have hw1 : ∀ o, 128 ≤ o → o + 4 ≤ 132 ∨ 136 ≤ o → (s1.mem f.blk).le32 (f.off + o) =
      (s.mem f.blk).le32 (f.off + o) := fun o ho _ => by
    rw [h1.mem, update_self, le32_write_out (by omega)]
  have hw2 : ∀ o, 128 ≤ o → o + 4 ≤ 132 ∨ 136 ≤ o → (s2.mem f.blk).le32 (f.off + o) =
      (s.mem f.blk).le32 (f.off + o) := fun o ho ho' => by
    rw [h2.mem, update_self, le32_write_out (by omega), hw1 o ho ho']
  have hed1 : Edit L own own f s s1 :=
    edit_store h hf h1 le_rfl (by omega) (hempty _ hw1).2.1 fun he => absurd he hroot
  have hed2 : Edit L own own f s1 s2 :=
    edit_store hed1.inv hf h2 (by omega) (by omega) (hempty _ hw2).2.1 fun he => absurd he hroot
  refine ⟨hed1.trans hed2, ⟨?_, ?_, (hempty _ hw2).1, (hempty _ hw2).2.2,
    (hw2 176 (by omega) (by omega)).trans hi, ?_⟩, hed1⟩
  · refine cstr_of_getD hlen h0 fun i hi => ?_
    rw [fName, h2.mem, update_self, write_out (by omega), h1.mem, update_self, write_in (by omega) (by omega)]
    congr 1
    omega
  · rw [fType, h2.mem, update_self]
    exact (le32_put32 _ _ _).trans (Nat.mod_eq_of_lt htype)
  · intro c g k hc
    have hne := IsRec.ne_data h hf hc
    rw [h2.mem, update_of_ne hne, h1.mem, update_of_ne hne]

/-- How `file_create` fails. -/
inductive CreateErr (L : Layout) (own : ℕ → Use) (path : List UInt8) (type : ℕ) (s s' : FsSt) : Err → Prop
  | type (h1 : type ≠ 0 ∧ type ≠ 1) (h2 : s' = s) : CreateErr L own path type s s' .inval
  | full (own' : ℕ → Use) (h : Grown L own own' s s') (hf : .full ∈ s'.trace) : CreateErr L own path type s s' .noDisk
  | walk (er : Err) (own' : ℕ → Use) (h : Grown L own own' s s') (hp : PathTo s.mem path (.error er)) :
      CreateErr L own path type s s' er
  | exist (own' : ℕ → Use) (h : Grown L own own' s s') (dir : Option Ptr) (g : Ptr)
      (hp : PathTo s.mem path (.ok (.found dir g))) : CreateErr L own path type s s' .fileExists
  | alloc (dir : Ptr) (name : List UInt8) (hp : PathTo s.mem path (.ok (.missing dir name))) (er : Err)
      (h : SlotErr L own dir s er s') : CreateErr L own path type s s' .notFound

/-- `file_create`: the first free entry of the directory becomes an empty
file. -/
theorem fileCreate_run {path : List UInt8} (h : FInv L own s.mem) (hp : 0 ∉ path) (type : ℕ) :
    Run (fileCreate path type) s
      (fun f s' => ∃ dir name k own' s1, PathTo s.mem path (.ok (.missing dir name)) ∧
        Slot L own own' dir k s s1 ∧ f = entryAt s1.mem dir k ∧ Edit L own' own' f s1 s' ∧
        Created own' f name type s1 s')
      (fun e s' => Panics L s e s' ∨ ∃ er, e = .err er ∧ CreateErr L own path type s s' er) := by
  unfold fileCreate
  by_cases htype : type ≠ FTYPE_REG ∧ type ≠ FTYPE_DIR
  · rw [if_pos htype]
    exact .throw (.inr ⟨_, rfl, .type htype rfl⟩)
  rw [if_neg htype]
  have htlt : type < 2 ^ 32 := by
    simp only [FTYPE_REG, FTYPE_DIR] at htype
    omega
  refine .step (walkPath_run h hp) ?_ ?_
  · intro e s' he
    cases e with
    | panic p => exact .inl ⟨p, rfl, he.1, he.2⟩
    | err er =>
      obtain ⟨own', hg, ⟨rfl, hf⟩ | he⟩ := he
      · exact .inr ⟨_, rfl, .full own' hg hf⟩
      · exact .inr ⟨_, rfl, .walk er own' hg he⟩
  rintro (⟨dir, g⟩ | ⟨dir, name⟩) s1 ⟨own1, hg, hw⟩
  · exact .throw (.inr ⟨_, rfl, .exist own1 hg dir g hw⟩)
  obtain ⟨hdir, ht, -, -, hlen, hn0, hnn⟩ := PathTo.result hw hp
  have hr := h.isRec hdir
  have hr1 := hg.isRec hr
  have ht1 : fType s1.mem dir = 1 := by rw [hg.fType hr, ht]
  refine .step (attempt_run (dirAllocFile_run hg.inv hr1 ((hg.live hr).mpr (h.live hdir)) ht1)) ?_ ?_
  · rintro e s' ⟨⟨p, rfl⟩, he | ⟨er, he, -⟩⟩
    · exact .inl (he.of_keeps hg.keeps)
    · cases he
  rintro r s2 (⟨f, rfl, k, own2, hs, rfl⟩ | ⟨er, rfl, he⟩)
  · have hs' := hs.of_grown hg hr ht
    obtain ⟨hf, hroot, hsz, hi, hd⟩ := hs'.entry hr ht
    have hinv2 := hs'.stretched.moved.inv
    refine .bind (store_ok (hinv2.here_rec hf) _ _ _) ?_
    intro _ s3 h3
    refine .bind (store_ok ((hinv2.here_rec hf).of_stored hinv2 h3 hf.kept fun hb => hinv2.rec_off hf hb) _ _ _) ?_
    intro _ s4 h4
    obtain ⟨hed, hcr, -⟩ := created_of_stored hinv2 hf hroot hsz hi hd hlen hn0 htlt h3 h4
    refine .bind (fileFlush_run hed.inv (hs'.stretched.isRec hr)) ?_
    rintro _ s5 ⟨hwr, -⟩
    refine .pure ⟨dir, name, k, own2, s2, hw, hs', rfl, hed.trans (hwr.edit hed.inv), ?_⟩
    constructor <;> rw [hwr.mem]
    exacts [hcr.name, hcr.type, hcr.size, hcr.ptr, hcr.ind, hcr.data]
  · rcases he with ⟨p, he, -⟩ | ⟨er', he, hs⟩
    · cases he
    · exact .throw (.inr ⟨_, rfl, .alloc dir name hw er' (hs.of_grown hg hr ht)⟩)

/-! ### file_remove -/

/-- The file `a` is gone: its entry has no name and holds nothing. -/
structure Removed (own' : ℕ → Use) (a : Ptr) (s s' : FsSt) : Prop where
  name : fName s'.mem a 0 = 0
  type : fType s'.mem a = fType s.mem a
  size : fSize s'.mem a = 0
  ptr : ∀ k, ptr s'.mem a k = 0
  freed : ∀ k < 1034, own' (Fs.ptr s.mem a k) = .none
  ind : own' (fIndirect s.mem a) = .none
  data : ∀ c f k, own' c = .data f k → s'.mem c = s.mem c

/-- The stores of `file_remove`, after the blocks are gone. -/
theorem removed_of_stored {s1 s2 : FsSt} (h : FInv L own s.mem) (ha : IsRec own a)
    (hi : fIndirect s.mem a = 0) (hd : ∀ k < 10, fDirect s.mem a k = 0)
    (h1 : Stored a.blk a.off 1 (fun _ => 0) s s1) (h2 : Stored a.blk (a.off + 128) 4 (bytes32 0) s1 s2) :
    Edit L own own a s s2 ∧ fName s2.mem a 0 = 0 ∧ fType s2.mem a = fType s.mem a ∧ fSize s2.mem a = 0 ∧
      (∀ k, ptr s2.mem a k = 0) ∧ ∀ c, c ≠ a.blk → s2.mem c = s.mem c := by
  have hhome := h.home (ha.kept)
  have hblk : s2.mem a.blk = ((s.mem a.blk).write a.off 1 fun _ => 0).put32 (a.off + 128) 0 := by
    rw [h2.mem, update_self, h1.mem, update_self]
    rfl
  have hne : ∀ c, c ≠ a.blk → s2.mem c = s.mem c := fun c hc => by
    rw [h2.mem, update_of_ne hc, h1.mem, update_of_ne hc]
  have hw : ∀ o, 1 ≤ o → o + 4 ≤ 128 ∨ 132 ≤ o → (s2.mem a.blk).le32 (a.off + o) = (s.mem a.blk).le32 (a.off + o) := by
    intro o ho1 ho
    rw [hblk, le32_put32_out (by omega), le32_write_out (by omega)]
  have hsize : fSize s2.mem a = 0 := by
    rw [fSize, hblk, le32_put32]
    rfl
  have hname : fName s2.mem a 0 = 0 := by
    rw [fName, hblk, put32_out (by omega), write_in (by omega) (by omega)]
  obtain ⟨hrec, hptr⟩ : RecOk L own s2.mem a ∧ ∀ k, ptr s2.mem a k = 0 := by
    refine recOk_of_empty hsize ((hw 176 (by omega) (by omega)).trans hi) fun k hk => ?_
    rw [fDirect, Nat.add_assoc, hw _ (by omega) (by omega), ← Nat.add_assoc]
    exact hd k hk
  have htype : fType s2.mem a = fType s.mem a := hw 132 (by omega) (by omega)
  refine ⟨edit_within h ha ?_ ((h1.keeps_rec h ha (by omega)).trans (h2.keeps_rec h ha (by omega))) ?_ hrec ?_, hname, htype, hsize, hptr, hne⟩
  · intro c i hc
    by_cases he : c = a.blk
    · subst he
      rw [hblk, put32_out, write_out]
      · by_contra hcon
        exact hc ⟨rfl, by omega, by omega⟩
      · by_contra hcon
        exact hc ⟨rfl, by omega, by omega⟩
    · rw [hne c he]
  · rw [h2.dirty, update_of_ne hhome.2.2.1.symm, h1.dirty, update_of_ne hhome.2.2.1.symm]
  · rintro rfl
    rw [htype, h.rootDir]

/-- How `file_open` fails, apart from a full disk. -/
def OpenErr (m : Disk) (path : List UInt8) (e : Err) : Prop :=
  PathTo m path (.error e) ∨ (e = .notFound ∧ ∃ dir last, PathTo m path (.ok (.missing dir last)))

/-- `file_remove`. -/
theorem fileRemove_run {path : List UInt8} (h : FInv L own s.mem) (hp : 0 ∉ path) :
    Run (fileRemove path) s
      (fun _ s' => ∃ dir f own1 s1 own', PathTo s.mem path (.ok (.found dir f)) ∧ Grown L own own1 s s1 ∧
        Edit L own1 own' f s1 s' ∧ Removed own' f s1 s')
      (Fails L own s L.D fun e _ => OpenErr s.mem path e) := by
  refine .bind (fileOpen_run h hp) ?_
  rintro f s1 ⟨own1, hg, dir, hw⟩
  have hf : InTree s.mem f := PathTo.result hw hp
  have hf1 := hg.inTree.mpr hf
  have hr1 := hg.inv.isRec hf1
  have hself1 := hg.inv.not_self hf1
  refine .bind (fileTruncateBlocks_run hg.inv hr1 hself1 (n := 0) le_rfl (by norm_num)) ?_
  rintro _ s2 ⟨own2, hed, htr, hi, hfree, -⟩
  have hi0 := hi.trans (if_pos (by decide))
  rw [blocksUp_zero] at htr
  obtain ⟨hr2, -⟩ := hed.isRec hr1 hself1
  have hhere := hed.inv.here_rec hr2
  refine .bind (store_ok hhere _ _ _) ?_
  intro _ s3 h3
  refine .bind (store_ok (hhere.of_stored hed.inv h3 hr2.kept fun hb => hed.inv.rec_off hr2 hb) _ _ _) ?_
  intro _ s4 h4
  have hptr2 : ∀ k < 1034, ptr s2.mem f k = 0 := fun k hk => by rw [htr.ptr k hk, if_pos ⟨by omega, hk⟩]
  obtain ⟨hed4, hname, htype, hsize, hptr, hne⟩ := removed_of_stored hed.inv hr2 hi0
    (fun k hk => by
      have := hptr2 k (by omega)
      rwa [ptr, if_pos hk] at this) h3 h4
  have hhere4 := hed4.inv.here_rec hr2
  refine (flushBlock_ok hhere4.1 hhere4.2.1).post ?_
  intro _ s5 hfl
  refine ⟨dir, f, own1, s1, own2, hw, hg, (hed.trans hed4).trans (Edit.of_flushed hed4.inv hfl
    (hed.inv.home hr2.kept).1), ?_⟩
  refine ⟨by rw [hfl.mem]; exact hname, by rw [hfl.mem, htype, htr.fType], by rw [hfl.mem]; exact hsize,
    by rw [hfl.mem]; exact hptr, fun k hk => htr.freed k hk ⟨by omega, hk⟩, ?_, ?_⟩
  · rcases hfree with hfree | hfree
    · rw [← hfree, hi0]
      exact hed.inv.own_zero
    · exact hfree
  intro c g k hc
  rw [hfl.mem, hne c (hr2.ne_data hed.inv hc), htr.data c g k hc]

end

end Fs
end Jos
