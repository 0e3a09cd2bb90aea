/-
# How many blocks are left

`file_get_block` takes at most two blocks from the disk: one for a block of the
file that is a hole, and one for the indirect block if there is none yet. Here
this is counted. On a file system in order it fails if and only if there are
fewer free blocks than that, and it changes one pointer.

`lacking` is the count for a range of blocks of a file: what a loop over the
range takes.

Key definitions: `freeBlocks`, `need`, `lacking`, `Got`.
Key theorems: `fileGetBlock_exact`, `Got.lacking`.
-/
import Mathlib.Data.Finset.Card
import Jos.Fs.Blocks

namespace Jos
namespace Fs

open Block Function

/-- The number of free blocks. -/
def freeBlocks (m : Disk) : ℕ := ((Finset.range ((m 1).le32 4)).filter fun b => b ≠ 0 ∧ bitSet m b = true).card

/-- The blocks `file_get_block` takes for block `k` of the file `a`. -/
def need (m : Disk) (a : Ptr) (k : ℕ) : ℕ :=
  if ptr m a k ≠ 0 then 0 else if 10 ≤ k ∧ fIndirect m a = 0 then 2 else 1

/-- The holes among the blocks `lo ≤ k < hi` of the file `a`. -/
def holes (m : Disk) (a : Ptr) (lo hi : ℕ) : ℕ := (List.range' lo (hi - lo)).countP fun k => ptr m a k = 0

/-- The blocks that are missing for the blocks `lo ≤ k < hi` of the file `a`:
the holes, and the indirect block if one of them needs it. -/
def lacking (m : Disk) (a : Ptr) (lo hi : ℕ) : ℕ :=
  holes m a lo hi + if lo < hi ∧ 10 < hi ∧ fIndirect m a = 0 then 1 else 0

section

variable {L : Layout} {own own' : ℕ → Use} {s s' : FsSt} {a f : Ptr} {b k lo hi : ℕ} {m m' : Disk}

/-- No block of a file is past its size. -/
theorem FInv.ptr_past (h : FInv L own m) (ha : IsRec own a) (hk : k < 1034) (hb : blocksUp (fSize m a) ≤ k) :
    ptr m a k = 0 := by
  by_contra hp
  have := ((h.recOk a ha).ptr k hk hp).2
  omega

/-! ### Counting -/

theorem freeBlocks_congr (hnb : (m' 1).le32 4 = (m 1).le32 4) (hbit : ∀ b < (m 1).le32 4, bitSet m' b = bitSet m b) :
    freeBlocks m' = freeBlocks m := by
  rw [freeBlocks, freeBlocks, hnb]
  refine congrArg Finset.card (Finset.filter_congr fun b hb => ?_)
  rw [hbit b (Finset.mem_range.mp hb)]

/-- A free block was taken. -/
theorem freeBlocks_taken (hnb : (m' 1).le32 4 = (m 1).le32 4) (h0 : b ≠ 0) (hlt : b < (m 1).le32 4)
    (hfree : bitSet m b = true) (hin : bitSet m' b = false)
    (hbit : ∀ c < (m 1).le32 4, c ≠ b → bitSet m' c = bitSet m c) : freeBlocks m' + 1 = freeBlocks m := by
  have hmem : b ∈ (Finset.range ((m 1).le32 4)).filter fun b => b ≠ 0 ∧ bitSet m b = true :=
    Finset.mem_filter.mpr ⟨Finset.mem_range.mpr hlt, h0, hfree⟩
  have herase : (Finset.range ((m' 1).le32 4)).filter (fun b => b ≠ 0 ∧ bitSet m' b = true) =
      ((Finset.range ((m 1).le32 4)).filter fun b => b ≠ 0 ∧ bitSet m b = true).erase b := by
    ext c
    rw [hnb, Finset.mem_erase, Finset.mem_filter, Finset.mem_filter, Finset.mem_range]
    by_cases hc : c = b
    · simp [hc, hin]
    · constructor
      · rintro ⟨h1, h2, h3⟩
        exact ⟨hc, h1, h2, (hbit c h1 hc) ▸ h3⟩
      · rintro ⟨-, h1, h2, h3⟩
        exact ⟨h1, h2, (hbit c h1 hc).trans h3⟩
  rw [freeBlocks, herase, freeBlocks]
  exact Finset.card_erase_add_one hmem

theorem freeBlocks_eq_zero (h : Full s) : freeBlocks s.mem = 0 := by
  rw [freeBlocks, Finset.card_eq_zero, Finset.filter_eq_empty_iff]
  rintro b hb ⟨h0, hbit⟩
  rw [h b h0 (Finset.mem_range.mp hb)] at hbit
  cases hbit

theorem Fresh.freeBlocks (h : Fresh L own b s s') (hfree : bitSet s.mem b = true) :
    freeBlocks s'.mem + 1 = freeBlocks s.mem := by
  have hnb := h.start.nblocks
  refine freeBlocks_taken (h.inv.nblocks.trans hnb.symm) h.ne (hnb ▸ h.lt) hfree h.inUse fun c hc hne => ?_
  exact h.bits c (hnb ▸ hc) hne

/-- A store into a block of the file system. -/
theorem Stored.freeBlocks {c off n : ℕ} {src : ℕ → UInt8} (hst : Stored c off n src s s') (h : FInv L own s.mem)
    (hc : c = 1 ∨ own c ≠ .none) (h8 : c = 1 → 8 ≤ off) : freeBlocks s'.mem = freeBlocks s.mem := by
  have hnb : (s'.mem 1).le32 4 = (s.mem 1).le32 4 := by
    rw [hst.mem]
    by_cases h1 : c = 1
    · rw [← h1, update_self, le32_write_out (Or.inl (h8 h1))]
    · rw [update_of_ne (Ne.symm h1)]
  refine freeBlocks_congr hnb fun b hb => (hst.keeps_home h hc h8).2.1 b ?_
  rwa [← h.nblocks]

/-! ### `file_get_block` -/

/-- Allocating and clearing a block, and going on; it fails only if no block is free. -/
theorem allocClear_exact {β : Type} {g : ℕ → FsM β} {R : β → FsSt → Prop} {E : Fault → FsSt → Prop}
    (h : FInv L own s.mem) (hg : ∀ b s', Fresh L own b s s' → freeBlocks s'.mem + 1 = freeBlocks s.mem → Run (g b) s' R E)
    (hfull : freeBlocks s.mem = 0 → E (.err .noDisk) (s.log .full)) :
    Run (allocBlock >>= fun b => clearBlock b >>= fun _ => g b) s R E := by
  refine .step (allocBlock_ok (fun c hc => h.here_bitBlk hc) h.two_lt) ?_ ?_
  · rintro e s' ⟨rfl, rfl, he⟩
    exact hfull (freeBlocks_eq_zero he)
  rintro b s1 ⟨hb0, hlt, hfree, h1⟩
  have hhere : Here s1 b := by
    refine ⟨hb0, ?_, by rw [h1.bit, if_pos rfl]⟩
    rw [FsSt.nblocks, h1.mem 1 (by have := two_le_bitBlk b; omega), ← FsSt.nblocks]
    exact hlt
  refine .bind (clearBlock_ok hhere) fun _ s2 h2 => ?_
  rw [h.nblocks_eq] at hlt
  have hf := fresh_of_marked h hb0 hlt hfree h1 h2
  exact hg b s2 hf (hf.freeBlocks hfree)

/-- The pointers of all files but that to block `k` of `a` are as before. -/
def SamePtrs (own : ℕ → Use) (a : Ptr) (k : ℕ) (m m' : Disk) : Prop :=
  ∀ f, IsRec own f → ∀ j < 1034, (f = a → j ≠ k) → ptr m' f j = ptr m f j

/-- `file_block_walk` with allocation. -/
theorem fileBlockWalk_exact (h : FInv L own s.mem) (ha : IsRec own a) (hlive : Live s.mem a) (hk : k < 1034) :
    Run (fileBlockWalk a k true) s
      (fun p s' => ∃ own', Grown L own own' s s' ∧ IsSlot s'.mem a k p ∧
        (∀ f, IsRec own f → ∀ j < 1034, ptr s'.mem f j = ptr s.mem f j) ∧
        (∀ f, IsRec own f → (f = a → k < 10) → fIndirect s'.mem f = fIndirect s.mem f) ∧
        freeBlocks s'.mem + (if 10 ≤ k ∧ fIndirect s.mem a = 0 then 1 else 0) = freeBlocks s.mem ∧
        (ptr s.mem a k ≠ 0 → s' = s))
      (fun e s' => e = .err .noDisk ∧ s' = s.log .full ∧ 10 ≤ k ∧ fIndirect s.mem a = 0 ∧ freeBlocks s.mem = 0) := by
  unfold fileBlockWalk
  rw [if_neg (show ¬ NDIRECT + NINDIRECT ≤ k from not_le.mpr hk)]
  by_cases h2 : k < NDIRECT
  · rw [if_pos h2, if_neg (fun hc => absurd h2 (not_lt.mpr hc.1))]
    exact .pure ⟨own, .refl h, .inl ⟨h2, rfl⟩, fun _ _ _ _ => rfl, fun _ _ _ => rfl, rfl, fun _ => rfl⟩
  rw [if_neg h2]
  have hk10 : 10 ≤ k := not_lt.mp h2
  refine .getBind ?_
  dsimp only
  by_cases h0 : fIndirect s.mem a = 0
  · rw [if_pos h0, if_pos rfl, if_pos ⟨hk10, h0⟩]
    refine allocClear_exact h ?_ fun hz => ⟨rfl, rfl, hk10, h0, hz⟩
    intro b s1 hf hfree
    have hsame := hf.sameFile ha
    refine .bind (store_ok (hf.inv.here_rec ha) _ _ _) fun _ s2 hst => ?_
    obtain ⟨hg, hi⟩ := grown_ind hf ha (by rwa [Live, hsame.1.fName (by omega)]) (by rwa [hsame.1.fIndirect]) hst
    have hne : fIndirect s2.mem a ≠ 0 := by rw [hi]; exact hf.ne
    have hhere := hg.inv.here_ind (hg.isRec ha) hne
    refine .getBind (.bind (diskaddr_ok hhere.1 hhere.2.1) ?_)
    rintro va s3 ⟨rfl, rfl⟩
    refine .pure ⟨_, hg, .inr ⟨hk10, hk, hne, rfl⟩, fun f hr j hj => ?_,
      fun f hr hne => ?_, ?_, fun hp => absurd (by rw [ptr, if_neg h2, if_pos h0]) hp⟩
    · rw [hf.ptr_of_ind ha (by rwa [hsame.1.fIndirect]) hst hr hj, (hf.sameFile hr).ptr]
    · have hfa : f ≠ a := fun he => h2 (hne he)
      rw [((hst.local (by omega) (by omega)).sameFile hf.inv ha hr hfa).1.fIndirect, (hf.sameFile hr).1.fIndirect]
    · rw [hst.freeBlocks hf.inv (ha.kept) fun hb => ?_, hfree]
      have := hf.inv.rec_off ha hb
      omega
  · rw [if_neg h0, (h.ind_ok ha h0).2]
    have hhere := h.here_ind ha h0
    refine .getBind (.bind (diskaddr_ok hhere.1 hhere.2.1) ?_)
    rintro va s3 ⟨rfl, rfl⟩
    refine .pure ⟨own, .refl h, .inr ⟨hk10, hk, h0, rfl⟩, fun _ _ _ _ => rfl, fun _ _ _ => rfl, ?_, fun _ => rfl⟩
    rw [if_neg fun hc => h0 hc.2, Nat.add_zero]

/-- `file_get_block` made block `k` of the file `a` be there. -/
structure Got (L : Layout) (own own' : ℕ → Use) (a : Ptr) (k : ℕ) (s s' : FsSt) : Prop where
  grown : Grown L own own' s s'
  ptrs : SamePtrs own a k s.mem s'.mem
  there : ptr s'.mem a k ≠ 0
  ind : ∀ f, IsRec own f → (f = a → k < 10) → fIndirect s'.mem f = fIndirect s.mem f
  free : freeBlocks s'.mem + need s.mem a k = freeBlocks s.mem
  /-- Nothing is changed if the block is there. -/
  loaded : ptr s.mem a k ≠ 0 → Loaded s s'

/-- `file_get_block` on a block of the file fails if and only if there are not
enough free blocks. -/
theorem fileGetBlock_exact (h : FInv L own s.mem) (ha : IsRec own a) (hlive : Live s.mem a) (hk : k < 1034)
    (hsz : k < blocksUp (fSize s.mem a)) :
    Run (fileGetBlock a k) s (fun b s' => ∃ own', Got L own own' a k s s' ∧ ptr s'.mem a k = b)
      (fun e s' => e = .err .noDisk ∧ .full ∈ s'.trace ∧ freeBlocks s.mem < need s.mem a k ∧
        ∃ own', Grown L own own' s s' ∧ ∀ f, IsRec own f → ∀ j < 1034, ptr s'.mem f j = ptr s.mem f j) := by
  unfold fileGetBlock
  rw [if_neg (show ¬ NDIRECT + NINDIRECT ≤ k from not_le.mpr hk)]
  refine .step (fileBlockWalk_exact h ha hlive hk) ?_ ?_
  · rintro e s' ⟨rfl, rfl, hk10, h0, hz⟩
    refine ⟨rfl, by simp [FsSt.log], ?_, own, grown_log_full h, fun _ _ _ _ => rfl⟩
    rw [need, if_neg (by rw [ptr, if_neg (by omega), if_pos h0]; simp), if_pos ⟨hk10, h0⟩, hz]
    omega
  rintro p s1 ⟨own1, hg1, hs1, hp1, hi1, hfree1, hsame1⟩
  have ha1 := hg1.isRec ha
  refine .bind (load32_ok (hg1.inv.here_slot ha1 hs1)) ?_
  rintro b s2 ⟨hb, hl2⟩
  have hg2 : Grown L own own1 s s2 := hg1.trans (grown_of_loaded hg1.inv hl2)
  have ha2 := hg2.isRec ha
  have hs2 : IsSlot s2.mem a k p := by rwa [hl2.mem]
  rw [← hs1.ptr, hp1 a ha k hk] at hb
  have hp2 : ∀ f, IsRec own f → ∀ j < 1034, ptr s2.mem f j = ptr s.mem f j := by rwa [hl2.mem]
  have hfree2 : freeBlocks s2.mem + (if 10 ≤ k ∧ fIndirect s.mem a = 0 then 1 else 0) = freeBlocks s.mem := by
    rwa [hl2.mem]
  -- the end of the function, once the pointer is set
  have hend : ∀ own' s', Got L own own' a k s s' → IsSlot s'.mem a k p →
      Run (do let b ← load32 p
              diskaddr b) s' (fun b s' => ∃ own', Got L own own' a k s s' ∧ ptr s'.mem a k = b)
        (fun e s' => e = .err .noDisk ∧ .full ∈ s'.trace ∧ freeBlocks s.mem < need s.mem a k ∧
          ∃ own', Grown L own own' s s' ∧ ∀ f, IsRec own f → ∀ j < 1034, ptr s'.mem f j = ptr s.mem f j) := by
    intro own' s' hgot hs
    have hr' := hgot.grown.isRec ha
    refine .bind (load32_ok (hgot.grown.inv.here_slot hr' hs)) ?_
    rintro b s3 ⟨hb, hl3⟩
    rw [← hs.ptr] at hb
    have hhere := hgot.grown.inv.here_ptr hr' hk hgot.there
    rw [← hb] at hhere
    have hh3 := hl3.here.mpr hhere
    refine (diskaddr_ok hh3.1 hh3.2.1).post ?_
    rintro c s4 ⟨rfl, rfl⟩
    have hg3 := hgot.grown.trans (grown_of_loaded hgot.grown.inv hl3)
    refine ⟨own', ⟨hg3, ?_, ?_, ?_, ?_, fun hp => (hgot.loaded hp).trans hl3⟩, ?_⟩ <;> rw [hl3.mem]
    exacts [hgot.ptrs, hgot.there, hgot.ind, hgot.free, hb.symm]
  refine .getBind ?_
  by_cases h0 : b = 0
  · rw [if_pos h0]
    have hneed : need s.mem a k = 1 + if 10 ≤ k ∧ fIndirect s.mem a = 0 then 1 else 0 := by
      rw [need, if_neg (by rw [← hb, h0]; simp)]
      split <;> rfl
    refine allocClear_exact hg2.inv ?_ ?_
    · intro b' s3 hf hfree3
      have hsame := hf.sameFile ha2
      have hs3 : IsSlot s3.mem a k p := by rwa [IsSlot, hsame.1.fIndirect]
      have hlive3 : Live s3.mem a := by rwa [Live, hsame.1.fName (by omega), ← Live, hg2.live ha]
      refine .bind (store_ok (hf.inv.here_slot ha2 hs3) _ _ _) fun _ s4 hst => ?_
      have h30 : ptr s3.mem a k = 0 := by rw [hsame.ptr, hp2 a ha k hk, ← hb, h0]
      obtain ⟨hg, hi⟩ := grown_slot hf ha2 hlive3 hk (by rwa [hsame.1.fSize, hg2.fSize ha]) hs3 h30 hst
      have hm : s4.mem = setSlot s3.mem p b' := hst.mem
      refine hend _ s4 ⟨hg2.trans hg, ?_, by rw [hi]; exact hf.ne, fun f hr hne => ?_, ?_, fun hp => absurd (hb.symm.trans h0) hp⟩ ?_
      · intro f hr j hj hne
        have hr2 := hg2.isRec hr
        rw [← hp2 f hr j hj, ← (hf.sameFile hr2).ptr j, hm]
        by_cases he : f = a
        · rw [he, setSlot_ptr hf.inv ha2 hs3, if_neg (hne he)]
        · exact ((setSlot_local hf.inv ha2 hs3).sameFile hf.inv ha2 hr2 he).ptr j
      · have hr2 := hg2.isRec hr
        rw [← hi1 f hr hne, ← hl2.mem, ← (hf.sameFile hr2).1.fIndirect, hm]
        by_cases he : f = a
        · rw [he, setSlot_ind hf.inv ha2 hs3]
        · exact ((setSlot_local hf.inv ha2 hs3).sameFile hf.inv ha2 hr2 he).1.fIndirect
      · have hst4 := hst.freeBlocks hf.inv ((Home.slot hf.inv ha2 hs3).kept ha2) (hs3.off_ge hf.inv ha2)
        rw [hst4, hneed]
        omega
      · rwa [IsSlot, hm, setSlot_ind hf.inv ha2 hs3, ← IsSlot]
    · intro hz
      refine ⟨rfl, by simp [FsSt.log], ?_, own1, hg2.trans (grown_log_full hg2.inv), fun f hr j hj => hp2 f hr j hj⟩
      rw [hneed]
      omega
  · have hne : ptr s.mem a k ≠ 0 := by rwa [← hb]
    have hown := hg2.inv.own_ptr_ne ha2 hk (by rwa [hp2 a ha k hk])
    rw [hp2 a ha k hk, ← hb] at hown
    have hfree : blockIsFree s2 b = false := by rw [blockIsFree, (hg2.inv.used b hown).2, Bool.and_false]
    rw [if_neg h0, hfree]
    refine hend own1 s2 ⟨hg2, fun f hr j hj _ => hp2 f hr j hj, by rwa [hp2 a ha k hk],
      fun f hr hne => by rw [hl2.mem, hi1 f hr hne], ?_, fun hp => hsame1 hp ▸ hl2⟩ hs2
    have hind : ¬ (10 ≤ k ∧ fIndirect s.mem a = 0) := by
      rintro ⟨h1, h2⟩
      exact hne (by rw [ptr, if_neg (by omega), if_pos h2])
    rw [if_neg hind] at hfree2
    rw [need, if_pos hne]
    exact hfree2

/-- `file_get_block` on a block of the file: its number, with the block
allocated if it was missing. -/
theorem fileGetBlock_run (h : FInv L own s.mem) (ha : IsRec own a) (hlive : Live s.mem a)
    (hsz : k < blocksUp (fSize s.mem a)) :
    Run (fileGetBlock a k) s
      (fun b s' => ∃ own', Grown L own own' s s' ∧ k < 1034 ∧ b ≠ 0 ∧ ptr s'.mem a k = b)
      (Fails L own s True fun e _ => e = .inval ∧ 1034 ≤ k) := by
  by_cases hk : k < 1034
  · refine (fileGetBlock_exact h ha hlive hk hsz).mono ?_ ?_
    · rintro b s' ⟨own', hgot, rfl⟩
      exact ⟨own', hgot.grown, hk, hgot.there, rfl⟩
    · rintro e s' ⟨rfl, hfull, -, own', hg, -⟩
      exact ⟨own', hg, .inl ⟨rfl, hfull⟩⟩
  · unfold fileGetBlock
    rw [if_pos (show NDIRECT + NINDIRECT ≤ k from not_lt.mp hk)]
    exact .throw ⟨own, .refl h, .inr ⟨rfl, not_lt.mp hk⟩⟩

/-- A store into a data block changes no pointer. -/
theorem Stored.sameFile_data {off n : ℕ} {src : ℕ → UInt8} (hst : Stored b off n src s s') (h : FInv L own s.mem)
    (hb : own b = .data a k) (hf : IsRec own f) : SameFile s.mem s'.mem f := by
  have hne : ∀ c, c ≠ b → s'.mem c = s.mem c := fun c hc => by rw [hst.mem, update_of_ne hc]
  refine ⟨fun i _ => by rw [hne _ (hf.ne_data h hb).symm], fun hi => hne _ ?_⟩
  rintro rfl
  rw [(h.recOk f hf).ind hi] at hb
  cases hb

theorem Stored.freeBlocks_data {off n : ℕ} {src : ℕ → UInt8} (hst : Stored b off n src s s') (h : FInv L own s.mem)
    (hb : own b = .data a k) : Fs.freeBlocks s'.mem = Fs.freeBlocks s.mem := by
  refine hst.freeBlocks h (.inr (by simp [hb])) fun h1 => ?_
  rw [h1, h.own_one] at hb
  cases hb

/-! ### Ranges of blocks -/

theorem holes_succ (h : lo < hi) :
    holes m a lo hi = (if ptr m a lo = 0 then 1 else 0) + holes m a (lo + 1) hi := by
  rw [holes, show hi - lo = hi - (lo + 1) + 1 by omega, List.range'_succ, List.countP_cons, Nat.add_comm, holes]
  simp

theorem holes_congr (h : ∀ k, lo ≤ k → k < hi → ptr m' a k = ptr m a k) : holes m' a lo hi = holes m a lo hi := by
  refine List.countP_congr fun k hk => ?_
  obtain ⟨h1, h2⟩ := List.mem_range'_1.mp hk
  rw [h k h1 (by omega)]

theorem lacking_congr (h : ∀ k, lo ≤ k → k < hi → ptr m' a k = ptr m a k) (hi0 : fIndirect m' a = fIndirect m a) :
    lacking m' a lo hi = lacking m a lo hi := by
  rw [lacking, lacking, holes_congr h, hi0]

theorem lacking_of_le (h : hi ≤ lo) : lacking m a lo hi = 0 := by
  rw [lacking, if_neg (by omega), holes, Nat.sub_eq_zero_of_le h]
  rfl

theorem lacking_mono {hi' : ℕ} (h : hi ≤ hi') : lacking m a lo hi ≤ lacking m a lo hi' := by
  have hsub : (List.range' lo (hi - lo)).Sublist (List.range' lo (hi' - lo)) :=
    List.range'_sublist_right.mpr (by omega)
  have hholes : holes m a lo hi ≤ holes m a lo hi' := hsub.countP_le
  rw [lacking, lacking]
  split_ifs <;> omega

/-- Nothing is missing where every block is there. -/
theorem lacking_eq_zero (h : ∀ k, lo ≤ k → k < hi → ptr m a k ≠ 0) : lacking m a lo hi = 0 := by
  have hholes : holes m a lo hi = 0 := by
    refine List.countP_eq_zero.mpr fun k hk => ?_
    obtain ⟨h1, h2⟩ := List.mem_range'_1.mp hk
    simpa using h k h1 (by omega)
  rw [lacking, hholes, if_neg]
  rintro ⟨h1, h2, h3⟩
  refine h (hi - 1) (by omega) (by omega) ?_
  rw [ptr, if_neg (by omega), if_pos h3]

/-- After one block the rest of the range lacks so much less. -/
theorem Got.lacking (h : Got L own own' a k s s') (ha : IsRec own a) (hk : k < hi) (hhi : hi ≤ 1034) :
    lacking s'.mem a (k + 1) hi + need s.mem a k = lacking s.mem a k hi := by
  have hrest : holes s'.mem a (k + 1) hi = holes s.mem a (k + 1) hi :=
    holes_congr fun j h1 h2 => h.ptrs a ha j (by omega) fun _ => by omega
  rw [Fs.lacking, Fs.lacking, hrest, holes_succ hk, need]
  by_cases hk10 : k < 10
  · -- the indirect block is not touched
    have hcond : (k + 1 < hi ∧ 10 < hi ∧ fIndirect s'.mem a = 0) ↔ (k < hi ∧ 10 < hi ∧ fIndirect s.mem a = 0) := by
      rw [h.ind a ha fun _ => hk10]
      omega
    rw [if_congr hcond rfl rfl, if_neg (show ¬ (10 ≤ k ∧ fIndirect s.mem a = 0) by omega)]
    split_ifs <;> omega
  · have hthere : fIndirect s'.mem a ≠ 0 := fun h0 => h.there (by rw [ptr, if_neg hk10, if_pos h0])
    rw [if_neg fun hc => hthere hc.2.2]
    by_cases hi0 : fIndirect s.mem a = 0
    · have hp : ptr s.mem a k = 0 := by rw [ptr, if_neg hk10, if_pos hi0]
      rw [if_neg (not_not.mpr hp), if_pos hp, if_pos ⟨not_lt.mp hk10, hi0⟩, if_pos ⟨hk, by omega, hi0⟩]
      omega
    · rw [if_neg (show ¬ (10 ≤ k ∧ fIndirect s.mem a = 0) from fun hc => hi0 hc.2),
        if_neg (show ¬ (k < hi ∧ 10 < hi ∧ fIndirect s.mem a = 0) from fun hc => hi0 hc.2.2)]
      split_ifs <;> omega

/-- A range that lacks no more than is free has its first block. -/
theorem need_le_lacking (hk : k < hi) : need m a k ≤ lacking m a k hi := by
  rw [need, lacking, holes_succ hk]
  split_ifs <;> omega

end

end Fs
end Jos
