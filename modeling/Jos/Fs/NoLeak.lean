/-
# Blocks in use and blocks in the tree

The other direction of ownership: every block that is marked in use, other than
the reserved ones, is named in the tree. `file_remove` and `file_set_size` free
the blocks of the file they are given and nothing below it, so cutting off a
directory block with entries in use loses the blocks of those files
(`root_remove_leaks`); if no entry in use is cut off, nothing is lost
(`noLeaks_of_run`).

Key definitions: `Tight`, `NoLeaks`, `Op.KeepsEntries`.
Key theorems: `Op.Effect.tight`, `noLeaks_of_run`, `truncate_frees_tail`.
-/
import Jos.Fs.Ownership

namespace Jos
namespace Fs

/-- Every block in use is reserved or has a use, every block with a use is
named in a record in use, and every such record is in the tree. -/
structure Tight (L : Layout) (own : ℕ → Use) (m : Disk) : Prop where
  tight : ∀ b < L.nb, bitSet m b = false → own b = .none → L.Fixed b
  named : ∀ b, own b ≠ .none → ∃ r : Ref, IsRec own r.file ∧ Live m r.file ∧ Names m r b
  inTree : ∀ a, IsRec own a → Live m a → InTree m a

section
variable {L : Layout} {own own' : ℕ → Use} {s s' : FsSt} {a : Ptr}

theorem GrownBut.tight {X : Ptr → Prop} (h : GrownBut L own own' X s s') (ht : Tight L own s.mem) :
    Tight L own' s'.mem where
  tight b hlt hb hn := by
    obtain ⟨h1, h2⟩ := h.leak b hlt hb hn
    exact ht.tight b hlt h1 h2
  named b hb := by
    by_cases h0 : own b = .none
    · obtain ⟨r, hr, hl, hn⟩ := h.fresh b h0 hb
      exact ⟨r, h.isRec hr, (h.live hr).mpr hl, hn⟩
    · obtain ⟨r, hr, hl, hn⟩ := ht.named b h0
      exact ⟨r, h.isRec hr, (h.live hr).mpr hl, h.names hr hn⟩
  inTree a ha hl := by
    have hr := h.old_of_live ha hl
    exact h.inTree.mpr (ht.inTree a hr ((h.live hr).mp hl))

theorem Edit.tight (h : Edit L own own' a s s') (hi : FInv L own s.mem) (ht : Tight L own s.mem)
    (ha : IsRec own a) (hk : Kept own' a s.mem s'.mem)
    (hborn : Live s'.mem a → ¬ Live s.mem a → InTree s'.mem a) : Tight L own' s'.mem := by
  have hcut : ∀ b, own' b ≠ .none → own' b = own b := fun b hb =>
    (h.cut b).resolve_right fun hc => hb hc.2
  have hrec : ∀ f, InTree s.mem f → IsRec own' f := fun f hf => h.isRec_of_kept hi hk hf
  have hlive' : ∀ f, IsRec own f → IsRec own' f → f ≠ a → (Live s'.mem f ↔ Live s.mem f) := fun f hf hf' he => by
    rw [Live, Live, (h.sameFile hi ha hf hf' he).1.fName (by omega)]
  refine ⟨fun b hlt hb hn => ?_, fun b hb => ?_, fun g hg hl => ?_⟩
  · obtain ⟨h1, h2⟩ := h.leak b hlt hb hn
    exact ht.tight b hlt h1 h2
  · obtain ⟨r, hr, hl, hn⟩ := ht.named b (hcut b hb ▸ hb)
    have hrt := ht.inTree _ hr hl
    by_cases he : r.file = a
    · obtain ⟨h1, h2⟩ := hk.names r b he (he ▸ hl) hn hb
      exact ⟨r, hrec _ hrt, he ▸ h2, h1⟩
    · have hsame := h.sameFile hi ha hr (hrec _ hrt) he
      exact ⟨r, hrec _ hrt, (hlive' _ hr (hrec _ hrt) he).mpr hl, hsame.names.mpr hn⟩
  · have hold : IsRec own g := by
      rcases hg with rfl | ⟨f, k, j, hd, hj, ho⟩
      · exact .inl rfl
      · exact .inr ⟨f, k, j, by rw [← hcut _ (by simp [hd]), hd], hj, ho⟩
    by_cases he : g = a
    · subst he
      by_cases hl0 : Live s.mem g
      · obtain ⟨sp, hsp⟩ := ht.inTree g hold hl0
        exact ⟨sp, h.node_kept hi ha hk hsp fun hx => hx.2 hl⟩
      · exact hborn hl hl0
    · obtain ⟨sp, hsp⟩ := ht.inTree g hold ((hlive' g hold hg he).mp hl)
      exact ⟨sp, h.node_kept hi ha hk hsp fun hx => he hx.1⟩

theorem Resized.tight {n : ℤ} (hr : Resized own' a n s s') (h : Edit L own own' a s s') (hi : FInv L own s.mem)
    (ha : InTree s.mem a) (ht : Tight L own s.mem)
    (hent : ∀ k c, fType s.mem a = 1 → child s.mem a k = some c → k / 16 < blocksUp n) : Tight L own' s'.mem := by
  obtain ⟨ha', -⟩ := h.isRec (hi.isRec ha) (hi.not_self ha)
  exact h.tight hi ht (hi.isRec ha) (hr.kept h.inv ha' hent) fun _ hd => absurd (hi.live ha) hd

theorem Stretched.tight {n : ℤ} (h : Stretched L own own' a n s s') (ha : InTree s.mem a)
    (ht : Tight L own s.mem) : Tight L own' s'.mem := by
  obtain ⟨own1, s1, s2, h1, h2, h3, h4⟩ := h
  have ha1 := h1.inTree.mpr ha
  exact h4.tight (h3.tight h2 h1.inv ha1 (h1.tight ht) (entries_lt h3 h1.inv ha1))

/-- An entry that was not in use is now in the tree. -/
theorem Edit.tight_of_born {f : Ptr} (h : Edit L own own f s s') (hi : FInv L own s.mem) (ht : Tight L own s.mem)
    (hfr : IsRec own f) (hroot : f ≠ root) (hdead : fName s.mem f 0 = 0) (hf : InTree s'.mem f) :
    Tight L own s'.mem := by
  have hnl : ¬ Live s.mem f := fun hl => hl.elim hroot fun hn => hn hdead
  refine h.tight hi ht hfr ⟨fun hl => absurd hl hnl, ?_, fun r b hr hl => absurd hl hnl,
    fun hl => absurd hl hnl⟩ fun _ _ => hf
  intro k c _ hch
  obtain ⟨h1, h2, -, -⟩ := child_some.mp hch
  have := ((hi.recOk f hfr).ptr _ h1 h2).2
  rw [((hi.recOk f hfr).dead hroot hdead).1] at this
  exact absurd this (by simp [blocksUp])

/-- Removing a file without entries. -/
theorem Removed.tight {f : Ptr} (hr : Removed own' f s s') (h : Edit L own own' f s s') (hi : FInv L own s.mem)
    (hf : InTree s.mem f) (ht : Tight L own s.mem) (hent : fType s.mem f = 1 → ∀ k, child s.mem f k = none) :
    Tight L own' s'.mem := by
  refine h.tight hi ht (hi.isRec hf) ⟨fun _ => hr.type, ?_, ?_, fun _ _ => hent⟩ fun _ hd => absurd (hi.live hf) hd
  · intro k c hft hc
    rw [hent hft k] at hc
    cases hc
  · rintro (⟨g, k⟩ | g) b hg _ hn hb
    · obtain rfl : g = f := hg
      obtain ⟨hk, rfl, -⟩ := hn
      exact absurd (hr.freed k hk) hb
    · obtain rfl : g = f := hg
      obtain ⟨rfl, -⟩ := hn
      exact absurd hr.ind hb

/-! ### Sequences of calls -/

/-- Every block in use, but for the reserved ones, is named once in the tree. -/
def NoLeaks (m : Disk) : Prop :=
  ∀ b < (m 1).le32 4, bitSet m b = false → ¬ Reserved m b → ∃! r : Ref, InTree m r.file ∧ Names m r b

/-- The call cuts off no directory entry that is in use, and writes to no
directory. -/
def Op.KeepsEntries (m : Disk) : Op → Prop
  | .write f _ _ _ => fType m f ≠ FTYPE_DIR
  | .setSize f size => fType m f = FTYPE_DIR → ∀ k c, child m f k = some c → k / 16 < blocksUp size
  | .remove path => ∀ dir f, PathTo m path (.ok (.found dir f)) → fType m f = FTYPE_DIR → ∀ k, child m f k = none
  | _ => True

/-- Every call that cuts off no entry in use leaves every block in use in the
tree. -/
theorem Op.Effect.tight {op : Op} (he : op.Effect L own own' s s') (h : FInv L own s.mem) (ht : Tight L own s.mem)
    (hop : op.Legal s.mem) (hent : op.KeepsEntries s.mem) : Tight L own' s'.mem := by
  cases he with
  | grown hg => exact hg.tight ht
  | created hw hs hed hc =>
    obtain ⟨hdir, hdt, -⟩ := PathTo.result hw hop
    have ht1 := hs.stretched.tight hdir ht
    obtain ⟨hr, hroot, -⟩ := hs.entry (h.isRec hdir) hdt
    exact hed.tight_of_born hs.stretched.moved.inv ht1 hr hroot hs.blank (hs.inTree h hop hw hed hc)
  | stretched hw hst =>
    obtain ⟨hdir, -⟩ := PathTo.result hw hop
    exact hst.tight hdir ht
  | written hed hr hf => exact hf.tight (hr.tight hed h hop.1 ht fun _ _ hc => absurd hc hent)
  | resized hed hr => exact hr.tight hed h hop.1 ht fun k c hft => hent hft k c
  | @removed _ dir f _ _ hw hg hed hr =>
    have hf : InTree s.mem f := PathTo.result hw hop
    refine hr.tight hed hg.inv (hg.inTree.mpr hf) (hg.tight ht) fun hft k => ?_
    rw [hg.fType (h.isRec hf)] at hft
    rw [hg.child (h.isRec hf) hft]
    exact hent dir f hw hft k

theorem Op.KeepsEntries.sparesDirs {op : Op} {m : Disk} (h : op.KeepsEntries m) : op.SparesDirs m := by
  cases op with
  | write f buf count off => exact h
  | _ => trivial

/-- In an image without leaks the uses of the blocks are those of the tree. -/
theorem NoLeaks.tight {m : Disk} (hn : NoLeaks m) (h : Consistent m) :
    Tight (looseLayout m h.nblocks) (ownOf m) m where
  tight b hlt hb ho := by
    by_contra hfix
    obtain ⟨r, ⟨hr, hname⟩, -⟩ := hn b hlt hb fun hres => hfix (.inl hres)
    rw [ownOf_names h.owned hr hname] at ho
    exact r.use_ne m ho
  named b hb := by
    have hinv : FInv (looseLayout m h.nblocks) (ownOf m) m := h.inv rfl (fun b hb => hb.elim) fun hc => hc.elim
    obtain ⟨r, hr, hname, -⟩ := ownOf_ne hb
    exact ⟨r, hinv.isRec hr, hinv.live hr, hname⟩
  inTree a ha hl := by
    rcases isRec_ownOf ha with rfl | ⟨f, k, hf, ht, hk, hp, rfl⟩
    · exact inTree_root m
    rcases hl with hroot | hname
    · exact hroot ▸ inTree_root m
    · exact .child hf ht (child_some.mpr ⟨hk, hp, hname, rfl⟩)

theorem Tight.noLeaks {m : Disk} (ht : Tight L own m) (h : FInv L own m) (hJ : ∀ b, ¬ L.J b) : NoLeaks m := by
  intro b hlt hb hres
  rw [h.nblocks] at hlt
  have hne : own b ≠ .none := fun ho => by
    rcases ht.tight b hlt hb ho with hr | hj
    · exact hres (by rwa [Reserved, h.nblocks])
    · exact hJ b hj
  obtain ⟨r, hr, hl, hn⟩ := ht.named b hne
  exact ⟨r, ⟨ht.inTree _ hr hl, hn⟩, fun r' hr' => h.owned.once r' r b hr'.1 (ht.inTree _ hr hl) hr'.2 hn⟩

theorem tight_of_run (hD : ¬ L.D) {ops : List Op} (h : FInv L own s.mem) (ht : Tight L own s.mem)
    (hl : Along Op.Legal ops s) (hk : Along Op.KeepsEntries ops s) (hrun : runOps ops s = .ok () s') :
    ∃ own', FInv L own' s'.mem ∧ Tight L own' s'.mem := by
  refine runOps_preserves (P := fun s => ∃ own, FInv L own s.mem ∧ Tight L own s.mem) ?_ ⟨own, h, ht⟩ (hl.and hk) hrun
  rintro op s r s' ⟨own, h, ht⟩ ⟨hop, hent⟩ hx
  obtain ⟨own', he⟩ := effect_of_attempt h hop hent.sparesDirs (fun hc => absurd hc hD) hx
  exact ⟨own', he.moved.inv, he.tight h ht hop hent⟩

end

theorem emptyRoot_noLeaks : NoLeaks emptyRoot.mem := by
  intro b hlt hb hres
  have hsmall : ∀ b < 16, bitSet emptyRoot.mem b = false → b ≤ 3 := by decide +kernel
  exact absurd (.inl (hsmall b hlt hb)) hres

/-- An image with a file "f" of one block in the root directory. -/
def oneFile : FsSt := boot (image 16 0xFFC0 4096 4 fun b =>
  if b = 4 then withFile Block.zero 0 [102] 0 10 5 else Block.zero)

theorem oneFile_fsck : Consistent oneFile.mem ∧ ∀ a, InTree oneFile.mem a → a ∈ [root, ⟨4, 0⟩] :=
  consistent_of_fsck (by decide +kernel)

theorem oneFile_noLeaks : NoLeaks oneFile.mem := by
  intro b hlt hb hres
  have hsmall : ∀ b < 16, bitSet oneFile.mem b = false → b ≤ 3 ∨ b = 4 ∨ b = 5 := by decide +kernel
  have hone : ∀ r : Ref, InTree oneFile.mem r.file ∧ Names oneFile.mem r b →
      ∃! r : Ref, InTree oneFile.mem r.file ∧ Names oneFile.mem r b := fun r hr =>
    ⟨r, hr, fun r' hr' => oneFile_fsck.1.owned.once r' r b hr'.1 hr.1 hr'.2 hr.2⟩
  rcases hsmall b hlt hb with h | rfl | rfl
  · exact absurd (.inl h) hres
  · exact hone (.block root 0) ⟨inTree_root _, by decide, by decide +kernel, by decide⟩
  · exact hone (.block ⟨4, 0⟩ 0) ⟨⟨[0], by decide +kernel⟩, by decide, by decide +kernel, by decide⟩

/-- `file_truncate_blocks` frees the blocks past the new size, each once and the
indirect block last, clears their pointers and changes nothing else; the
indirect block is in use in every turn of the loop. -/
theorem truncate_frees_tail {s : FsSt} {f : Ptr} (h : Consistent s.mem) (hf : InTree s.mem f) {n : ℤ} (h0 : 0 ≤ n)
    (hn : n ≤ fSize s.mem f) (hmax : fSize s.mem f ≤ MAXFILESIZE) :
    (∃ s', fileTruncateBlocks f n s = .ok () s' ∧
      Cut s.nblocks f (fIndirect s.mem f) (cutBlocks s.mem f n) s s' ∧
      (∀ k < 1034, ptr s'.mem f k = if blocksUp n ≤ k then 0 else ptr s.mem f k) ∧
      (fIndirect s'.mem f = if blocksUp n ≤ NDIRECT then 0 else fIndirect s.mem f) ∧
      fSize s'.mem f = fSize s.mem f) ∧
    (cutBlocks s.mem f n).Nodup ∧ (∀ b ∈ cutBlocks s.mem f n, b < s.nblocks ∧ bitSet s.mem b = false) ∧
    ∀ j, ∃ s1, truncLoop f j (blocksUp n) s = .ok () s1 ∧ fIndirect s1.mem f = fIndirect s.mem f ∧
      (fIndirect s.mem f ≠ 0 → bitSet s1.mem (fIndirect s.mem f) = false) := by
  have hinv := h.inv (L := looseLayout s.mem h.nblocks) rfl (fun b hb => hb.elim) fun hc => hc.elim
  have hr := hinv.isRec hf
  have hself := hinv.not_self hf
  have hold : blocksUp (fSize s.mem f) ≤ 1034 := (blocksUp_mono hmax).trans (by decide)
  refine ⟨?_, (hinv.cutBlocks_uses hr hold).1, (hinv.cutBlocks_uses hr hold).2, fun j => ?_⟩
  · obtain ⟨_, s', hx, own', -, ht, hi, -, hcut⟩ :=
      (fileTruncateBlocks_run hinv hr hself h0 (hn.trans_lt (fSize_lt _ _))).exists_ok
    refine ⟨s', hx, hcut (blocksUp_mono hn) hold, fun k hk => ?_, hi, ?_⟩
    · rw [ht.ptr k hk]
      simp only [hk, and_true]
    · rw [fSize, fSize, head_le32 ht.head (by omega)]
  · obtain ⟨_, s1, hx, own', hed, -, hi, -⟩ := (truncLoop_run j (blocksUp n) hinv hr hself).exists_ok
    refine ⟨s1, hx, hi, fun hne => (hed.inv.used _ ?_).2⟩
    rw [← hi, (hed.inv.recOk f (hed.isRec hr hself).1).ind (by rwa [hi])]
    simp

/-- The file "f" loses its block. -/
theorem oneFile_truncated : cutBlocks oneFile.mem ⟨4, 0⟩ 0 = [5] ∧
    ∃ s', fileTruncateBlocks ⟨4, 0⟩ 0 oneFile = .ok () s' ∧ Cut oneFile.nblocks ⟨4, 0⟩ 0 [5] oneFile s' := by
  have hcut : cutBlocks oneFile.mem ⟨4, 0⟩ 0 = [5] := by decide +kernel
  have hind : fIndirect oneFile.mem ⟨4, 0⟩ = 0 := by decide +kernel
  obtain ⟨⟨s', hrun, hs', -⟩, -⟩ := truncate_frees_tail oneFile_fsck.1 (f := ⟨4, 0⟩) ⟨[0], by decide +kernel⟩
    (n := 0) le_rfl (by decide +kernel) (by decide +kernel)
  rw [hcut, hind] at hs'
  exact ⟨hcut, s', hrun, hs'⟩

end Fs
end Jos
