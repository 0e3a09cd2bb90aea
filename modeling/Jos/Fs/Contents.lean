/-
# What is read and what is written

`file_read` and `file_write` byte by byte, with the blocks they take counted:
reading returns the bytes of the file (`fileRead_bytes`), and writing puts the
bytes of the buffer in their place, as far as there are blocks (`fileWrite_stored`).

* `read_over_write`: what was written is read back, and nothing else changed.

Key definitions: `readResult`, `Written`, `SameContents`.
Key theorems: `readLoop_bytes`, `fileRead_bytes`, `fileWrite_stored`, `read_over_write`.
-/
import Jos.Fs.NoLeak

namespace Jos
namespace Fs

open Block

section

variable {L : Layout} {own own' : ℕ → Use} {s s' : FsSt} {a : Ptr} {k p q fin : ℕ} {m : Disk}

/-! ### Reading -/

/-- A byte in a block that is there. -/
theorem byteAt_of_ptr (hp : ptr m a (p / 4096) ≠ 0) {i : ℕ} (hi : p % 4096 + i < 4096) :
    byteAt m a (p + i) = m (ptr m a (p / 4096)) (p % 4096 + i) := by
  have h1 : (p + i) / 4096 = p / 4096 := by omega
  have h2 : (p + i) % 4096 = p % 4096 + i := by omega
  rw [byteAt, h1, h2, if_neg hp]

/-- The loop of `file_read`. -/
theorem readLoop_bytes : ∀ (n fin p : ℕ) {own : ℕ → Use} {s : FsSt}, FInv L own s.mem → IsRec own a →
    Live s.mem a → fType s.mem a ≠ 1 → p ≤ fin → fin ≤ p + n → (fin : ℤ) ≤ fSize s.mem a → Obtainable s.mem a p fin →
    Run (readLoop a fin n p) s
      (fun bytes s' => (∃ own', Grown L own own' s s') ∧ bytes = (List.range (fin - p)).map fun i => byteAt s.mem a (p + i))
      (fun _ _ => False)
  | 0, fin, p, own, s, h, _, _, _, hp, hn, _, _ => by
    refine .pure ⟨⟨own, .refl h⟩, ?_⟩
    rw [Nat.sub_eq_zero_of_le (by omega)]
    rfl
  | n + 1, fin, p, own, s, h, ha, hlive, ht, hp, hn, hsz, hw => by
    have hfin : fin < 2 ^ 31 := by
      have := fSize_lt s.mem a
      omega
    unfold readLoop
    rw [ofInt32_natCast (by omega)]
    by_cases hlt : p < fin
    · rw [if_pos hlt, chunk_eq hlt hfin]
      obtain ⟨hmax, hfree⟩ := hw hlt
      have hmax' : fin ≤ 1034 * 4096 := hmax
      have hk : p / 4096 < 1034 := by omega
      refine .step (fileGetBlock_exact h ha hlive hk (div_lt_blocksUp (by omega))) ?_ ?_
      · rintro e s' ⟨-, -, hno, -⟩
        dsimp only at hno
        have := need_le_lacking (m := s.mem) (a := a) (show p / 4096 < (fin + 4095) / 4096 by omega)
        omega
      rintro blk s1 ⟨own1, hgot, rfl⟩
      have hg := hgot.grown
      have hhere := hg.inv.here_ptr (hg.isRec ha) hk hgot.there
      dsimp only
      rw [blkAt_eq]
      refine .bind (touch_ok hhere) ?_
      intro _ s2 hl
      have hg2 := hg.trans (grown_of_loaded hg.inv hl)
      refine .getBind ?_
      dsimp only
      rw [toInt32_add (by omega)]
      refine .bind (readLoop_bytes n fin _ hg2.inv (hg2.isRec ha) ((hg2.live ha).mpr hlive)
        (by rwa [hg2.fType ha]) (by omega) (by omega) (by rwa [hg2.fSize ha]) ?_) ?_
      · -- the next turn starts at a block boundary
        intro hlt2
        have hnext : p + min (4096 - p % 4096) (fin - p) = (p / 4096 + 1) * 4096 := by omega
        rw [hnext] at hlt2 ⊢
        rw [hl.mem]
        exact (hgot.obtainable ha hk hlt).mp hw hlt2
      · rintro rest s3 ⟨⟨own3, hg3⟩, hrest⟩
        refine .pure ⟨⟨own3, hg2.trans hg3⟩, ?_⟩
        have hbyte : ∀ i < fin - p, byteAt s2.mem a (p + i) = byteAt s.mem a (p + i) := fun i hi =>
          hg2.byteAt ha id ht (by omega)
        rw [hrest]
        apply List.ext_getElem
        · simp only [List.length_append, List.length_map, List.length_range]
          omega
        · intro i h1 h2
          rw [List.getElem_map, List.getElem_range]
          rw [List.length_map, List.length_range] at h2
          rw [← hbyte i h2]
          by_cases hi : i < min (4096 - p % 4096) (fin - p)
          · rw [List.getElem_append_left (by simpa using hi), List.getElem_map, List.getElem_range]
            rw [byteAt_of_ptr (by rw [hl.mem]; exact hgot.there) (by omega), hl.mem]
          · rw [List.getElem_append_right (by simpa using Nat.le_of_not_lt hi), List.getElem_map, List.getElem_range]
            simp only [List.length_map, List.length_range]
            congr 1
            omega
    · rw [if_neg hlt]
      refine .pure ⟨⟨own, .refl h⟩, ?_⟩
      rw [Nat.sub_eq_zero_of_le (by omega)]
      rfl

/-- What `file_read` of `count` bytes from `off` on returns: the bytes of the
file up to its end. -/
def readResult (m : Disk) (a : Ptr) (count off : ℕ) : ℕ × List UInt8 :=
  (min (off + count) (fSize m a).toNat - off,
    (List.range (min (off + count) (fSize m a).toNat - off)).map fun i => byteAt m a (off + i))

/-- `file_read` of a range whose blocks can be had. -/
theorem fileRead_bytes (h : FInv L own s.mem) (ha : IsRec own a) (hlive : Live s.mem a) (ht : fType s.mem a ≠ 1)
    (count off : ℕ) (hw : Obtainable s.mem a off (min (off + count) (fSize s.mem a).toNat)) :
    Run (fileRead a count off) s
      (fun r s' => r = readResult s.mem a count off ∧ ∃ own', Grown L own own' s s') (fun _ _ => False) := by
  have hlt := fSize_lt s.mem a
  have h0 := (h.recOk a ha).size
  refine .getBind ?_
  by_cases hoff : fSize s.mem a ≤ off
  · rw [if_pos hoff]
    refine .pure ⟨?_, own, .refl h⟩
    rw [readResult, Nat.sub_eq_zero_of_le (by omega)]
    rfl
  · rw [if_neg hoff]
    have hc : ofInt32 (fSize s.mem a - off) = (fSize s.mem a).toNat - off := by
      rw [ofInt32]
      omega
    have hn : min count ((fSize s.mem a).toNat - off) = min (off + count) (fSize s.mem a).toNat - off := by omega
    have hfin : ofInt32 ((off : ℤ) + (min (off + count) (fSize s.mem a).toNat - off : ℕ)) =
        min (off + count) (fSize s.mem a).toNat := by
      rw [ofInt32]
      omega
    dsimp only
    rw [hc, hn, hfin]
    refine .bind (readLoop_bytes _ _ off h ha hlive ht (by omega) (by omega) (by omega) hw) ?_
    rintro bytes s1 ⟨hg, hb⟩
    refine .pure ⟨?_, hg⟩
    rw [hb, readResult]

/-! ### Writing -/

/-- What `file_write` leaves, returning or failing. -/
structure Written (L : Layout) (own own' : ℕ → Use) (a : Ptr) (buf : ℕ → UInt8) (count off : ℕ) (s s' : FsSt) :
    Prop where
  fill : ∃ s1, Extended L own a (max (fSize s.mem a) (off + count)) s s1 ∧ Filled L own own' a s1 s'
  bytes : Bytes a buf off (off + stored s.mem a off count) s.mem s'.mem

theorem fileWrite_stored (h : FInv L own s.mem) (ha : InTree s.mem a) (ht : fType s.mem a ≠ 1) (buf : ℕ → UInt8)
    {count off : ℕ} (hlt : off + count < 2 ^ 31) :
    Run (fileWrite a buf count off) s
      (fun r s' => r = count ∧ Obtainable s.mem a off (off + count) ∧ ∃ own', Written L own own' a buf count off s s')
      (fun e s' => (∃ er, e = .err er) ∧ ¬ Obtainable s.mem a off (off + count) ∧
        ∃ own', Written L own own' a buf count off s s') := by
  have hr := h.isRec ha
  have hbytes : ∀ {q : ℕ} {s1 s' : FsSt}, Extended L own a (max (fSize s.mem a) (off + count)) s s1 →
      Bytes a buf off q s1.mem s'.mem → Bytes a buf off q s.mem s'.mem := by
    intro q s1 s' hext hb i hi
    rw [hb i hi, hext.byteAt hr h ht hi]
  refine (fileWrite_exact h ha ht buf hlt).mono ?_ ?_
  · rintro r s' ⟨rfl, hw, -, s1, own', hext, hf, hb⟩
    refine ⟨rfl, hw, own', ⟨s1, hext, hf⟩, ?_⟩
    rw [hw.stored]
    exact hbytes hext hb
  · rintro e s' ⟨her, q, hstuck, hq, s1, own', hext, hf, hb⟩
    refine ⟨her, fun hw => ?_, own', ⟨s1, hext, hf⟩, ?_⟩
    · have := hstuck.le_of_obtainable hw
      omega
    · rw [hstuck.stored hq]
      exact hbytes hext hb

/-! ### Other files -/

/-- The size and the bytes of the file `g` are as before. -/
def SameContents (m m' : Disk) (g : Ptr) : Prop :=
  fSize m' g = fSize m g ∧ (fType m g ≠ 1 → ∀ i < MAXFILESIZE, byteAt m' g i = byteAt m g i)

theorem SameContents.trans {m' m'' : Disk} {g : Ptr} (h : SameContents m m' g) (h' : SameContents m' m'' g)
    (ht : fType m' g = fType m g) : SameContents m m'' g :=
  ⟨h'.1.trans h.1, fun hreg i hi => (h'.2 (by rwa [ht]) i hi).trans (h.2 hreg i hi)⟩

theorem Extended.other {n : ℤ} {g : Ptr} (h : Extended L own a n s s') (hi : FInv L own s.mem) (ha : IsRec own a)
    (hg : IsRec own g) (hne : g ≠ a) : SameContents s.mem s'.mem g := by
  have hsame := h.edit.sameFile hi ha hg hg hne
  refine ⟨hsame.1.fSize, fun ht i hlt => ?_⟩
  have hlt' : i < 1034 * 4096 := hlt
  unfold Fs.byteAt
  rw [hsame.ptr]
  split_ifs with h0
  · rfl
  · have hu := ((hi.recOk g hg).ptr _ (by omega) h0).1
    rw [useOf, if_neg ht] at hu
    rw [h.resized.data _ _ _ hu]

theorem GrownBut.other {g : Ptr} (h : Filled L own own' a s s') (hg : IsRec own g) (hne : g ≠ a) :
    SameContents s.mem s'.mem g := by
  refine ⟨h.fSize hg, fun ht i hlt => ?_⟩
  exact h.byteAt hg hne ht (Nat.div_lt_of_lt_mul (show i < 4096 * 1034 from hlt))

/-! ### Reading what was written -/

/-- `file_read` returns the bytes of the regular file `g`, if there is room for
the blocks it has to fill in. -/
def Readable (s : FsSt) (g : Ptr) : Prop :=
  ∀ count off : ℕ, Obtainable s.mem g off (min (off + count) (fSize s.mem g).toNat) →
    ∃ s', fileRead g count off s = .ok (readResult s.mem g count off) s'

theorem FInv.readable {g : Ptr} (h : FInv L own s.mem) (hg : InTree s.mem g) (ht : fType s.mem g ≠ 1) : Readable s g := by
  intro count off hw
  obtain ⟨r, s', hrun, rfl, -⟩ := (fileRead_bytes h (h.isRec hg) (h.live hg) ht count off hw).exists_ok
  exact ⟨s', hrun⟩

end

/-- What `file_write` wrote is what `file_read` returns, the file is as long as
it has to be, and everything else is as before; and `file_read` returns the
bytes of the file. -/
theorem read_over_write {s : FsSt} {f : Ptr} (h : Consistent s.mem) (hf : InTree s.mem f)
    (ht : fType s.mem f ≠ FTYPE_DIR) (hsz : fSize s.mem f ≤ MAXFILESIZE) :
    (∀ (buf : ℕ → UInt8) (count off : ℕ) (s' : FsSt), off + count ≤ MAXFILESIZE →
      fileWrite f buf count off s = .ok count s' →
      fSize s'.mem f = max (fSize s.mem f) (off + count) ∧
      (∃ s'', fileRead f count off s' = .ok (count, (List.range count).map buf) s'') ∧
      (∀ i : ℕ, (i : ℤ) < fSize s.mem f → ¬ (off ≤ i ∧ i < off + count) → byteAt s'.mem f i = byteAt s.mem f i) ∧
      Consistent s'.mem ∧ SameTree s.mem s'.mem ∧
      (∀ g, InTree s.mem g → g ≠ f → SameContents s.mem s'.mem g) ∧
      ∀ g, InTree s.mem g → fType s.mem g ≠ FTYPE_DIR → Readable s' g) ∧
    Readable s f := by
  have hinv := h.inv (L := looseLayout s.mem h.nblocks) rfl (fun b hb => hb.elim) fun hc => hc.elim
  have hr := hinv.isRec hf
  refine ⟨?_, hinv.readable hf ht⟩
  intro buf count off s' hmax hrun
  have hmax' : off + count ≤ 1034 * 4096 := hmax
  have hsz' : fSize s.mem f ≤ 1034 * 4096 := hsz
  obtain ⟨-, -, hback, s1, own', hext, hfill, hb⟩ :=
    (fileWrite_exact hinv hf ht buf (show off + count < 2 ^ 31 by omega)).of_ok hrun
  have hr1 : IsRec (ownOf s.mem) f := hr
  have hsize : fSize s'.mem f = max (fSize s.mem f) (off + count) := by rw [hfill.fSize hr, hext.resized.size]
  have htree : SameTree s.mem s'.mem := (hext.resized.sameTree hext.edit hinv hf ht).trans hfill.sameTree
  have hread : ∀ g, InTree s.mem g → fType s.mem g ≠ FTYPE_DIR → Readable s' g := fun g hg hgt =>
    hfill.inv.readable (htree.inTree.mpr hg) (by rwa [htree.type g hg])
  have hbyte : ∀ i : ℕ, i < MAXFILESIZE → byteAt s'.mem f i =
      if off ≤ i ∧ i < off + count then buf (i - off) else byteAt s.mem f i := by
    intro i hi
    have hk : i / 4096 < 1034 := Nat.div_lt_of_lt_mul (show i < 4096 * 1034 from hi)
    rw [hb i hk, hext.byteAt hr hinv ht hk]
  refine ⟨hsize, ?_, ?_, hfill.inv.consistent, htree, ?_, hread⟩
  · have hend : min (off + count) (fSize s'.mem f).toNat = off + count := by
      rw [hsize]
      omega
    have hw : Obtainable s'.mem f off (min (off + count) (fSize s'.mem f).toNat) := by
      rw [hend]
      exact hback.obtainable hmax
    obtain ⟨s'', hs''⟩ := hread f hf ht count off hw
    refine ⟨s'', ?_⟩
    rw [hs'', readResult, hend, Nat.add_sub_cancel_left]
    congr 2
    refine List.map_congr_left fun i hi => ?_
    have hi' := List.mem_range.mp hi
    rw [hbyte _ (show off + i < 1034 * 4096 by omega), if_pos ⟨by omega, by omega⟩, Nat.add_sub_cancel_left]
  · intro i hi hout
    rw [hbyte i (show i < 1034 * 4096 by omega), if_neg hout]
  · intro g hg hne
    have hgr := hinv.isRec hg
    exact (hext.other hinv hr hgr hne).trans (hfill.other hgr hne)
      ((hext.edit.sameFile hinv hr hgr hgr hne).1.fType)

/-- Two blocks of the file "f", the second of them new, are written and read back. -/
theorem oneFile_read_over_write : ∃ s' s'' : FsSt, fileWrite ⟨4, 0⟩ (fun i => i.toUInt8 + 1) 20 4090 oneFile = .ok 20 s' ∧
    fileRead ⟨4, 0⟩ 20 4090 s' = .ok (20, (List.range 20).map fun i => i.toUInt8 + 1) s'' := by
  obtain ⟨n, hrun, hn⟩ := exists_of_returned (x := fileWrite ⟨4, 0⟩ (fun i => i.toUInt8 + 1) 20 4090)
    (s := oneFile) (p := fun n => n == 20) (by decide +kernel)
  obtain rfl : n = 20 := by simpa using hn
  obtain ⟨-, ⟨s'', hread⟩, -⟩ := (read_over_write oneFile_fsck.1 (f := ⟨4, 0⟩) ⟨[0], by decide +kernel⟩
    (by decide +kernel) (by decide +kernel)).1 _ _ _ _ (by decide) hrun
  exact ⟨_, s'', hrun, hread⟩

end Fs
end Jos
