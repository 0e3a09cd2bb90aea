/-
# A check of small images

Whether an image is consistent can be computed when its files have direct
blocks only and the records of the tree are listed: `fsck m l` goes through the
list. It is used to build starting states.

Key definitions: `fsck`, `image`.
Key theorems: `inTree_mem`, `consistent_of_fsck`.
-/
import Jos.Fs.ReadWrite
import Jos.Fs.Journal

namespace Jos
namespace Fs

/-! ### Small images -/

/-- A `File` stored into a block, with at most one block of its own. -/
def withFile (d : Block) (off : ℕ) (name : List UInt8) (type size blk : ℕ) : Block :=
  (((d.write off name.length fun i => name.getD i 0).put32 (off + 128) size).put32 (off + 132) type).put32
    (off + 136) blk

/-- An image of `nb ≤ 32` blocks with the free blocks of the word `free`, an
empty journal and a root directory of `size` bytes, its first block `blk`. -/
def image (nb free size blk : ℕ) (rest : ℕ → Block) : Disk := fun b =>
  if b = 1 then withFile ((Block.zero.put32 0 FS_MAGIC).put32 4 nb) 8 [47] 1 size blk
  else if b = 2 then Block.zero.put32 0 free
  else if b = 3 then Block.zero.put32 0 JBD_MAGIC
  else rest b

/-! ### The check -/

/-- The pointers and the size of one record. -/
def fsckFile (m : Disk) (f : Ptr) : Bool :=
  fIndirect m f = 0 && 0 ≤ fSize m f &&
    (List.range 10).all fun k => fDirect m f k = 0 ||
      (fDirect m f k < (m 1).le32 4 && !bitSet m (fDirect m f k) && 3 < fDirect m f k &&
        2 + ((m 1).le32 4 + 32767) / 32768 ≤ fDirect m f k && k < blocksUp (fSize m f))

/-- An entry of a directory is listed if it has a name and holds nothing if not. -/
def fsckEntry (m : Disk) (l : List Ptr) (e : Ptr) : Bool :=
  if fName m e 0 = 0 then fSize m e = 0 && fIndirect m e = 0 && (List.range 10).all fun k => fDirect m e k = 0
  else decide (e ∈ l)

def fsckDir (m : Disk) (l : List Ptr) (f : Ptr) : Bool :=
  fType m f ≠ 1 || (List.range 160).all fun k => fDirect m f (k / 16) = 0 || fsckEntry m l (entryAt m f k)

/-- No block is named twice. -/
def fsckOnce (m : Disk) (l : List Ptr) : Bool :=
  l.all fun f => l.all fun g => (List.range 10).all fun k => (List.range 10).all fun j =>
    fDirect m f k = 0 || fDirect m f k ≠ fDirect m g j || (f = g && k = j)

/-- The records `l` are those of the tree of `m`, and they are in order. -/
def fsck (m : Disk) (l : List Ptr) : Bool :=
  3 < (m 1).le32 4 && ((List.range (max 4 (2 + ((m 1).le32 4 + 32767) / 32768))).all fun b => !bitSet m b) &&
    fType m root = 1 && root ∈ l && l.all (fsckFile m) && l.all (fsckDir m l) && fsckOnce m l

section
variable {m : Disk} {l : List Ptr} {a f : Ptr}

theorem ptr_of_direct (h : fIndirect m f = 0) {k : ℕ} (hp : ptr m f k ≠ 0) : k < 10 ∧ ptr m f k = fDirect m f k := by
  unfold ptr at hp ⊢
  split_ifs at hp ⊢ with hk
  · exact ⟨hk, rfl⟩
  · exact absurd rfl hp

theorem fsckFile_ind (h : fsckFile m f = true) : fIndirect m f = 0 := by
  simp only [fsckFile, Bool.and_eq_true, decide_eq_true_eq] at h
  exact h.1.1

/-- A list that holds the root and the children of its directories holds the
tree. -/
theorem inTree_mem (hroot : root ∈ l) (hfile : ∀ f ∈ l, fsckFile m f = true) (hdir : ∀ f ∈ l, fsckDir m l f = true) :
    ∀ {sp : List ℕ} {a : Ptr}, node m sp = some a → a ∈ l
  | [], a, h => by
    obtain rfl : root = a := Option.some.inj h
    exact hroot
  | k :: sp, a, h => by
    obtain ⟨f, hf, ht, hc⟩ := node_cons.mp h
    obtain ⟨-, h2, h3, rfl⟩ := child_some.mp hc
    have hfl := inTree_mem hroot hfile hdir hf
    obtain ⟨hk, hp⟩ := ptr_of_direct (fsckFile_ind (hfile f hfl)) h2
    have hd := hdir f hfl
    simp only [fsckDir, Bool.or_eq_true, decide_eq_true_eq, List.all_eq_true, List.mem_range] at hd
    rcases hd with hd | hd
    · exact absurd ht hd
    · rcases hd k (by omega) with h0 | h0
      · exact absurd (hp.trans h0) h2
      · rw [fsckEntry, if_neg h3] at h0
        simpa using h0

theorem consistent_of_fsck (h : fsck m l = true) : Consistent m ∧ ∀ a, InTree m a → a ∈ l := by
  simp only [fsck, Bool.and_eq_true, decide_eq_true_eq, List.all_eq_true, List.mem_range, Bool.not_eq_true'] at h
  obtain ⟨⟨⟨⟨⟨⟨hnb, hrsv⟩, hrt⟩, hroot⟩, hfile⟩, hdir⟩, honce⟩ := h
  have hmem : ∀ a, InTree m a → a ∈ l := fun a ⟨sp, hsp⟩ => inTree_mem hroot hfile hdir hsp
  have hone : ∀ f ∈ l, ∀ k, fDirect m f k ≠ 0 → k < 10 → fDirect m f k < (m 1).le32 4 ∧
      bitSet m (fDirect m f k) = false ∧ ¬ Reserved m (fDirect m f k) ∧ k < blocksUp (fSize m f) := by
    intro f hf k hp hk
    have h1 := hfile f hf
    simp only [fsckFile, Bool.and_eq_true, Bool.or_eq_true, decide_eq_true_eq, List.all_eq_true, List.mem_range,
      Bool.not_eq_true'] at h1
    obtain ⟨⟨⟨⟨h2, h3⟩, h4⟩, h5⟩, h6⟩ := (h1.2 k hk).resolve_left hp
    exact ⟨h2, h3, by rw [Reserved]; omega, h6⟩
  refine ⟨⟨hnb, ?_, hrt, ⟨?_, ?_, ?_⟩, ?_, ?_⟩, hmem⟩
  · intro b hb
    refine hrsv b ?_
    rw [Reserved] at hb
    omega
  · intro r b hr hn
    cases r with
    | indirect f => exact absurd (hn.1.symm.trans (fsckFile_ind (hfile f (hmem f hr)))) hn.2
    | block f k =>
      obtain ⟨-, rfl, h0⟩ := hn
      obtain ⟨hk, hp⟩ := ptr_of_direct (fsckFile_ind (hfile f (hmem f hr))) h0
      rw [hp] at h0 ⊢
      obtain ⟨h1, h2, h3, -⟩ := hone f (hmem f hr) k h0 hk
      exact ⟨h1, h2, h3⟩
  · intro r r' b hr hr' hn hn'
    cases r with
    | indirect f => exact absurd (hn.1.symm.trans (fsckFile_ind (hfile f (hmem f hr)))) hn.2
    | block f k =>
      cases r' with
      | indirect f => exact absurd (hn'.1.symm.trans (fsckFile_ind (hfile f (hmem f hr')))) hn'.2
      | block g j =>
        obtain ⟨-, rfl, h0⟩ := hn
        obtain ⟨-, hb, -⟩ := hn'
        obtain ⟨hk, hp⟩ := ptr_of_direct (fsckFile_ind (hfile f (hmem f hr))) h0
        obtain ⟨hj, hq⟩ := ptr_of_direct (fsckFile_ind (hfile g (hmem g hr'))) (by rw [hb]; exact h0)
        rw [hp] at h0 hb
        rw [hq] at hb
        simp only [fsckOnce, List.all_eq_true, List.mem_range, Bool.or_eq_true, Bool.and_eq_true,
          decide_eq_true_eq] at honce
        rcases honce f (hmem f hr) g (hmem g hr') k hk j hj with (h1 | h1) | ⟨h1, h2⟩
        · exact absurd h1 h0
        · exact absurd hb.symm h1
        · rw [h1, h2]
  · intro f k hf hk hp
    obtain ⟨hk10, hpd⟩ := ptr_of_direct (fsckFile_ind (hfile f (hmem f hf))) hp
    exact (hone f (hmem f hf) k (by rwa [← hpd]) hk10).2.2.2
  · intro f hf
    have h1 := hfile f (hmem f hf)
    simp only [fsckFile, Bool.and_eq_true, decide_eq_true_eq] at h1
    exact h1.1.2
  · intro f k hf ht hk hp hn
    obtain ⟨hk10, hpd⟩ := ptr_of_direct (fsckFile_ind (hfile f (hmem f hf))) hp
    have hd := hdir f (hmem f hf)
    simp only [fsckDir, Bool.or_eq_true, decide_eq_true_eq, List.all_eq_true, List.mem_range] at hd
    rcases hd.resolve_left (fun h => h ht) k (by omega) with h0 | h0
    · exact absurd (hpd.trans h0) hp
    · rw [fsckEntry, if_pos hn] at h0
      simp only [Bool.and_eq_true, decide_eq_true_eq, List.all_eq_true, List.mem_range] at h0
      exact ⟨h0.1.1, h0.1.2, h0.2⟩

end

end Fs
end Jos
