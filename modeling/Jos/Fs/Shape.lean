/-
# The shape of the file system

What the blocks of a disk image are used for, as an assignment `own` that
gives every block at most one use: a block of a directory, of a regular file,
or an indirect block, each of one `File` record. `FInv` says that the image
follows it. Since `own` is a function, no block has two uses; a record's
pointers are only required to agree with it, so a block may be in use and
belong to nothing, as it does between `alloc_block` and the store of the
pointer.

`FInv.of_local` is the one way the invariant is kept: a function changes one
record, blocks of its own and blocks of nobody; every other record reads as
before (`Local.sameFile`).

Key definitions: `ptr`, `Use`, `Layout`, `IsRec`, `RecOk`, `FInv`, `Local`.
Key theorems: `RecOk.congr`, `Local.sameFile`, `FInv.of_local`, `FInv.of_frame`.
-/
import Jos.Fs.Effects

namespace Jos
namespace Fs

open Block

/-- The block number of block `k` of a file, 0 if it has none. -/
def ptr (m : Disk) (f : Ptr) (k : ℕ) : ℕ :=
  if k < 10 then fDirect m f k
  else if fIndirect m f = 0 then 0 else (m (fIndirect m f)).le32 (4 * (k - 10))

/-- The number of blocks of a file of `size` bytes. -/
def blocksUp (size : ℤ) : ℕ := ((size + 4095) / 4096).toNat

theorem blocksUp_zero : blocksUp 0 = 0 := rfl

/-- What a block is used for. -/
inductive Use
  | none
  /-- Block `k` of the directory `f`. -/
  | dir (f : Ptr) (k : ℕ)
  /-- Block `k` of the regular file `f`. -/
  | data (f : Ptr) (k : ℕ)
  /-- The indirect block of `f`. -/
  | ind (f : Ptr)
  deriving DecidableEq

def Use.owner : Use → Option Ptr
  | .none => Option.none
  | .dir f _ => some f
  | .data f _ => some f
  | .ind f => some f

/-- The use of block `k` of the file `f`. -/
def useOf (m : Disk) (f : Ptr) (k : ℕ) : Use := if fType m f = 1 then .dir f k else .data f k

theorem useOf_congr {m m' : Disk} {f : Ptr} (h : fType m' f = fType m f) (k : ℕ) : useOf m' f k = useOf m f k := by
  rw [useOf, useOf, h]

/-- The fixed part of an image: its size, the blocks `J` that belong to the
journal, and whether the directories' sizes are whole blocks. -/
structure Layout where
  nb : ℕ
  J : ℕ → Prop
  D : Prop
  nb3 : 3 < nb
  journal : ∀ b, J b → b < nb ∧ b ≠ 1 ∧ (b < 2 ∨ 2 + (nb + 32767) / 32768 ≤ b)

namespace Layout

/-- Block 0, the superblock, the bitmap and the journal superblock. -/
def Rsv (L : Layout) (b : ℕ) : Prop := b ≤ 3 ∨ b < 2 + (L.nb + 32767) / 32768

/-- The blocks no file may have. -/
def Fixed (L : Layout) (b : ℕ) : Prop := L.Rsv b ∨ L.J b

theorem bitBlk_rsv {L : Layout} {b : ℕ} (h : b < L.nb) : L.Rsv (bitBlk b) := by
  right
  simp only [bitBlk, BLKBITSIZE, BLKSIZE]
  omega

theorem fixed_lt {L : Layout} {b : ℕ} (h : L.Fixed b) : b < L.nb := by
  have := L.nb3
  rcases h with (h | h) | h
  · omega
  · omega
  · exact (L.journal b h).1

theorem rsv_one (L : Layout) : L.Rsv 1 := .inl (by omega)

theorem not_J_bitBlk {L : Layout} {b : ℕ} (h : b < L.nb) : ¬ L.J (bitBlk b) := by
  intro hj
  obtain ⟨-, -, h1⟩ := L.journal _ hj
  simp only [bitBlk, BLKBITSIZE, BLKSIZE] at h1
  omega

theorem not_J_two (L : Layout) : ¬ L.J 2 := by
  intro hj
  obtain ⟨-, -, h1⟩ := L.journal _ hj
  have := L.nb3
  omega

end Layout

/-- The `File` records: the root and the entries of the directory blocks. -/
def IsRec (own : ℕ → Use) (a : Ptr) : Prop :=
  a = root ∨ ∃ f k j, own a.blk = .dir f k ∧ j < 16 ∧ a.off = 256 * j

/-- A record agrees with `own`. -/
structure RecOk (L : Layout) (own : ℕ → Use) (m : Disk) (a : Ptr) : Prop where
  ptr : ∀ k < 1034, ptr m a k ≠ 0 → own (ptr m a k) = useOf m a k ∧ k < blocksUp (fSize m a)
  ind : fIndirect m a ≠ 0 → own (fIndirect m a) = .ind a
  size : 0 ≤ fSize m a
  /-- An unused entry of a directory holds nothing. -/
  dead : a ≠ root → fName m a 0 = 0 → fSize m a = 0 ∧ fIndirect m a = 0
  dirSize : L.D → fType m a = 1 → (4096 : ℤ) ∣ fSize m a

/-- The image `m` follows `own`. -/
structure FInv (L : Layout) (own : ℕ → Use) (m : Disk) : Prop where
  nblocks : (m 1).le32 4 = L.nb
  used : ∀ b, own b ≠ .none → b < L.nb ∧ bitSet m b = false
  fixed : ∀ b, L.Fixed b → own b = .none ∧ bitSet m b = false
  recOk : ∀ a, IsRec own a → RecOk L own m a
  rootDir : fType m root = 1

/-! ### Records that read the same -/

def SameRec (m m' : Disk) (a : Ptr) : Prop := ∀ i < 256, m' a.blk (a.off + i) = m a.blk (a.off + i)

/-- The record and its indirect block read the same. -/
def SameFile (m m' : Disk) (a : Ptr) : Prop :=
  SameRec m m' a ∧ (fIndirect m a ≠ 0 → m' (fIndirect m a) = m (fIndirect m a))

/-- A word among the first `n` bytes of a record that are the same. -/
theorem head_le32 {m m' : Disk} {a : Ptr} {n o : ℕ} (h : ∀ i < n, m' a.blk (a.off + i) = m a.blk (a.off + i))
    (ho : o + 4 ≤ n) : (m' a.blk).le32 (a.off + o) = (m a.blk).le32 (a.off + o) := by
  refine le32_congr fun i hi => ?_
  rw [Nat.add_assoc]
  exact h (o + i) (by omega)

section SameRec
variable {m m' : Disk} {a : Ptr} (h : SameRec m m' a)
include h

theorem SameRec.fSize : fSize m' a = fSize m a := by rw [Fs.fSize, head_le32 h (by omega), Fs.fSize]

theorem SameRec.fType : fType m' a = fType m a := head_le32 h (by omega)

theorem SameRec.fName {i : ℕ} (hi : i < 128) : fName m' a i = fName m a i := h i (by omega)

theorem SameRec.fIndirect : fIndirect m' a = fIndirect m a := head_le32 h (by omega)

theorem SameRec.fDirect {k : ℕ} (hk : k < 10) : fDirect m' a k = fDirect m a k := by
  have := head_le32 (o := 136 + 4 * k) h (by omega)
  rwa [← Nat.add_assoc] at this

end SameRec

theorem SameFile.ptr {m m' : Disk} {a : Ptr} (h : SameFile m m' a) (k : ℕ) : ptr m' a k = ptr m a k := by
  obtain ⟨h1, h2⟩ := h
  unfold Fs.ptr
  rw [h1.fIndirect]
  split_ifs with hk hi
  · exact h1.fDirect hk
  · rfl
  · rw [h2 hi]

/-- A record of which only pointers changed. -/
theorem RecOk.of_head {L : Layout} {own own' : ℕ → Use} {m m' : Disk} {a : Ptr} (h : RecOk L own m a)
    (hhead : ∀ i < 136, m' a.blk (a.off + i) = m a.blk (a.off + i))
    (hptr : ∀ k < 1034, Fs.ptr m' a k ≠ 0 → own' (Fs.ptr m' a k) = useOf m a k ∧ k < blocksUp (fSize m a))
    (hind : fIndirect m' a ≠ 0 → own' (fIndirect m' a) = .ind a)
    (hdead : a ≠ root → fName m a 0 = 0 → fIndirect m' a = 0) : RecOk L own' m' a := by
  have hsize : fSize m' a = fSize m a := by rw [fSize, head_le32 hhead (by omega), fSize]
  have htype : fType m' a = fType m a := head_le32 hhead (by omega)
  refine ⟨fun k hk hp => ?_, hind, by rw [hsize]; exact h.size, fun hr hn => ?_, by rw [hsize, htype]; exact h.dirSize⟩
  · rw [useOf_congr htype, hsize]
    exact hptr k hk hp
  · have hn0 : fName m a 0 = 0 := (hhead 0 (by omega)).symm.trans hn
    rw [hsize]
    exact ⟨(h.dead hr hn0).1, hdead hr hn0⟩

theorem RecOk.congr {L : Layout} {own own' : ℕ → Use} {m m' : Disk} {a : Ptr} (h : RecOk L own m a)
    (hs : SameFile m m' a) (ho : ∀ b, (own b).owner = some a → own' b = own b) : RecOk L own' m' a := by
  refine h.of_head (fun i hi => hs.1 i (by omega)) (fun k hk hp => ?_) (fun hi => ?_) fun hr hn => ?_
  · rw [hs.ptr] at hp ⊢
    rw [ho]
    · exact h.ptr k hk hp
    · rw [(h.ptr k hk hp).1, useOf]
      split_ifs <;> rfl
  · rw [hs.1.fIndirect] at hi ⊢
    rw [ho, h.ind hi]
    rw [h.ind hi]
    rfl
  · rw [hs.1.fIndirect]
    exact (h.dead hr hn).2

/-- A record that holds nothing agrees with any use of the blocks. -/
theorem recOk_of_empty {L : Layout} {own : ℕ → Use} {m : Disk} {a : Ptr} (hs : fSize m a = 0)
    (hi : fIndirect m a = 0) (hd : ∀ k < 10, fDirect m a k = 0) :
    RecOk L own m a ∧ ∀ k, Fs.ptr m a k = 0 := by
  have hptr : ∀ k, Fs.ptr m a k = 0 := by
    intro k
    unfold Fs.ptr
    split_ifs with hk
    · exact hd k hk
    · rfl
  exact ⟨⟨fun k _ hp => absurd (hptr k) hp, fun h => absurd hi h, hs.ge, fun _ _ => ⟨hs, hi⟩,
    fun _ _ => by rw [hs]; exact Int.dvd_zero _⟩, hptr⟩

/-! ### Local changes -/

section
variable {L : Layout} {own own' : ℕ → Use} {m m' : Disk} {a a' : Ptr}

theorem FInv.not_fixed (h : FInv L own m) {b : ℕ} (hb : own b ≠ .none) : ¬ L.Fixed b := fun hf =>
  hb (h.fixed b hf).1

theorem FInv.own_one (h : FInv L own m) : own 1 = .none := (h.fixed 1 (.inl L.rsv_one)).1

theorem FInv.rec_blk (h : FInv L own m) (ha : IsRec own a) (hr : a ≠ root) : a.blk ≠ 1 := by
  rcases ha with rfl | ⟨f, k, j, hd, -, -⟩
  · exact absurd rfl hr
  · intro he
    rw [he, h.own_one] at hd
    cases hd

/-- No record is at the start of the superblock. -/
theorem FInv.rec_off (h : FInv L own m) (ha : IsRec own a) (hb : a.blk = 1) : 8 ≤ a.off := by
  by_cases hr : a = root
  · rw [hr]
    exact le_rfl
  · exact absurd hb (h.rec_blk ha hr)

/-- Two records do not overlap. -/
theorem FInv.rec_disjoint (h : FInv L own m) (ha : IsRec own a) (ha' : IsRec own a') (hne : a' ≠ a) :
    a'.blk ≠ a.blk ∨ a'.off + 256 ≤ a.off ∨ a.off + 256 ≤ a'.off := by
  by_cases hr : a = root
  · left
    rw [hr]
    exact h.rec_blk ha' (hr ▸ hne)
  by_cases hr' : a' = root
  · left
    rw [hr']
    exact (h.rec_blk ha hr).symm
  rcases ha with rfl | ⟨f, k, j, -, hj, ho⟩
  · exact absurd rfl hr
  rcases ha' with rfl | ⟨f', k', j', -, hj', ho'⟩
  · exact absurd rfl hr'
  by_cases hb : a'.blk = a.blk
  · have : a'.off ≠ a.off := fun he => hne (by cases a; cases a'; simp_all)
    omega
  · exact .inl hb

/-- The blocks a function that works on the record `a` may write: indirect and
data blocks of its own, and blocks without a use. -/
def Scratch (own : ℕ → Use) (a : Ptr) (c : ℕ) : Prop :=
  own c = .ind a ∨ (∃ k, own c = .data a k) ∨ (own c = .none ∧ c ≠ 1)

/-- `m'` differs from `m` in the record `a` and in such blocks only. -/
def Local (own : ℕ → Use) (a : Ptr) (m m' : Disk) : Prop :=
  ∀ c i, ¬ (c = a.blk ∧ a.off ≤ i ∧ i < a.off + 256) → ¬ Scratch own a c → m' c i = m c i

theorem Local.sameFile (hl : Local own a m m') (h : FInv L own m) (ha : IsRec own a) (ha' : IsRec own a')
    (hne : a' ≠ a) : SameFile m m' a' := by
  constructor
  · intro i hi
    refine hl _ _ ?_ ?_
    · rintro ⟨h1, h2, h3⟩
      rcases h.rec_disjoint ha ha' hne with hd | hd | hd
      · exact hd h1
      · omega
      · omega
    · rcases ha' with rfl | ⟨f, k, j, hd, -, -⟩
      · rintro (h1 | ⟨k, h1⟩ | ⟨-, h1⟩)
        · rw [show root.blk = 1 from rfl, h.own_one] at h1
          cases h1
        · rw [show root.blk = 1 from rfl, h.own_one] at h1
          cases h1
        · exact h1 rfl
      · simp [Scratch, hd]
  · intro hi
    have ho := (h.recOk a' ha').ind hi
    funext i
    refine hl _ _ ?_ ?_
    · rintro ⟨h1, -, -⟩
      rw [h1] at ho
      rcases ha with rfl | ⟨f, k, j, hd, -, -⟩
      · rw [show root.blk = 1 from rfl, h.own_one] at ho
        cases ho
      · rw [hd] at ho
        cases ho
    · simp only [Scratch, ho, Use.ind.injEq, reduceCtorEq, exists_const, false_and, or_false]
      exact hne

theorem Local.nblocks (hl : Local own a m m') (h : FInv L own m) (ha : IsRec own a) :
    (m' 1).le32 4 = L.nb := by
  rw [← h.nblocks]
  refine le32_congr fun i hi => hl _ _ ?_ ?_
  · rintro ⟨h1, h2, -⟩
    by_cases hr : a = root
    · rw [hr] at h2
      simp only [root] at h2
      omega
    · exact h.rec_blk ha hr h1.symm
  · simp [Scratch, h.own_one]

/-- How the invariant is kept. Blocks change their use only if they belong to
`a` or to nobody, and the entries of a new directory block are in order. -/
theorem FInv.of_local (h : FInv L own m) (ha : IsRec own a) (hl : Local own a m m')
    (hown : ∀ c, own' c ≠ own c → (own c).owner = some a ∨ own c = .none)
    (hnew : ∀ c f k, own' c = .dir f k → own' c ≠ own c → ∀ j < 16, RecOk L own' m' ⟨c, 256 * j⟩)
    (hused : ∀ b, own' b ≠ .none → b < L.nb ∧ bitSet m' b = false)
    (hfixed : ∀ b, L.Fixed b → own' b = .none ∧ bitSet m' b = false)
    (hrec : IsRec own' a → RecOk L own' m' a) (hroot : a = root → fType m' root = 1) : FInv L own' m' where
  nblocks := hl.nblocks h ha
  used := hused
  fixed := hfixed
  rootDir := by
    by_cases hr : a = root
    · exact hroot hr
    · rw [(hl.sameFile h ha (Or.inl rfl) (Ne.symm hr)).1.fType, h.rootDir]
  recOk := by
    intro a' ha'
    by_cases hne : a' = a
    · subst hne
      exact hrec ha'
    by_cases hold : IsRec own a'
    · refine (h.recOk a' hold).congr (hl.sameFile h ha hold hne) ?_
      -- a block of another record keeps its use
      intro b hb
      by_contra hc
      rcases hown b hc with h1 | h1
      · rw [hb] at h1
        exact hne (Option.some.inj h1)
      · rw [h1] at hb
        exact absurd hb (by simp [Use.owner])
    · rcases ha' with rfl | ⟨f, k, j, hd, hj, ho⟩
      · exact absurd (.inl rfl) hold
      · have hch : own' a'.blk ≠ own a'.blk := by
          intro he
          rw [he] at hd
          exact hold (.inr ⟨f, k, j, hd, hj, ho⟩)
        have := hnew _ f k hd hch j hj
        rwa [← ho] at this

/-- Nothing that is the file system's changed. -/
theorem FInv.of_frame (h : FInv L own m) (hm : ∀ c, c = 1 ∨ own c ≠ .none → m' c = m c)
    (hbit : ∀ b, own b ≠ .none ∨ L.Fixed b → bitSet m b = false → bitSet m' b = false) : FInv L own m' where
  nblocks := by rw [hm 1 (Or.inl rfl), h.nblocks]
  used b hb := ⟨(h.used b hb).1, hbit b (.inl hb) (h.used b hb).2⟩
  fixed b hb := ⟨(h.fixed b hb).1, hbit b (.inr hb) (h.fixed b hb).2⟩
  rootDir := by
    rw [fType, show root.blk = 1 from rfl, hm 1 (Or.inl rfl)]
    exact h.rootDir
  recOk a ha := by
    refine (h.recOk a ha).congr ⟨?_, ?_⟩ fun _ _ => rfl
    · intro i _
      rw [hm]
      rcases ha with rfl | ⟨f, k, j, hd, -, -⟩
      · exact .inl rfl
      · exact .inr (by simp [hd])
    · intro hi
      refine hm _ (.inr ?_)
      simp [(h.recOk a ha).ind hi]

/-! ### References -/

/-- A place in a `File` that names a block: its pointer to block `k` of the
file, in the record or in the indirect block, or `f_indirect`. -/
inductive Ref
  | block (f : Ptr) (k : ℕ)
  | indirect (f : Ptr)
  deriving DecidableEq

def Ref.file : Ref → Ptr
  | .block f _ => f
  | .indirect f => f

/-- Block `b` is named there. -/
def Names (m : Disk) : Ref → ℕ → Prop
  | .block f k, b => k < 1034 ∧ ptr m f k = b ∧ b ≠ 0
  | .indirect f, b => fIndirect m f = b ∧ b ≠ 0

/-- The use of a block named at `r`. -/
def Ref.use (m : Disk) : Ref → Use
  | .block f k => useOf m f k
  | .indirect f => .ind f

theorem Ref.use_ne (m : Disk) (r : Ref) : r.use m ≠ .none := by
  cases r with
  | block f k =>
    rw [use, useOf]
    split_ifs <;> simp
  | indirect f => simp [use]

theorem Ref.use_inj {m : Disk} {r r' : Ref} (h : r.use m = r'.use m) : r = r' := by
  rcases r with ⟨f, k⟩ | f <;> rcases r' with ⟨f', k'⟩ | f' <;> simp only [use, useOf] at h
  · split_ifs at h <;> simp_all
  · split_ifs at h
  · split_ifs at h
  · simp_all

theorem SameFile.names {m m' : Disk} {r : Ref} (h : SameFile m m' r.file) {b : ℕ} : Names m' r b ↔ Names m r b := by
  cases r with
  | block f k =>
    have := h.ptr k
    simp only [Names, Ref.file] at this ⊢
    rw [this]
  | indirect f =>
    have := h.1.fIndirect
    simp only [Names, Ref.file] at this ⊢
    rw [this]

theorem FInv.own_names (h : FInv L own m) {r : Ref} {b : ℕ} (hr : IsRec own r.file) (hn : Names m r b) :
    own b = r.use m := by
  cases r with
  | block f k =>
    obtain ⟨hk, rfl, hb⟩ := hn
    exact ((h.recOk f hr).ptr k hk hb).1
  | indirect f =>
    obtain ⟨rfl, hb⟩ := hn
    exact (h.recOk f hr).ind hb

end

end Fs
end Jos
