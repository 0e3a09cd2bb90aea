/-
# Allocating blocks (file_block_walk, file_get_block)

Reading a file or a directory may allocate: `file_get_block` fills a hole with
a cleared block. `Grown` is what such a call does to the file system: every
record keeps its name, type and size and every pointer it has, a pointer that
is new names a blank block, and contents stay. It is transitive, so it is also
what every function does that only calls such functions (`dir_lookup`,
`walk_path`, `file_read`); `GrownBut` leaves out the contents of the files that
are written.

`Fails` is how these functions fail: an error with the file system grown. The
blocks they touch are there (`FInv.here_kept`), so the only assertion that can
fail is the one on the size of a directory.

Key definitions: `GrownBut`, `Grown`, `Fails`, `Fresh`.
Key theorems: `GrownBut.trans`, `FInv.here_kept`, `grown_slot`, `fileBlockWalk_run`.
-/
import Jos.Fs.Shape

namespace Jos
namespace Fs

open Block Function

/-- A record that is in the tree: the root or an entry with a name. -/
def Live (m : Disk) (a : Ptr) : Prop := a = root ∨ fName m a 0 ≠ 0

/-- Block `b` of the file `a` holds nothing yet. -/
def Blank (m : Disk) (a : Ptr) (b : ℕ) : Prop :=
  (fType m a = 1 → ∀ j < 16, fName m ⟨b, 256 * j⟩ 0 = 0) ∧ (fType m a ≠ 1 → ∀ i < 4096, m b i = 0)

/-- The file system only grew, but for the contents of the regular files `X`. -/
structure GrownBut (L : Layout) (own own' : ℕ → Use) (X : Ptr → Prop) (s s' : FsSt) : Prop where
  start : FInv L own s.mem
  reg : ∀ a, X a → fType s.mem a ≠ 1
  inv : FInv L own' s'.mem
  keeps : Keeps L.J s s'
  bitmap : s.dirty 2 = false → s'.dirty 2 = false
  ext : ∀ b, own b ≠ .none → own' b = own b
  head : ∀ a, IsRec own a → ∀ i < 136, s'.mem a.blk (a.off + i) = s.mem a.blk (a.off + i)
  ptr : ∀ a, IsRec own a → ∀ k < 1034, Fs.ptr s.mem a k ≠ 0 → Fs.ptr s'.mem a k = Fs.ptr s.mem a k
  ind : ∀ a, IsRec own a → fIndirect s.mem a ≠ 0 → fIndirect s'.mem a = fIndirect s.mem a
  new : ∀ a, IsRec own a → ¬ X a → ∀ k < 1034, Fs.ptr s.mem a k = 0 → Fs.ptr s'.mem a k ≠ 0 →
    Blank s'.mem a (Fs.ptr s'.mem a k)
  /-- A block that has got a use is named in a file. -/
  fresh : ∀ b, own b = .none → own' b ≠ .none → ∃ r : Ref, IsRec own r.file ∧ Live s.mem r.file ∧ Names s'.mem r b
  data : ∀ b f k, own b = .data f k → ¬ X f → s'.mem b = s.mem b
  /-- No block is in use without being used that was not before. -/
  leak : ∀ b < L.nb, bitSet s'.mem b = false → own' b = .none → bitSet s.mem b = false ∧ own b = .none

/-- The file system only grew. -/
abbrev Grown (L : Layout) (own own' : ℕ → Use) (s s' : FsSt) : Prop := GrownBut L own own' (fun _ => False) s s'

/-- How a function that only grows the file system fails. An error is that of
a full disk, or one of those in `P`; a panic is possible only without `D`. -/
def Fails (L : Layout) (own : ℕ → Use) (s : FsSt) (D : Prop) (P : Err → FsSt → Prop) : Fault → FsSt → Prop
  | .err e, s' => ∃ own', Grown L own own' s s' ∧ ((e = .noDisk ∧ .full ∈ s'.trace) ∨ P e s')
  | .panic _, s' => Keeps L.J s s' ∧ ¬ D

section
variable {L : Layout} {own own' own'' : ℕ → Use} {s s' s'' : FsSt} {a : Ptr} {X : Ptr → Prop} {P P' : Err → FsSt → Prop}

theorem isRec_grown (hown : ∀ b, own b ≠ .none → own' b = own b) (ha : IsRec own a) : IsRec own' a := by
  rcases ha with rfl | ⟨f, k, j, hd, hj, ho⟩
  · exact .inl rfl
  · refine .inr ⟨f, k, j, ?_, hj, ho⟩
    rw [hown _ (by simp [hd]), hd]

/-- When blocks are only added, and directory blocks blank, the records in use
are old ones. -/
theorem isRec_of_live {m m' : Disk} (hm : FInv L own m) (hm' : FInv L own' m')
    (ext : ∀ b, own b ≠ .none → own' b = own b)
    (hptr : ∀ f, IsRec own f → ∀ k < 1034, ptr m f k ≠ 0 → ptr m' f k = ptr m f k)
    (fresh : ∀ b, own b = .none → own' b ≠ .none → ∃ r : Ref, IsRec own r.file ∧ Names m' r b)
    (blank : ∀ f, IsRec own f → fType m' f = 1 → ∀ k < 1034, ptr m f k = 0 → ptr m' f k ≠ 0 →
      ∀ j < 16, fName m' ⟨ptr m' f k, 256 * j⟩ 0 = 0)
    (ha : IsRec own' a) (hl : Live m' a) : IsRec own a := by
  rcases ha with rfl | ⟨f, k, j, hd, hj, ho⟩
  · exact .inl rfl
  by_cases hn : own a.blk = .none
  · -- the block is new, so it is a blank block of the directory `f`
    obtain ⟨r, hr, hnames⟩ := fresh a.blk hn (by simp [hd])
    have hu := hm'.own_names (isRec_grown ext hr) hnames
    rw [hd] at hu
    cases r with
    | indirect g => simp [Ref.use] at hu
    | block g k' =>
      rw [Ref.use, useOf] at hu
      split_ifs at hu with ht
      obtain ⟨rfl, rfl⟩ : f = g ∧ k = k' := by simpa using hu
      obtain ⟨hk, hp, h0⟩ := hnames
      have hp0 : ptr m f k = 0 := by
        by_contra hc
        have hsame := hptr f hr k hk hc
        rw [hp] at hsame
        have huse := hm.own_names (r := .block f k) hr ⟨hk, rfl, hc⟩
        rw [← hsame, hn] at huse
        exact (Ref.block f k).use_ne m huse.symm
      have hb := blank f hr ht k hk hp0 (by rw [hp]; exact h0) j hj
      rw [hp] at hb
      rcases hl with rfl | hl
      · exact .inl rfl
      · refine absurd ?_ hl
        rw [fName, ho]
        exact hb
  · rw [ext _ hn] at hd
    exact .inr ⟨f, k, j, hd, hj, ho⟩

namespace GrownBut

theorem isRec (h : GrownBut L own own' X s s') (ha : IsRec own a) : IsRec own' a := isRec_grown h.ext ha

theorem fSize (h : GrownBut L own own' X s s') (ha : IsRec own a) : fSize s'.mem a = fSize s.mem a := by
  rw [Fs.fSize, head_le32 (h.head a ha) (by omega), Fs.fSize]

theorem fType (h : GrownBut L own own' X s s') (ha : IsRec own a) : fType s'.mem a = fType s.mem a :=
  head_le32 (h.head a ha) (by omega)

theorem fName (h : GrownBut L own own' X s s') (ha : IsRec own a) {i : ℕ} (hi : i < 128) :
    fName s'.mem a i = fName s.mem a i := h.head a ha i (by omega)

variable (h : GrownBut L own own' X s s')
include h

theorem live (ha : IsRec own a) : Live s'.mem a ↔ Live s.mem a := by
  rw [Live, Live, h.fName ha (by omega)]

/-- A blank block stays blank. -/
theorem blank (ha : IsRec own a) (hX : ¬ X a) {k : ℕ} (hk : k < 1034)
    (hp : Fs.ptr s.mem a k ≠ 0) (hb : Blank s.mem a (Fs.ptr s.mem a k)) :
    Blank s'.mem a (Fs.ptr s.mem a k) := by
  have hu := ((h.start.recOk a ha).ptr k hk hp).1
  rw [Blank, h.fType ha]
  constructor
  · intro ht j hj
    rw [useOf, if_pos ht] at hu
    rw [h.fName (Or.inr ⟨a, k, j, hu, hj, rfl⟩) (by omega)]
    exact hb.1 ht j hj
  · intro ht i hi
    rw [useOf, if_neg ht] at hu
    rw [h.data _ _ _ hu hX]
    exact hb.2 ht i hi

theorem names {r : Ref} {b : ℕ} (hr : IsRec own r.file) (hn : Names s.mem r b) :
    Names s'.mem r b := by
  cases r with
  | block f k =>
    obtain ⟨hk, rfl, hb⟩ := hn
    exact ⟨hk, h.ptr f hr k hk hb, hb⟩
  | indirect f =>
    obtain ⟨rfl, hb⟩ := hn
    exact ⟨h.ind f hr hb, hb⟩

/-- The entries of a new directory block are not in use. -/
theorem old_of_live (ha : IsRec own' a) (hl : Live s'.mem a) : IsRec own a :=
  isRec_of_live h.start h.inv h.ext h.ptr (fun b h0 h1 => (h.fresh b h0 h1).imp fun _ hr => ⟨hr.1, hr.2.2⟩)
    (fun f hf ht k hk h0 h1 => (h.new f hf (fun hX => h.reg f hX ((h.fType hf).symm.trans ht)) k hk h0 h1).1 ht) ha hl

omit h

theorem trans (h : GrownBut L own own' X s s') (h' : GrownBut L own' own'' X s' s'') : GrownBut L own own'' X s s'' where
  start := h.start
  reg := h.reg
  inv := h'.inv
  keeps := h.keeps.trans h'.keeps
  bitmap := h'.bitmap ∘ h.bitmap
  ext b hb := by
    have h1 := h.ext b hb
    rw [h'.ext b (by rwa [h1]), h1]
  head a ha i hi := (h'.head a (h.isRec ha) i hi).trans (h.head a ha i hi)
  ptr a ha k hk hp := by
    have h1 := h.ptr a ha k hk hp
    rw [h'.ptr a (h.isRec ha) k hk (by rwa [h1]), h1]
  ind a ha hi0 := by
    have h1 := h.ind a ha hi0
    rw [h'.ind a (h.isRec ha) (by rwa [h1]), h1]
  fresh b h0 h1 := by
    by_cases hm : own' b = .none
    · obtain ⟨r, hr, hl, hn⟩ := h'.fresh b hm h1
      have hr0 := h.old_of_live hr hl
      exact ⟨r, hr0, (h.live hr0).mp hl, hn⟩
    · obtain ⟨r, hr, hl, hn⟩ := h.fresh b h0 hm
      exact ⟨r, hr, hl, h'.names (h.isRec hr) hn⟩
  new a ha hX k hk h0 h1 := by
    by_cases hm : Fs.ptr s'.mem a k = 0
    · exact h'.new a (h.isRec ha) hX k hk hm h1
    · have hb := h.new a ha hX k hk h0 hm
      rw [h'.ptr a (h.isRec ha) k hk hm]
      exact h'.blank (h.isRec ha) hX hk hm hb
  data b f k hb hX := by
    rw [h'.data b f k (by rw [h.ext b (by simp [hb]), hb]) hX, h.data b f k hb hX]
  leak b hlt hb hn := by
    obtain ⟨h1, h2⟩ := h'.leak b hlt hb hn
    exact h.leak b hlt h1 h2

end GrownBut

/-- Blocks were read, or the full disk was noted. -/
theorem grown_of_mem (h : FInv L own s.mem) (hm : s'.mem = s.mem) (hk : Keeps L.J s s') (hd : s'.dirty = s.dirty) :
    Grown L own own s s' where
  start := h
  reg _ hX := hX.elim
  inv := by rwa [hm]
  keeps := hk
  bitmap := by rw [hd]; exact id
  ext _ _ := rfl
  head _ _ _ _ := by rw [hm]
  ptr _ _ _ _ _ := by rw [hm]
  ind _ _ _ := by rw [hm]
  new _ _ _ _ _ h0 h1 := by rw [hm] at h1; exact absurd h0 h1
  fresh _ h0 h1 := absurd h0 h1
  data _ _ _ _ _ := by rw [hm]
  leak _ _ h1 h2 := by rw [hm] at h1; exact ⟨h1, h2⟩

theorem Grown.refl (h : FInv L own s.mem) : Grown L own own s s := grown_of_mem h rfl (Keeps.refl _ s) rfl

theorem grown_of_loaded (h : FInv L own s.mem) (hl : Loaded s s') : Grown L own own s s' :=
  grown_of_mem h hl.mem (hl.keeps _) hl.dirty

theorem grown_log_full (h : FInv L own s.mem) : Grown L own own s (s.log .full) :=
  grown_of_mem h rfl (keeps_log trivial) rfl

/-- A failure after some growth. -/
theorem Fails.of_grown {D D' : Prop} {e : Fault} (hg : Grown L own own' s s') (h : Fails L own' s' D P e s'') (hD : D' → D)
    (hP : ∀ e own'', Grown L own' own'' s' s'' → P e s'' → P' e s'') : Fails L own s D' P' e s'' := by
  cases e with
  | err e =>
    obtain ⟨own2, h1, h2⟩ := h
    exact ⟨own2, hg.trans h1, h2.imp_right (hP e own2 h1)⟩
  | panic p => exact ⟨hg.keeps.trans h.1, h.2 ∘ hD⟩

theorem Fails.err {D : Prop} {e : Fault} (h : Fails L own s D P e s') (hD : D) : ∃ er, e = .err er := by
  cases e with
  | err er => exact ⟨er, rfl⟩
  | panic p => exact absurd hD h.2

/-! ### A new block -/

/-- Block `b` was allocated and cleared. -/
structure Fresh (L : Layout) (own : ℕ → Use) (b : ℕ) (s s' : FsSt) : Prop where
  start : FInv L own s.mem
  inv : FInv L own s'.mem
  keeps : Keeps L.J s s'
  bitmap : s.dirty 2 = false → s'.dirty 2 = false
  ne : b ≠ 0
  lt : b < L.nb
  unowned : own b = .none
  notFixed : ¬ L.Fixed b
  inUse : bitSet s'.mem b = false
  zero : ∀ i < 4096, s'.mem b i = 0
  mem : ∀ c, c = 1 ∨ own c ≠ .none → s'.mem c = s.mem c
  bits : ∀ c < L.nb, c ≠ b → bitSet s'.mem c = bitSet s.mem c

theorem FInv.nblocks_eq (h : FInv L own s.mem) : s.nblocks = L.nb := h.nblocks

theorem FInv.two_lt (h : FInv L own s.mem) : 2 < s.nblocks := by
  have := L.nb3
  rw [h.nblocks_eq]
  omega

/-- Marking a block that is not fixed leaves the journal alone. -/
theorem Marked.keeps_layout {b : ℕ} {v : Bool} (hm : Marked b v s s') (hlt : b < L.nb) (hnf : ¬ L.Fixed b) :
    Keeps L.J s s' := by
  refine hm.keeps (fun hj => hnf (.inr hj)) ?_ L.not_J_two ?_
  · rintro c hc rfl
    exact Layout.not_J_bitBlk hlt hc
  · rintro rfl
    exact hnf (.inl (.inl (by omega)))

/-- `alloc_block`, then `memset`. -/
theorem fresh_of_marked {b : ℕ} {s1 : FsSt} (h : FInv L own s.mem) (hb0 : b ≠ 0) (hlt : b < L.nb)
    (hfree : bitSet s.mem b = true) (h1 : Marked b false s s1) (h2 : Stored b 0 BLKSIZE (fun _ => 0) s1 s') :
    Fresh L own b s s' := by
  have hnf : ¬ L.Fixed b := fun hf => by
    rw [(h.fixed b hf).2] at hfree
    cases hfree
  have hown : own b = .none := by
    by_contra hc
    rw [(h.used b hc).2] at hfree
    cases hfree
  have hJ : ¬ L.J b := fun hj => hnf (.inr hj)
  have hbb : ∀ c, c < L.nb → bitBlk c ≠ b := by
    rintro c hc rfl
    exact hnf (.inl (Layout.bitBlk_rsv hc))
  have hmem : ∀ c, c = 1 ∨ own c ≠ .none → s'.mem c = s.mem c := by
    intro c hc
    have hcb : c ≠ b := by
      rintro rfl
      rcases hc with rfl | hc
      · exact hnf (.inl L.rsv_one)
      · exact hc hown
    have hcm : c ≠ bitBlk b := by
      rintro rfl
      rcases hc with hc | hc
      · have := two_le_bitBlk b
        omega
      · exact hc (h.fixed _ (.inl (Layout.bitBlk_rsv hlt))).1
    rw [h2.mem, update_of_ne hcb, h1.mem c hcm]
  have hbits : ∀ c < L.nb, bitSet s'.mem c = bitSet s1.mem c := by
    intro c hc
    refine bitSet_congr ?_
    rw [h2.mem, update_of_ne (hbb c hc)]
  have hin : bitSet s'.mem b = false := by rw [hbits b hlt, h1.bit, if_pos rfl]
  refine ⟨h, ?_, ?_, ?_, hb0, hlt, hown, hnf, hin, ?_, hmem, ?_⟩
  · refine h.of_frame hmem fun c hc hcf => ?_
    have hclt : c < L.nb := by
      rcases hc with hc | hc
      · exact (h.used c hc).1
      · exact Layout.fixed_lt hc
    rw [hbits c hclt, h1.bit, hcf, ite_self]
  · have hgt : 3 < b := not_le.mp fun hle => hnf (.inl (.inl hle))
    exact (h1.keeps_layout hlt hnf).trans
      (h2.keeps hJ (fun c hc => hbb c (L.journal c hc).1) (by omega) (by omega))
  · intro _
    rw [h2.dirty, h1.dirty, update_of_ne, update_self]
    rintro rfl
    exact hnf (.inl (.inl (by omega)))
  · intro i hi
    rw [h2.mem, update_self, write_in (by omega) (by simpa using hi)]
  · intro c hc hne
    rw [hbits c hc, h1.bit, if_neg hne]

/-! ### The place of a pointer -/

/-- `p` is where the number of block `k` of the file `a` is stored. -/
def IsSlot (m : Disk) (a : Ptr) (k : ℕ) (p : Ptr) : Prop :=
  (k < 10 ∧ p = ⟨a.blk, a.off + 136 + 4 * k⟩) ∨
    (10 ≤ k ∧ k < 1034 ∧ fIndirect m a ≠ 0 ∧ p = ⟨fIndirect m a, 4 * (k - 10)⟩)

/-- `*p = v`. -/
def setSlot (m : Disk) (p : Ptr) (v : ℕ) : Disk := update m p.blk ((m p.blk).put32 p.off v)

theorem IsSlot.ptr {m : Disk} {k : ℕ} {p : Ptr} (h : IsSlot m a k p) : Fs.ptr m a k = (m p.blk).le32 p.off := by
  rcases h with ⟨hk, rfl⟩ | ⟨hk, -, hi, rfl⟩
  · rw [Fs.ptr, if_pos hk, fDirect]
  · rw [Fs.ptr, if_neg (by omega), if_neg hi]

section Slot
variable {m : Disk} {k v : ℕ} {p : Ptr}

theorem IsRec.ne_ind (h : FInv L own m) (ha : IsRec own a) {b : ℕ} {f : Ptr} (hb : own b = .ind f) :
    b ≠ a.blk := by
  rintro rfl
  rcases ha with rfl | ⟨f, k, j, hd, -, -⟩
  · rw [show root.blk = 1 from rfl, h.own_one] at hb
    cases hb
  · rw [hb] at hd
    cases hd

theorem setSlot_local (h : FInv L own m) (ha : IsRec own a) (hs : IsSlot m a k p) :
    Local own a m (setSlot m p v) := by
  intro c i hc hsc
  by_cases hp : c = p.blk
  · subst hp
    rcases hs with ⟨hk, rfl⟩ | ⟨-, -, hi, rfl⟩
    · rw [setSlot, update_self, put32_out]
      by_contra hn
      exact hc ⟨rfl, by simp only at hn; omega, by simp only at hn; omega⟩
    · exact absurd (.inl ((h.recOk a ha).ind hi)) hsc
  · rw [setSlot, update_of_ne hp]

/-- Storing a pointer leaves the rest of the record. -/
theorem setSlot_head (h : FInv L own m) (ha : IsRec own a) (hs : IsSlot m a k p) {i : ℕ}
    (hi : i < 136 ∨ 176 ≤ i) : setSlot m p v a.blk (a.off + i) = m a.blk (a.off + i) := by
  rcases hs with ⟨hk, rfl⟩ | ⟨-, -, hind, rfl⟩
  · rw [setSlot, update_self, put32_out]
    simp only
    omega
  · rw [setSlot, update_of_ne (((h.recOk a ha).ind hind |> ha.ne_ind h)).symm]

theorem setSlot_ind (h : FInv L own m) (ha : IsRec own a) (hs : IsSlot m a k p) :
    fIndirect (setSlot m p v) a = fIndirect m a := by
  refine le32_congr fun i hi => ?_
  rw [Nat.add_assoc]
  exact setSlot_head h ha hs (by omega)

theorem setSlot_ptr (h : FInv L own m) (ha : IsRec own a) (hs : IsSlot m a k p) (k' : ℕ) :
    Fs.ptr (setSlot m p v) a k' = if k' = k then v % 2 ^ 32 else Fs.ptr m a k' := by
  have hi := setSlot_ind (v := v) h ha hs
  rcases hs with ⟨hk, rfl⟩ | ⟨hk, -, hind, rfl⟩
  · unfold Fs.ptr
    rw [hi]
    by_cases hk' : k' < 10
    · rw [if_pos hk', if_pos hk', fDirect, setSlot, update_self]
      split_ifs with he
      · rw [he, le32_put32]
      · rw [le32_put32_out (by dsimp only; omega), fDirect]
    · rw [if_neg hk', if_neg hk', if_neg (show k' ≠ k by omega)]
      split_ifs with h0
      · rfl
      · rw [setSlot, update_of_ne]
        exact ha.ne_ind h ((h.recOk a ha).ind h0)
  · unfold Fs.ptr
    rw [hi, if_neg hind, if_neg hind]
    by_cases hk' : k' < 10
    · rw [if_pos hk', if_pos hk', if_neg (show k' ≠ k by omega), fDirect, setSlot,
        update_of_ne, fDirect]
      exact (ha.ne_ind h ((h.recOk a ha).ind hind)).symm
    · rw [if_neg hk', if_neg hk', setSlot, update_self]
      split_ifs with he
      · rw [he, le32_put32]
      · rw [le32_put32_out (by dsimp only; omega)]

end Slot

/-! ### Attaching a new block -/

/-- The entries of a cleared block hold nothing. -/
theorem recOk_zero {m : Disk} {b j : ℕ} (hz : ∀ i < 4096, m b i = 0) (hj : j < 16) :
    RecOk L own m ⟨b, 256 * j⟩ := by
  have hw : ∀ o, o + 4 ≤ 256 → (m b).le32 (256 * j + o) = 0 := fun o ho => by
    rw [← le32_zero 0]
    exact le32_congr fun i hi => hz _ (by omega)
  refine (recOk_of_empty (a := ⟨b, 256 * j⟩) ?_ (hw 176 (by omega)) fun k hk => ?_).1
  · rw [Fs.fSize, hw 128 (by omega)]
    rfl
  · rw [fDirect, Nat.add_assoc]
    exact hw (136 + 4 * k) (by omega)

/-- The block a record is in, or its indirect block. -/
def Home (own : ℕ → Use) (a : Ptr) (c : ℕ) : Prop := c = a.blk ∨ own c = .ind a

theorem Home.cases {c : ℕ} (hc : Home own a c) (ha : IsRec own a) :
    c = 1 ∨ (∃ f k, own c = .dir f k) ∨ own c = .ind a := by
  rcases hc with rfl | hc
  · rcases ha with rfl | ⟨f, k, j, hd, -, -⟩
    · exact .inl rfl
    · exact .inr (.inl ⟨f, k, hd⟩)
  · exact .inr (.inr hc)

theorem Home.kept {c : ℕ} (hc : Home own a c) (ha : IsRec own a) : c = 1 ∨ own c ≠ .none := by
  rcases hc.cases ha with h | ⟨f, k, h⟩ | h
  · exact .inl h
  · exact .inr (by simp [h])
  · exact .inr (by simp [h])

theorem IsRec.kept (ha : IsRec own a) : a.blk = 1 ∨ own a.blk ≠ .none := (show Home own a a.blk from .inl rfl).kept ha

/-- A record, or an indirect block, is not in a data block. -/
theorem Home.ne_data {m : Disk} {c d k : ℕ} {f : Ptr} (hc : Home own a c) (h : FInv L own m) (ha : IsRec own a)
    (hd : own d = .data f k) : d ≠ c := by
  rintro rfl
  rcases hc.cases ha with h1 | ⟨f', k', h1⟩ | h1
  · rw [h1, h.own_one] at hd
    cases hd
  all_goals
    rw [h1] at hd
    cases hd

theorem IsRec.ne_data {m : Disk} (h : FInv L own m) (ha : IsRec own a) {c : ℕ} {g : Ptr} {k : ℕ}
    (hc : own c = .data g k) : c ≠ a.blk := (show Home own a a.blk from .inl rfl).ne_data h ha hc

theorem FInv.own_zero {m : Disk} (h : FInv L own m) : own 0 = .none := (h.fixed 0 (.inl (.inl (by omega)))).1

theorem Home.off_ge {m : Disk} {c off : ℕ} (hc : Home own a c) (h : FInv L own m) (ha : IsRec own a)
    (hin : c = a.blk → a.off ≤ off) (h1 : c = 1) : 8 ≤ off := by
  rcases hc with hc | hc
  · exact (h.rec_off ha (hc ▸ h1)).trans (hin hc)
  · rw [h1, h.own_one] at hc
    cases hc

theorem FInv.home {m : Disk} {c : ℕ} (h : FInv L own m) (hc : c = 1 ∨ own c ≠ .none) :
    ¬ L.J c ∧ (∀ b < L.nb, bitBlk b ≠ c) ∧ c ≠ 2 ∧ c < L.nb := by
  have h3 := L.nb3
  rcases hc with rfl | hc
  · refine ⟨fun hj => (L.journal 1 hj).2.1 rfl, fun b _ => ?_, by omega, by omega⟩
    have := two_le_bitBlk b
    omega
  · have hf := h.not_fixed hc
    refine ⟨fun hj => hf (.inr hj), ?_, ?_, (h.used c hc).1⟩
    · rintro b hb rfl
      exact hf (.inl (Layout.bitBlk_rsv hb))
    · rintro rfl
      exact hf (.inl (.inl (by omega)))

/-- A store into a block of the file system keeps the bits and the journal. -/
theorem Stored.keeps_home {c off n : ℕ} {src : ℕ → UInt8} (hst : Stored c off n src s s')
    (h : FInv L own s.mem) (hc : c = 1 ∨ own c ≠ .none) (h8 : c = 1 → 8 ≤ off) :
    Keeps L.J s s' ∧ (∀ b < L.nb, bitSet s'.mem b = bitSet s.mem b) ∧ s'.dirty 2 = s.dirty 2 := by
  obtain ⟨h1, h2, h3, -⟩ := h.home hc
  refine ⟨hst.keeps h1 (fun b hb => h2 b (L.journal b hb).1) h3 h8, fun b hb => bitSet_congr ?_, ?_⟩
  · rw [hst.mem, update_of_ne (h2 b hb)]
  · rw [hst.dirty, update_of_ne h3.symm]

/-- A store into a record leaves the journal alone. -/
theorem Stored.keeps_rec {m : Disk} {off n : ℕ} {src : ℕ → UInt8} (hst : Stored a.blk off n src s s')
    (h : FInv L own m) (ha : IsRec own a) (hlo : a.off ≤ off) : Keeps L.J s s' := by
  obtain ⟨h1, h2, h3, -⟩ := h.home (ha.kept)
  exact hst.keeps h1 (fun b hb => h2 b (L.journal b hb).1) h3 fun hb => (h.rec_off ha hb).trans hlo

/-- No pointer is at the start of the superblock. -/
theorem IsSlot.off_ge {m : Disk} {k : ℕ} {p : Ptr} (hs : IsSlot m a k p) (h : FInv L own m) (ha : IsRec own a)
    (hb : p.blk = 1) : 8 ≤ p.off := by
  rcases hs with ⟨-, rfl⟩ | ⟨-, -, hi, rfl⟩
  · have := h.rec_off ha hb
    show 8 ≤ a.off + 136 + 4 * k
    omega
  · have ho := (h.recOk a ha).ind hi
    rw [show fIndirect m a = 1 from hb, h.own_one] at ho
    cases ho

theorem Fresh.ne_kept {b c : ℕ} (hf : Fresh L own b s s') (hc : c = 1 ∨ own c ≠ .none) : b ≠ c := by
  rintro rfl
  rcases hc with h1 | h1
  · exact hf.notFixed (h1 ▸ .inl L.rsv_one)
  · exact h1 hf.unowned

theorem Fresh.sameFile {b : ℕ} {f : Ptr} (h : Fresh L own b s s') (hf : IsRec own f) : SameFile s.mem s'.mem f := by
  have hblk : s'.mem f.blk = s.mem f.blk := h.mem _ (hf.kept)
  exact ⟨fun i _ => by rw [hblk], fun hi => h.mem _ (.inr (by simp [(h.start.recOk f hf).ind hi]))⟩

/-- The pointer to a new block was stored. -/
theorem grown_of_fresh {b c off : ℕ} {src : ℕ → UInt8} {s1 s2 : FsSt} {u : Use} (hf : Fresh L own b s s1)
    (ha : IsRec own a) (hu : u.owner = some a) (hc : Home own a c) (h8 : c = 1 → 8 ≤ off)
    (hst : Stored c off 4 src s1 s2) (hl : Local own a s1.mem s2.mem)
    (hhead : ∀ i < 136, s2.mem a.blk (a.off + i) = s1.mem a.blk (a.off + i))
    (hptr : ∀ k < 1034, Fs.ptr s1.mem a k ≠ 0 → Fs.ptr s2.mem a k = Fs.ptr s1.mem a k)
    (hind : fIndirect s1.mem a ≠ 0 → fIndirect s2.mem a = fIndirect s1.mem a)
    (hnew : ∀ k < 1034, Fs.ptr s1.mem a k = 0 → Fs.ptr s2.mem a k ≠ 0 → Fs.ptr s2.mem a k = b)
    (hlive : Live s1.mem a) (hnames : ∃ r : Ref, r.file = a ∧ Names s2.mem r b)
    (hrec : RecOk L (update own b u) s2.mem a) : Grown L own (update own b u) s s2 := by
  obtain ⟨hk, hbits, hd2⟩ := hst.keeps_home hf.inv (hc.kept ha) h8
  have hzero : ∀ i < 4096, s2.mem b i = 0 := by
    rw [hst.mem, update_of_ne (hf.ne_kept (hc.kept ha))]
    exact hf.zero
  have hne : ∀ c', update own b u c' ≠ own c' → c' = b := fun c' hc' =>
    by_contra fun he => hc' (update_of_ne he _ _)
  refine ⟨hf.start, fun _ hX => hX.elim, ?_, hf.keeps.trans hk, fun h0 => by rw [hd2]; exact hf.bitmap h0, ?_, ?_, ?_, ?_, ?_, ?_, ?_, ?_⟩
  · refine hf.inv.of_local ha hl ?_ ?_ ?_ ?_ (fun _ => hrec) ?_
    · intro c' hc'
      rw [hne c' hc', hf.unowned]
      exact .inr rfl
    · intro c' f k _ hc' j hj
      rw [hne c' hc']
      exact recOk_zero hzero hj
    · intro b' hb'
      by_cases he : b' = b
      · rw [he]
        exact ⟨hf.lt, by rw [hbits b hf.lt, hf.inUse]⟩
      · rw [update_of_ne he] at hb'
        obtain ⟨h1, h2⟩ := hf.inv.used b' hb'
        exact ⟨h1, by rw [hbits b' h1, h2]⟩
    · intro b' hb'
      have he : b' ≠ b := by
        rintro rfl
        exact hf.notFixed hb'
      rw [update_of_ne he, hbits b' (Layout.fixed_lt hb')]
      exact hf.inv.fixed b' hb'
    · rintro rfl
      rw [← hf.inv.rootDir]
      exact head_le32 hhead (by omega)
  · intro b' hb'
    refine update_of_ne ?_ _ _
    rintro rfl
    exact hb' hf.unowned
  · intro a' ha' i hi
    rw [← (hf.sameFile ha').1 i (by omega)]
    by_cases he : a' = a
    · rw [he, hhead i hi]
    · exact (hl.sameFile hf.inv ha ha' he).1 i (by omega)
  · intro a' ha' k hk hp
    rw [← (hf.sameFile ha').ptr] at hp ⊢
    by_cases he : a' = a
    · subst he
      exact hptr k hk hp
    · exact (hl.sameFile hf.inv ha ha' he).ptr k
  · intro a' ha' hi
    rw [← (hf.sameFile ha').1.fIndirect] at hi ⊢
    by_cases he : a' = a
    · subst he
      exact hind hi
    · exact (hl.sameFile hf.inv ha ha' he).1.fIndirect
  · intro a' ha' _ k hk h0 h1
    rw [← (hf.sameFile ha').ptr] at h0
    by_cases he : a' = a
    · subst he
      rw [hnew k hk h0 h1]
      exact ⟨fun _ j hj => hzero _ (by dsimp only; omega), fun _ i hi => hzero i hi⟩
    · rw [(hl.sameFile hf.inv ha ha' he).ptr k] at h1
      exact absurd h0 h1
  · intro b' h0 h1
    have he : b' = b := by
      by_contra he
      rw [update_of_ne he] at h1
      exact h1 h0
    obtain ⟨r, hr, hn⟩ := hnames
    refine ⟨r, hr ▸ ha, ?_, he ▸ hn⟩
    rwa [hr, Live, ← (hf.sameFile ha).1.fName (by omega)]
  · intro b' f k hb' _
    rw [hst.mem, update_of_ne (hc.ne_data hf.inv ha hb'), hf.mem _ (.inr (by simp [hb']))]
  · intro b' hlt hb' hn
    have he : b' ≠ b := by
      rintro rfl
      rw [update_self] at hn
      rw [hn] at hu
      exact absurd hu (by simp [Use.owner])
    rw [update_of_ne he] at hn
    exact ⟨by rw [← hf.bits b' hlt he, ← hbits b' hlt, hb'], hn⟩

theorem FInv.nb_lt {m : Disk} (h : FInv L own m) : L.nb < 2 ^ 32 := h.nblocks ▸ le32_lt _ _

theorem FInv.own_ptr_ne {m : Disk} (h : FInv L own m) (ha : IsRec own a) {k : ℕ} (hk : k < 1034)
    (hp : Fs.ptr m a k ≠ 0) : own (Fs.ptr m a k) ≠ .none := by
  rw [((h.recOk a ha).ptr k hk hp).1, useOf]
  split_ifs <;> simp

theorem Home.slot {m : Disk} {k : ℕ} {p : Ptr} (h : FInv L own m) (ha : IsRec own a) (hs : IsSlot m a k p) :
    Home own a p.blk := by
  rcases hs with ⟨-, rfl⟩ | ⟨-, -, hi, rfl⟩
  · exact .inl rfl
  · exact .inr ((h.recOk a ha).ind hi)

/-- A new block as block `k` of a file. -/
theorem grown_slot {b k : ℕ} {p : Ptr} {s1 s2 : FsSt} (hf : Fresh L own b s s1) (ha : IsRec own a)
    (hlive : Live s1.mem a) (hk : k < 1034) (hsz : k < blocksUp (fSize s1.mem a)) (hs : IsSlot s1.mem a k p)
    (h0 : Fs.ptr s1.mem a k = 0) (hst : Stored p.blk p.off 4 (bytes32 b) s1 s2) :
    Grown L own (update own b (useOf s1.mem a k)) s s2 ∧ Fs.ptr s2.mem a k = b := by
  have hm : s2.mem = setSlot s1.mem p b := hst.mem
  have hb32 : b % 2 ^ 32 = b := Nat.mod_eq_of_lt (hf.lt.trans hf.inv.nb_lt)
  have hptr : ∀ k', Fs.ptr s2.mem a k' = if k' = k then b else Fs.ptr s1.mem a k' := fun k' => by
    rw [hm, setSlot_ptr hf.inv ha hs, hb32]
  have hhead : ∀ i < 136, s2.mem a.blk (a.off + i) = s1.mem a.blk (a.off + i) := fun i hi => by
    rw [hm, setSlot_head hf.inv ha hs (Or.inl hi)]
  have hind : fIndirect s2.mem a = fIndirect s1.mem a := by rw [hm, setSlot_ind hf.inv ha hs]
  have hrec := hf.inv.recOk a ha
  refine ⟨grown_of_fresh hf ha ?_ (Home.slot hf.inv ha hs) (hs.off_ge hf.inv ha) hst ?_ hhead ?_ (fun _ => hind) ?_ hlive
    ⟨.block a k, rfl, hk, by rw [hptr, if_pos rfl], hf.ne⟩ ?_, by rw [hptr, if_pos rfl]⟩
  · rw [useOf]
    split_ifs <;> rfl
  · rw [hm]
    exact setSlot_local hf.inv ha hs
  · intro k' _ hp
    rw [hptr, if_neg]
    rintro rfl
    exact hp h0
  · intro k' _ hp0 hp
    rw [hptr] at hp ⊢
    split_ifs at hp ⊢ with he
    · rfl
    · exact absurd hp0 hp
  · refine hrec.of_head hhead (fun k' hk' hp => ?_) (fun hi => ?_) fun hr hn => absurd hn (hlive.resolve_left hr)
    · rw [hptr] at hp ⊢
      split_ifs at hp ⊢ with he
      · rw [he, update_self]
        exact ⟨rfl, hsz⟩
      · rw [update_of_ne (hf.ne_kept (.inr (hf.inv.own_ptr_ne ha hk' hp))).symm]
        exact hrec.ptr k' hk' hp
    · rw [hind] at hi ⊢
      rw [update_of_ne (hf.ne_kept (.inr (by simp [hrec.ind hi]))).symm, hrec.ind hi]

/-- A store into the record `a` is local to it. -/
theorem Stored.local {off n : ℕ} {src : ℕ → UInt8} (hst : Stored a.blk off n src s s') (hlo : a.off ≤ off)
    (hhi : off + n ≤ a.off + 256) : Local own a s.mem s'.mem := by
  intro c i hc _
  rw [hst.mem]
  by_cases he : c = a.blk
  · rw [he, update_self, write_out]
    by_contra hn
    exact hc ⟨he, by omega, by omega⟩
  · rw [update_of_ne he]

/-- Attaching a cleared indirect block changes no pointer. -/
theorem Fresh.ptr_of_ind {b : ℕ} {f : Ptr} {s1 s2 : FsSt} (hf : Fresh L own b s s1) (ha : IsRec own a)
    (h0 : fIndirect s1.mem a = 0) (hst : Stored a.blk (a.off + 176) 4 (bytes32 b) s1 s2) (hr : IsRec own f) {j : ℕ}
    (hj : j < 1034) : Fs.ptr s2.mem f j = Fs.ptr s1.mem f j := by
  by_cases he : f = a
  · subst he
    have hm : s2.mem = update s1.mem f.blk ((s1.mem f.blk).put32 (f.off + 176) b) := hst.mem
    have hind : fIndirect s2.mem f = b := by
      rw [fIndirect, hm, update_self, le32_put32, Nat.mod_eq_of_lt (hf.lt.trans hf.inv.nb_lt)]
    unfold Fs.ptr
    rw [hind, h0, if_neg hf.ne, if_pos rfl]
    split_ifs with hj10
    · rw [fDirect, hm, update_self, le32_put32_out (by omega), fDirect]
    · rw [← le32_zero 0]
      refine le32_congr fun i hi => ?_
      rw [hm, update_of_ne (hf.ne_kept hr.kept), hf.zero _ (by omega)]
      rfl
  · exact ((hst.local (by omega) (by omega)).sameFile hf.inv ha hr he).ptr j

/-- A new block as the indirect block of a file. -/
theorem grown_ind {b : ℕ} {s1 s2 : FsSt} (hf : Fresh L own b s s1) (ha : IsRec own a)
    (hlive : Live s1.mem a) (h0 : fIndirect s1.mem a = 0)
    (hst : Stored a.blk (a.off + 176) 4 (bytes32 b) s1 s2) :
    Grown L own (update own b (.ind a)) s s2 ∧ fIndirect s2.mem a = b := by
  have hm : s2.mem = update s1.mem a.blk ((s1.mem a.blk).put32 (a.off + 176) b) := hst.mem
  have hb32 : b % 2 ^ 32 = b := Nat.mod_eq_of_lt (hf.lt.trans hf.inv.nb_lt)
  have hind : fIndirect s2.mem a = b := by
    rw [fIndirect, hm, update_self, le32_put32, hb32]
  have hhead : ∀ i < 136, s2.mem a.blk (a.off + i) = s1.mem a.blk (a.off + i) := fun i hi => by
    rw [hm, update_self, put32_out (by omega)]
  have hptr : ∀ k < 1034, Fs.ptr s2.mem a k = Fs.ptr s1.mem a k := fun k hk => hf.ptr_of_ind ha h0 hst ha hk
  have hrec := hf.inv.recOk a ha
  refine ⟨grown_of_fresh hf ha rfl (.inl rfl) (fun hb => by have := hf.inv.rec_off ha hb; omega) hst
    (hst.local (by omega) (by omega)) hhead (fun k hk _ => hptr k hk) (fun hi => absurd h0 hi) ?_ hlive
    ⟨.indirect a, rfl, hind, hf.ne⟩ ?_, hind⟩
  · intro k hk hp0 hp
    rw [hptr k hk] at hp
    exact absurd hp0 hp
  · refine hrec.of_head hhead (fun k hk hp => ?_) (fun _ => by rw [hind, update_self]) fun hr hn =>
      absurd hn (hlive.resolve_left hr)
    rw [hptr k hk] at hp ⊢
    rw [update_of_ne (hf.ne_kept (.inr (hf.inv.own_ptr_ne ha hk hp))).symm]
    exact hrec.ptr k hk hp

/-! ### Blocks that are there -/

section Here
variable {b k : ℕ}

variable (h : FInv L own s.mem)
include h

theorem FInv.here_kept (hb : b = 1 ∨ own b ≠ .none) : Here s b := by
  have hlt : b < s.nblocks := by
    rw [h.nblocks_eq]
    exact (h.home hb).2.2.2
  rcases hb with rfl | hb
  · exact ⟨by omega, hlt, (h.fixed 1 (.inl L.rsv_one)).2⟩
  · refine ⟨?_, hlt, (h.used b hb).2⟩
    rintro rfl
    exact hb (h.fixed 0 (.inl (.inl (by omega)))).1

theorem FInv.here_rec (ha : IsRec own a) : Here s a.blk :=
  h.here_kept (ha.kept)

theorem FInv.here_ind (ha : IsRec own a) (hi : fIndirect s.mem a ≠ 0) :
    Here s (fIndirect s.mem a) :=
  h.here_kept (.inr (by simp [(h.recOk a ha).ind hi]))

theorem FInv.here_ptr (ha : IsRec own a) (hk : k < 1034) (hp : ptr s.mem a k ≠ 0) :
    Here s (ptr s.mem a k) :=
  h.here_kept (.inr (h.own_ptr_ne ha hk hp))

theorem FInv.here_slot (ha : IsRec own a) {p : Ptr} (hs : IsSlot s.mem a k p) : Here s p.blk :=
  h.here_kept ((Home.slot h ha hs).kept ha)

theorem FInv.here_bitBlk (hb : b < s.nblocks) : Here s (bitBlk b) := by
  rw [h.nblocks_eq] at hb
  have hf : L.Fixed (bitBlk b) := .inl (Layout.bitBlk_rsv hb)
  refine ⟨?_, ?_, (h.fixed _ hf).2⟩
  · have := two_le_bitBlk b
    omega
  · rw [h.nblocks_eq]
    exact Layout.fixed_lt hf

/-- A block stays there when another one is stored to. -/
theorem Here.of_stored {b c off n : ℕ} {src : ℕ → UInt8} (hst : Stored c off n src s s')
    (hc : c = 1 ∨ own c ≠ .none) (h8 : c = 1 → 8 ≤ off) (hb : Here s b) : Here s' b := by
  obtain ⟨h0, hlt, hbit⟩ := hb
  have hnb : s'.nblocks = s.nblocks := by
    rw [FsSt.nblocks, hst.mem, FsSt.nblocks]
    by_cases h1 : c = 1
    · rw [← h1, update_self, le32_write_out (Or.inl (h8 h1))]
    · rw [update_of_ne (Ne.symm h1)]
  refine ⟨h0, by rwa [hnb], ?_⟩
  rw [(hst.keeps_home h hc h8).2.1 b (by rwa [← h.nblocks_eq]), hbit]

end Here

/-! ### The functions -/

theorem FInv.ind_ok (h : FInv L own s.mem) (ha : IsRec own a) (hi : fIndirect s.mem a ≠ 0) :
    fIndirect s.mem a < s.nblocks ∧ blockIsFree s (fIndirect s.mem a) = false := by
  have ho := (h.recOk a ha).ind hi
  obtain ⟨h1, h2⟩ := h.used _ (show own (fIndirect s.mem a) ≠ .none by simp [ho])
  refine ⟨by rwa [h.nblocks_eq], ?_⟩
  rw [blockIsFree, h2, Bool.and_false]

/-- `file_block_walk` without allocation reads one pointer's place. -/
theorem fileBlockWalk_run (h : FInv L own s.mem) (ha : IsRec own a) (k : ℕ) :
    Run (fileBlockWalk a k false) s (fun p s' => s' = s ∧ k < 1034 ∧ IsSlot s.mem a k p)
      (fun e s' => s' = s ∧ ((e = .err .inval ∧ 1034 ≤ k) ∨
        (e = .err .notFound ∧ 10 ≤ k ∧ fIndirect s.mem a = 0))) := by
  unfold fileBlockWalk
  by_cases h1 : NDIRECT + NINDIRECT ≤ k
  · rw [if_pos h1]
    exact .throw ⟨rfl, .inl ⟨rfl, h1⟩⟩
  by_cases h2 : k < NDIRECT
  · rw [if_neg h1, if_pos h2]
    exact .pure ⟨rfl, by simp only [NDIRECT] at h2; omega, .inl ⟨h2, rfl⟩⟩
  rw [if_neg h1, if_neg h2]
  simp only [NDIRECT, NINDIRECT, BLKSIZE] at h1 h2
  refine .getBind ?_
  dsimp only
  by_cases h0 : fIndirect s.mem a = 0
  · rw [if_pos h0]
    exact .throw ⟨rfl, .inr ⟨rfl, by omega, h0⟩⟩
  · rw [if_neg h0, (h.ind_ok ha h0).2]
    refine .getBind ?_
    refine .step (diskaddr_run _ s) ?_ ?_
    · rintro _ _ ⟨-, -, hc⟩
      have := (h.ind_ok ha h0).1
      omega
    · rintro _ _ ⟨rfl, rfl, -⟩
      exact .pure ⟨rfl, by omega, .inr ⟨by omega, by omega, h0, rfl⟩⟩

end

end Fs
end Jos
