/-
# The tree of files

The entries of a directory are numbered through its blocks, sixteen in a
block; the ones with a name are its children. `node` follows a list of such
numbers, last one first, from the root; a record is in the tree if some list
leads to it. Under the invariant a record is reached by one list only
(`node_inj`), so no record lies in a block of its own (`not_self`).

`Owned` is what the block pointers of a tree must satisfy, read off the image
alone: every block named is in use, is not reserved, and is named once. It
follows from the invariant (`FInv.owned`), and a consistent image satisfies
the invariant (`Consistent.inv`), so `own` never appears in a result.

Key definitions: `child`, `node`, `InTree`, `Owned`, `Consistent`.
Key theorems: `node_inj`, `FInv.owned`, `Consistent.inv`, `FInv.consistent`, `GrownBut.node`.
-/
import Jos.Fs.Resize
import Mathlib.Tactic.Push

namespace Jos
namespace Fs

open Block

/-- Where entry `k` of the directory `f` is. -/
def entryAt (m : Disk) (f : Ptr) (k : ℕ) : Ptr := ⟨ptr m f (k / 16), 256 * (k % 16)⟩

/-- Entry `k` of the directory `f`, if it is in use. -/
def child (m : Disk) (f : Ptr) (k : ℕ) : Option Ptr :=
  if k / 16 < 1034 ∧ ptr m f (k / 16) ≠ 0 ∧ fName m (entryAt m f k) 0 ≠ 0 then some (entryAt m f k) else none

/-- The record a list of entry numbers leads to, the last number first. -/
def node (m : Disk) : List ℕ → Option Ptr
  | [] => some root
  | k :: sp => (node m sp).bind fun f => if fType m f = 1 then child m f k else none

def InTree (m : Disk) (a : Ptr) : Prop := ∃ sp, node m sp = some a

theorem child_some {m : Disk} {f c : Ptr} {k : ℕ} :
    child m f k = some c ↔ k / 16 < 1034 ∧ ptr m f (k / 16) ≠ 0 ∧ fName m c 0 ≠ 0 ∧ c = entryAt m f k := by
  unfold child
  split_ifs with h
  · constructor
    · rintro ⟨⟩
      exact ⟨h.1, h.2.1, h.2.2, rfl⟩
    · rintro ⟨-, -, -, rfl⟩
      rfl
  · constructor
    · rintro ⟨⟩
    · rintro ⟨h1, h2, h3, rfl⟩
      exact absurd ⟨h1, h2, h3⟩ h

theorem node_cons {m : Disk} {k : ℕ} {sp : List ℕ} {c : Ptr} :
    node m (k :: sp) = some c ↔ ∃ f, node m sp = some f ∧ fType m f = 1 ∧ child m f k = some c := by
  rw [node, Option.bind_eq_some_iff]
  refine exists_congr fun f => and_congr_right fun _ => ?_
  split_ifs with h
  · simp [h]
  · simp [h]

theorem inTree_root (m : Disk) : InTree m root := ⟨[], rfl⟩

theorem InTree.child {m : Disk} {f c : Ptr} {k : ℕ} (h : InTree m f) (ht : fType m f = 1)
    (hc : child m f k = some c) : InTree m c := by
  obtain ⟨sp, hsp⟩ := h
  exact ⟨k :: sp, node_cons.mpr ⟨f, hsp, ht, hc⟩⟩

section
variable {L : Layout} {own own' : ℕ → Use} {m : Disk} {s s' : FsSt} {a f c : Ptr} {k : ℕ} {X : Ptr → Prop}

theorem FInv.own_entry (h : FInv L own m) (hf : IsRec own f) (ht : fType m f = 1) (hk : k / 16 < 1034)
    (hp : ptr m f (k / 16) ≠ 0) : own (entryAt m f k).blk = .dir f (k / 16) := by
  have := ((h.recOk f hf).ptr (k / 16) hk hp).1
  rwa [useOf, if_pos ht] at this

theorem FInv.isRec_entry (h : FInv L own m) (hf : IsRec own f) (ht : fType m f = 1) (hk : k / 16 < 1034)
    (hp : ptr m f (k / 16) ≠ 0) : IsRec own (entryAt m f k) :=
  .inr ⟨f, k / 16, k % 16, h.own_entry hf ht hk hp, Nat.mod_lt _ (by omega), rfl⟩

theorem FInv.node_rec (h : FInv L own m) : ∀ {sp : List ℕ} {a : Ptr}, node m sp = some a → IsRec own a ∧ Live m a
  | [], a, ha => by
    obtain rfl : root = a := Option.some.inj ha
    exact ⟨.inl rfl, .inl rfl⟩
  | k :: sp, a, ha => by
    obtain ⟨f, hf, ht, hc⟩ := node_cons.mp ha
    obtain ⟨h1, h2, h3, rfl⟩ := child_some.mp hc
    exact ⟨h.isRec_entry (h.node_rec hf).1 ht h1 h2, .inr h3⟩

theorem FInv.isRec (h : FInv L own m) (ha : InTree m a) : IsRec own a := by
  obtain ⟨sp, hsp⟩ := ha
  exact (h.node_rec hsp).1

theorem FInv.live (h : FInv L own m) (ha : InTree m a) : Live m a := by
  obtain ⟨sp, hsp⟩ := ha
  exact (h.node_rec hsp).2

/-- A child is in a block of its parent. -/
theorem FInv.own_child (h : FInv L own m) (hf : IsRec own f) (ht : fType m f = 1)
    (hc : Fs.child m f k = some c) : own c.blk = .dir f (k / 16) ∧ c.off = 256 * (k % 16) := by
  obtain ⟨h1, h2, -, rfl⟩ := child_some.mp hc
  exact ⟨h.own_entry hf ht h1 h2, rfl⟩

theorem FInv.child_ne_root {sp : List ℕ} {a : Ptr} (h : FInv L own m) (ha : node m (k :: sp) = some a) : a ≠ root := by
  rintro rfl
  obtain ⟨f, hf, ht, hc⟩ := node_cons.mp ha
  have := (h.own_child (h.node_rec hf).1 ht hc).1
  rw [show root.blk = 1 from rfl, h.own_one] at this
  cases this

/-- One list leads to a record. -/
theorem FInv.node_inj (h : FInv L own m) : ∀ {sp sp' : List ℕ} {a : Ptr},
    node m sp = some a → node m sp' = some a → sp = sp'
  | [], [], _, _, _ => rfl
  | [], k :: sp, a, ha, ha' => absurd (Option.some.inj ha).symm (h.child_ne_root ha')
  | k :: sp, [], a, ha, ha' => absurd (Option.some.inj ha').symm (h.child_ne_root ha)
  | k :: sp, k' :: sp', a, ha, ha' => by
    obtain ⟨f, hf, ht, hc⟩ := node_cons.mp ha
    obtain ⟨f', hf', ht', hc'⟩ := node_cons.mp ha'
    obtain ⟨h1, h2⟩ := h.own_child (h.node_rec hf).1 ht hc
    obtain ⟨h1', h2'⟩ := h.own_child (h.node_rec hf').1 ht' hc'
    rw [h1, Use.dir.injEq] at h1'
    obtain ⟨rfl, hk⟩ := h1'
    rw [h.node_inj hf hf', show k = k' by omega]

theorem FInv.not_self (h : FInv L own m) (ha : InTree m a) (k : ℕ) : own a.blk ≠ .dir a k := by
  obtain ⟨sp, hsp⟩ := ha
  cases sp with
  | nil =>
    obtain rfl : root = a := Option.some.inj hsp
    rw [show root.blk = 1 from rfl, h.own_one]
    simp
  | cons k' sp =>
    intro hd
    obtain ⟨f, hf, ht, hc⟩ := node_cons.mp hsp
    rw [(h.own_child (h.node_rec hf).1 ht hc).1, Use.dir.injEq] at hd
    obtain ⟨rfl, -⟩ := hd
    cases h.node_inj hf hsp

/-! ### How the tree follows the records -/

/-- Records stay in the tree if the entries that lead to them do. `X` are those
that leave it. -/
theorem node_mono {m' : Disk} {X : Ptr → Prop}
    (hstep : ∀ f c k, InTree m f → fType m f = 1 → child m f k = some c → ¬ X c →
      ¬ X f ∧ fType m' f = 1 ∧ child m' f k = some c) :
    ∀ {sp : List ℕ} {a : Ptr}, node m sp = some a → ¬ X a → node m' sp = some a
  | [], _, h, _ => h
  | k :: sp, a, h, hX => by
    obtain ⟨f, hf, ht, hc⟩ := node_cons.mp h
    obtain ⟨hXf, ht', hc'⟩ := hstep f a k ⟨sp, hf⟩ ht hc hX
    exact node_cons.mpr ⟨f, node_mono hstep hf hXf, ht', hc'⟩

/-- The tree is the same if the types and the entries of its directories are. -/
theorem node_congr {m' : Disk} (htype : ∀ f, InTree m f → fType m' f = fType m f)
    (hchild : ∀ f k, InTree m f → fType m f = 1 → child m' f k = child m f k) :
    ∀ sp, node m' sp = node m sp
  | [] => rfl
  | k :: sp => by
    rw [node, node_congr htype hchild sp, node]
    cases hn : node m sp with
    | none => rfl
    | some f =>
      simp only [Option.bind_some]
      rw [htype f ⟨sp, hn⟩]
      split_ifs with ht
      · exact hchild f k ⟨sp, hn⟩ ht
      · rfl

/-- The entries of a directory when blocks are only added to it, blank ones. -/
theorem child_congr {m' : Disk}
    (hptr : ∀ k < 1034, ptr m f k ≠ 0 → ptr m' f k = ptr m f k)
    (hblank : ∀ k < 1034, ptr m f k = 0 → ptr m' f k ≠ 0 → ∀ j < 16, fName m' ⟨ptr m' f k, 256 * j⟩ 0 = 0)
    (hname : ∀ k, k / 16 < 1034 → ptr m f (k / 16) ≠ 0 →
      fName m' (entryAt m f k) 0 = fName m (entryAt m f k) 0) :
    child m' f k = child m f k := by
  by_cases hk : k / 16 < 1034
  · by_cases hp : ptr m f (k / 16) = 0
    · -- a hole, or a blank block in its place
      have h0 : child m f k = none := if_neg (by simp [hp])
      rw [h0]
      by_cases hp' : ptr m' f (k / 16) = 0
      · exact if_neg (by simp [hp'])
      · have hb := hblank _ hk hp hp' (k % 16) (Nat.mod_lt _ (by omega))
        refine if_neg ?_
        rw [entryAt]
        simp [hb]
    · have hp' := hptr _ hk hp
      have hn := hname k hk hp
      unfold child entryAt
      unfold entryAt at hn
      rw [hp', hn]
  · rw [child, child, if_neg (by tauto), if_neg (by tauto)]

theorem GrownBut.child (h : GrownBut L own own' X s s') (hf : IsRec own f)
    (ht : Fs.fType s.mem f = 1) : Fs.child s'.mem f k = Fs.child s.mem f k :=
  child_congr (fun k hk hp => h.ptr f hf k hk hp)
    (fun k hk h0 h1 => (h.new f hf (fun hX => h.reg f hX ht) k hk h0 h1).1 (by rw [h.fType hf, ht]))
    fun k hk hp => h.fName (h.start.isRec_entry hf ht hk hp) (by omega)

theorem GrownBut.node (h : GrownBut L own own' X s s') (sp : List ℕ) : Fs.node s'.mem sp = Fs.node s.mem sp :=
  node_congr (fun _ hf => h.fType (h.start.isRec hf)) (fun _ _ hf ht => h.child (h.start.isRec hf) ht) sp

theorem GrownBut.inTree (h : GrownBut L own own' X s s') : InTree s'.mem a ↔ InTree s.mem a := by
  simp only [InTree, h.node]

end

/-! ### Ownership of blocks -/

/-- Block 0, the superblock, the bitmap blocks and the journal superblock. -/
def Reserved (m : Disk) (b : ℕ) : Prop := b ≤ 3 ∨ b < 2 + ((m 1).le32 4 + 32767) / 32768

/-- Every block named in the tree is in use, is not reserved and is named
once; no file has a block past its size. -/
structure Owned (m : Disk) : Prop where
  inUse : ∀ r b, InTree m r.file → Names m r b → b < (m 1).le32 4 ∧ bitSet m b = false ∧ ¬ Reserved m b
  once : ∀ r r' b, InTree m r.file → InTree m r'.file → Names m r b → Names m r' b → r = r'
  len : ∀ f k, InTree m f → k < 1034 → ptr m f k ≠ 0 → k < blocksUp (fSize m f)

/-- An image with a tree of files in order: the pointers are, sizes are not
negative, and an entry without a name holds nothing. -/
structure Consistent (m : Disk) : Prop where
  nblocks : 3 < (m 1).le32 4
  reserved : ∀ b, Reserved m b → bitSet m b = false
  rootDir : fType m root = 1
  owned : Owned m
  size : ∀ f, InTree m f → 0 ≤ fSize m f
  dead : ∀ f k, InTree m f → fType m f = 1 → k / 16 < 1034 → ptr m f (k / 16) ≠ 0 →
    fName m (entryAt m f k) 0 = 0 → fSize m (entryAt m f k) = 0 ∧ fIndirect m (entryAt m f k) = 0 ∧
      ∀ i < 10, fDirect m (entryAt m f k) i = 0

section
variable {L : Layout} {own : ℕ → Use} {m : Disk}

theorem FInv.owned (h : FInv L own m) : Owned m where
  inUse r b hr hn := by
    have ho := h.own_names (h.isRec hr) hn
    have hne : own b ≠ .none := ho ▸ r.use_ne m
    obtain ⟨h1, h2⟩ := h.used b hne
    refine ⟨by rwa [h.nblocks], h2, fun hres => h.not_fixed hne (.inl ?_)⟩
    rwa [Reserved, h.nblocks] at hres
  once r r' b hr hr' hn hn' := by
    have ho := h.own_names (h.isRec hr) hn
    rw [h.own_names (h.isRec hr') hn'] at ho
    exact (Ref.use_inj ho).symm
  len f k hf hk hp := ((h.recOk f (h.isRec hf)).ptr k hk hp).2

open Classical in
/-- The uses a tree gives to the blocks. -/
noncomputable def ownOf (m : Disk) (b : ℕ) : Use :=
  if h : ∃ r : Ref, InTree m r.file ∧ Names m r b then h.choose.use m else .none

theorem ownOf_names (h : Owned m) {r : Ref} {b : ℕ} (hr : InTree m r.file) (hn : Names m r b) :
    ownOf m b = r.use m := by
  have he : ∃ r : Ref, InTree m r.file ∧ Names m r b := ⟨r, hr, hn⟩
  rw [ownOf, dif_pos he]
  exact congrArg (Ref.use m) (h.once _ _ b he.choose_spec.1 hr he.choose_spec.2 hn)

theorem ownOf_ne {b : ℕ} (h : ownOf m b ≠ .none) :
    ∃ r : Ref, InTree m r.file ∧ Names m r b ∧ ownOf m b = r.use m := by
  unfold ownOf at h ⊢
  split_ifs at h ⊢ with he
  · exact ⟨_, he.choose_spec.1, he.choose_spec.2, rfl⟩
  · exact absurd rfl h

/-- The records of those uses are the root and the entries of directories in
the tree. -/
theorem isRec_ownOf {a : Ptr} (ha : IsRec (ownOf m) a) : a = root ∨ ∃ f k, InTree m f ∧ fType m f = 1 ∧
    k / 16 < 1034 ∧ ptr m f (k / 16) ≠ 0 ∧ a = entryAt m f k := by
  rcases ha with rfl | ⟨f, k, j, hd, hj, ho⟩
  · exact .inl rfl
  obtain ⟨r, hr, hn, hu⟩ := ownOf_ne (show ownOf m a.blk ≠ .none by simp [hd])
  rw [hd] at hu
  cases r with
  | indirect g => simp [Ref.use] at hu
  | block g k' =>
    rw [Ref.use, useOf] at hu
    split_ifs at hu with ht
    obtain ⟨rfl, rfl⟩ : f = g ∧ k = k' := by simpa using hu
    obtain ⟨hk, hp, h0⟩ := hn
    have hk16 : (16 * k + j) / 16 = k := by omega
    refine .inr ⟨f, 16 * k + j, hr, ht, by omega, by rw [hk16, hp]; exact h0, ?_⟩
    rw [entryAt, hk16, hp, show (16 * k + j) % 16 = j by omega, ← ho]

/-- The record of a file in the tree agrees with the uses of its blocks. -/
theorem Consistent.recOk_tree (h : Consistent m) (hD : L.D → ∀ f, InTree m f → fType m f = 1 → (4096 : ℤ) ∣ fSize m f)
    {a : Ptr} (ha : InTree m a) (hl : Live m a) : RecOk L (ownOf m) m a where
  ptr k hk hp :=
    ⟨ownOf_names h.owned (r := .block a k) ha ⟨hk, rfl, hp⟩, h.owned.len a k ha hk hp⟩
  ind hi := ownOf_names h.owned (r := .indirect a) ha ⟨rfl, hi⟩
  size := h.size a ha
  dead hr hn := absurd hn (hl.resolve_left hr)
  dirSize hd := hD hd a ha

/-- A consistent image satisfies the invariant. -/
theorem Consistent.inv (h : Consistent m) (hnb : L.nb = (m 1).le32 4)
    (hJ : ∀ b, L.J b → bitSet m b = false ∧ ∀ r : Ref, InTree m r.file → ¬ Names m r b)
    (hD : L.D → ∀ f, InTree m f → fType m f = 1 → (4096 : ℤ) ∣ fSize m f) : FInv L (ownOf m) m where
  nblocks := hnb.symm
  rootDir := h.rootDir
  used b hb := by
    obtain ⟨r, hr, hn, -⟩ := ownOf_ne hb
    obtain ⟨h1, h2, -⟩ := h.owned.inUse r b hr hn
    exact ⟨by rwa [hnb], h2⟩
  fixed b hb := by
    rcases hb with hb | hb
    · have hres : Reserved m b := by
        rw [Reserved, ← hnb]
        exact hb
      refine ⟨?_, h.reserved b hres⟩
      by_contra hne
      obtain ⟨r, hr, hn, -⟩ := ownOf_ne hne
      exact (h.owned.inUse r b hr hn).2.2 hres
    · obtain ⟨h1, h2⟩ := hJ b hb
      refine ⟨?_, h1⟩
      by_contra hne
      obtain ⟨r, hr, hn, -⟩ := ownOf_ne hne
      exact h2 r hr hn
  recOk a ha := by
    rcases isRec_ownOf ha with rfl | ⟨f, k, hf, ht, hk, hp, rfl⟩
    · exact h.recOk_tree hD (inTree_root m) (.inl rfl)
    by_cases hname : fName m (entryAt m f k) 0 = 0
    · obtain ⟨h1, h2, h3⟩ := h.dead f k hf ht hk hp hname
      exact (recOk_of_empty h1 h2 h3).1
    · have hc : child m f k = some (entryAt m f k) := child_some.mpr ⟨hk, hp, hname, rfl⟩
      exact h.recOk_tree hD (.child hf ht hc) (.inr hname)

end

/-- The image of a file system in order. -/
theorem FInv.consistent {L : Layout} {own : ℕ → Use} {m : Disk} (h : FInv L own m) : Consistent m := by
  refine ⟨by rw [h.nblocks]; exact L.nb3, fun b hb => (h.fixed b (.inl ?_)).2, h.rootDir, h.owned,
    fun f hf => (h.recOk f (h.isRec hf)).size, fun f k hf ht hk hp hn => ?_⟩
  · rw [Reserved, h.nblocks] at hb
    exact hb
  · have hrec := h.isRec_entry (h.isRec hf) ht hk hp
    have hroot : entryAt m f k ≠ root := by
      intro hr
      have := h.own_entry (h.isRec hf) ht hk hp
      rw [hr, show root.blk = 1 from rfl, h.own_one] at this
      cases this
    obtain ⟨h1, h2⟩ := (h.recOk _ hrec).dead hroot hn
    refine ⟨h1, h2, fun j hj => ?_⟩
    by_contra hd
    have hp' : ptr m (entryAt m f k) j = fDirect m (entryAt m f k) j := if_pos hj
    have := ((h.recOk _ hrec).ptr j (by omega) (by rwa [hp'])).2
    rw [h1, blocksUp_zero] at this
    omega

end Fs
end Jos
