/-
# The laws of names

Creating and removing files, as seen through paths. A record is reached by one
list of names only (`pathNames`), so a change in one directory shows in the
paths that go through the changed entry and in no others (`resolve_congr`).

The laws hold in a file system whose directories have all their blocks and no
name twice (`Orderly`), and every call keeps such a file system that way that does
not write to a directory, does not make one longer and finds the block it needs
for a new entry (`Op.Tame`).

* `names_of_run`: in every run of such calls the laws hold in the state reached.
* `dir_write_doubles_name`: 512 bytes written to the root directory are two
  files of one name.

Key definitions: `pathNames`, `Orderly`, `NameLaws`, `Op.Tame`.
Key theorems: `resolve_congr`, `orderly_of_attempt`, `Orderly.laws`, `names_of_run`.
-/
import Jos.Fs.Failures
import Jos.Fs.Directories

namespace Jos
namespace Fs

/-- No name is twice in a directory. -/
def DistinctNames (m : Disk) : Prop :=
  ∀ d, InTree m d → fType m d = FTYPE_DIR → ∀ j j' g g', child m d j = some g → child m d j' = some g' →
    nameOf m g = nameOf m g' → j = j'

/-! ### Names on the way to a record -/

/-- The names of the records a list of entry numbers goes through. -/
def pathNames (m : Disk) : List ℕ → List (List UInt8)
  | [] => []
  | k :: sp => pathNames m sp ++ [((node m (k :: sp)).map (nameOf m)).getD []]

section
variable {L : Layout} {own own' : ℕ → Use} {s s' : FsSt} {a d f g : Ptr} {m m' : Disk} {c : List UInt8}
  {cs pre : List (List UInt8)} {dir dir' : Option Ptr}

theorem pathNames_cons {k : ℕ} {sp : List ℕ} (h : node m (k :: sp) = some g) :
    pathNames m (k :: sp) = pathNames m sp ++ [nameOf m g] := by
  rw [pathNames, h]
  rfl

theorem pathNames_append (m : Disk) (sp : List ℕ) : ∀ sp' : List ℕ, pathNames m sp <+: pathNames m (sp' ++ sp)
  | [] => ⟨[], by simp⟩
  | k :: sp' => (pathNames_append m sp sp').trans ⟨_, (pathNames.eq_2 m k (sp' ++ sp)).symm⟩

/-- The name that was looked up is the name of what was found. -/
theorem lookup_child (h : lookup m f c = some g) : ∃ k, child m f k = some g ∧ nameOf m g = c := by
  have hn := List.find?_some h
  obtain ⟨k, -, hk⟩ := List.mem_filterMap.mp (List.mem_of_find?_eq_some h)
  exact ⟨k, hk, by simpa using hn⟩

/-- Components that lead somewhere are the names on the way. -/
theorem LeadsTo.node (h : LeadsTo m dir f cs dir' g) : ∀ {sp : List ℕ}, node m sp = some f →
    ∃ sp', node m (sp' ++ sp) = some g ∧ pathNames m (sp' ++ sp) = pathNames m sp ++ cs := by
  induction h with
  | nil dir f => exact fun hsp => ⟨[], hsp, (List.append_nil _).symm⟩
  | @cons dir dir' f g g' c cs hlen ht hg hcs ih =>
    intro sp hsp
    obtain ⟨k, hk, hn⟩ := lookup_child hg
    have hspg : Fs.node m (k :: sp) = some g := node_cons.mpr ⟨f, hsp, ht, hk⟩
    obtain ⟨sp', h1, h2⟩ := ih hspg
    refine ⟨sp' ++ [k], by rwa [List.append_assoc], ?_⟩
    rw [List.append_assoc]
    refine h2.trans ?_
    rw [pathNames_cons hspg, hn, List.append_assoc]
    rfl

theorem LeadsTo.root (h : LeadsTo m none root cs dir g) : ∃ sp, Fs.node m sp = some g ∧ pathNames m sp = cs := by
  obtain ⟨sp, h1, h2⟩ := h.node (show Fs.node m [] = some Fs.root from rfl)
  rw [List.append_nil] at h1 h2
  exact ⟨sp, h1, h2⟩

theorem LeadsTo.inTree (h : LeadsTo m none Fs.root cs dir g) : InTree m g := by
  obtain ⟨sp, hsp, -⟩ := h.root
  exact ⟨sp, hsp⟩

/-- Only one list of names leads to a record. -/
theorem LeadsTo.names_inj (h : FInv L own m) (h1 : LeadsTo m none Fs.root cs dir g)
    (h2 : LeadsTo m none Fs.root pre dir' g) : cs = pre := by
  obtain ⟨sp, hsp, rfl⟩ := h1.root
  obtain ⟨sp', hsp', rfl⟩ := h2.root
  rw [h.node_inj hsp hsp']

theorem LeadsTo.append (h : LeadsTo m dir f pre dir' g) {cs : List (List UInt8)} {d : Option Ptr} {g' : Ptr}
    (h' : LeadsTo m dir' g cs d g') : LeadsTo m dir f (pre ++ cs) d g' := by
  induction h with
  | nil => exact h'
  | cons hlen ht hg _ ih => exact .cons hlen ht hg (ih h')

theorem LeadsTo.snoc (h : LeadsTo m dir f pre dir' g) (hlen : c.length < MAXNAMELEN) (ht : fType m g = FTYPE_DIR)
    {g' : Ptr} (hg : lookup m g c = some g') : LeadsTo m dir f (pre ++ [c]) (some g) g' :=
  h.append (.cons hlen ht hg (.nil _ _))

/-- The last component. -/
theorem LeadsTo.last (h : LeadsTo m dir f cs dir' g) (hne : cs ≠ []) : ∃ pre c d p, cs = pre ++ [c] ∧
    LeadsTo m dir f pre d p ∧ c.length < MAXNAMELEN ∧ fType m p = FTYPE_DIR ∧ lookup m p c = some g ∧ dir' = some p := by
  induction h with
  | nil => exact absurd rfl hne
  | @cons dir dir' f g' g c cs hlen ht hg hcs ih =>
    by_cases hcs0 : cs = []
    · subst hcs0
      cases hcs
      exact ⟨[], c, dir, f, rfl, .nil _ _, hlen, ht, hg, rfl⟩
    · obtain ⟨pre, c', d, p, rfl, hl, hrest⟩ := ih hcs0
      exact ⟨c :: pre, c', d, p, rfl, .cons hlen ht hg hl, hrest⟩

/-- Paths resolve the same if the lookups along them give the same; `cs0` is
the path below which they need not. -/
theorem resolve_congr (cs0 : List (List UInt8))
    (hsame : ∀ pre d f, LeadsTo m none Fs.root pre d f → ¬ cs0 <+: pre → fType m' f = fType m f ∧
      ∀ c, fType m f = FTYPE_DIR → ¬ cs0 <+: pre ++ [c] → lookup m' f c = lookup m f c) :
    ∀ {cs pre : List (List UInt8)} {d : Option Ptr} {f : Ptr}, LeadsTo m none Fs.root pre d f → ¬ cs0 <+: pre ++ cs →
      resolve m' d f cs = resolve m d f cs
  | [], _, _, _, _, _ => rfl
  | c :: cs, pre, d, f, hl, hn => by
    have hpre : ¬ cs0 <+: pre := fun hc => hn (hc.trans ⟨c :: cs, rfl⟩)
    have hpc : ¬ cs0 <+: pre ++ [c] := fun hc => hn (hc.trans ⟨cs, by simp⟩)
    obtain ⟨htype, hlook⟩ := hsame pre d f hl hpre
    unfold resolve
    rw [htype]
    by_cases h1 : MAXNAMELEN ≤ c.length
    · rw [if_pos h1, if_pos h1]
    rw [if_neg h1, if_neg h1]
    by_cases ht : fType m f = FTYPE_DIR
    · rw [if_neg (not_not.mpr ht), if_neg (not_not.mpr ht), hlook c ht hpc]
      cases hg : lookup m f c with
      | none => rfl
      | some g =>
        refine resolve_congr cs0 hsame (hl.snoc (not_le.mp h1) ht hg) ?_
        rwa [← List.append_cons]
    · rw [if_pos ht, if_pos ht]

/-- A lookup finds the same if the entries of the name are the same. -/
theorem lookup_congr (h : FInv L own m) (h' : FInv L own' m') (hf : InTree m f) (hf' : InTree m' f)
    (hsame : ∀ k g, (child m' f k = some g ∧ nameOf m' g = c) ↔ (child m f k = some g ∧ nameOf m g = c)) :
    lookup m' f c = lookup m f c := by
  have hfinds : ∀ k g, Finds m' f c k g ↔ Finds m f c k g := by
    intro k g
    unfold Finds
    rw [← and_assoc, hsame, and_assoc]
    refine and_congr_right fun _ => and_congr_right fun _ => forall₂_congr fun k' _ => ?_
    constructor
    · exact fun hn g' hc hg => ((hsame k' g').mpr ⟨hc, hg⟩).elim fun h1 h2 => hn g' h1 h2
    · exact fun hn g' hc hg => ((hsame k' g').mp ⟨hc, hg⟩).elim fun h1 h2 => hn g' h1 h2
  refine Option.ext fun g => ?_
  rw [lookup_some h' hf', lookup_some h hf]
  exact exists_congr fun k => hfinds k g

/-! ### Files that stay as they are -/

/-- The file `g` has its size, its bytes and the blocks it had. -/
structure SameData (m m' : Disk) (g : Ptr) : Prop where
  contents : SameContents m m' g
  type : fType m' g = fType m g
  ptr : ∀ k < 1034, ptr m g k ≠ 0 → ptr m' g k = ptr m g k

theorem SameData.trans {m'' : Disk} (h : SameData m m' g) (h' : SameData m' m'' g) : SameData m m'' g where
  contents := h.contents.trans h'.contents h.type
  type := h'.type.trans h.type
  ptr k hk hp := by
    have hp' := h.ptr k hk hp
    rw [h'.ptr k hk (by rwa [hp']), hp']

theorem SameData.noHoles (h : SameData m m' g) (hn : NoHoles m g) : NoHoles m' g := by
  intro k hk hlt
  rw [h.contents.1] at hlt
  rw [h.ptr k hk (hn k hk hlt)]
  exact hn k hk hlt

theorem GrownBut.sameData {X : Ptr → Prop} (h : GrownBut L own own' X s s') (hg : IsRec own g) (hX : ¬ X g) :
    SameData s.mem s'.mem g where
  contents := ⟨h.fSize hg, fun ht _ hi => h.byteAt hg hX ht (Nat.div_lt_of_lt_mul hi)⟩
  type := h.fType hg
  ptr := h.ptr g hg

/-- A change of the record `a` that leaves the data blocks as they are. -/
theorem Edit.sameData (h : Edit L own own' a s s') (hi : FInv L own s.mem) (ha : IsRec own a) (hg : IsRec own g)
    (hg' : IsRec own' g) (hne : g ≠ a) (hdata : ∀ c f k, own' c = .data f k → s'.mem c = s.mem c) :
    SameData s.mem s'.mem g := by
  have hsame := h.sameFile hi ha hg hg' hne
  refine ⟨⟨hsame.1.fSize, fun ht i hlt => ?_⟩, hsame.1.fType, fun k _ _ => hsame.ptr k⟩
  have hk : i / 4096 < 1034 := Nat.div_lt_of_lt_mul hlt
  unfold byteAt
  rw [hsame.ptr]
  split_ifs with h0
  · rfl
  · have hu := ((hi.recOk g hg).ptr _ hk h0).1
    rw [useOf, if_neg ht] at hu
    have hown := (h.cut (ptr s.mem g (i / 4096))).resolve_right fun hc => by
      rw [hu] at hc
      exact hne (Option.some.inj hc.1)
    rw [hdata _ _ _ (hown.trans hu)]

/-! ### Directories that stay as they are -/

/-- Types, names and entries are as before. -/
structure SameShape (m m' : Disk) : Prop where
  type : ∀ f, InTree m f → fType m' f = fType m f
  name : ∀ f, InTree m f → nameOf m' f = nameOf m f
  child : ∀ f k, InTree m f → fType m f = 1 → child m' f k = child m f k

theorem SameTree.shape (h : SameTree m m') : SameShape m m' := ⟨h.type, h.name, h.child⟩

theorem SameShape.node (h : SameShape m m') (sp : List ℕ) : Fs.node m' sp = Fs.node m sp := node_congr h.type h.child sp

theorem SameShape.inTree (h : SameShape m m') : InTree m' f ↔ InTree m f := exists_congr fun sp => by rw [h.node]

theorem SameShape.trans {m'' : Disk} (h : SameShape m m') (h' : SameShape m' m'') : SameShape m m'' where
  type f hf := (h'.type f (h.inTree.mpr hf)).trans (h.type f hf)
  name f hf := (h'.name f (h.inTree.mpr hf)).trans (h.name f hf)
  child f k hf ht := (h'.child f k (h.inTree.mpr hf) (by rw [h.type f hf, ht])).trans (h.child f k hf ht)

/-- A directory that gets longer keeps its entries. -/
theorem Resized.sameShape {n : ℤ} (hr : Resized own a n s s') (h : Edit L own own a s s') (hi : FInv L own s.mem)
    (ha : IsRec own a) (hle : fSize s.mem a ≤ n) : SameShape s.mem s'.mem := by
  have hsame : ∀ {f}, IsRec own f → f ≠ a → SameFile s.mem s'.mem f := fun hf he => h.sameFile hi ha hf hf he
  have hptr : ∀ {f}, IsRec own f → ∀ k < 1034, Fs.ptr s'.mem f k = Fs.ptr s.mem f k := by
    intro f hf k hk
    by_cases he : f = a
    · rw [he, hr.ptr k hk]
      split_ifs with hb
      · rfl
      · exact (hi.ptr_past ha hk ((blocksUp_mono hle).trans (not_lt.mp hb))).symm
    · exact (hsame hf he).ptr k
  have hname : ∀ {f}, IsRec own f → ∀ i < 128, fName s'.mem f i = fName s.mem f i := by
    intro f hf i hi
    by_cases he : f = a
    · rw [he]
      exact hr.name i hi
    · exact (hsame hf he).1.fName hi
  refine ⟨fun f hf => ?_, fun f hf => cstr_congr (hname (hi.isRec hf)), fun f k hf ht => ?_⟩
  · by_cases he : f = a
    · rw [he, hr.type]
    · exact (hsame (hi.isRec hf) he).1.fType
  · have hfr := hi.isRec hf
    refine child_congr (fun k hk _ => hptr hfr k hk) (fun k hk h0 h1 => absurd (by rw [hptr hfr k hk, h0]) h1) ?_
    exact fun j hj hp => hname (hi.isRec_entry hfr ht hj hp) 0 (by omega)

/-- Growing a directory for a new entry: its entries stay, and so do the other files. -/
theorem Stretched.shape {n : ℤ} (h : Stretched L own own' a n s s') (hi : FInv L own s.mem) (ha : InTree s.mem a)
    (hle : fSize s.mem a ≤ n) :
    SameShape s.mem s'.mem ∧ fSize s'.mem a = n ∧ (∀ k < 1034, ptr s.mem a k ≠ 0 → ptr s'.mem a k = ptr s.mem a k) ∧
      ∀ g, InTree s.mem g → g ≠ a → SameData s.mem s'.mem g := by
  obtain ⟨own1, s1, s2, h1, h2, h3, h4⟩ := h
  have har := hi.isRec ha
  have ha1 := h1.isRec har
  have hle1 : fSize s1.mem a ≤ n := by rwa [h1.fSize har]
  refine ⟨(h1.sameTree.shape.trans (h3.sameShape h2 h1.inv ha1 hle1)).trans h4.sameTree.shape, ?_, ?_, ?_⟩
  · rw [h4.fSize ha1, h3.size]
  · intro k hk hp
    have hp1 := h1.ptr a har k hk hp
    have hne1 : ptr s1.mem a k ≠ 0 := by rwa [hp1]
    have hp2 : ptr s2.mem a k = ptr s1.mem a k := by
      rw [h3.ptr k hk, if_pos]
      have := ((h1.inv.recOk a ha1).ptr k hk hne1).2
      exact this.trans_le (blocksUp_mono hle1)
    rw [h4.ptr a ha1 k hk (by rwa [hp2]), hp2, hp1]
  · intro g hg hne
    have hgr := h1.isRec (hi.isRec hg)
    exact ((h1.sameData (hi.isRec hg) id).trans (h2.sameData h1.inv ha1 hgr hgr hne h3.data)).trans (h4.sameData hgr id)

/-! ### A new entry -/

/-- One entry of a directory. -/
theorem child_congr_at {j : ℕ} (hptr : ptr m' f (j / 16) = ptr m f (j / 16))
    (hname : j / 16 < 1034 → ptr m f (j / 16) ≠ 0 → fName m' (entryAt m f j) 0 = fName m (entryAt m f j) 0) :
    child m' f j = child m f j := by
  have he : entryAt m' f j = entryAt m f j := by rw [entryAt, entryAt, hptr]
  unfold child
  rw [he, hptr]
  by_cases h : j / 16 < 1034 ∧ ptr m f (j / 16) ≠ 0
  · rw [hname h.1 h.2]
  · rw [if_neg fun hc => h ⟨hc.1, hc.2.1⟩, if_neg fun hc => h ⟨hc.1, hc.2.1⟩]

/-- Two entries are at one place only if they are one entry. -/
theorem FInv.entryAt_inj (h : FInv L own m) {f f' : Ptr} {k k' : ℕ} (hf : IsRec own f) (hf' : IsRec own f')
    (ht : fType m f = 1) (ht' : fType m f' = 1) (hk : k / 16 < 1034) (hk' : k' / 16 < 1034) (hp : ptr m f (k / 16) ≠ 0)
    (hp' : ptr m f' (k' / 16) ≠ 0) (he : entryAt m f k = entryAt m f' k') : f = f' ∧ k = k' := by
  have h1 := h.own_entry hf ht hk hp
  have h2 := h.own_entry hf' ht' hk' hp'
  rw [he, h2] at h1
  obtain ⟨rfl, hkk⟩ := Use.dir.inj h1
  have hoff : 256 * (k % 16) = 256 * (k' % 16) := congrArg Ptr.off he
  exact ⟨rfl, by omega⟩

/-- An entry is not the root directory. -/
theorem FInv.entry_ne_root (h : FInv L own m) {k : ℕ} (hf : IsRec own f) (ht : fType m f = 1) (hk : k / 16 < 1034)
    (hp : ptr m f (k / 16) ≠ 0) : entryAt m f k ≠ Fs.root := by
  intro hr
  have := h.own_entry hf ht hk hp
  rw [hr, show Fs.root.blk = 1 from rfl, h.own_one] at this
  cases this

/-- Entry `k` of the directory `dir` is new: the empty file `f`, called `name`. -/
structure Adds (m m' : Disk) (dir : Ptr) (k : ℕ) (f : Ptr) (name : List UInt8) (type : ℕ) : Prop where
  types : ∀ g, InTree m g → fType m' g = fType m g
  names : ∀ g, InTree m g → nameOf m' g = nameOf m g
  child : ∀ d j, InTree m d → fType m d = 1 → child m' d j = if d = dir ∧ j = k then some f else child m d j
  free : Fs.child m dir k = none
  newName : nameOf m' f = name
  newType : fType m' f = type
  size : fSize m' f = 0
  ptr : ∀ j, ptr m' f j = 0
  ind : fIndirect m' f = 0
  fresh : ¬ InTree m f

/-- What `file_create` leaves. -/
theorem Slot.adds {k type : ℕ} {name : List UInt8} {s1 : FsSt} (hs : Slot L own own' d k s s1) (hi : FInv L own s.mem)
    (hd : InTree s.mem d) (hdt : fType s.mem d = 1) (hf : f = entryAt s1.mem d k) (hname : name ≠ [])
    (hed : Edit L own' own' f s1 s') (hc : Created own' f name type s1 s') :
    Adds s.mem s'.mem d k f name type := by
  obtain ⟨hshape, -, -, -⟩ := hs.stretched.shape hi hd (le_max_left _ _)
  have hinv := hs.stretched.moved.inv
  have hd1 := hshape.inTree.mpr hd
  have hdr := hinv.isRec hd1
  have hdt1 : fType s1.mem d = 1 := by rw [hshape.type d hd, hdt]
  have hfr : IsRec own' f := hf ▸ hinv.isRec_entry hdr hdt1 hs.lt hs.ptr
  have hroot : f ≠ Fs.root := hf ▸ hinv.entry_ne_root hdr hdt1 hs.lt hs.ptr
  have hdead : ¬ InTree s1.mem f := fun hl => (hinv.live hl).elim hroot fun hn => hn (by rw [hf]; exact hs.blank)
  have hsame : ∀ g, InTree s1.mem g → SameFile s1.mem s'.mem g := fun g hg =>
    hed.sameFile hinv hfr (hinv.isRec hg) (hinv.isRec hg) fun he => hdead (he ▸ hg)
  refine ⟨fun g hg => ?_, fun g hg => ?_, fun p j hp ht => ?_, hs.free, hc.name, hc.type, hc.size, hc.ptr, hc.ind,
    fun hl => hdead (hshape.inTree.mpr hl)⟩
  · rw [(hsame g (hshape.inTree.mpr hg)).1.fType, hshape.type g hg]
  · rw [(hsame g (hshape.inTree.mpr hg)).nameOf, hshape.name g hg]
  · -- the entries of a directory, the new one or not
    have hp1 := hshape.inTree.mpr hp
    have ht1 : fType s1.mem p = 1 := by rw [hshape.type p hp, ht]
    have hpr := hinv.isRec hp1
    have hsp := hsame p hp1
    rw [← hshape.child p j hp ht]
    by_cases hnew : p = d ∧ j = k
    · obtain ⟨rfl, rfl⟩ := hnew
      rw [if_pos ⟨rfl, rfl⟩]
      refine child_some.mpr ⟨hs.lt, by rw [hsp.ptr]; exact hs.ptr, fName_of_nameOf (by rw [hc.name]; exact hname), ?_⟩
      rw [hf, entryAt, entryAt, hsp.ptr]
    · rw [if_neg hnew]
      refine child_congr_at (hsp.ptr _) fun hj hj0 => ?_
      have her := hinv.isRec_entry hpr ht1 hj hj0
      refine (hed.sameFile hinv hfr her her fun he => hnew ?_).1.fName (by omega)
      exact hinv.entryAt_inj hpr hdr ht1 hdt1 hj hs.lt hj0 hs.ptr (he.trans hf)

namespace Adds

variable {k type : ℕ} {name : List UInt8} {pre0 : List (List UInt8)} {d0 : Option Ptr}

variable (h : Adds m m' d k f name type)
include h

theorem node_kept {sp : List ℕ} (hsp : Fs.node m sp = some g) : Fs.node m' sp = some g := by
  refine node_mono (X := fun _ => False) ?_ hsp id
  rintro p c j hp ht hc -
  refine ⟨id, by rw [h.types p hp, ht], ?_⟩
  rw [h.child p j hp ht, if_neg]
  · exact hc
  · rintro ⟨rfl, rfl⟩
    rw [h.free] at hc
    cases hc

theorem no_child (j : ℕ) : Fs.child m' f j = none := by
  rw [Fs.child, if_neg]
  rintro ⟨-, hp, -⟩
  exact hp (h.ptr _)

omit h in
/-- Nothing else gets into the tree. -/
theorem node_old (h : Adds m m' d k f name type) (hd : InTree m d) (hdt : fType m d = 1) :
    ∀ {sp : List ℕ} {g : Ptr}, Fs.node m' sp = some g → Fs.node m sp = some g ∨ g = f
  | [], _, hsp => .inl hsp
  | j :: sp, g, hsp => by
    obtain ⟨p, hp, ht, hc⟩ := node_cons.mp hsp
    rcases h.node_old hd hdt hp with hp | rfl
    · have hpt : InTree m p := ⟨sp, hp⟩
      rw [h.types p hpt] at ht
      rw [h.child p j hpt ht] at hc
      split_ifs at hc with hnew
      · exact .inr (Option.some.inj hc).symm
      · exact .inl (node_cons.mpr ⟨p, hp, ht, hc⟩)
    · rw [h.no_child] at hc
      cases hc

theorem lookup_none (c : List UInt8) : lookup m' f c = none := by
  cases hg : lookup m' f c with
  | none => rfl
  | some g =>
    obtain ⟨j, hj, -⟩ := lookup_child hg
    rw [h.no_child] at hj
    cases hj

theorem lookup_other (hi : FInv L own m) (hi' : FInv L own' m') {p : Ptr}
    (hp : InTree m p) (ht : fType m p = 1) (hne : ¬ (p = d ∧ c = name)) : lookup m' p c = lookup m p c := by
  obtain ⟨sp, hsp⟩ := hp
  refine lookup_congr hi hi' ⟨sp, hsp⟩ ⟨sp, h.node_kept hsp⟩ fun j g => ?_
  rw [h.child p j ⟨sp, hsp⟩ ht]
  constructor
  · rintro ⟨hc, hn⟩
    split_ifs at hc with hnew
    · obtain rfl := Option.some.inj hc
      exact absurd ⟨hnew.1, by rw [← hn, h.newName]⟩ hne
    · exact ⟨hc, by rw [← hn, h.names g (InTree.child ⟨sp, hsp⟩ ht hc)]⟩
  · rintro ⟨hc, hn⟩
    rw [if_neg]
    · exact ⟨hc, by rw [← hn, h.names g (InTree.child ⟨sp, hsp⟩ ht hc)]⟩
    · rintro ⟨rfl, rfl⟩
      rw [h.free] at hc
      cases hc

theorem lookup_new (hi' : FInv L own' m') (hd : InTree m d) (hdt : fType m d = 1)
    (hl : Lacks m d name) : lookup m' d name = some f := by
  obtain ⟨sp, hsp⟩ := hd
  have hd : InTree m d := ⟨sp, hsp⟩
  refine (lookup_some hi' ⟨sp, h.node_kept hsp⟩).mpr ⟨k, by rw [h.child d k hd hdt, if_pos ⟨rfl, rfl⟩], h.newName, ?_⟩
  intro j hj g hg
  rw [h.child d j hd hdt, if_neg (by omega)] at hg
  rw [h.names g (InTree.child hd hdt hg)]
  exact hl j g hg

/-- Paths that do not go through the new entry. -/
theorem resolve_other (hi : FInv L own m) (hi' : FInv L own' m')
    (hpre : LeadsTo m none Fs.root pre0 d0 d) (hn : ¬ pre0 ++ [name] <+: cs) :
    resolve m' none Fs.root cs = resolve m none Fs.root cs := by
  refine resolve_congr (pre0 ++ [name]) (fun pre p g hl _ => ?_) (.nil none Fs.root) hn
  refine ⟨h.types g hl.inTree, fun c ht hnot => h.lookup_other hi hi' hl.inTree ht ?_⟩
  rintro ⟨rfl, rfl⟩
  exact hnot ⟨[], by rw [hl.names_inj hi hpre, List.append_nil]⟩

/-- The path of the new entry. -/
theorem leadsTo (hi : FInv L own m) (hi' : FInv L own' m')
    (hpre : LeadsTo m none Fs.root pre0 d0 d) (hdt : fType m d = FTYPE_DIR) (hlen : name.length < MAXNAMELEN)
    (hl : Lacks m d name) : LeadsTo m' none Fs.root (pre0 ++ [name]) (some d) f := by
  have hno : ¬ pre0 ++ [name] <+: pre0 := fun hc => by
    have := hc.length_le
    rw [List.length_append, List.length_singleton] at this
    omega
  have hpre' := resolve_found.mp ((h.resolve_other hi hi' hpre hno).trans (resolve_found.mpr hpre))
  exact hpre'.snoc hlen ((h.types d hpre.inTree).trans hdt) (h.lookup_new hi' hpre.inTree hdt hl)

/-- No two entries of a directory get the same name. -/
theorem distinct (hd : InTree m d) (hdt : fType m d = 1) (hl : Lacks m d name)
    (hdist : DistinctNames m) : DistinctNames m' := by
  rintro p ⟨sp, hsp⟩ ht j j' g g' hg hg' hn
  rcases h.node_old hd hdt hsp with hp | rfl
  · have hpt : InTree m p := ⟨sp, hp⟩
    rw [h.types p hpt] at ht
    have hold : ∀ {i x}, Fs.child m p i = some x → nameOf m' x = nameOf m x := fun hc =>
      h.names _ (.child hpt ht hc)
    rw [h.child p j hpt ht] at hg
    rw [h.child p j' hpt ht] at hg'
    split_ifs at hg with h1 <;> split_ifs at hg' with h2
    · rw [h1.2, h2.2]
    · obtain rfl := Option.some.inj hg
      rw [h.newName, hold hg'] at hn
      obtain ⟨rfl, -⟩ := h1
      exact absurd hn.symm (hl _ _ hg')
    · obtain rfl := Option.some.inj hg'
      rw [h.newName, hold hg] at hn
      obtain ⟨rfl, -⟩ := h2
      exact absurd hn (hl _ _ hg)
    · exact hdist p hpt ht j j' g g' hg hg' (by rw [← hold hg, ← hold hg', hn])
  · rw [h.no_child] at hg
    cases hg

end Adds

/-! ### An entry less -/

/-- `g` is the record `f` or below it. -/
def Under (m : Disk) (f g : Ptr) : Prop := ∃ sp sp', node m sp = some f ∧ node m (sp' ++ sp) = some g

/-- What is below a record is reached through it. -/
theorem Under.parent (h : Under m f g) (hi : FInv L own m) {p : Ptr} (hp : InTree m p) (ht : fType m p = 1) {j : ℕ}
    (hc : child m p j = some g) : g = f ∨ Under m f p := by
  obtain ⟨spf, sp', hf, hg⟩ := h
  obtain ⟨sp, hsp⟩ := hp
  have hsg : node m (j :: sp) = some g := node_cons.mpr ⟨p, hsp, ht, hc⟩
  have he := hi.node_inj hg hsg
  cases sp' with
  | nil =>
    rw [List.nil_append] at he
    rw [he, hsg] at hf
    exact .inl (Option.some.inj hf)
  | cons i sp' =>
    obtain ⟨-, rfl⟩ := List.cons.inj he
    exact .inr ⟨spf, sp', hf, hsp⟩

theorem Under.leadsTo (h : Under m f g) (hi : FInv L own m) (hf : LeadsTo m none Fs.root cs dir f)
    (hg : LeadsTo m none Fs.root pre dir' g) : cs <+: pre := by
  obtain ⟨spf, sp', h1, h2⟩ := h
  obtain ⟨sp1, h3, rfl⟩ := hf.root
  obtain ⟨sp2, h4, rfl⟩ := hg.root
  rw [hi.node_inj h3 h1, hi.node_inj h4 h2]
  exact pathNames_append m spf sp'

/-- Entry `k` of the directory `d`, the file `f`, is gone, with what is below it. -/
structure Drops (m m' : Disk) (d : Ptr) (k : ℕ) (f : Ptr) : Prop where
  data : ∀ g, InTree m g → ¬ Under m f g → SameData m m' g
  names : ∀ g, InTree m g → ¬ Under m f g → nameOf m' g = nameOf m g
  child : ∀ p j, InTree m p → ¬ Under m f p → fType m p = 1 →
    child m' p j = if p = d ∧ j = k then none else child m p j
  had : Fs.child m d k = some f

theorem InTree.eq_root_or_child (h : InTree m g) : g = Fs.root ∨
    ∃ p j, InTree m p ∧ fType m p = 1 ∧ Fs.child m p j = some g := by
  obtain ⟨sp, hsp⟩ := h
  cases sp with
  | nil => exact .inl (Option.some.inj hsp).symm
  | cons j sp =>
    obtain ⟨p, hp, ht, hc⟩ := node_cons.mp hsp
    exact .inr ⟨p, j, ⟨sp, hp⟩, ht, hc⟩

/-- What `file_remove` leaves. -/
theorem Removed.drops {k : ℕ} (hr : Removed own' f s s') (h : Edit L own own' f s s') (hi : FInv L own s.mem)
    (hd : InTree s.mem d) (hdt : fType s.mem d = 1) (hc : child s.mem d k = some f) : Drops s.mem s'.mem d k f := by
  have hf : InTree s.mem f := .child hd hdt hc
  have hfr := hi.isRec hf
  obtain ⟨hk, hkp, -, hfe⟩ := child_some.mp hc
  -- a block of another directory stays
  have hblk : ∀ {p j}, InTree s.mem p → fType s.mem p = 1 → p ≠ f → j / 16 < 1034 → Fs.ptr s.mem p (j / 16) ≠ 0 →
      IsRec own' (entryAt s.mem p j) := by
    intro p j hp ht hne hj hj0
    have hown := hi.own_entry (hi.isRec hp) ht hj hj0
    have hcut := (h.cut (entryAt s.mem p j).blk).resolve_right fun hcut => by
      rw [hown] at hcut
      exact hne (Option.some.inj hcut.1)
    exact .inr ⟨p, j / 16, j % 16, by rw [hcut, hown], Nat.mod_lt _ (by omega), rfl⟩
  have hself : ∀ {g}, ¬ Under s.mem f g → g ≠ f := by
    rintro g hn rfl
    obtain ⟨sp, hsp⟩ := hf
    exact hn ⟨sp, [], hsp, hsp⟩
  have hrec : ∀ {g}, InTree s.mem g → ¬ Under s.mem f g → IsRec own' g := by
    intro g hg hn
    rcases hg.eq_root_or_child with rfl | ⟨p, j, hp, ht, hcg⟩
    · exact .inl rfl
    · obtain ⟨h1, h2, -, rfl⟩ := child_some.mp hcg
      refine hblk hp ht ?_ h1 h2
      rintro rfl
      obtain ⟨sp, hsp⟩ := hp
      exact hn ⟨sp, [j], hsp, node_cons.mpr ⟨p, hsp, ht, hcg⟩⟩
  have hsame : ∀ {g}, InTree s.mem g → ¬ Under s.mem f g → SameFile s.mem s'.mem g := fun hg hn =>
    h.sameFile hi hfr (hi.isRec hg) (hrec hg hn) (hself hn)
  refine ⟨fun g hg hn => h.sameData hi hfr (hi.isRec hg) (hrec hg hn) (hself hn) hr.data,
    fun g hg hn => (hsame hg hn).nameOf, fun p j hp hn ht => ?_, hc⟩
  by_cases hgone : p = d ∧ j = k
  · obtain ⟨rfl, rfl⟩ := hgone
    rw [if_pos ⟨rfl, rfl⟩, Fs.child, if_neg]
    rintro ⟨-, -, hname⟩
    rw [entryAt, (hsame hp hn).ptr, ← entryAt, ← hfe] at hname
    exact hname hr.name
  · rw [if_neg hgone]
    refine child_congr_at ((hsame hp hn).ptr _) fun hj hj0 => ?_
    have her := hi.isRec_entry (hi.isRec hp) ht hj hj0
    refine (h.sameFile hi hfr her (hblk hp ht (hself hn) hj hj0) fun he => hgone ?_).1.fName (by omega)
    exact hi.entryAt_inj (hi.isRec hp) (hi.isRec hd) ht hdt hj hk hj0 hkp (he.trans hfe)

namespace Drops

variable {k : ℕ} {name : List UInt8} {pre0 : List (List UInt8)} {d0 : Option Ptr}

/-- An entry that stays is not below what is gone. -/
theorem not_under (h : Drops m m' d k f) (hi : FInv L own m) (hd : InTree m d) (hdt : fType m d = 1) {p : Ptr}
    (hp : InTree m p) (hn : ¬ Under m f p) (ht : fType m p = 1) {j : ℕ} (hc : Fs.child m p j = some g)
    (hne : ¬ (p = d ∧ j = k)) : ¬ Under m f g := by
  intro hu
  rcases hu.parent hi hp ht hc with rfl | hu
  · obtain ⟨h1, h2, -, he⟩ := child_some.mp hc
    obtain ⟨h3, h4, -, he'⟩ := child_some.mp h.had
    exact hne (hi.entryAt_inj (hi.isRec hp) (hi.isRec hd) ht hdt h1 h3 h2 h4 (he.symm.trans he'))
  · exact hn hu

theorem node_kept (h : Drops m m' d k f) :
    ∀ {sp : List ℕ} {g : Ptr}, Fs.node m sp = some g → ¬ Under m f g → Fs.node m' sp = some g := by
  refine node_mono fun p c j hp ht hc hX => ?_
  have hpn : ¬ Under m f p := by
    rintro ⟨spf, sp', h1, h2⟩
    exact hX ⟨spf, j :: sp', h1, node_cons.mpr ⟨p, h2, ht, hc⟩⟩
  refine ⟨hpn, by rw [(h.data p hp hpn).type, ht], ?_⟩
  rw [h.child p j hp hpn ht, if_neg]
  · exact hc
  · rintro ⟨rfl, rfl⟩
    obtain rfl := Option.mem_unique hc h.had
    obtain ⟨sp, hsp⟩ := InTree.child hp ht hc
    exact hX ⟨sp, [], hsp, hsp⟩

/-- Paths that do not go through the entry. -/
theorem resolve_other (h : Drops m m' d k f) (hi : FInv L own m) (hi' : FInv L own' m')
    (hpre : LeadsTo m none Fs.root pre0 d0 d) (hdt : fType m d = 1)
    (hf : LeadsTo m none Fs.root (pre0 ++ [name]) dir f) (hn : ¬ pre0 ++ [name] <+: cs) :
    resolve m' none Fs.root cs = resolve m none Fs.root cs := by
  have hd := hpre.inTree
  have hname : nameOf m f = name := by
    obtain ⟨pre, c, d1, p, he, hl, -, -, hlook, -⟩ := hf.last (by simp)
    obtain ⟨-, hc⟩ := List.append_inj' he rfl
    obtain ⟨-, -, hn⟩ := lookup_child hlook
    rw [hn, List.singleton_inj.mp hc]
  refine resolve_congr (pre0 ++ [name]) (fun pre dp p hl hpn => ?_) (.nil none Fs.root) hn
  have hp := hl.inTree
  have hu : ¬ Under m f p := fun hu => hpn (hu.leadsTo hi hf hl)
  refine ⟨(h.data p hp hu).type, fun c ht hnot => ?_⟩
  obtain ⟨sp, hsp⟩ := hp
  refine lookup_congr hi hi' ⟨sp, hsp⟩ ⟨sp, h.node_kept hsp hu⟩ fun j g => ?_
  rw [h.child p j ⟨sp, hsp⟩ hu ht]
  have hold : Fs.child m p j = some g → ¬ (p = d ∧ j = k) → nameOf m' g = nameOf m g := fun hc hne =>
    h.names g (.child ⟨sp, hsp⟩ ht hc) (h.not_under hi hd hdt ⟨sp, hsp⟩ hu ht hc hne)
  constructor
  · rintro ⟨hc, hn⟩
    split_ifs at hc with hgone
    exact ⟨hc, by rw [← hn, hold hc hgone]⟩
  · rintro ⟨hc, hn⟩
    have hgone : ¬ (p = d ∧ j = k) := by
      rintro ⟨rfl, rfl⟩
      obtain rfl := Option.mem_unique hc h.had
      exact hnot ⟨[], by rw [List.append_nil, hl.names_inj hi hpre, ← hn, hname]⟩
    rw [if_neg hgone]
    exact ⟨hc, by rw [← hn, hold hc hgone]⟩

/-- The path of the entry is not found any more. -/
theorem resolve_gone (h : Drops m m' d k f) (hi : FInv L own m) (hi' : FInv L own' m')
    (hpre : LeadsTo m none Fs.root pre0 d0 d) (hdt : fType m d = 1)
    (hf : LeadsTo m none Fs.root (pre0 ++ [name]) dir f) (hlen : name.length < MAXNAMELEN) (hname : nameOf m f = name)
    (hdist : DistinctNames m) : resolve m' none Fs.root (pre0 ++ [name]) = .ok (.missing d name) := by
  have hno : ¬ pre0 ++ [name] <+: pre0 := fun hc => by
    have := hc.length_le
    rw [List.length_append, List.length_singleton] at this
    omega
  have hd := hpre.inTree
  have hu : ¬ Under m f d := fun hu => hno (hu.leadsTo hi hf hpre)
  have hpre' := resolve_found.mp ((h.resolve_other hi hi' hpre hdt hf hno).trans (resolve_found.mpr hpre))
  refine resolve_missing.mpr ⟨pre0, d0, rfl, hpre', by rw [(h.data d hd hu).type, hdt], hlen, ?_⟩
  cases hg : lookup m' d name with
  | none => rfl
  | some g =>
    obtain ⟨j, hj, hn⟩ := lookup_child hg
    rw [h.child d j hd hu hdt] at hj
    split_ifs at hj with hgone
    have hne : ¬ (d = d ∧ j = k) := hgone
    rw [h.names g (InTree.child hd hdt hj) (h.not_under hi hd hdt hd hu hdt hj hne)] at hn
    exact absurd ⟨rfl, hdist d hd hdt j k g f hj h.had (by rw [hn, hname])⟩ hne

end Drops

/-! ### Orderly file systems -/

/-- A file system in order whose directories have all their blocks and no name twice. -/
structure Orderly (L : Layout) (own : ℕ → Use) (m : Disk) : Prop where
  inv : FInv L own m
  dirs : DirsOk m
  solid : Solid m
  distinct : DistinctNames m

theorem SameTree.distinct (h : SameTree m m') (hd : DistinctNames m) : DistinctNames m' := by
  intro d hdt ht j j' g g' hg hg' hn
  have hd' := h.inTree.mp hdt
  rw [h.type d hd'] at ht
  rw [h.child d j hd' ht] at hg
  rw [h.child d j' hd' ht] at hg'
  rw [h.name g (InTree.child hd' ht hg), h.name g' (InTree.child hd' ht hg')] at hn
  exact hd d hd' ht j j' g g' hg hg' hn

/-- The directories are as before and have the blocks they had. -/
theorem Orderly.of_sameTree (h : Orderly L own m) (hT : SameTree m m') (hi : FInv L own' m')
    (hdata : ∀ d, InTree m d → fType m d = 1 → SameData m m' d) : Orderly L own' m' where
  inv := hi
  dirs := hT.dirsOk h.dirs
  solid d hd ht := by
    have hd' := hT.inTree.mp hd
    rw [hT.type d hd'] at ht
    exact (hdata d hd' ht).noHoles (h.solid d hd' ht)
  distinct := hT.distinct h.distinct

theorem Orderly.grown {X : Ptr → Prop} (h : Orderly L own s.mem) (hg : GrownBut L own own' X s s') :
    Orderly L own' s'.mem :=
  h.of_sameTree hg.sameTree hg.inv fun d hd ht => hg.sameData (h.inv.isRec hd) fun hX => hg.reg d hX ht

/-- A record that gets no blocks and no name. -/
theorem Orderly.edit (h : Orderly L own s.mem) (he : Edit L own own' a s s') (ha : IsRec own a)
    (htype : fType s'.mem a = fType s.mem a)
    (hname : fName s'.mem a 0 ≠ 0 → fName s.mem a 0 ≠ 0 ∧ nameOf s'.mem a = nameOf s.mem a)
    (hptr : ∀ k < 1034, ptr s'.mem a k ≠ 0 → ptr s'.mem a k = ptr s.mem a k)
    (hsize : InTree s.mem a → fType s.mem a = 1 → ((4096 : ℤ) ∣ fSize s'.mem a ∧ fSize s'.mem a ≤ MAXFILESIZE) ∧
      NoHoles s'.mem a) : Orderly L own' s'.mem := by
  have hold : ∀ {sp g}, node s'.mem sp = some g → node s.mem sp = some g := fun hsp =>
    he.node_old h.inv ha htype (fun hn => (hname hn).1) hptr hsp
  have hsame : ∀ {d}, InTree s'.mem d → d ≠ a → SameFile s.mem s'.mem d := fun hd hne =>
    he.sameFile h.inv ha (he.isRec_old (he.inv.isRec hd)) (he.inv.isRec hd) hne
  have hnames : ∀ {p j g}, InTree s'.mem p → fType s'.mem p = 1 → child s'.mem p j = some g →
      nameOf s'.mem g = nameOf s.mem g := by
    intro p j g hp ht hc
    by_cases hga : g = a
    · rw [hga]
      exact (hname (hga ▸ (child_some.mp hc).2.2.1)).2
    · exact (hsame (.child hp ht hc) hga).nameOf
  have hdir : ∀ {d}, InTree s'.mem d → fType s'.mem d = 1 → InTree s.mem d ∧ fType s.mem d = 1 := by
    rintro d ⟨sp, hsp⟩ ht
    refine ⟨⟨sp, hold hsp⟩, ?_⟩
    by_cases hda : d = a
    · rwa [hda, ← htype, ← hda]
    · rwa [← (hsame ⟨sp, hsp⟩ hda).1.fType]
  refine ⟨he.inv, fun d hd ht => ?_, fun d hd ht => ?_, ?_⟩
  · obtain ⟨hd0, ht0⟩ := hdir hd ht
    by_cases hda : d = a
    · subst hda
      exact (hsize hd0 ht0).1
    · rw [(hsame hd hda).1.fSize]
      exact h.dirs d hd0 ht0
  · obtain ⟨hd0, ht0⟩ := hdir hd ht
    by_cases hda : d = a
    · subst hda
      exact (hsize hd0 ht0).2
    · intro k hk hlt
      rw [(hsame hd hda).1.fSize] at hlt
      rw [(hsame hd hda).ptr]
      exact h.solid d hd0 ht0 k hk hlt
  · intro p hp ht j j' g g' hg hg' hn
    obtain ⟨hp0, ht0⟩ := hdir hp ht
    have hchild : ∀ {i x}, child s'.mem p i = some x → child s.mem p i = some x := by
      intro i x hc
      obtain ⟨sp, hsp⟩ := hp
      obtain ⟨q, hq, -, hc'⟩ := node_cons.mp (hold (node_cons.mpr ⟨p, hsp, ht, hc⟩))
      obtain rfl : q = p := Option.mem_unique hq ((hold hsp))
      exact hc'
    rw [hnames hp ht hg, hnames hp ht hg'] at hn
    exact h.distinct p hp0 ht0 j j' g g' (hchild hg) (hchild hg') hn

/-- A new file. -/
theorem Orderly.created {k type : ℕ} {name : List UInt8} {s1 : FsSt} (h : Orderly L own s.mem)
    (hs : Slot L own own' d k s s1) (hd : InTree s.mem d) (hdt : fType s.mem d = 1) (hl : Lacks s.mem d name)
    (hf : f = entryAt s1.mem d k) (hname : name ≠ []) (hed : Edit L own' own' f s1 s')
    (hc : Created own' f name type s1 s') : Orderly L own' s'.mem := by
  have hadds := hs.adds h.inv hd hdt hf hname hed hc
  obtain ⟨hshape, hsize, hptr, hdata⟩ := hs.stretched.shape h.inv hd (le_max_left _ _)
  have hinv1 := hs.stretched.moved.inv
  have hfr : IsRec own' f := by
    rw [hf]
    exact (hs.entry (h.inv.isRec hd) hdt).1
  -- every directory but the new file reads in the end as after the new entry was found
  have hsame : ∀ {p}, InTree s.mem p → SameFile s1.mem s'.mem p := by
    intro p hp
    have hpr := hinv1.isRec (hshape.inTree.mpr hp)
    exact hed.sameFile hinv1 hfr hpr hpr fun he => hadds.fresh (he ▸ hp)
  have hdir : ∀ {p}, InTree s.mem p → fType s.mem p = 1 →
      ((4096 : ℤ) ∣ fSize s1.mem p ∧ fSize s1.mem p ≤ MAXFILESIZE) ∧ NoHoles s1.mem p := by
    intro p hp ht
    by_cases hpd : p = d
    · subst hpd
      obtain ⟨hdvd, hmax⟩ := h.dirs p hp ht
      have hlt := hs.lt
      have hmax' : fSize s.mem p ≤ 1034 * 4096 := hmax
      rw [NoHoles, hsize]
      refine ⟨⟨?_, show _ ≤ ((1034 * 4096 : ℕ) : ℤ) by push_cast; omega⟩, fun j hj hjn => ?_⟩
      · rcases le_total (fSize s.mem p) (4096 * ((k : ℤ) / 16 + 1)) with he | he
        · rw [max_eq_right he]
          exact Int.dvd_mul_right _ _
        · rw [max_eq_left he]
          exact hdvd
      · by_cases hold : ptr s.mem p j = 0
        · -- a block that was not there is the one of the new entry
          have hjk : j = k / 16 := by
            by_contra hne
            have h1 : ¬ j < blocksUp (fSize s.mem p) := fun hlt => h.solid p hp ht j hj hlt hold
            have h2 : ¬ j < k / 16 := by
              intro hlt
              obtain ⟨g, hg⟩ := Option.ne_none_iff_exists'.mp (hs.least (16 * j) (by omega))
              have := (child_some.mp hg).2.1
              rw [show 16 * j / 16 = j by omega] at this
              exact this hold
            unfold blocksUp at hjn h1
            omega
          rw [hjk]
          exact hs.ptr
        · rw [hptr j hj hold]
          exact hold
    · have hsd := hdata p hp hpd
      rw [hsd.contents.1]
      exact ⟨h.dirs p hp ht, hsd.noHoles (h.solid p hp ht)⟩
  have hcase : ∀ {p}, InTree s'.mem p → InTree s.mem p ∨ p = f := by
    rintro p ⟨sp, hsp⟩
    exact (hadds.node_old hd hdt hsp).imp_left fun h => ⟨sp, h⟩
  refine ⟨hed.inv, fun p hp ht => ?_, fun p hp ht => ?_, hadds.distinct hd hdt hl h.distinct⟩
  · rcases hcase hp with hp0 | rfl
    · rw [(hsame hp0).1.fSize]
      exact (hdir hp0 (by rwa [← hadds.types p hp0])).1
    · rw [hadds.size]
      exact ⟨Int.dvd_zero _, by decide⟩
  · rcases hcase hp with hp0 | rfl
    · intro j hj hlt
      rw [(hsame hp0).1.fSize] at hlt
      rw [(hsame hp0).ptr]
      exact (hdir hp0 (by rwa [← hadds.types p hp0])).2 j hj hlt
    · intro j _ hlt
      rw [hadds.size, blocksUp_zero] at hlt
      omega

/-! ### What the calls do to paths -/

/-- Paths that do not go through `cs0` resolve as before, to the same contents. -/
def Elsewhere (m m' : Disk) (cs0 : List (List UInt8)) : Prop :=
  ∀ cs, ¬ cs0 <+: cs → resolve m' none Fs.root cs = resolve m none Fs.root cs ∧
    ∀ d g, LeadsTo m none Fs.root cs d g → fType m g ≠ FTYPE_DIR → SameContents m m' g

/-- `cs` leads to the new file `f` of the type, without a block; it led nowhere. -/
structure Appears (m m' : Disk) (cs : List (List UInt8)) (type : ℕ) (f : Ptr) : Prop where
  leads : ∃ dir, LeadsTo m' none Fs.root cs (some dir) f
  type : fType m' f = type
  size : fSize m' f = 0
  ptr : ∀ k, ptr m' f k = 0
  ind : fIndirect m' f = 0
  before : ∀ cs', cs <+: cs' → ∀ d g, ¬ LeadsTo m none Fs.root cs' d g
  below : ∀ cs', cs <+: cs' → cs' ≠ cs → ∀ d g, ¬ LeadsTo m' none Fs.root cs' d g
  elsewhere : Elsewhere m m' cs

/-- Components that lead somewhere do so step by step. -/
theorem LeadsTo.split : ∀ {pre : List (List UInt8)} {dir : Option Ptr} {f : Ptr}, LeadsTo m dir f (pre ++ cs) dir' g →
    ∃ d p, LeadsTo m dir f pre d p ∧ LeadsTo m d p cs dir' g
  | [], dir, f, h => ⟨dir, f, .nil dir f, h⟩
  | c :: pre, dir, f, h => by
    cases h with
    | cons hlen ht hg hcs =>
      obtain ⟨d, p, h1, h2⟩ := hcs.split
      exact ⟨d, p, .cons hlen ht hg h1, h2⟩

/-- The files other than the directory keep their data when an entry is made. -/
theorem Slot.sameData {k type : ℕ} {name : List UInt8} {s1 : FsSt} (hs : Slot L own own' d k s s1)
    (hi : FInv L own s.mem) (hd : InTree s.mem d) (hdt : fType s.mem d = 1) (hf : f = entryAt s1.mem d k)
    (hed : Edit L own' own' f s1 s') (hc : Created own' f name type s1 s') (hfresh : ¬ InTree s.mem f)
    (hg : InTree s.mem g) (hgd : g ≠ d) : SameData s.mem s'.mem g := by
  obtain ⟨hshape, -, -, hdata⟩ := hs.stretched.shape hi hd (le_max_left _ _)
  have hinv1 := hs.stretched.moved.inv
  have hgr := hinv1.isRec (hshape.inTree.mpr hg)
  have hfr : IsRec own' f := by
    rw [hf]
    exact (hs.entry (hi.isRec hd) hdt).1
  exact (hdata g hg hgd).trans (hed.sameData hinv1 hfr hgr hgr (fun he => hfresh (he ▸ hg)) hc.data)

/-- `file_create`. -/
theorem Orderly.create_run (h : Orderly L own s.mem) (hD : L.D) {path : List UInt8} (hp : 0 ∉ path) (type : ℕ) :
    Run (fileCreate path type) s
      (fun f s' => (∃ own', Orderly L own' s'.mem) ∧ Appears s.mem s'.mem (components path) type f)
      (fun e s' => ∃ er, e = .err er ∧ (BadType type ∨ ¬ Crammed s.mem path →
        (∃ own', Grown L own own' s s') ∧ Cause s.mem path type er)) := by
  refine ((fileCreate_run h.inv hp type).and (fileCreate_exact h.inv hD h.dirs hp type)).mono ?_ ?_
  · rintro f s' ⟨⟨dir, name, k, own', s1, hw, hs, hf, hed, hc⟩, -⟩
    obtain ⟨hd, hdt, hl, -, hlen, -, hne⟩ := PathTo.result hw hp
    have hadds := hs.adds h.inv hd hdt hf hne hed hc
    have hmiss := hw.resolve h.inv h.dirs hp
    obtain ⟨pre, d0, hcs, hpre, -, -, -⟩ := resolve_missing.mp hmiss
    have hnew := hadds.leadsTo h.inv hed.inv hpre hdt hlen hl
    rw [← hcs] at hnew
    refine ⟨⟨own', h.created hs hd hdt hl hf hne hed hc⟩, ⟨dir, hnew⟩, hadds.newType, hadds.size, hadds.ptr, hadds.ind,
      ?_, ?_, fun cs hn => ⟨hadds.resolve_other h.inv hed.inv hpre (hcs ▸ hn), fun d g hg ht => ?_⟩⟩
    · rintro _ ⟨cs', rfl⟩ d g hg
      obtain ⟨d1, p, h1, -⟩ := hg.split
      rw [resolve_found.mpr h1] at hmiss
      cases hmiss
    · rintro _ ⟨cs', rfl⟩ hcs' d g hg
      obtain ⟨d1, p, h1, h2⟩ := hg.split
      obtain ⟨-, rfl⟩ : some dir = d1 ∧ f = p := by
        simpa using (resolve_found.mpr hnew).symm.trans (resolve_found.mpr h1)
      cases h2 with
      | nil => exact hcs' (List.append_nil _)
      | cons _ _ hlook _ =>
        rw [hadds.lookup_none] at hlook
        cases hlook
    · refine (hs.sameData h.inv hd hdt hf hed hc hadds.fresh hg.inTree ?_).contents
      rintro rfl
      exact ht hdt
  · rintro e s' ⟨-, er, rfl, ⟨hg, hcause, -⟩ | ⟨-, htype, hcram⟩⟩
    · exact ⟨er, rfl, fun _ => ⟨hg, hcause⟩⟩
    · exact ⟨er, rfl, fun hc => absurd hc (not_or.mpr ⟨htype, not_not.mpr hcram⟩)⟩

/-- What a removed record leaves behind is in order. -/
theorem Orderly.removed (h : Orderly L own s.mem) (hed : Edit L own own' f s s') (hf : IsRec own f)
    (hr : Removed own' f s s') : Orderly L own' s'.mem := by
  refine h.edit hed hf hr.type (fun hn => absurd hr.name hn) (fun k _ hk => absurd (hr.ptr k) hk) fun _ _ => ?_
  rw [NoHoles, hr.size, blocksUp_zero]
  exact ⟨⟨Int.dvd_zero _, by decide⟩, fun k _ hk => absurd hk (Nat.not_lt_zero k)⟩

/-- `file_remove`. -/
theorem Orderly.remove_run (h : Orderly L own s.mem) {path : List UInt8} (hp : 0 ∉ path) :
    Run (fileRemove path) s
      (fun _ s' => (∃ own', Orderly L own' s'.mem) ∧ (components path ≠ [] →
        (∃ dir last, resolve s'.mem none Fs.root (components path) = .ok (.missing dir last)) ∧
        Elsewhere s.mem s'.mem (components path)))
      (fun e s' => ∀ er, e = .err er → ∃ own', Grown L own own' s s') := by
  refine (fileRemove_run h.inv hp).mono ?_ ?_
  · rintro _ s' ⟨dir, f, own1, s1, own', hw, hg, hed, hr⟩
    have hf : InTree s.mem f := PathTo.result hw hp
    have h1 := h.grown hg
    have hf1 := hg.inTree.mpr hf
    have htree := hg.sameTree
    refine ⟨⟨own', h1.removed hed (hg.inv.isRec hf1) hr⟩, fun hne => ?_⟩
    have hleads : LeadsTo s1.mem none Fs.root (components path) dir f := by
      rw [← resolve_found, htree.resolve _ _ (inTree_root _)]
      exact hw.resolve h.inv h.dirs hp
    obtain ⟨pre, name, d0, p, hcs, hpre, hlen, hpt, hlook, -⟩ := hleads.last hne
    obtain ⟨k, hk, hname⟩ := lookup_child hlook
    rw [hcs] at hleads ⊢
    have hdrop := hr.drops hed hg.inv hpre.inTree hpt hk
    refine ⟨⟨p, name, hdrop.resolve_gone hg.inv hed.inv hpre hpt hleads hlen hname h1.distinct⟩, fun cs hn => ⟨?_, ?_⟩⟩
    · rw [hdrop.resolve_other hg.inv hed.inv hpre hpt hleads hn, htree.resolve _ _ (inTree_root _)]
    · intro d g hcs' _
      have hg1 : LeadsTo s1.mem none Fs.root cs d g := by
        rw [← resolve_found, htree.resolve _ _ (inTree_root _)]
        exact resolve_found.mpr hcs'
      have hnu : ¬ Under s1.mem f g := fun hu => hn (hu.leadsTo hg.inv hleads hg1)
      exact ((hg.sameData (h.inv.isRec hcs'.inTree) id).trans (hdrop.data g hg1.inTree hnu)).contents
  · rintro _ s' he er rfl
    obtain ⟨own', hg, -⟩ := he
    exact ⟨own', hg⟩

/-! ### Runs -/

/-- The calls that keep directories in order: none writes to a directory, none
makes one longer but `file_create`, and that finds the block it needs. -/
def Op.Tame (m : Disk) : Op → Prop
  | .create path type => BadType type ∨ ¬ Crammed m path
  | .write f _ _ _ => fType m f ≠ FTYPE_DIR
  | .setSize f size => fType m f = FTYPE_DIR → (BLKSIZE : ℤ) ∣ size ∧ size ≤ fSize m f
  | _ => True

theorem Op.Tame.sparesDirs {op : Op} (h : op.Tame m) : op.SparesDirs m := by
  cases op with
  | write f buf count off => exact h
  | _ => trivial

theorem Op.Tame.whole {op : Op} (h : op.Tame m) (f : Ptr) (size : ℤ) (he : op = .setSize f size) (ht : fType m f = 1) :
    (4096 : ℤ) ∣ size := by
  subst he
  exact (h ht).1

theorem Orderly.resized {n : ℤ} (h : Orderly L own s.mem) (hed : Edit L own own' f s s') (hf : InTree s.mem f)
    (hr : Resized own' f n s s') (hn : fType s.mem f = FTYPE_DIR → (4096 : ℤ) ∣ n ∧ n ≤ fSize s.mem f) :
    Orderly L own' s'.mem := by
  refine h.edit hed (h.inv.isRec hf) hr.type ?_ ?_ fun _ ht => ?_
  · intro hname
    rw [hr.name 0 (by norm_num)] at hname
    exact ⟨hname, cstr_congr hr.name⟩
  · intro k hk hne
    rw [hr.ptr k hk] at hne ⊢
    split_ifs at hne ⊢ with hlt
    · rfl
    · exact absurd rfl hne
  · obtain ⟨hdvd, hle⟩ := hn ht
    refine ⟨by rw [hr.size]; exact ⟨hdvd, hle.trans (h.dirs f hf ht).2⟩, fun k hk hlt => ?_⟩
    rw [hr.size] at hlt
    rw [hr.ptr k hk, if_pos hlt]
    exact h.solid f hf ht k hk (hlt.trans_le (blocksUp_mono hle))

theorem Op.Effect.orderly {op : Op} (he : op.Effect L own own' s s') (h : Orderly L own s.mem) (hop : op.Legal s.mem)
    (htame : op.Tame s.mem) (hc : ∀ path type, op ≠ .create path type) : Orderly L own' s'.mem := by
  cases he with
  | grown hg => exact h.grown hg
  | created => exact absurd rfl (hc _ _)
  | stretched => exact absurd rfl (hc _ _)
  | written hed hr hf => exact (h.resized hed hop.1 hr fun ht => absurd ht htame).grown hf
  | resized hed hr => exact h.resized hed hop.1 hr htame
  | removed hw hg hed hr =>
    have hf := hg.isRec (h.inv.isRec (PathTo.result hw hop))
    exact (h.grown hg).removed hed hf hr

/-- Every tame call keeps the directories in order, returning or failing. -/
theorem orderly_of_attempt {op : Op} {r : Except Err Unit} (h : Orderly L own s.mem) (hD : L.D) (hop : op.Legal s.mem)
    (htame : op.Tame s.mem) (hx : attempt op.call s = .ok r s') : ∃ own', Orderly L own' s'.mem := by
  by_cases hc : ∃ path type, op = .create path type
  · obtain ⟨path, type, rfl⟩ := hc
    have hrun : Run (Op.create path type).call s (fun _ s' => ∃ own', Orderly L own' s'.mem)
        (fun _ s' => ∃ own', Orderly L own' s'.mem) := by
      refine .bind ((h.create_run hD hop type).mono (fun _ _ hc => hc.1) ?_) fun _ _ h => .pure h
      rintro e s' ⟨er, rfl, he⟩
      obtain ⟨own', hg⟩ := (he htame).1
      exact ⟨own', h.grown hg⟩
    rcases (attempt_run hrun).of_ok hx with ⟨_, -, h1⟩ | ⟨_, -, h1⟩
    · exact h1
    · exact h1
  · obtain ⟨own', he⟩ := effect_of_attempt h.inv hop htame.sparesDirs (fun _ => htame.whole) hx
    exact ⟨own', he.orderly h hop htame fun path type hop => hc ⟨path, type, hop⟩⟩

theorem orderly_of_run (hD : L.D) {ops : List Op} (h : Orderly L own s.mem) (hl : Along Op.Legal ops s)
    (ht : Along Op.Tame ops s) (hrun : runOps ops s = .ok () s') : ∃ own', Orderly L own' s'.mem := by
  refine runOps_preserves (P := fun s => ∃ own, Orderly L own s.mem) ?_ ⟨own, h⟩ (hl.and ht) hrun
  rintro op s r s' ⟨own, h⟩ ⟨hop, htame⟩ hx
  exact orderly_of_attempt h hD hop htame hx

/-! ### The laws -/

/-- `walk_path` gives what the directories hold and changes nothing. -/
def Walks (s : FsSt) : Prop :=
  ∀ path, 0 ∉ path → ∃ s', Loaded s s' ∧ walkPath path s = outcome (resolve s.mem none Fs.root (components path)) s'

/-- What holds of names in the state `s`, and of creating and removing from it. -/
structure NameLaws (s : FsSt) : Prop where
  distinct : DistinctNames s.mem
  walks : Walks s
  created : ∀ path type, 0 ∉ path → ∀ f s', fileCreate path type s = .ok f s' →
    Walks s' ∧ Appears s.mem s'.mem (components path) type f
  removed : ∀ path, 0 ∉ path → components path ≠ [] → ∀ s', fileRemove path s = .ok () s' →
    Walks s' ∧ (∃ dir last, resolve s'.mem none Fs.root (components path) = .ok (.missing dir last)) ∧
      Elsewhere s.mem s'.mem (components path)
  exist : ∀ path type, 0 ∉ path → ¬ BadType type → ∀ d f, LeadsTo s.mem none Fs.root (components path) d f →
    ∃ s', Loaded s s' ∧ fileCreate path type s = .error (.err .fileExists) s'

theorem Orderly.walks (h : Orderly L own s.mem) (hD : L.D) : Walks s :=
  fun _ hp => h.inv.walkPath_outcome hD h.dirs h.solid hp

theorem Orderly.laws (h : Orderly L own s.mem) (hD : L.D) : NameLaws s where
  distinct := h.distinct
  walks := h.walks hD
  created path type hp f s' hx := by
    obtain ⟨⟨own', h'⟩, hap⟩ := (h.create_run hD hp type).of_ok hx
    exact ⟨h'.walks hD, hap⟩
  removed path hp hne s' hx := by
    obtain ⟨⟨own', h'⟩, hrm⟩ := (h.remove_run hp).of_ok hx
    exact ⟨h'.walks hD, hrm hne⟩
  exist path type hp htype d f hf := h.inv.fileCreate_existing hD h.dirs h.solid hp htype hf

end

/-- After every run of legal calls that write to no directory, make none longer
and find the blocks they need, the laws of names hold. -/
theorem names_of_run {ops : List Op} {s s' : FsSt} (h : Consistent s.mem) (hd : DirsOk s.mem) (hS : Solid s.mem)
    (hn : DistinctNames s.mem) (hl : Along Op.Legal ops s) (ht : Along Op.Tame ops s)
    (hrun : runOps ops s = .ok () s') : NameLaws s' := by
  obtain ⟨own', h'⟩ := orderly_of_run (L := dirLayout s.mem h.nblocks) trivial ⟨h.dirInv hd, hd, hS, hn⟩ hl ht hrun
  exact h'.laws trivial

/-- A root directory without a block is in order. -/
theorem emptyRoot_orderly : DirsOk emptyRoot.mem ∧ Solid emptyRoot.mem ∧ DistinctNames emptyRoot.mem := by
  have hroot : ∀ f, InTree emptyRoot.mem f → f = root := by
    intro f hf
    simpa using (consistent_of_fsck (m := emptyRoot.mem) (l := [root]) (by decide +kernel)).2 f hf
  have hsize : fSize emptyRoot.mem root = 0 := by decide +kernel
  have hdirs : DirsOk emptyRoot.mem := by
    intro f hf _
    rw [hroot f hf, hsize]
    exact ⟨Int.dvd_zero _, by decide⟩
  refine ⟨hdirs, fun f hf _ k _ hlt => ?_, fun d hd ht j _ g _ hg _ _ => ?_⟩
  · rw [hroot f hf, hsize, blocksUp_zero] at hlt
    omega
  · -- an entry would be in the tree, and the root directory is no entry
    have hi := emptyRoot_consistent.dirInv hdirs
    obtain ⟨hj, hp, -, he⟩ := child_some.mp hg
    exact absurd (he.symm.trans (hroot g (.child hd ht hg))) (hi.entry_ne_root (hi.isRec hd) ht hj hp)

theorem emptyRoot_names : ∃ s', runOps [.create [97] 0] emptyRoot = .ok () s' ∧ NameLaws s' := by
  obtain ⟨hdirs, hsolid, hdist⟩ := emptyRoot_orderly
  obtain ⟨s', hrun, hlegal⟩ := emptyRoot_create
  refine ⟨_, hrun, names_of_run emptyRoot_consistent hdirs hsolid hdist hlegal (And.intro (.inr ?_)
    fun _ _ _ => trivial) hrun⟩
  rintro ⟨dir, last, hres, -, -, hfull⟩
  have hmissing : resolve emptyRoot.mem none root (components [97]) = .ok (.missing root [97]) := by decide +kernel
  rw [hmissing] at hres
  cases hres
  exact absurd hfull (by decide +kernel)

/-- 512 bytes written to the root directory are two files of the name "x". -/
theorem dir_write_doubles_name : ∃ (ops : List Op) (s s' : FsSt), Consistent s.mem ∧ DirsOk s.mem ∧ Solid s.mem ∧
    DistinctNames s.mem ∧ Along Op.Legal ops s ∧ runOps ops s = .ok () s' ∧ ¬ NameLaws s' := by
  obtain ⟨hdirs, hsolid, hdist⟩ := emptyRoot_orderly
  let ops : List Op := [.write root (withFile (withFile Block.zero 0 [120] 0 0 0) 256 [120] 0 0 0) 512 0]
  have hrun : runOps ops emptyRoot = .ok () (after (runOps ops) emptyRoot) := eq_ok_of_returns (by decide +kernel)
  refine ⟨ops, emptyRoot, _, emptyRoot_consistent, hdirs, hsolid, hdist,
    ⟨⟨inTree_root _, by decide, by decide⟩, fun _ _ _ => trivial⟩, hrun, fun h => ?_⟩
  have hone := h.distinct root (inTree_root _) (by decide +kernel) 0 1 ⟨4, 0⟩ ⟨4, 256⟩ (by decide +kernel)
    (by decide +kernel) (by decide +kernel)
  cases hone

end Fs
end Jos
