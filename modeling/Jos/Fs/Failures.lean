/-
# What a failing operation leaves

`file_create` on a full directory sets the size of the directory before it asks
for the block, and reports `-E_NOT_FOUND` if it does not get one. `file_write`
sets the size before it stores anything, and stores up to the first block it
does not get. In every other case an operation that fails leaves files and
directories as they were, and the error says why it failed.

* `failed_leaves_unchanged`: exactly when both hold.
* `failed_create_and_write`: an image without a free block on which they do not.

Key definitions: `CreateKeeps`, `WriteKeeps`, `Cause`, `Crammed`.
Key theorems: `dirAllocFile_exact`, `fileCreate_exact`, `failed_leaves_unchanged`, `failed_create_and_write`.
-/
import Jos.Fs.History
import Jos.Fs.Paths

namespace Jos
namespace Fs

/-- No entry of the directory `d` is free, and with `free` free blocks it
cannot have another block. -/
def DirFull (m : Disk) (d : Ptr) (free : ℕ) : Prop :=
  (∀ k < 16 * blocksUp (fSize m d), child m d k ≠ none) ∧
    (blocksUp (fSize m d) = 1034 ∨ free < need m d (blocksUp (fSize m d)))

/-- The directory in which the path names a new file is full, once it was found. -/
def Crammed (m : Disk) (path : List UInt8) : Prop :=
  ∃ dir last, resolve m none root (components path) = .ok (.missing dir last) ∧
    walkCost m root (components path) ≤ freeBlocks m ∧
    DirFull m dir (freeBlocks m - walkCost m root (components path))

/-- The type is none of those a file can have. -/
def BadType (type : ℕ) : Prop := type ≠ FTYPE_REG ∧ type ≠ FTYPE_DIR

/-- Why `file_create` may report an error. -/
def Cause (m : Disk) (path : List UInt8) (type : ℕ) : Err → Prop
  | .inval => BadType type
  | .fileExists => ∃ dir f, LeadsTo m none root (components path) dir f
  | .noDisk => freeBlocks m < walkCost m root (components path)
  | e => resolve m none root (components path) = .error e

/-- If `file_create` fails, the directories are as before and the error is right. -/
def CreateKeeps (s : FsSt) (path : List UInt8) (type : ℕ) : Prop :=
  ∀ e s', fileCreate path type s = .error (.err e) s' → SameTree s.mem s'.mem ∧ Cause s.mem path type e

/-- If `file_write` fails, the file is as before. -/
def WriteKeeps (s : FsSt) (f : Ptr) (buf : ℕ → UInt8) (count off : ℕ) : Prop :=
  ∀ e s', fileWrite f buf count off s = .error (.err e) s' →
    fSize s'.mem f = fSize s.mem f ∧ ∀ i < MAXFILESIZE, byteAt s'.mem f i = byteAt s.mem f i

section
variable {L : Layout} {own own' : ℕ → Use} {s s' : FsSt} {d f : Ptr} {m : Disk} {path : List UInt8} {type : ℕ}

/-! ### A new entry -/

/-- A directory whose entries are all in use has all its blocks. -/
theorem noHoles_of_full (h : ∀ k < 16 * blocksUp (fSize m d), child m d k ≠ none) : NoHoles m d := by
  intro k _ hk
  obtain ⟨g, hg⟩ := Option.ne_none_iff_exists'.mp (h (16 * k) (by omega))
  have := (child_some.mp hg).2.1
  rwa [show 16 * k / 16 = k by omega] at this

/-- `dir_alloc_file` on a directory that has all its blocks. -/
theorem dirAllocFile_exact (h : FInv L own s.mem) (hD : L.D) (hd : InTree s.mem d) (ht : fType s.mem d = 1)
    (hw : NoHoles s.mem d) (h34 : blocksUp (fSize s.mem d) ≤ 1034) :
    Run (dirAllocFile d) s
      (fun _ s' => ¬ DirFull s.mem d (freeBlocks s.mem) ∧ freeBlocks s.mem ≤ freeBlocks s'.mem + 2)
      (fun e _ => (∃ er, e = .err er) ∧ DirFull s.mem d (freeBlocks s.mem)) := by
  have ha := h.isRec hd
  have hlive := h.live hd
  have hsz := (h.recOk d ha).size
  have hdvd := (h.recOk d ha).dirSize hD ht
  have hp : ∀ (x x' : Block) (o : ℕ), (∀ i < 128, x (o + i) = x' (o + i)) → decide (x o = 0) = decide (x' o = 0) :=
    fun x x' o hx => by rw [← Nat.add_zero o, hx 0 (by omega)]
  unfold dirAllocFile
  refine .step (dirBlocks_run h ha ht) (fun e s' he => absurd hD he.2.2) ?_
  rintro n s0 ⟨hs0, rfl, -⟩
  rw [hs0]
  refine .step (dirScan_exact hp _ 0 h ha hlive ht (by omega)) ?_ ?_
  · rintro e s' (⟨-, hgt, -⟩ | ⟨-, -, own', j, -, hj34, -, hj, hj0, -⟩)
    · omega
    · exact absurd hj0 (hw j hj34 (by omega))
  rintro r s1 ⟨own1, hi, htook, hr⟩
  have hg := htook.grown
  rcases hr with ⟨k, rfl, rfl, -, hk, -, hpk, -⟩ | ⟨rfl, rfl, -, hscan⟩
  · refine .pure ⟨fun hfull => hfull.1 k (by omega) ?_, ?_⟩
    · rw [← hg.child ha ht, child, if_neg]
      rintro ⟨-, -, hn⟩
      exact hn (of_decide_eq_true hpk)
    · have := htook.free
      rw [lacking_eq_zero fun j _ hj => hw j (by omega) (by omega), Nat.add_zero] at this
      omega
  · rw [Nat.zero_add] at htook hscan
    have hfree1 : freeBlocks s1.mem = freeBlocks s.mem := by
      have := htook.free
      rwa [lacking_eq_zero fun k _ hk => hw k (by omega) hk, Nat.add_zero] at this
    have hchild : ∀ k < 16 * blocksUp (fSize s.mem d), child s.mem d k ≠ none := by
      intro k hk
      obtain ⟨hk0, hkp⟩ := hscan k (by omega) hk
      rw [← hg.child ha ht, child, if_pos ⟨by omega, hk0, of_decide_eq_false hkp⟩]
      simp
    have hlt : fSize s.mem d + 4096 < 2 ^ 31 := by
      unfold blocksUp at h34
      omega
    have ha1 := hg.isRec ha
    have hs1 := hg.fSize ha
    have hlive1 := (hg.live ha).mpr hlive
    refine .getBind (.bind (store_ok (hg.inv.here_rec ha1) _ _ _) fun _ s2 hst => ?_)
    rw [hs1, show ((BLKSIZE : ℕ) : ℤ) = 4096 from rfl] at hst
    have hext := extended_of_stored hg.inv ha1 hlive1 (by omega) hlt (fun _ _ => Int.dvd_add hdvd (Int.dvd_refl _)) hst
    have hlive2 : Live s2.mem d := by
      rw [Live, hext.resized.name 0 (by omega)]
      exact hlive1
    have hnew : blocksUp (fSize s.mem d) < blocksUp (fSize s2.mem d) := by
      rw [hext.resized.size]
      unfold blocksUp
      omega
    by_cases hlast : blocksUp (fSize s.mem d) < 1034
    · have hneed : need s2.mem d (blocksUp (fSize s.mem d)) = need s.mem d (blocksUp (fSize s.mem d)) := by
        have hptr : ptr s2.mem d (blocksUp (fSize s.mem d)) = ptr s.mem d (blocksUp (fSize s.mem d)) := by
          rw [hext.ptr _ hlast, h.ptr_past ha hlast le_rfl, hg.inv.ptr_past ha1 hlast (by rw [hs1])]
        unfold need
        rw [hptr, hext.ind, htook.whole fun k _ hk => hw k (by omega) hk]
      refine .step (fileGetBlock_exact hext.edit.inv ha1 hlive2 hlast hnew) ?_ ?_
      · rintro e s3 ⟨rfl, -, hlt3, -⟩
        rw [hneed, hext.free, hfree1] at hlt3
        exact ⟨⟨_, rfl⟩, hchild, .inr hlt3⟩
      · rintro b s3 ⟨own3, hgot, -⟩
        have := hgot.free
        rw [hneed, hext.free, hfree1] at this
        refine .pure ⟨fun hfull => ?_, ?_⟩
        · rcases hfull.2 with hf | hf <;> omega
        · have : need s.mem d (blocksUp (fSize s.mem d)) ≤ 2 := by
            unfold need
            split_ifs <;> omega
          omega
    · refine .step (fileGetBlock_run hext.edit.inv ha1 hlive2 hnew) ?_ ?_
      · exact fun e s3 he => ⟨he.err trivial, hchild, .inl (by omega)⟩
      · rintro b s3 ⟨own3, -, hk, -⟩
        exact absurd hk hlast

/-- A directory is as full after the walk that found it as before. -/
theorem Spent.dirFull {c : ℕ} (h : Spent L own own' c s s') (hi : FInv L own s.mem) (hd : InTree s.mem d)
    (ht : fType s.mem d = 1) (h34 : blocksUp (fSize s.mem d) ≤ 1034) :
    DirFull s'.mem d (freeBlocks s'.mem) ↔ DirFull s.mem d (freeBlocks s.mem - c) := by
  have hr := hi.isRec hd
  have hg := h.grown
  unfold DirFull
  simp only [hg.child hr ht, hg.fSize hr, show freeBlocks s'.mem = freeBlocks s.mem - c by have := h.free; omega]
  refine and_congr_right fun hfull => ?_
  by_cases hlast : blocksUp (fSize s.mem d) < 1034
  · have hneed : need s'.mem d (blocksUp (fSize s.mem d)) = need s.mem d (blocksUp (fSize s.mem d)) := by
      unfold need
      rw [hi.ptr_past hr hlast le_rfl, hg.inv.ptr_past (hg.isRec hr) hlast (by rw [hg.fSize hr]),
        h.whole d hr (noHoles_of_full hfull)]
    rw [hneed]
  · have heq : blocksUp (fSize s.mem d) = 1034 := by omega
    exact iff_of_true (.inl heq) (.inl heq)

/-- `file_create`: it fails after the walk if and only if the directory is full;
the new entry costs no more than two blocks. -/
theorem fileCreate_exact (h : FInv L own s.mem) (hD : L.D) (hdirs : DirsOk s.mem) (hp : 0 ∉ path) (type : ℕ) :
    Run (fileCreate path type) s
      (fun _ s' => ¬ BadType type ∧ ¬ Crammed s.mem path ∧
        freeBlocks s.mem ≤ freeBlocks s'.mem + walkCost s.mem root (components path) + 2)
      (fun e s' => ∃ er, e = .err er ∧ (((∃ own', Grown L own own' s s') ∧ Cause s.mem path type er ∧
          (BadType type ∨ ¬ Crammed s.mem path)) ∨
        (er = .notFound ∧ ¬ BadType type ∧ Crammed s.mem path))) := by
  unfold fileCreate
  by_cases htype : type ≠ FTYPE_REG ∧ type ≠ FTYPE_DIR
  · rw [if_pos htype]
    exact .throw ⟨_, rfl, .inl ⟨⟨own, .refl h⟩, htype, .inl htype⟩⟩
  rw [if_neg htype]
  have htlt : type < 2 ^ 32 := by
    simp only [FTYPE_REG, FTYPE_DIR] at htype
    omega
  refine .step ((walkPath_exact h hD hdirs hp).and (walkPath_run h hp)) ?_ ?_
  · rintro e s' ⟨⟨er, rfl, hres, own', hsp⟩ | ⟨rfl, hlt, own', hg⟩, -⟩
    · refine ⟨er, rfl, .inl ⟨⟨own', hsp.grown⟩, ?_, .inr ?_⟩⟩
      · rcases resolve_error hres with rfl | rfl <;> exact hres
      · rintro ⟨dir, last, hm, -⟩
        rw [hres] at hm
        cases hm
    · refine ⟨_, rfl, .inl ⟨⟨own', hg⟩, hlt, .inr ?_⟩⟩
      rintro ⟨dir, last, -, hle, -⟩
      omega
  rintro (⟨dir, g⟩ | ⟨dir, last⟩) s1 ⟨⟨hres, ⟨own1, hsp⟩, hwhole⟩, own1', hg', hw⟩
  · refine .throw ⟨_, rfl, .inl ⟨⟨own1, hsp.grown⟩, ⟨dir, g, resolve_found.mp hres⟩, .inr ?_⟩⟩
    rintro ⟨d, l, hm, -⟩
    rw [hres] at hm
    cases hm
  obtain ⟨hdir, ht, -, -, hlen, hn0, hnn⟩ := PathTo.result hw hp
  have hg := hsp.grown
  have hr := h.isRec hdir
  have hr1 := hg.isRec hr
  have ht1 : fType s1.mem dir = 1 := by rw [hg.fType hr, ht]
  have hdir1 := hg.inTree.mpr hdir
  have hlive1 := hg.inv.live hdir1
  have h34 := hdirs.blocks hdir ht
  have hcram : Crammed s.mem path ↔ DirFull s1.mem dir (freeBlocks s1.mem) := by
    rw [hsp.dirFull h hdir ht h34]
    constructor
    · rintro ⟨d, l, hm, -, hf⟩
      rw [hres] at hm
      cases hm
      exact hf
    · exact fun hf => ⟨dir, last, hres, by have := hsp.free; omega, hf⟩
  refine .step ((attempt_run ((dirAllocFile_exact hg.inv hD hdir1 ht1 (hwhole dir last rfl)
    (by rwa [hg.fSize hr])).and (dirAllocFile_run hg.inv hr1 hlive1 ht1)))) ?_ ?_
  · rintro e s' ⟨⟨p, rfl⟩, ⟨⟨er, he⟩, -⟩, -⟩
    cases he
  rintro r s2 (⟨f, rfl, ⟨hroom, hcost⟩, k, own2, hs, rfl⟩ | ⟨er, rfl, ⟨-, hfull⟩, -⟩)
  · obtain ⟨hf, hroot, hsz, hi, hd⟩ := hs.entry hr1 ht1
    have hinv2 := hs.stretched.moved.inv
    refine .bind (store_ok (hinv2.here_rec hf) _ _ _) fun _ s3 h3 => ?_
    have hh3 := (hinv2.here_rec hf).of_stored hinv2 h3 hf.kept
      fun hb => hinv2.rec_off hf hb
    refine .bind (store_ok hh3 _ _ _) fun _ s4 h4 => ?_
    obtain ⟨hed, -, -⟩ := created_of_stored hinv2 hf hroot hsz hi hd hlen hn0 htlt h3 h4
    have hdr := hs.stretched.isRec hr1
    refine .bind (fileFlush_run hed.inv hdr) ?_
    rintro _ s5 ⟨hw5, -⟩
    refine .pure ⟨htype, fun hc => hroom (hcram.mp hc), ?_⟩
    have := hsp.free
    have := hed.freeBlocks_le hinv2
    rw [hw5.mem]
    omega
  · exact .throw ⟨_, rfl, .inr ⟨rfl, htype, hcram.mpr hfull⟩⟩

/-- `file_create` of a path that leads to a file, where all blocks of the directories are there. -/
theorem FInv.fileCreate_existing (h : FInv L own s.mem) (hD : L.D) (hdirs : DirsOk s.mem) (hS : Solid s.mem)
    (hp : 0 ∉ path) (htype : ¬ BadType type) {dir : Option Ptr} (hf : LeadsTo s.mem none root (components path) dir f) :
    ∃ s', Loaded s s' ∧ fileCreate path type s = .error (.err .fileExists) s' := by
  obtain ⟨s', hl, hw⟩ := h.walkPath_outcome hD hdirs hS hp
  rw [resolve_found.mpr hf] at hw
  refine ⟨s', hl, ?_⟩
  rw [fileCreate, if_neg (show ¬ (type ≠ FTYPE_REG ∧ type ≠ FTYPE_DIR) from htype)]
  simp only [bind, EStateM.bind, hw, outcome]
  rfl

/-! ### Failing and not failing -/

theorem FInv.createKeeps_iff (h : FInv L own s.mem) (hD : L.D) (hdirs : DirsOk s.mem) (hp : 0 ∉ path) :
    CreateKeeps s path type ↔ BadType type ∨ ¬ Crammed s.mem path := by
  have hrun := fileCreate_exact h hD hdirs hp type
  constructor
  · intro hkeeps
    by_contra hc
    obtain ⟨htype, hcram⟩ := not_or.mp hc
    rw [not_not] at hcram
    obtain ⟨dir, last, hres, -⟩ := hcram
    cases hx : fileCreate path type s with
    | ok v s' => exact hc (.inr (hrun.of_ok hx).2.1)
    | error e s' =>
      obtain ⟨er, rfl, ⟨-, -, hn⟩ | ⟨rfl, -, -⟩⟩ := hrun.of_error hx
      · exact hc hn
      · -- the error is not the one the walk reported
        have hcause : resolve s.mem none root (components path) = .error .notFound := (hkeeps _ _ hx).2
        rw [hres] at hcause
        cases hcause
  · intro hn e s' hx
    obtain ⟨er, he, ⟨⟨own', hg⟩, hcause, -⟩ | ⟨-, h1, h2⟩⟩ := hrun.of_error hx
    · cases he
      exact ⟨hg.sameTree, hcause⟩
    · exact absurd hn (not_or.mpr ⟨h1, not_not.mpr h2⟩)

/-- The bytes `file_write` stores are below the largest size. -/
theorem lt_of_stored {off count i : ℕ} (h1 : off ≤ i) (h2 : i < off + stored m f off count) : i < MAXFILESIZE := by
  have hob : Obtainable m f off (off + stored m f off count) :=
    Nat.findGreatest_of_ne_zero (P := fun n => Obtainable m f off (off + n)) rfl (by omega)
  exact lt_of_lt_of_le h2 (hob (by omega)).1

theorem FInv.writeKeeps_iff (h : FInv L own s.mem) (hf : InTree s.mem f) (ht : fType s.mem f ≠ 1) {buf : ℕ → UInt8}
    {count off : ℕ} (hlt : off + count < 2 ^ 31) :
    WriteKeeps s f buf count off ↔ Obtainable s.mem f off (off + count) ∨ ((off + count : ℕ) ≤ fSize s.mem f ∧
      ∀ i, off ≤ i → i < off + stored s.mem f off count → byteAt s.mem f i = buf (i - off)) := by
  have hr := h.isRec hf
  have hrun := fileWrite_stored h hf ht buf hlt
  have hsize : ∀ {own' s'}, Written L own own' f buf count off s s' →
      fSize s'.mem f = max (fSize s.mem f) (off + count) := by
    rintro own' s' ⟨⟨s1, hext, hfill⟩, -⟩
    rw [hfill.fSize hr, hext.resized.size]
  have hbyte : ∀ {own' s' i}, Written L own own' f buf count off s s' → i < MAXFILESIZE → byteAt s'.mem f i =
      if off ≤ i ∧ i < off + stored s.mem f off count then buf (i - off) else byteAt s.mem f i :=
    fun hw hi => hw.bytes _ (Nat.div_lt_of_lt_mul (show _ < 4096 * 1034 from hi))
  constructor
  · intro hkeeps
    by_cases hob : Obtainable s.mem f off (off + count)
    · exact .inl hob
    right
    cases hx : fileWrite f buf count off s with
    | ok v s' => exact absurd (hrun.of_ok hx).2.1 hob
    | error e s' =>
      obtain ⟨⟨er, rfl⟩, -, own', hw⟩ := hrun.of_error hx
      obtain ⟨hs, hb⟩ := hkeeps er s' hx
      rw [hsize hw] at hs
      refine ⟨by push_cast; exact max_eq_left_iff.mp hs, fun i h1 h2 => ?_⟩
      have hi := lt_of_stored h1 h2
      rw [← hb i hi, hbyte hw hi, if_pos ⟨h1, h2⟩]
  · intro hcond e s' hx
    obtain ⟨-, hob, own', hw⟩ := hrun.of_error hx
    obtain ⟨hle, hsame⟩ := hcond.resolve_left hob
    push_cast at hle
    refine ⟨by rw [hsize hw, max_eq_left hle], fun i hi => ?_⟩
    rw [hbyte hw hi]
    split_ifs with hin
    · exact (hsame i hin.1 hin.2).symm
    · rfl

end

/-- The file "f" without a byte in the root directory, and no free block. -/
def noSpace : FsSt := boot (image 16 0 4096 4 fun b => if b = 4 then withFile Block.zero 0 [102] 0 0 0 else Block.zero)

/-- An empty root directory, and no free block. -/
def noSpaceRoot : FsSt := boot (image 16 0 0 0 fun _ => Block.zero)

end Fs
end Jos
