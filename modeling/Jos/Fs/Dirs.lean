/-
# Directories and paths (dir_lookup, dir_alloc_file, walk_path)

What the functions that search find, said of the tree: the first child of the
name looked for (`Finds`), or that there is none (`Lacks`); `WalksTo` is
`walk_path` on the tree. The searches themselves only grow the file system, so
these hold before the call as well as after it.

Key definitions: `nameOf`, `Finds`, `Lacks`, `Took`, `WalksTo`.
Key theorems: `dirScan_exact`, `dirLookup_spec`, `walkLoop_run`, `walkPath_run`,
`fileOpen_run`.
-/
import Jos.Fs.Tree

namespace Jos
namespace Fs

open Block

/-- The string in `f_name`. -/
def nameOf (m : Disk) (f : Ptr) : List UInt8 := cstr (fName m f) 128

/-- `strcmp` with a name that fits. -/
theorem strEq_iff {d : Block} : ∀ {off n : ℕ} {name : List UInt8}, name.length < n → 0 ∉ name →
    (strEq d off name = true ↔ cstr (fun i => d (off + i)) n = name)
  | off, n + 1, [], _, _ => by
    rw [cstr, strEq]
    split_ifs with h
    · simpa using h
    · simpa using h
  | off, n + 1, c :: cs, hn, h0 => by
    have ih := @strEq_iff d (off + 1) n cs (by simpa using hn)
      (fun hm => h0 (.tail _ hm))
    have hc : c ≠ 0 := fun hc => h0 (by simp [hc])
    have hf : (fun i => d (off + (i + 1))) = fun i => d (off + 1 + i) := by
      funext i
      rw [Nat.add_assoc, Nat.add_comm 1 i]
    rw [cstr, strEq, Bool.and_eq_true, ih, hf]
    split_ifs with h
    · have hd : d off = 0 := by simpa using h
      simp [hd, hc.symm]
    · simp

/-- The first child of `f` called `name` is `g`, its entry `k`. -/
def Finds (m : Disk) (f : Ptr) (name : List UInt8) (k : ℕ) (g : Ptr) : Prop :=
  child m f k = some g ∧ nameOf m g = name ∧ ∀ k' < k, ∀ g', child m f k' = some g' → nameOf m g' ≠ name

/-- No child of `f` is called `name`. -/
def Lacks (m : Disk) (f : Ptr) (name : List UInt8) : Prop :=
  ∀ k g, child m f k = some g → nameOf m g ≠ name

/-! ### The search -/

/-- The entries `lo ≤ k < hi` of `a` are there and `p` fails of them. -/
def Scanned (m : Disk) (a : Ptr) (p : Block → ℕ → Bool) (lo hi : ℕ) : Prop :=
  ∀ k, lo ≤ k → k < hi → ptr m a (k / 16) ≠ 0 ∧ p (m (ptr m a (k / 16))) (256 * (k % 16)) = false

section
variable {L : Layout} {own own' : ℕ → Use} {s s' : FsSt} {a : Ptr} {X : Ptr → Prop} {p : Block → ℕ → Bool}

theorem GrownBut.pred (h : GrownBut L own own' X s s') (ha : IsRec own a)
    (ht : Fs.fType s.mem a = 1) (hp : ∀ d d' o, (∀ i < 128, d (o + i) = d' (o + i)) → p d o = p d' o)
    {k : ℕ} (hk : k / 16 < 1034) (h0 : Fs.ptr s.mem a (k / 16) ≠ 0) :
    p (s'.mem (Fs.ptr s'.mem a (k / 16))) (256 * (k % 16)) =
      p (s.mem (Fs.ptr s.mem a (k / 16))) (256 * (k % 16)) := by
  rw [h.ptr a ha _ hk h0]
  exact hp _ _ _ fun i hi' => h.head _ (h.start.isRec_entry ha ht hk h0) i (by omega)

/-- The blocks `lo ≤ k < hi` of the directory `a` were made to be there. -/
structure Took (L : Layout) (own own' : ℕ → Use) (a : Ptr) (lo hi : ℕ) (s s' : FsSt) : Prop where
  grown : Grown L own own' s s'
  there : ∀ k, lo ≤ k → k < hi → ptr s'.mem a k ≠ 0
  free : freeBlocks s'.mem + lacking s.mem a lo hi = freeBlocks s.mem
  other : ∀ f, IsRec own f → f ≠ a →
    (∀ k < 1034, ptr s'.mem f k = ptr s.mem f k) ∧ fIndirect s'.mem f = fIndirect s.mem f
  whole : (∀ k, lo ≤ k → k < hi → ptr s.mem a k ≠ 0) → fIndirect s'.mem a = fIndirect s.mem a

theorem Took.refl (h : FInv L own s.mem) (lo : ℕ) : Took L own own a lo lo s s where
  grown := .refl h
  there k h1 h2 := by omega
  free := by rw [lacking_of_le le_rfl, Nat.add_zero]
  other _ _ _ := ⟨fun _ _ => rfl, rfl⟩
  whole _ := rfl

/-- One block, and the rest. -/
theorem Took.cons {own1 : ℕ → Use} {s1 s2 : FsSt} {lo hi : ℕ} (hgot : Got L own own1 a lo s s1) (hl : Loaded s1 s2)
    (h : Took L own1 own' a (lo + 1) hi s2 s') (ha : IsRec own a) (hlo : lo < hi) (hhi : hi ≤ 1034) :
    Took L own own' a lo hi s s' where
  grown := (hgot.grown.trans (grown_of_loaded hgot.grown.inv hl)).trans h.grown
  there k h1 h2 := by
    rcases Nat.eq_or_lt_of_le h1 with rfl | h1
    · have hthere : ptr s2.mem a lo ≠ 0 := by rw [hl.mem]; exact hgot.there
      rw [h.grown.ptr a (hgot.grown.isRec ha) _ (by omega) hthere]
      exact hthere
    · exact h.there k h1 h2
  free := by
    have h1 := h.free
    have h2 := hgot.free
    have h3 := hgot.lacking ha hlo hhi
    rw [hl.mem] at h1
    omega
  other f hf hne := by
    obtain ⟨h1, h2⟩ := h.other f (hgot.grown.isRec hf) hne
    rw [hl.mem] at h1 h2
    exact ⟨fun k hk => by rw [h1 k hk, hgot.ptrs f hf k hk fun he => absurd he hne],
      by rw [h2, hgot.ind f hf fun he => absurd he hne]⟩
  whole hall := by
    have hi1 : fIndirect s1.mem a = fIndirect s.mem a := by
      by_cases h10 : lo < 10
      · exact hgot.ind a ha fun _ => h10
      · refine hgot.grown.ind a ha fun h0 => hall lo le_rfl hlo ?_
        rw [ptr, if_neg h10, if_pos h0]
    rw [h.whole fun k h1 h2 => ?_, hl.mem, hi1]
    rw [hl.mem, hgot.ptrs a ha k (by omega) fun _ => by omega]
    exact hall k (by omega) h2

/-- The loop of `dir_lookup` and `dir_alloc_file`, with the blocks it takes. -/
theorem dirScan_exact (hp : ∀ d d' o, (∀ i < 128, d (o + i) = d' (o + i)) → p d o = p d' o) :
    ∀ (n i : ℕ) {own : ℕ → Use} {s : FsSt}, FInv L own s.mem → IsRec own a → Live s.mem a → fType s.mem a = 1 →
    i + n ≤ blocksUp (fSize s.mem a) →
    Run (dirScan a p n i) s
      (fun r s' => ∃ own' hi, Took L own own' a i hi s s' ∧
        ((∃ k, r = some (entryAt s'.mem a k) ∧ hi = k / 16 + 1 ∧ 16 * i ≤ k ∧ k < 16 * (i + n) ∧ k / 16 < 1034 ∧
          p (s'.mem (ptr s'.mem a (k / 16))) (256 * (k % 16)) = true ∧ Scanned s'.mem a p (16 * i) k) ∨
        (r = none ∧ hi = i + n ∧ (0 < n → i + n ≤ 1034) ∧ Scanned s'.mem a p (16 * i) (16 * (i + n)))))
      (fun e s' => (e = .err .inval ∧ 1034 < i + n ∧ ∃ own', Grown L own own' s s' ∧
          Scanned s'.mem a p (16 * i) (16 * 1034)) ∨
        (e = .err .noDisk ∧ .full ∈ s'.trace ∧ ∃ own' j, Grown L own own' s s' ∧ j < 1034 ∧ i ≤ j ∧ j < i + n ∧
          ptr s.mem a j = 0 ∧ freeBlocks s.mem < lacking s.mem a i (j + 1) ∧ Scanned s'.mem a p (16 * i) (16 * j)))
  | 0, i, own, s, h, _, _, _, _ =>
    .pure ⟨own, i, Took.refl h i, .inr ⟨rfl, rfl, by omega, fun k h1 h2 => by omega⟩⟩
  | n + 1, i, own, s, h, ha, hlive, ht, hsz => by
    by_cases hi : i < 1034
    case neg =>
      have hget : fileGetBlock a i = fail .inval := if_pos (show NDIRECT + NINDIRECT ≤ i from not_lt.mp hi)
      rw [dirScan, hget]
      exact .bind (Q := fun _ _ => False) (.throw (.inl ⟨rfl, by omega, own, .refl h, fun k h1 h2 => by omega⟩))
        nofun
    refine .step (fileGetBlock_exact h ha hlive hi (by omega)) ?_ ?_
    · rintro e s' ⟨rfl, hfull, hfree, own1, hg, -⟩
      have hle := need_le_lacking (m := s.mem) (a := a) (show i < i + 1 by omega)
      refine .inr ⟨rfl, hfull, own1, i, hg, hi, le_rfl, by omega, ?_, by omega, fun k h1 h2 => by omega⟩
      by_contra hne
      rw [need, if_pos hne] at hfree
      omega
    rintro blk s1 ⟨own1, hgot, rfl⟩
    have hg1 := hgot.grown
    refine .bind (touch_ok (hg1.inv.here_ptr (hg1.isRec ha) (by omega) hgot.there)) ?_
    intro _ s2 hl
    have hg2 := hg1.trans (grown_of_loaded hg1.inv hl)
    have ha2 := hg2.isRec ha
    have ht2 : fType s2.mem a = 1 := by rw [hg2.fType ha, ht]
    have hptr : ptr s2.mem a i = ptr s1.mem a i := by rw [hl.mem]
    have hthere : ptr s2.mem a i ≠ 0 := by rw [hptr]; exact hgot.there
    rw [← hptr]
    have hscanned : ∀ j ≤ 16, (∀ i' < j, (!p (s2.mem (ptr s2.mem a i)) (FILESIZE * i')) = true) →
        Scanned s2.mem a p (16 * i) (16 * i + j) := by
      intro j hj hall k h1 h2
      have hj' := hall (k - 16 * i) (by omega)
      rw [Bool.not_eq_true'] at hj'
      rw [show k / 16 = i by omega, show k % 16 = k - 16 * i by omega]
      exact ⟨hthere, hj'⟩
    refine .getBind ?_
    split
    · rename_i j hj
      obtain ⟨hpj, hj16, hlt⟩ := List.find?_range_eq_some.mp hj
      have hj16' : j < 16 := List.mem_range.mp hj16
      have hd : (16 * i + j) / 16 = i := by omega
      have hmod : (16 * i + j) % 16 = j := by omega
      refine .pure ⟨own1, i + 1, (Took.refl hg2.inv (i + 1)).cons hgot hl ha (by omega) (by omega),
        .inl ⟨16 * i + j, ?_, by omega, by omega, by omega, by omega, ?_, ?_⟩⟩
      · rw [entryAt, hd, hmod]
      · rw [hd, hmod]
        exact hpj
      · exact hscanned j hj16'.le hlt
    · rename_i hnone
      have hscan := hscanned 16 le_rfl (List.find?_range_eq_none.mp hnone)
      -- the block just searched reads as before at the end
      have hscan3 : ∀ {own3 : ℕ → Use} {s3 : FsSt} {hi : ℕ}, Grown L own1 own3 s2 s3 →
          Scanned s3.mem a p (16 * (i + 1)) hi → Scanned s3.mem a p (16 * i) hi := by
        intro own3 s3 hi hg3 hrest k h1 h2
        by_cases hk' : k < 16 * (i + 1)
        · obtain ⟨hk0, hkp⟩ := hscan k h1 hk'
          have hk : k / 16 < 1034 := by omega
          rw [hg3.pred ha2 ht2 hp hk hk0, hg3.ptr a ha2 _ hk hk0]
          exact ⟨hk0, hkp⟩
        · exact hrest k (by omega) h2
      refine (dirScan_exact hp n (i + 1) hg2.inv ha2 ((hg2.live ha).mpr hlive) ht2
        (by rw [hg2.fSize ha]; omega)).mono ?_ ?_
      · rintro r s3 ⟨own3, hi, htook, hr⟩
        rcases hr with ⟨k, rfl, rfl, h1, h2, hk, h3, h4⟩ | ⟨rfl, rfl, hn, h4⟩
        · exact ⟨own3, _, htook.cons hgot hl ha (by omega) (by omega),
            .inl ⟨k, rfl, rfl, by omega, by omega, hk, h3, hscan3 htook.grown h4⟩⟩
        · refine ⟨own3, i + (n + 1), ?_, .inr ⟨rfl, rfl, by omega, ?_⟩⟩
          · rw [show i + (n + 1) = i + 1 + n by omega]
            exact htook.cons hgot hl ha (by omega) (by omega)
          · rw [show i + (n + 1) = i + 1 + n by omega]
            exact hscan3 htook.grown h4
      · rintro e s3 (⟨rfl, hlt, own3, hg3, h5⟩ | ⟨rfl, hfull, own3, j, hg3, hj, h1, h2, h3, h4, h5⟩)
        · exact .inl ⟨rfl, by omega, own3, hg2.trans hg3, hscan3 hg3 h5⟩
        have hlack := hgot.lacking ha (show i < j + 1 by omega) (by omega)
        have hfree := hgot.free
        rw [hl.mem] at h3 h4
        refine .inr ⟨rfl, hfull, own3, j, hg2.trans hg3, hj, by omega, by omega, ?_, by omega, hscan3 hg3 h5⟩
        rw [← h3, hgot.ptrs a ha j (by omega) fun _ => by omega]

/-- The size of a directory, in blocks. -/
theorem dirBlocks_run (h : FInv L own s.mem) (ha : IsRec own a) (ht : fType s.mem a = 1) :
    Run (dirBlocks a) s (fun n s' => s' = s ∧ n = blocksUp (fSize s.mem a) ∧ (4096 : ℤ) ∣ fSize s.mem a)
      (fun e s' => s' = s ∧ e = .panic .dirSize ∧ ¬ L.D) := by
  have h0 := (h.recOk a ha).size
  have h1 := fSize_lt s.mem a
  refine .getBind ?_
  simp only [BLKSIZE, Nat.cast_ofNat]
  split_ifs with hm
  · rw [Int.tmod_eq_emod_of_nonneg h0] at hm
    refine .pure ⟨rfl, ?_, Int.dvd_of_emod_eq_zero hm⟩
    rw [Int.tdiv_eq_ediv_of_nonneg h0, ofInt32, blocksUp]
    omega
  · refine .throw ⟨rfl, rfl, fun hD => hm ?_⟩
    rw [Int.tmod_eq_emod_of_nonneg h0]
    exact Int.emod_eq_zero_of_dvd ((h.recOk a ha).dirSize hD ht)

theorem cstr_congr : ∀ {n : ℕ} {x y : ℕ → UInt8}, (∀ i < n, x i = y i) → cstr x n = cstr y n
  | 0, _, _, _ => rfl
  | n + 1, x, y, h => by
    rw [cstr, cstr, h 0 (by omega), cstr_congr (x := fun i => x (i + 1)) fun i hi => h (i + 1) (by omega)]

theorem GrownBut.nameOf (h : GrownBut L own own' X s s') (ha : IsRec own a) : Fs.nameOf s'.mem a = Fs.nameOf s.mem a :=
  cstr_congr fun _ hi => h.fName ha hi

theorem fName_of_nameOf {m : Disk} (h : nameOf m a ≠ []) : fName m a 0 ≠ 0 := by
  intro h0
  rw [nameOf, cstr, if_pos h0] at h
  exact h rfl

/-- How `dir_lookup` fails on the directory `a`, apart from a full disk. -/
def LookupErr (m : Disk) (a : Ptr) (name : List UInt8) (e : Err) : Prop :=
  Lacks m a name ∧ ((e = .notFound ∧ blocksUp (fSize m a) ≤ 1034) ∨ (e = .inval ∧ 1034 < blocksUp (fSize m a)))

/-- How `dir_lookup` fails, with the blocks it takes. -/
inductive LookupStop (L : Layout) (own : ℕ → Use) (a : Ptr) (name : List UInt8) (s s' : FsSt) : Fault → Prop
  | lacks (own' : ℕ → Use) (h : Lacks s.mem a name) (hmax : blocksUp (fSize s.mem a) ≤ 1034)
      (ht : Took L own own' a 0 (blocksUp (fSize s.mem a)) s s') : LookupStop L own a name s s' (.err .notFound)
  | large (own' : ℕ → Use) (h : Lacks s.mem a name) (hlt : 1034 < blocksUp (fSize s.mem a))
      (hg : Grown L own own' s s') : LookupStop L own a name s s' (.err .inval)
  | full (own' : ℕ → Use) (j : ℕ) (hfull : .full ∈ s'.trace) (hg : Grown L own own' s s')
      (hj : j < blocksUp (fSize s.mem a)) (hfree : freeBlocks s.mem < lacking s.mem a 0 (j + 1))
      (hlate : ∀ k g, Finds s.mem a name k g → j < k / 16) : LookupStop L own a name s s' (.err .noDisk)
  | size (hs : s' = s) (hd : ¬ L.D) : LookupStop L own a name s s' (.panic .dirSize)

/-- `dir_lookup`, with the blocks it takes. -/
theorem dirLookup_spec (h : FInv L own s.mem) (ha : IsRec own a) (hlive : Live s.mem a) (ht : fType s.mem a = 1)
    {name : List UInt8} (hlen : name.length < 128) (h0 : 0 ∉ name) (hne : name ≠ []) :
    Run (dirLookup a name) s
      (fun g s' => ∃ own' k, Finds s.mem a name k g ∧ Took L own own' a 0 (k / 16 + 1) s s')
      (fun e s' => LookupStop L own a name s s' e) := by
  have hp : ∀ (d d' : Block) (o : ℕ), (∀ i < 128, d (o + i) = d' (o + i)) → strEq d o name = strEq d' o name := by
    intro d d' o hd
    rw [Bool.eq_iff_iff, strEq_iff hlen h0, strEq_iff hlen h0, cstr_congr hd]
  -- an entry that the search passed over is not the one looked for
  have hno : ∀ {own' s' hi k g}, Grown L own own' s s' →
      Scanned s'.mem a (fun d o => strEq d o name) (16 * 0) hi → k < hi → child s.mem a k = some g →
      nameOf s.mem g ≠ name := by
    intro own' s' hi k g hg hscan h2 hc hn
    obtain ⟨hk, hk0, -, rfl⟩ := child_some.mp hc
    have : strEq (s'.mem (ptr s'.mem a (k / 16))) (256 * (k % 16)) name = false := (hscan k (by omega) h2).2
    rw [hg.pred ha ht hp hk hk0, ← Bool.not_eq_true, strEq_iff hlen h0] at this
    exact this hn
  refine .step (dirBlocks_run h ha ht) ?_ ?_
  · rintro e s' ⟨rfl, rfl, hD⟩
    exact .size rfl hD
  rintro n s0 ⟨hs0, rfl, -⟩
  rw [hs0]
  refine .step (dirScan_exact hp _ 0 h ha hlive ht (by omega)) ?_ ?_
  · rintro e s' (⟨rfl, hlt, own', hg, hscan⟩ | ⟨rfl, hfull, own', j, hg, -, -, hj, hj0, hfree, hscan⟩)
    · refine .large own' (fun k g hc => hno hg hscan ?_ hc) (by omega) hg
      have := (child_some.mp hc).1
      omega
    · refine .full own' j hfull hg (by omega) hfree fun k g hfind => ?_
      obtain ⟨-, hk0, -, -⟩ := child_some.mp hfind.1
      have h1 : k / 16 ≠ j := fun he => hk0 (by rw [he, hj0])
      have h2 : ¬ k < 16 * j := fun hlt => hno hg hscan hlt hfind.1 hfind.2.1
      omega
  rintro r s1 ⟨own1, hi, htook, hr⟩
  have hg := htook.grown
  rcases hr with ⟨k, rfl, rfl, -, -, hk, hpk, hscan⟩ | ⟨rfl, rfl, hn, hscan⟩
  · rw [strEq_iff hlen h0] at hpk
    have hk0 : ptr s1.mem a (k / 16) ≠ 0 := htook.there _ (by omega) (by omega)
    have hname : nameOf s1.mem (entryAt s1.mem a k) = name := hpk
    have hc1 : child s1.mem a k = some (entryAt s1.mem a k) :=
      child_some.mpr ⟨hk, hk0, fName_of_nameOf (by rw [hname]; exact hne), rfl⟩
    have hc : child s.mem a k = some (entryAt s1.mem a k) := by rw [← hg.child ha ht, hc1]
    refine .pure ⟨own1, k, ⟨hc, ?_, fun k' hk' g' hc' => hno hg hscan hk' hc'⟩, htook⟩
    rw [← hname, hg.nameOf]
    obtain ⟨h1, h2, -, h4⟩ := child_some.mp hc
    rw [h4]
    exact h.isRec_entry ha ht h1 h2
  · have hlack : Lacks s.mem a name := fun k g hc => by
      obtain ⟨h1, h2, -, -⟩ := child_some.mp hc
      have hlt := ((h.recOk a ha).ptr _ h1 h2).2
      exact hno hg hscan (by omega) hc
    rw [Nat.zero_add] at htook
    refine .throw (.lacks own1 hlack ?_ htook)
    by_contra hc
    have := hn (by omega)
    omega

/-- `dir_lookup`. -/
theorem dirLookup_run (h : FInv L own s.mem) (ha : IsRec own a) (hlive : Live s.mem a) (ht : fType s.mem a = 1)
    {name : List UInt8} (hlen : name.length < 128) (h0 : 0 ∉ name) (hne : name ≠ []) :
    Run (dirLookup a name) s (fun g s' => ∃ own', Grown L own own' s s' ∧ ∃ k, Finds s.mem a name k g)
      (Fails L own s L.D fun e _ => LookupErr s.mem a name e) := by
  refine (dirLookup_spec h ha hlive ht hlen h0 hne).mono ?_ ?_
  · rintro g s' ⟨own', k, hfind, htook⟩
    exact ⟨own', htook.grown, k, hfind⟩
  · intro e s' he
    cases he with
    | lacks own' hlack hmax htook => exact ⟨own', htook.grown, .inr ⟨hlack, .inl ⟨rfl, hmax⟩⟩⟩
    | large own' hlack hlt hg => exact ⟨own', hg, .inr ⟨hlack, .inr ⟨rfl, hlt⟩⟩⟩
    | full own' j hfull hg _ _ _ => exact ⟨own', hg, .inl ⟨rfl, hfull⟩⟩
    | size hs hd => exact ⟨hs ▸ Keeps.refl _ _, hd⟩

/-! ### walk_path -/

/-- The element of a path before its first slash, and what comes after it. -/
def firstElem (path : List UInt8) : List UInt8 := path.takeWhile (· ≠ slash)

def restOf (path : List UInt8) : List UInt8 := skipSlash (path.dropWhile (· ≠ slash))

/-- `walk_path` on the tree, from the directory entry `f` on. -/
def WalksTo (m : Disk) : ℕ → Option Ptr → Ptr → List UInt8 → Except Err Walk → Prop
  | 0, dir, f, _, r => r = .ok (.found dir f)
  | n + 1, dir, f, path, r =>
    if path = [] then r = .ok (.found dir f)
    else if 128 ≤ (firstElem path).length then r = .error .badPath
    else if fType m f ≠ 1 then r = .error .notFound
    else (∃ k g, Finds m f (firstElem path) k g ∧ WalksTo m n (some f) g (restOf path) r) ∨
      ∃ e, LookupErr m f (firstElem path) e ∧
        r = if e ≠ .notFound then .error e
          else if restOf path = [] then .ok (.missing f (firstElem path)) else .error .notFound

theorem Finds.det {m : Disk} {f g g' : Ptr} {name : List UInt8} {k k' : ℕ} (h : Finds m f name k g)
    (h' : Finds m f name k' g') : g = g' := by
  obtain rfl : k = k' := by
    rcases lt_trichotomy k k' with hlt | rfl | hlt
    · exact absurd h.2.1 (h'.2.2 k hlt g h.1)
    · rfl
    · exact absurd h'.2.1 (h.2.2 k' hlt g' h'.1)
  exact Option.mem_unique h.1 h'.1

/-- A path leads to one place. -/
theorem WalksTo.det {m : Disk} : ∀ {n : ℕ} {dir : Option Ptr} {f : Ptr} {path : List UInt8} {r r' : Except Err Walk},
    WalksTo m n dir f path r → WalksTo m n dir f path r' → r = r'
  | 0, _, _, _, _, _, h, h' => h.trans h'.symm
  | n + 1, dir, f, path, r, r', h, h' => by
    rw [WalksTo] at h h'
    split_ifs at h h'
    iterate 3 exact h.trans h'.symm
    all_goals
      rcases h with ⟨k, g, hf, hw⟩ | ⟨e, ⟨hl, he⟩, hr⟩ <;> rcases h' with ⟨k', g', hf', hw'⟩ | ⟨e', ⟨hl', he'⟩, hr'⟩
      · obtain rfl := hf.det hf'
        exact hw.det hw'
      · exact absurd hf.2.1 (hl' k g hf.1)
      · exact absurd hf'.2.1 (hl k' g' hf'.1)
      · obtain rfl : e = e' := by
          rcases he with ⟨rfl, h5⟩ | ⟨rfl, h5⟩ <;> rcases he' with ⟨rfl, h6⟩ | ⟨rfl, h6⟩ <;> first | rfl | omega
        exact hr.trans hr'.symm

/-- A path as `walk_path` keeps it: a C string that does not start with a slash. -/
structure CleanPath (path : List UInt8) : Prop where
  str : 0 ∉ path
  head : ∀ c cs, path = c :: cs → c ≠ slash

theorem cleanPath_skipSlash {path : List UInt8} (h : 0 ∉ path) : CleanPath (skipSlash path) where
  str hm := h ((List.dropWhile_sublist _).mem hm)
  head c cs hc := by
    have := List.head_dropWhile_not (fun x => decide (x = slash)) (l := path) (by
      rw [skipSlash] at hc
      simp [hc])
    simp only [skipSlash] at hc
    simp only [hc, List.head_cons] at this
    simpa using this

theorem CleanPath.rest {path : List UInt8} (h : CleanPath path) : CleanPath (restOf path) :=
  cleanPath_skipSlash fun hm => h.str ((List.dropWhile_sublist _).mem hm)

theorem CleanPath.elem {path : List UInt8} (h : CleanPath path) (hne : path ≠ []) :
    0 ∉ firstElem path ∧ firstElem path ≠ [] := by
  refine ⟨fun hm => h.str ((List.takeWhile_sublist _).mem hm), ?_⟩
  cases path with
  | nil => exact absurd rfl hne
  | cons c cs =>
    have := h.head c cs rfl
    simp [firstElem, this]

theorem Finds.inTree {m : Disk} {f g : Ptr} {name : List UInt8} {k : ℕ} (h : Finds m f name k g)
    (hf : InTree m f) (ht : fType m f = 1) : InTree m g := .child hf ht h.1

theorem ite_congr_prop {c p q q' : Prop} [Decidable c] (h : ¬ c → (q ↔ q')) :
    (if c then p else q) ↔ (if c then p else q') := by
  split_ifs with hc
  · rfl
  · exact h hc

/-- The directories read the same in `m'` as in `m`: types, names, entries and,
of the directories, sizes. -/
structure SameTree (m m' : Disk) : Prop where
  type : ∀ f, InTree m f → fType m' f = fType m f
  name : ∀ f, InTree m f → nameOf m' f = nameOf m f
  size : ∀ f, InTree m f → fType m f = 1 → fSize m' f = fSize m f
  child : ∀ f k, InTree m f → fType m f = 1 → child m' f k = child m f k

namespace SameTree

variable {m m' m'' : Disk} {f g : Ptr} {name : List UInt8} {k : ℕ}

theorem node (h : SameTree m m') (sp : List ℕ) : Fs.node m' sp = Fs.node m sp := node_congr h.type h.child sp

theorem inTree (h : SameTree m m') : InTree m' f ↔ InTree m f := exists_congr fun sp => by rw [h.node]

theorem refl (m : Disk) : SameTree m m := ⟨fun _ _ => rfl, fun _ _ => rfl, fun _ _ _ => rfl, fun _ _ _ _ => rfl⟩

theorem trans (h : SameTree m m') (h' : SameTree m' m'') : SameTree m m'' where
  type f hf := (h'.type f (h.inTree.mpr hf)).trans (h.type f hf)
  name f hf := (h'.name f (h.inTree.mpr hf)).trans (h.name f hf)
  size f hf ht := (h'.size f (h.inTree.mpr hf) (by rw [h.type f hf, ht])).trans (h.size f hf ht)
  child f k hf ht := (h'.child f k (h.inTree.mpr hf) (by rw [h.type f hf, ht])).trans (h.child f k hf ht)

theorem finds (h : SameTree m m') (hf : InTree m f) (ht : fType m f = 1) : Finds m' f name k g ↔ Finds m f name k g := by
  have hn : ∀ k g, Fs.child m f k = some g → nameOf m' g = nameOf m g := fun k g hc => h.name g (.child hf ht hc)
  simp only [Finds, h.child f _ hf ht]
  refine and_congr_right fun hc => ?_
  rw [hn k g hc]
  refine and_congr_right fun _ => forall₄_congr fun k' _ g' hc' => ?_
  rw [hn k' g' hc']

theorem lookupErr (h : SameTree m m') (hf : InTree m f) (ht : fType m f = 1) {e : Err} :
    LookupErr m' f name e ↔ LookupErr m f name e := by
  simp only [LookupErr, Lacks, h.child f _ hf ht, h.size f hf ht]
  refine and_congr_left fun _ => forall₂_congr fun k g => ?_
  exact imp_congr_right fun hc => by rw [h.name g (InTree.child hf ht hc)]

/-- Paths lead to the same files. -/
theorem walksTo (h : SameTree m m') :
    ∀ {n : ℕ} {dir : Option Ptr} {f : Ptr} {path : List UInt8} {r : Except Err Walk}, InTree m f →
    (WalksTo m' n dir f path r ↔ WalksTo m n dir f path r)
  | 0, _, _, _, _, _ => .rfl
  | n + 1, dir, f, path, r, hf => by
    rw [WalksTo, WalksTo, h.type f hf]
    refine ite_congr_prop fun _ => ite_congr_prop fun _ => ite_congr_prop fun h3 => ?_
    have ht : fType m f = 1 := not_not.mp h3
    refine or_congr (exists₂_congr fun k g => ?_) (exists_congr fun e => ?_)
    · rw [h.finds hf ht]
      exact and_congr_right fun hg => h.walksTo (hg.inTree hf ht)
    · rw [h.lookupErr hf ht]

end SameTree

theorem GrownBut.sameTree (h : GrownBut L own own' X s s') : SameTree s.mem s'.mem where
  type _ hf := h.fType (h.start.isRec hf)
  name _ hf := h.nameOf (h.start.isRec hf)
  size _ hf _ := h.fSize (h.start.isRec hf)
  child _ _ hf ht := h.child (h.start.isRec hf) ht

theorem walkLoop_succ (n : ℕ) (dir : Option Ptr) (f : Ptr) (path : List UInt8) :
    walkLoop (n + 1) dir f path =
      (if path = [] then pure (.found dir f)
      else if 128 ≤ (firstElem path).length then fail .badPath
      else do
        let s ← get
        if fType s.mem f ≠ 1 then fail .notFound
        else do
          match ← attempt (dirLookup f (firstElem path)) with
          | .ok g => walkLoop n (some f) g (restOf path)
          | .error .notFound => if restOf path = [] then pure (.missing f (firstElem path)) else fail .notFound
          | .error e => fail e) := rfl

/-- The loop of `walk_path`. -/
theorem walkLoop_run : ∀ (n : ℕ) (dir : Option Ptr) (f : Ptr) (path : List UInt8) {own : ℕ → Use} {s : FsSt},
    FInv L own s.mem → InTree s.mem f → CleanPath path →
    Run (walkLoop n dir f path) s
      (fun w s' => ∃ own', Grown L own own' s s' ∧ WalksTo s.mem n dir f path (.ok w))
      (Fails L own s L.D fun e _ => WalksTo s.mem n dir f path (.error e))
  | 0, dir, f, path, own, s, h, _, _ => .pure ⟨own, .refl h, rfl⟩
  | n + 1, dir, f, path, own, s, h, hf, hp => by
    have hr := h.isRec hf
    rw [walkLoop_succ]
    by_cases h1 : path = []
    · rw [if_pos h1]
      exact .pure ⟨own, .refl h, by rw [WalksTo, if_pos h1]⟩
    rw [if_neg h1]
    by_cases h2 : 128 ≤ (firstElem path).length
    · rw [if_pos h2]
      have hw : WalksTo s.mem (n + 1) dir f path (.error .badPath) := by
        rw [WalksTo, if_neg h1, if_pos h2]
      exact .throw ⟨own, .refl h, .inr hw⟩
    rw [if_neg h2]
    refine .getBind ?_
    by_cases h3 : fType s.mem f ≠ 1
    · rw [if_pos h3]
      have hw : WalksTo s.mem (n + 1) dir f path (.error .notFound) := by
        rw [WalksTo, if_neg h1, if_neg h2, if_pos h3]
      exact .throw ⟨own, .refl h, .inr hw⟩
    rw [if_neg h3]
    have ht : fType s.mem f = 1 := not_not.mp h3
    have hW : ∀ r, WalksTo s.mem (n + 1) dir f path r ↔ _ := fun r => by
      rw [WalksTo, if_neg h1, if_neg h2, if_neg h3]
    obtain ⟨hn0, hnn⟩ := hp.elem h1
    refine .step (attempt_run (dirLookup_run h hr (h.live hf) ht (not_le.mp h2) hn0 hnn)) ?_ ?_
    · rintro e s' ⟨⟨p, rfl⟩, he⟩
      exact he
    rintro r s1 (⟨g, rfl, own1, hg, k, hfind⟩ | ⟨e, rfl, own1, hg, he⟩)
    · -- the element is there: go on from it
      have hgt := hfind.inTree hf ht
      refine (walkLoop_run n (some f) g _ hg.inv (hg.inTree.mpr hgt) hp.rest).mono ?_ ?_
      · rintro w s2 ⟨own2, hg2, hw⟩
        exact ⟨own2, hg.trans hg2, (hW _).mpr (.inl ⟨k, g, hfind, (hg.sameTree.walksTo hgt).mp hw⟩)⟩
      · intro e s2 he
        exact Fails.of_grown hg he id fun e _ _ hw => (hW _).mpr (.inl ⟨k, g, hfind, (hg.sameTree.walksTo hgt).mp hw⟩)
    · rcases he with ⟨rfl, hfull⟩ | he
      · exact .throw ⟨own1, hg, .inl ⟨rfl, hfull⟩⟩
      · have hWe := fun r hr => (hW r).mpr (.inr ⟨e, he, hr⟩)
        cases e with
        | notFound =>
          dsimp only
          by_cases h4 : restOf path = []
          · rw [if_pos h4]
            exact .pure ⟨own1, hg, hWe _ (by simp [h4])⟩
          · rw [if_neg h4]
            exact .throw ⟨own1, hg, .inr (hWe _ (by simp [h4]))⟩
        | _ => exact .throw ⟨own1, hg, .inr (hWe _ (by simp))⟩

/-- `walk_path` on the tree. -/
def PathTo (m : Disk) (path : List UInt8) (r : Except Err Walk) : Prop :=
  WalksTo m path.length none root (skipSlash path) r

theorem SameTree.pathTo {m m' : Disk} (h : SameTree m m') {path : List UInt8} {r : Except Err Walk} :
    PathTo m' path r ↔ PathTo m path r := h.walksTo (inTree_root m)

theorem walkPath_run {path : List UInt8} (h : FInv L own s.mem) (hp : 0 ∉ path) :
    Run (walkPath path) s (fun w s' => ∃ own', Grown L own own' s s' ∧ PathTo s.mem path (.ok w))
      (Fails L own s L.D fun e _ => PathTo s.mem path (.error e)) :=
  walkLoop_run _ _ _ _ h (inTree_root _) (cleanPath_skipSlash hp)

/-- `file_open`. -/
theorem fileOpen_run {path : List UInt8} (h : FInv L own s.mem) (hp : 0 ∉ path) :
    Run (fileOpen path) s
      (fun f s' => ∃ own', Grown L own own' s s' ∧ ∃ dir, PathTo s.mem path (.ok (.found dir f)))
      (Fails L own s L.D fun e _ => PathTo s.mem path (.error e) ∨
        (e = .notFound ∧ ∃ dir last, PathTo s.mem path (.ok (.missing dir last)))) := by
  refine .step (walkPath_run h hp) (fun e s' he =>
    Fails.of_grown (.refl h) he id fun e _ _ he => .inl he) ?_
  rintro (⟨dir, f⟩ | ⟨dir, last⟩) s1 ⟨own1, hg, hw⟩
  · exact .pure ⟨own1, hg, dir, hw⟩
  · exact .throw ⟨own1, hg, .inr (.inr ⟨rfl, dir, last, hw⟩)⟩

/-! ### What the walk returns -/

/-- What `walk_path` returns is in the tree. -/
theorem WalksTo.result {m : Disk} : ∀ {n : ℕ} {dir : Option Ptr} {f : Ptr} {path : List UInt8} {w : Walk},
    WalksTo m n dir f path (.ok w) → InTree m f → CleanPath path →
    match w with
    | .found _ g => InTree m g
    | .missing d name => InTree m d ∧ fType m d = 1 ∧ Lacks m d name ∧ blocksUp (fSize m d) ≤ 1034 ∧
        name.length < 128 ∧ 0 ∉ name ∧ name ≠ []
  | 0, _, _, _, _, h, hf, _ => by
    obtain rfl := Except.ok.inj h
    exact hf
  | n + 1, dir, f, path, w, h, hf, hp => by
    rw [WalksTo] at h
    by_cases h1 : path = []
    · rw [if_pos h1] at h
      obtain rfl := Except.ok.inj h
      exact hf
    by_cases h2 : 128 ≤ (firstElem path).length
    · rw [if_neg h1, if_pos h2] at h
      cases h
    by_cases h3 : fType m f ≠ 1
    · rw [if_neg h1, if_neg h2, if_pos h3] at h
      cases h
    rw [if_neg h1, if_neg h2, if_neg h3] at h
    have ht : fType m f = 1 := not_not.mp h3
    rcases h with ⟨k, g, hg, hw⟩ | ⟨e, he, hr⟩
    · exact hw.result (hg.inTree hf ht) hp.rest
    · split_ifs at hr with h4
      obtain rfl := Except.ok.inj hr
      obtain ⟨h6, ⟨-, h7⟩ | ⟨rfl, -⟩⟩ := he
      · exact ⟨hf, ht, h6, h7, not_le.mp h2, hp.elem h1⟩
      · exact absurd (by simp) h4

theorem PathTo.result {m : Disk} {path : List UInt8} {w : Walk} (h : PathTo m path (.ok w)) (hp : 0 ∉ path) :
    match w with
    | .found _ g => InTree m g
    | .missing d name => InTree m d ∧ fType m d = 1 ∧ Lacks m d name ∧ blocksUp (fSize m d) ≤ 1034 ∧
        name.length < 128 ∧ 0 ∉ name ∧ name ≠ [] :=
  WalksTo.result h (inTree_root m) (cleanPath_skipSlash hp)

end

end Fs
end Jos
