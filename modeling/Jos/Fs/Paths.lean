/-
# Resolving paths

`walk_path` as a lookup of one component after the other. The components of a
path are its longest parts without a slash (`components`); `resolve` looks each
up among the entries in use of the directory reached so far, and `LeadsTo` says
which components lead where. A lookup in a directory with holes fills them, so
it takes blocks from the disk; `walkCost` counts them, and with enough free
blocks `walk_path` returns what `resolve` says (`walkPath_exact`).

* `walkPath_resolves`: where all blocks of the directories are there, `walk_path`
  is that lookup, and nothing changes.

Key definitions: `components`, `lookup`, `resolve`, `LeadsTo`, `walkCost`.
Key theorems: `dirLookup_exact`, `walkPath_exact`, `walkPath_resolves`.
-/
import Jos.Fs.Solid
import Jos.Fs.NoLeak

namespace Jos
namespace Fs

open Block

/-- The longest parts of a path without a slash. -/
def components (path : List UInt8) : List (List UInt8) := (path.splitOn slash).filter fun c => c ≠ []

/-- The entries in use of the directory `f`, in order. -/
def entries (m : Disk) (f : Ptr) : List Ptr := (List.range (16 * blocksUp (fSize m f))).filterMap (child m f)

/-- The first entry in use of the directory `f` that is called `name`. -/
def lookup (m : Disk) (f : Ptr) (name : List UInt8) : Option Ptr := (entries m f).find? fun g => nameOf m g = name

/-- What the components `cs` lead to from `f`, `dir` being the directory `f` is in. -/
def resolve (m : Disk) : (dir : Option Ptr) → (f : Ptr) → (cs : List (List UInt8)) → Except Err Walk
  | dir, f, [] => .ok (.found dir f)
  | _, f, c :: cs =>
    if MAXNAMELEN ≤ c.length then .error .badPath
    else if fType m f ≠ FTYPE_DIR then .error .notFound
    else
      match lookup m f c with
      | some g => resolve m (some f) g cs
      | none => if cs = [] then .ok (.missing f c) else .error .notFound

/-- Each of the components `cs` names an entry in use of a directory, on the
way from `f` in `dir` to `g` in `dir'`. -/
inductive LeadsTo (m : Disk) : Option Ptr → Ptr → List (List UInt8) → Option Ptr → Ptr → Prop
  | nil (dir : Option Ptr) (f : Ptr) : LeadsTo m dir f [] dir f
  | cons {dir dir' : Option Ptr} {f g h : Ptr} {c : List UInt8} {cs : List (List UInt8)} (hlen : c.length < MAXNAMELEN)
      (ht : fType m f = FTYPE_DIR) (hg : lookup m f c = some g) (hcs : LeadsTo m (some f) g cs dir' h) :
      LeadsTo m dir f (c :: cs) dir' h

/-! ### Components -/

theorem restOf_length_lt {path : List UInt8} (hp : CleanPath path) (hne : path ≠ []) :
    (restOf path).length < path.length := by
  have h1 : (restOf path).length ≤ (path.dropWhile (· ≠ slash)).length := (List.dropWhile_sublist _).length_le
  have h2 : 0 < (firstElem path).length := List.length_pos_iff.mpr (hp.elem hne).2
  have h3 := congrArg List.length (List.takeWhile_append_dropWhile (p := fun x => decide (x ≠ slash)) (l := path))
  rw [List.length_append] at h3
  unfold firstElem at h2
  omega

theorem components_nil : components [] = [] := rfl

theorem components_cons_slash (path : List UInt8) : components (slash :: path) = components path := by
  rw [components, List.splitOn_eq_splitOnP, List.splitOnP_cons_eq_if_modifyHead, if_pos (by simp),
    List.filter_cons_of_neg (by simp), ← List.splitOn_eq_splitOnP, components]

theorem components_skipSlash : ∀ path : List UInt8, components (skipSlash path) = components path
  | [] => rfl
  | c :: cs => by
    by_cases hc : c = slash
    · rw [hc, components_cons_slash, ← components_skipSlash cs, skipSlash, List.dropWhile_cons_of_pos (by simp), skipSlash]
    · rw [skipSlash, List.dropWhile_cons_of_neg (by simpa using hc)]

/-- The first component of a path that does not start with a slash, and the others. -/
theorem components_eq {path : List UInt8} (hp : CleanPath path) (hne : path ≠ []) :
    components path = firstElem path :: components (restOf path) := by
  have hfirst : ∀ x ∈ firstElem path, (x == slash) = false := by
    intro x hx
    have := List.all_takeWhile (p := fun x => decide (x ≠ slash)) (l := path)
    simpa using List.all_eq_true.mp this x hx
  have hnil : firstElem path ≠ [] := (hp.elem hne).2
  have hsplit : path = firstElem path ++ path.dropWhile (· ≠ slash) := (List.takeWhile_append_dropWhile).symm
  rw [restOf, components_skipSlash]
  cases hd : path.dropWhile (· ≠ slash) with
  | nil =>
    rw [hd, List.append_nil] at hsplit
    rw [components_nil, components, List.splitOn_eq_splitOnP, List.splitOnP_eq_singleton (by rwa [hsplit]),
      ← hsplit]
    simp [hne]
  | cons c cs =>
    have hc : c = slash := by
      have := List.head?_dropWhile_not (fun x => decide (x ≠ slash)) path
      rw [hd] at this
      simpa using this
    rw [hd, hc] at hsplit
    rw [hc, components_cons_slash]
    nth_rewrite 1 [hsplit]
    rw [components, List.splitOn_eq_splitOnP, List.splitOnP_append_cons_of_forall_mem hfirst _ (by simp),
      List.filter_cons_of_pos (by simpa using hnil), ← List.splitOn_eq_splitOnP, components]

/-! ### Entries -/

section
variable {L : Layout} {own own' : ℕ → Use} {s s' : FsSt} {a f g : Ptr} {m m' : Disk} {name : List UInt8} {k : ℕ}

/-- The number of the first entry in use of `f` that is called `name`. -/
def entryNo (m : Disk) (f : Ptr) (name : List UInt8) : Option ℕ :=
  (List.range (16 * blocksUp (fSize m f))).find? fun k => (child m f k).any fun g => nameOf m g = name

theorem lookup_eq (m : Disk) (f : Ptr) (name : List UInt8) : lookup m f name = (entryNo m f name).bind (child m f) := by
  rw [lookup, entries, List.find?_filterMap]
  rfl

theorem FInv.child_lt (h : FInv L own m) (hf : InTree m f) (hc : child m f k = some g) : k < 16 * blocksUp (fSize m f) := by
  obtain ⟨h1, h2, -, -⟩ := child_some.mp hc
  have := ((h.recOk f (h.isRec hf)).ptr _ h1 h2).2
  omega

theorem entryNo_some (h : FInv L own m) (hf : InTree m f) :
    entryNo m f name = some k ↔ ∃ g, Finds m f name k g := by
  rw [entryNo, List.find?_range_eq_some]
  constructor
  · rintro ⟨hk, -, hlt⟩
    obtain ⟨g, hg, hn⟩ : ∃ g, child m f k = some g ∧ nameOf m g = name := by simpa [Option.any_eq_true] using hk
    refine ⟨g, hg, hn, fun k' hk' g' hc' hn' => ?_⟩
    have := hlt k' hk'
    simp [hc', hn'] at this
  · rintro ⟨g, hg, hn, hlt⟩
    refine ⟨by simp [hg, hn], List.mem_range.mpr (h.child_lt hf hg), fun k' hk' => ?_⟩
    cases hc : child m f k' with
    | none => rfl
    | some g' => simpa using hlt k' hk' g' hc

theorem lookup_some (h : FInv L own m) (hf : InTree m f) : lookup m f name = some g ↔ ∃ k, Finds m f name k g := by
  rw [lookup_eq, Option.bind_eq_some_iff]
  constructor
  · rintro ⟨k, hk, hg⟩
    obtain ⟨g', hg'⟩ := (entryNo_some h hf).mp hk
    obtain rfl : g' = g := Option.mem_unique hg'.1 hg
    exact ⟨k, hg'⟩
  · rintro ⟨k, hk⟩
    exact ⟨k, (entryNo_some h hf).mpr ⟨g, hk⟩, hk.1⟩

theorem entryNo_none (h : FInv L own m) (hf : InTree m f) : entryNo m f name = none ↔ Lacks m f name := by
  rw [entryNo, List.find?_range_eq_none]
  constructor
  · intro hall k g hc hn
    have := hall k (h.child_lt hf hc)
    simp [hc, hn] at this
  · intro hl k _
    cases hc : child m f k with
    | none => rfl
    | some g => simpa using hl k g hc

theorem lookup_none (h : FInv L own m) (hf : InTree m f) : lookup m f name = none ↔ Lacks m f name := by
  rw [← entryNo_none h hf, lookup_eq]
  cases he : entryNo m f name with
  | none => simp
  | some k =>
    obtain ⟨g, hg⟩ := (entryNo_some h hf).mp he
    simp [hg.1]

/-! ### The blocks a lookup takes -/

/-- The blocks of the directory `f` that a lookup of `name` goes through. -/
def lookupBlocks (m : Disk) (f : Ptr) (name : List UInt8) : ℕ :=
  match entryNo m f name with
  | some k => k / 16 + 1
  | none => blocksUp (fSize m f)

/-- The blocks that looking up the components takes from the disk. -/
def walkCost (m : Disk) : Ptr → List (List UInt8) → ℕ
  | _, [] => 0
  | f, c :: cs =>
    if MAXNAMELEN ≤ c.length ∨ fType m f ≠ FTYPE_DIR then 0
    else lacking m f 0 (lookupBlocks m f c) + ((lookup m f c).elim 0 fun g => walkCost m g cs)

/-- The file `f` has all its blocks. -/
def NoHoles (m : Disk) (f : Ptr) : Prop := ∀ k < 1034, k < blocksUp (fSize m f) → ptr m f k ≠ 0

/-- `dir_lookup`, with the blocks it takes. -/
theorem dirLookup_exact (h : FInv L own s.mem) (hD : L.D) (hf : InTree s.mem f) (ht : fType s.mem f = 1)
    (hmax : blocksUp (fSize s.mem f) ≤ 1034) (hlen : name.length < 128) (h0 : 0 ∉ name) (hne : name ≠ []) :
    Run (dirLookup f name) s
      (fun g s' => lookup s.mem f name = some g ∧ ∃ own', Took L own own' f 0 (lookupBlocks s.mem f name) s s')
      (fun e s' => (e = .err .notFound ∧ lookup s.mem f name = none ∧
          ∃ own', Took L own own' f 0 (lookupBlocks s.mem f name) s s' ∧ NoHoles s'.mem f) ∨
        (e = .err .noDisk ∧ freeBlocks s.mem < lacking s.mem f 0 (lookupBlocks s.mem f name) ∧
          ∃ own', Grown L own own' s s')) := by
  refine (dirLookup_spec h (h.isRec hf) (h.live hf) ht hlen h0 hne).mono ?_ ?_
  · rintro g s' ⟨own', k, hfind, htook⟩
    refine ⟨(lookup_some h hf).mpr ⟨k, hfind⟩, own', ?_⟩
    rwa [lookupBlocks, (entryNo_some h hf).mpr ⟨g, hfind⟩]
  · intro e s' he
    cases he with
    | lacks own' hlack _ htook =>
      refine .inl ⟨rfl, (lookup_none h hf).mpr hlack, own', ?_, ?_⟩
      · rwa [lookupBlocks, (entryNo_none h hf).mpr hlack]
      · intro k _ hk
        rw [htook.grown.fSize (h.isRec hf)] at hk
        exact htook.there k (by omega) hk
    | large _ _ hlt => omega
    | full own' j _ hg hj hfree hlate =>
      refine .inr ⟨rfl, hfree.trans_le (lacking_mono ?_), own', hg⟩
      -- the entry, if it is there, is in a later block
      unfold lookupBlocks
      split
      · rename_i k hk
        obtain ⟨g, hfind⟩ := (entryNo_some h hf).mp hk
        exact Nat.succ_le_succ (hlate k g hfind).le
      · exact hj
    | size _ hd => exact absurd hD hd

/-! ### The walk -/

/-- Every directory has whole blocks, no more than a file can have. -/
def DirsOk (m : Disk) : Prop :=
  ∀ f, InTree m f → fType m f = FTYPE_DIR → (4096 : ℤ) ∣ fSize m f ∧ fSize m f ≤ MAXFILESIZE

theorem DirsOk.blocks (h : DirsOk m) (hf : InTree m f) (ht : fType m f = 1) : blocksUp (fSize m f) ≤ 1034 := by
  have hle : fSize m f ≤ 1034 * 4096 := (h f hf ht).2
  unfold blocksUp
  omega

theorem SameTree.dirsOk (h : SameTree m m') (hd : DirsOk m) : DirsOk m' := by
  intro f hf ht
  have hf' := h.inTree.mp hf
  rw [h.type f hf'] at ht
  rw [h.size f hf' ht]
  exact hd f hf' ht

theorem SameTree.entryNo (h : SameTree m m') (hf : InTree m f) (ht : fType m f = 1) (name : List UInt8) :
    entryNo m' f name = entryNo m f name := by
  unfold Fs.entryNo
  rw [h.size f hf ht]
  congr 1
  funext k
  rw [h.child f k hf ht]
  cases hc : Fs.child m f k with
  | none => rfl
  | some g => simp [h.name g (InTree.child hf ht hc)]

theorem SameTree.lookup (h : SameTree m m') (hf : InTree m f) (ht : fType m f = 1) (name : List UInt8) :
    lookup m' f name = lookup m f name := by
  rw [lookup_eq, lookup_eq, h.entryNo hf ht]
  cases Fs.entryNo m f name with
  | none => rfl
  | some k => exact h.child f k hf ht

theorem lookup_inTree (hf : InTree m f) (ht : fType m f = 1) (hg : lookup m f name = some g) :
    ∃ k, child m f k = some g ∧ InTree m g := by
  rw [lookup_eq, Option.bind_eq_some_iff] at hg
  obtain ⟨k, -, hk⟩ := hg
  exact ⟨k, hk, hf.child ht hk⟩

theorem SameTree.resolve (h : SameTree m m') : ∀ (cs : List (List UInt8)) (dir : Option Ptr) {f : Ptr}, InTree m f →
    resolve m' dir f cs = resolve m dir f cs
  | [], _, _, _ => rfl
  | c :: cs, dir, f, hf => by
    unfold Fs.resolve
    rw [h.type f hf]
    by_cases h1 : MAXNAMELEN ≤ c.length
    · rw [if_pos h1, if_pos h1]
    rw [if_neg h1, if_neg h1]
    by_cases ht : fType m f = 1
    · rw [if_neg (not_not.mpr ht), if_neg (not_not.mpr ht), h.lookup hf ht]
      cases hg : Fs.lookup m f c with
      | none => rfl
      | some g =>
        obtain ⟨-, -, hgt⟩ := lookup_inTree hf ht hg
        exact SameTree.resolve h cs (some f) hgt
    · rw [if_pos ht, if_pos ht]

/-- Looking up components below a directory costs the same, whatever was done
to the blocks of that directory. -/
theorem SameTree.walkCost (h : SameTree m m') (hi : FInv L own m) {d : Ptr} {spd : List ℕ} (hd : Fs.node m spd = some d)
    (hother : ∀ f, InTree m f → f ≠ d → (∀ k < 1034, ptr m' f k = ptr m f k) ∧ fIndirect m' f = fIndirect m f)
    (hmax : ∀ f, InTree m f → fType m f = 1 → blocksUp (fSize m f) ≤ 1034) :
    ∀ (cs : List (List UInt8)) {f : Ptr} {sp : List ℕ}, Fs.node m sp = some f → spd.length < sp.length →
      walkCost m' f cs = walkCost m f cs
  | [], _, _, _, _ => rfl
  | c :: cs, f, sp, hsp, hlen => by
    have hf : InTree m f := ⟨sp, hsp⟩
    unfold Fs.walkCost
    rw [h.type f hf]
    by_cases h1 : MAXNAMELEN ≤ c.length ∨ fType m f ≠ FTYPE_DIR
    · rw [if_pos h1, if_pos h1]
    rw [if_neg h1, if_neg h1]
    have ht : fType m f = 1 := by
      by_contra hc
      exact h1 (.inr hc)
    have hne : f ≠ d := by
      rintro rfl
      rw [hi.node_inj hd hsp] at hlen
      exact lt_irrefl _ hlen
    obtain ⟨hptr, hind⟩ := hother f hf hne
    have hblocks : lookupBlocks m' f c = lookupBlocks m f c := by
      unfold lookupBlocks
      rw [h.entryNo hf ht, h.size f hf ht]
    have hle : lookupBlocks m f c ≤ 1034 := by
      unfold lookupBlocks
      split
      · rename_i k hk
        obtain ⟨g, hg⟩ := (entryNo_some hi hf).mp hk
        have := (child_some.mp hg.1).1
        omega
      · exact hmax f hf ht
    rw [hblocks, lacking_congr (fun k _ hk => hptr k (by omega)) hind, h.lookup hf ht]
    cases hg : Fs.lookup m f c with
    | none => rw [Option.elim_none, Option.elim_none]
    | some g =>
      obtain ⟨k, hk, -⟩ := lookup_inTree hf ht hg
      have hspg : Fs.node m (k :: sp) = some g := node_cons.mpr ⟨f, hsp, ht, hk⟩
      rw [Option.elim_some, Option.elim_some,
        SameTree.walkCost h hi hd hother hmax cs hspg (by rw [List.length_cons]; omega)]

/-- The blocks `c` were taken, and a file without holes is as it was. -/
structure Spent (L : Layout) (own own' : ℕ → Use) (c : ℕ) (s s' : FsSt) : Prop where
  grown : Grown L own own' s s'
  free : freeBlocks s'.mem + c = freeBlocks s.mem
  whole : ∀ f, IsRec own f → NoHoles s.mem f → fIndirect s'.mem f = fIndirect s.mem f

theorem Spent.refl (h : FInv L own s.mem) : Spent L own own 0 s s := ⟨.refl h, rfl, fun _ _ _ => rfl⟩

theorem NoHoles.grown (h : NoHoles s.mem f) (hg : Grown L own own' s s') (hf : IsRec own f) : NoHoles s'.mem f := by
  intro k hk hlt
  rw [hg.fSize hf] at hlt
  have hne := h k hk hlt
  rwa [hg.ptr f hf k hk hne]

theorem Took.spent {hi c : ℕ} {own1 : ℕ → Use} {s1 : FsSt} (h : Took L own own1 a 0 hi s s1)
    (hhi : hi ≤ blocksUp (fSize s.mem a)) (h34 : hi ≤ 1034) (hs : Spent L own1 own' c s1 s') :
    Spent L own own' (lacking s.mem a 0 hi + c) s s' where
  grown := h.grown.trans hs.grown
  free := by
    have h1 := h.free
    have h2 := hs.free
    omega
  whole f hf hw := by
    rw [hs.whole f (h.grown.isRec hf) (hw.grown h.grown hf)]
    by_cases he : f = a
    · rw [he] at hw ⊢
      exact h.whole fun k _ hk => hw k (by omega) (by omega)
    · exact (h.other f hf he).2

theorem lookupBlocks_le (name : List UInt8) (h : FInv L own m) (hf : InTree m f) :
    lookupBlocks m f name ≤ blocksUp (fSize m f) := by
  unfold lookupBlocks
  split
  · rename_i k hk
    obtain ⟨g, hg⟩ := (entryNo_some h hf).mp hk
    have := h.child_lt hf hg.1
    omega
  · exact le_rfl

/-- How the walk ends, with the blocks it takes. -/
def WalkOk (L : Layout) (own : ℕ → Use) (dir : Option Ptr) (f : Ptr) (cs : List (List UInt8)) (s : FsSt) (w : Walk)
    (s' : FsSt) : Prop :=
  resolve s.mem dir f cs = .ok w ∧ (∃ own', Spent L own own' (walkCost s.mem f cs) s s') ∧
    ∀ d last, w = .missing d last → NoHoles s'.mem d

def WalkErr (L : Layout) (own : ℕ → Use) (dir : Option Ptr) (f : Ptr) (cs : List (List UInt8)) (s : FsSt) (e : Fault)
    (s' : FsSt) : Prop :=
  (∃ er, e = .err er ∧ resolve s.mem dir f cs = .error er ∧ ∃ own', Spent L own own' (walkCost s.mem f cs) s s') ∨
    (e = .err .noDisk ∧ freeBlocks s.mem < walkCost s.mem f cs ∧ ∃ own', Grown L own own' s s')

/-- The loop of `walk_path`. -/
theorem walkLoop_exact (hD : L.D) : ∀ (n : ℕ) (dir : Option Ptr) (f : Ptr) (path : List UInt8) {own : ℕ → Use} {s : FsSt}
    {sp : List ℕ}, FInv L own s.mem → DirsOk s.mem → node s.mem sp = some f → CleanPath path → path.length ≤ n →
    Run (walkLoop n dir f path) s (WalkOk L own dir f (components path) s) (WalkErr L own dir f (components path) s)
  | 0, dir, f, path, own, s, sp, h, _, _, _, hn => by
    obtain rfl : path = [] := List.eq_nil_of_length_eq_zero (by omega)
    exact .pure ⟨rfl, ⟨own, Spent.refl h⟩, fun d last hw => by simp at hw⟩
  | n + 1, dir, f, path, own, s, sp, h, hdirs, hsp, hp, hn => by
    have hf : InTree s.mem f := ⟨sp, hsp⟩
    have hr := h.isRec hf
    rw [walkLoop_succ]
    by_cases h1 : path = []
    · rw [if_pos h1, h1]
      exact .pure ⟨rfl, ⟨own, Spent.refl h⟩, fun d last hw => by simp at hw⟩
    rw [if_neg h1, components_eq hp h1]
    have hrest : (restOf path).length ≤ n := by
      have := restOf_length_lt hp h1
      omega
    by_cases h2 : 128 ≤ (firstElem path).length
    · rw [if_pos h2]
      refine .throw (.inl ⟨_, rfl, by rw [resolve, if_pos h2], own, ?_⟩)
      rw [walkCost, if_pos (Or.inl h2)]
      exact Spent.refl h
    rw [if_neg h2]
    refine .getBind ?_
    by_cases ht : fType s.mem f = 1
    · rw [if_neg (not_not.mpr ht)]
      have hcost : walkCost s.mem f (firstElem path :: components (restOf path)) =
          lacking s.mem f 0 (lookupBlocks s.mem f (firstElem path)) +
            ((lookup s.mem f (firstElem path)).elim 0 fun g => walkCost s.mem g (components (restOf path))) := by
        rw [walkCost, if_neg (not_or.mpr ⟨h2, not_not.mpr ht⟩)]
      have hres : resolve s.mem dir f (firstElem path :: components (restOf path)) =
          match lookup s.mem f (firstElem path) with
          | some g => resolve s.mem (some f) g (components (restOf path))
          | none => if components (restOf path) = [] then .ok (.missing f (firstElem path)) else .error .notFound := by
        rw [resolve, if_neg h2, if_neg (not_not.mpr ht)]
      have hblocks := lookupBlocks_le (firstElem path) h hf
      have h34 := hdirs.blocks hf ht
      obtain ⟨hn0, hnn⟩ := hp.elem h1
      refine .step (attempt_run (dirLookup_exact h hD hf ht h34 (not_le.mp h2) hn0 hnn)) ?_ ?_
      · rintro e s' ⟨⟨p, rfl⟩, ⟨he, -⟩ | ⟨he, -⟩⟩ <;> simp at he
      rintro r s1 (⟨g, rfl, hg, own1, htook⟩ | ⟨e, rfl, ⟨he, hl, own1, htook, hwhole⟩ | ⟨he, hfree, own1, hg1⟩⟩)
      · -- the component is there: go on from it
        obtain ⟨k, hk, hgt⟩ := lookup_inTree hf ht hg
        have hT := htook.grown.sameTree
        have hspg : node s.mem (k :: sp) = some g := node_cons.mpr ⟨f, hsp, ht, hk⟩
        have hc1 := hT.walkCost h hsp (fun f' hf' hne => htook.other f' (h.isRec hf') hne)
          (fun f' hf' ht' => hdirs.blocks hf' ht') (components (restOf path)) hspg (by simp)
        have hfree := htook.free
        rw [hg] at hcost hres
        dsimp only at hres
        rw [Option.elim_some, ← hc1] at hcost
        refine (walkLoop_exact hD n (some f) g _ htook.grown.inv (hT.dirsOk hdirs) (by rwa [hT.node]) hp.rest hrest).mono
          ?_ ?_
        · rintro w s2 ⟨hres1, ⟨own2, hsp2⟩, hm⟩
          refine ⟨?_, ⟨own2, ?_⟩, hm⟩
          · rw [hres, ← hT.resolve _ _ hgt, hres1]
          · rw [hcost]
            exact htook.spent hblocks (by omega) hsp2
        · rintro e s2 (⟨er, rfl, hres1, own2, hsp2⟩ | ⟨rfl, hfree2, own2, hg2⟩)
          · refine .inl ⟨er, rfl, ?_, own2, ?_⟩
            · rw [hres, ← hT.resolve _ _ hgt, hres1]
            · rw [hcost]
              exact htook.spent hblocks (by omega) hsp2
          · refine .inr ⟨rfl, ?_, own2, htook.grown.trans hg2⟩
            rw [hcost]
            omega
      · obtain rfl : e = .notFound := by simpa using he
        rw [hl] at hcost hres
        have hspent : Spent L own own1 (walkCost s.mem f (firstElem path :: components (restOf path))) s s1 := by
          rw [hcost, Option.elim_none]
          exact htook.spent hblocks (by omega) (Spent.refl htook.grown.inv)
        dsimp only at hres ⊢
        by_cases h4 : restOf path = []
        · rw [if_pos h4]
          rw [h4, components_nil, if_pos rfl] at hres
          refine .pure ⟨by rw [h4, components_nil]; exact hres, ⟨own1, hspent⟩, fun d last hw => ?_⟩
          obtain rfl : f = d := by simpa using congrArg (fun w => match w with | .missing d _ => d | .found _ d => d) hw
          exact hwhole
        · rw [if_neg h4]
          rw [if_neg (by rw [components_eq hp.rest h4]; simp)] at hres
          exact .throw (.inl ⟨_, rfl, hres, own1, hspent⟩)
      · obtain rfl : e = .noDisk := by simpa using he
        refine .throw (.inr ⟨rfl, ?_, own1, hg1⟩)
        rw [hcost]
        omega
    · rw [if_pos ht]
      refine .throw (.inl ⟨_, rfl, by rw [resolve, if_neg h2, if_pos ht], own, ?_⟩)
      rw [walkCost, if_pos (Or.inr ht)]
      exact Spent.refl h

/-- `walk_path`, with the blocks it takes. -/
theorem walkPath_exact (h : FInv L own s.mem) (hD : L.D) (hdirs : DirsOk s.mem) {path : List UInt8} (hp : 0 ∉ path) :
    Run (walkPath path) s (WalkOk L own none root (components path) s) (WalkErr L own none root (components path) s) := by
  have hrun := walkLoop_exact hD path.length none root (skipSlash path) h hdirs (show node s.mem [] = some root from rfl) (cleanPath_skipSlash hp)
    (List.dropWhile_sublist _).length_le
  rwa [components_skipSlash] at hrun

/-- Nothing is taken where all blocks of the directories are there. -/
theorem Solid.walkCost (hS : Solid m) (hi : FInv L own m) (hd : DirsOk m) : ∀ (cs : List (List UInt8)) {f : Ptr}, InTree m f →
    walkCost m f cs = 0
  | [], _, _ => rfl
  | c :: cs, f, hf => by
    unfold Fs.walkCost
    split_ifs with h1
    · rfl
    have ht : fType m f = 1 := by
      by_contra hc
      exact h1 (.inr hc)
    have hle := lookupBlocks_le c hi hf
    have h34 := hd.blocks hf ht
    rw [lacking_eq_zero fun k _ hk => hS f hf ht k (by omega) (by omega), Nat.zero_add]
    cases hg : lookup m f c with
    | none => rw [Option.elim_none]
    | some g =>
      obtain ⟨-, -, hgt⟩ := lookup_inTree hf ht hg
      rw [Option.elim_some, Solid.walkCost hS hi hd cs hgt]

/-- The walk on the tree is the lookup of the components. -/
theorem WalksTo.resolve (hi : FInv L own m) (hd : DirsOk m) : ∀ {n : ℕ} {dir : Option Ptr} {f : Ptr} {path : List UInt8}
    {r : Except Err Walk}, WalksTo m n dir f path r → InTree m f → CleanPath path → path.length ≤ n →
    resolve m dir f (components path) = r
  | 0, dir, f, path, r, h, _, _, hn => by
    obtain rfl : path = [] := List.eq_nil_of_length_eq_zero (by omega)
    exact h.symm
  | n + 1, dir, f, path, r, h, hf, hp, hn => by
    rw [WalksTo] at h
    by_cases h1 : path = []
    · rw [if_pos h1] at h
      rw [h, h1]
      rfl
    have hrest := restOf_length_lt hp h1
    rw [if_neg h1] at h
    rw [components_eq hp h1, Fs.resolve]
    by_cases h2 : 128 ≤ (firstElem path).length
    · rw [if_pos h2] at h
      rw [if_pos h2, h]
    rw [if_neg h2] at h
    rw [if_neg h2]
    by_cases ht : fType m f ≠ 1
    · rw [if_pos ht] at h
      rw [if_pos ht, h]
    rw [if_neg ht] at h
    rw [if_neg ht]
    have hdir : fType m f = 1 := not_not.mp ht
    rcases h with ⟨k, g, hfind, hw⟩ | ⟨e, ⟨hl, he⟩, hr⟩
    · rw [(lookup_some hi hf).mpr ⟨k, hfind⟩]
      exact WalksTo.resolve hi hd hw (hfind.inTree hf hdir) hp.rest (by omega)
    · rw [(lookup_none hi hf).mpr hl]
      obtain rfl : e = .notFound := by
        rcases he with ⟨rfl, -⟩ | ⟨-, hbig⟩
        · rfl
        · have := hd.blocks hf hdir
          omega
      rw [hr, if_neg (not_not.mpr (rfl : Err.notFound = .notFound))]
      dsimp only
      by_cases h4 : restOf path = []
      · rw [h4, components_nil, if_pos rfl, if_pos rfl]
      · rw [if_neg h4, if_neg (show components (restOf path) ≠ [] by rw [components_eq hp.rest h4]; simp)]

theorem PathTo.resolve {path : List UInt8} {r : Except Err Walk} (h : PathTo m path r) (hi : FInv L own m)
    (hd : DirsOk m) (hp : 0 ∉ path) : resolve m none root (components path) = r := by
  rw [← components_skipSlash]
  exact WalksTo.resolve hi hd h (inTree_root m) (cleanPath_skipSlash hp) (List.dropWhile_sublist _).length_le

/-! ### What the components lead to -/

theorem LeadsTo.resolve {pre : List (List UInt8)} {dir d : Option Ptr} (h : LeadsTo m dir f pre d g)
    (post : List (List UInt8)) : resolve m dir f (pre ++ post) = resolve m d g post := by
  induction h with
  | nil => rfl
  | cons hlen ht hg _ ih =>
    rw [List.cons_append, Fs.resolve, if_neg (not_le.mpr hlen), if_neg (not_not.mpr ht), hg]
    exact ih

/-- What a lookup of components can come to. -/
theorem resolve_value (m : Disk) : ∀ (cs : List (List UInt8)) (dir : Option Ptr) (f : Ptr),
    (∃ d g, LeadsTo m dir f cs d g ∧ resolve m dir f cs = .ok (.found d g)) ∨
    (∃ pre c post d g, cs = pre ++ c :: post ∧ LeadsTo m dir f pre d g ∧ MAXNAMELEN ≤ c.length ∧
      resolve m dir f cs = .error .badPath) ∨
    (∃ pre d g last, cs = pre ++ [last] ∧ LeadsTo m dir f pre d g ∧ fType m g = FTYPE_DIR ∧
      last.length < MAXNAMELEN ∧ lookup m g last = none ∧ resolve m dir f cs = .ok (.missing g last)) ∨
    resolve m dir f cs = .error .notFound
  | [], dir, f => .inl ⟨dir, f, .nil dir f, rfl⟩
  | c :: cs, dir, f => by
    rw [resolve]
    by_cases h1 : MAXNAMELEN ≤ c.length
    · rw [if_pos h1]
      exact .inr (.inl ⟨[], c, cs, dir, f, rfl, .nil dir f, h1, rfl⟩)
    by_cases h2 : fType m f ≠ FTYPE_DIR
    · rw [if_neg h1, if_pos h2]
      exact .inr (.inr (.inr rfl))
    rw [if_neg h1, if_neg h2]
    have hlen := not_le.mp h1
    have ht := not_not.mp h2
    cases hg : lookup m f c with
    | none =>
      dsimp only
      split_ifs with hcs
      · exact .inr (.inr (.inl ⟨[], dir, f, c, by rw [hcs]; rfl, .nil dir f, ht, hlen, hg, rfl⟩))
      · exact .inr (.inr (.inr rfl))
    | some g =>
      rcases resolve_value m cs (some f) g with ⟨d, g', hl, hr⟩ | ⟨pre, c', post, d, g', rfl, hl, h⟩ |
        ⟨pre, d, g', last, rfl, hl, h⟩ | hr
      · exact .inl ⟨d, g', .cons hlen ht hg hl, hr⟩
      · exact .inr (.inl ⟨c :: pre, c', post, d, g', rfl, .cons hlen ht hg hl, h⟩)
      · exact .inr (.inr (.inl ⟨c :: pre, d, g', last, rfl, .cons hlen ht hg hl, h⟩))
      · exact .inr (.inr (.inr hr))

section
variable {cs : List (List UInt8)} {dir d : Option Ptr}

theorem resolve_found : resolve m dir f cs = .ok (.found d g) ↔ LeadsTo m dir f cs d g := by
  constructor
  · intro h
    rcases resolve_value m cs dir f with ⟨d', g', hl, hr⟩ | ⟨-, -, -, -, -, -, -, -, hr⟩ | ⟨-, -, g', last, -, -, -, -, -, hr⟩ | hr <;>
      cases hr.symm.trans h
    exact hl
  · intro h
    have hr := h.resolve []
    rwa [List.append_nil] at hr

theorem resolve_badPath : resolve m dir f cs = .error .badPath ↔
    ∃ pre c post d g, cs = pre ++ c :: post ∧ LeadsTo m dir f pre d g ∧ MAXNAMELEN ≤ c.length := by
  constructor
  · intro h
    rcases resolve_value m cs dir f with ⟨d, g, -, hr⟩ | ⟨pre, c, post, d, g, hcs, hl, hc, -⟩ | ⟨-, -, g, last, -, -, -, -, -, hr⟩ | hr
    · cases hr.symm.trans h
    · exact ⟨pre, c, post, d, g, hcs, hl, hc⟩
    · cases hr.symm.trans h
    · cases hr.symm.trans h
  · rintro ⟨pre, c, post, d, g, rfl, hl, hc⟩
    rw [hl.resolve, resolve, if_pos hc]

theorem resolve_missing {last : List UInt8} : resolve m dir f cs = .ok (.missing g last) ↔
    ∃ pre d, cs = pre ++ [last] ∧ LeadsTo m dir f pre d g ∧ fType m g = FTYPE_DIR ∧ last.length < MAXNAMELEN ∧
      lookup m g last = none := by
  constructor
  · intro h
    rcases resolve_value m cs dir f with ⟨d, g', -, hr⟩ | ⟨-, -, -, -, -, -, -, -, hr⟩ |
      ⟨pre, d, g', last', hcs, hl, ht, hlen, hnone, hr⟩ | hr <;> cases hr.symm.trans h
    exact ⟨pre, d, hcs, hl, ht, hlen, hnone⟩
  · rintro ⟨pre, d, rfl, hl, ht, hlen, hnone⟩
    rw [hl.resolve, resolve, if_neg (not_le.mpr hlen), if_neg (not_not.mpr ht), hnone]
    rfl

theorem resolve_error {e : Err} (h : resolve m dir f cs = .error e) : e = .badPath ∨ e = .notFound := by
  rcases resolve_value m cs dir f with ⟨d, g, -, hr⟩ | ⟨-, -, -, -, -, -, -, -, hr⟩ | ⟨-, -, g, last, -, -, -, -, -, hr⟩ | hr <;>
    cases hr.symm.trans h
  · exact .inl rfl
  · exact .inr rfl

end

/-- Components lead to the start or to an entry in use. -/
theorem LeadsTo.live {cs : List (List UInt8)} {dir d : Option Ptr} (h : LeadsTo m dir f cs d g) : g = f ∨ fName m g 0 ≠ 0 := by
  induction h with
  | nil => exact .inl rfl
  | @cons dir d f g' g c cs hlen ht hg hcs ih =>
    rcases ih with rfl | ih
    · rw [lookup_eq, Option.bind_eq_some_iff] at hg
      obtain ⟨k, -, hk⟩ := hg
      exact .inr (child_some.mp hk).2.2.1
    · exact .inr ih

end

/-- A result of the walk as the value or error of a run that ends in `s`. -/
def outcome {α : Type} (r : Except Err α) (s : FsSt) : EStateM.Result Fault FsSt α :=
  match r with
  | .ok v => .ok v s
  | .error e => .error (.err e) s

/-- The layout of an image whose directories have whole blocks. -/
def dirLayout (m : Disk) (h : 3 < (m 1).le32 4) : Layout := { looseLayout m h with D := True }

theorem Consistent.dirInv {m : Disk} (h : Consistent m) (hd : DirsOk m) : FInv (dirLayout m h.nblocks) (ownOf m) m :=
  h.inv rfl (fun _ hb => hb.elim) fun _ f hf ht => (hd f hf ht).1

/-- In a tree whose directories have all their blocks `walk_path` only reads. -/
theorem FInv.walkPath_outcome {L : Layout} {own : ℕ → Use} {s : FsSt} (h : FInv L own s.mem) (hD : L.D)
    (hd : DirsOk s.mem) (hS : Solid s.mem) {path : List UInt8} (hp : 0 ∉ path) :
    ∃ s', Loaded s s' ∧ walkPath path s = outcome (resolve s.mem none root (components path)) s' := by
  have hrun := (walkPath_solid h hD hS hp).and (walkPath_exact h hD hd hp)
  cases hx : walkPath path s with
  | ok w s' =>
    obtain ⟨⟨hl, -⟩, hres, -⟩ := hrun.of_ok hx
    exact ⟨s', hl, by rw [hres]; rfl⟩
  | error e s' =>
    obtain ⟨⟨hl, -⟩, ⟨er, rfl, hres, -⟩ | ⟨-, hlt, -⟩⟩ := hrun.of_error hx
    · exact ⟨s', hl, by rw [hres]; rfl⟩
    · rw [hS.walkCost h hd _ (inTree_root _)] at hlt
      omega

/-- Where all blocks of the directories are there, `walk_path` looks up the
components of the path one after the other, and changes nothing. -/
theorem walkPath_resolves {s : FsSt} (h : Consistent s.mem) (hd : DirsOk s.mem) (hS : Solid s.mem) {path : List UInt8}
    (hp : 0 ∉ path) :
    ∃ r : Except Err Walk, (∃ s', Loaded s s' ∧ walkPath path s = outcome r s') ∧
      (∀ dir f, r = .ok (.found dir f) ↔ LeadsTo s.mem none root (components path) dir f) ∧
      (r = .error .badPath ↔ ∃ pre c post dir f, components path = pre ++ c :: post ∧
        LeadsTo s.mem none root pre dir f ∧ MAXNAMELEN ≤ c.length) ∧
      (∀ dir last, r = .ok (.missing dir last) ↔ ∃ pre d, components path = pre ++ [last] ∧
        LeadsTo s.mem none root pre d dir ∧ fType s.mem dir = FTYPE_DIR ∧ last.length < MAXNAMELEN ∧
        lookup s.mem dir last = none) ∧
      (∀ e, r = .error e → e = .badPath ∨ e = .notFound) ∧
      (∀ dir f, r = .ok (.found dir f) → f = root ∨ fName s.mem f 0 ≠ 0) ∧
      ∀ path', 0 ∉ path' → components path' = components path → ∃ s', Loaded s s' ∧ walkPath path' s = outcome r s' := by
  have hinv := h.dirInv hd
  have hall : ∀ path', 0 ∉ path' → components path' = components path → ∃ s', Loaded s s' ∧
      walkPath path' s = outcome (resolve s.mem none root (components path)) s' := by
    intro path' hp' hc
    rw [← hc]
    exact hinv.walkPath_outcome trivial hd hS hp'
  exact ⟨resolve s.mem none root (components path), hall path hp rfl, fun _ _ => resolve_found, resolve_badPath,
    fun _ _ => resolve_missing, fun _ => resolve_error, fun _ _ hr => (resolve_found.mp hr).live, hall⟩

theorem oneFile_dirs : DirsOk oneFile.mem ∧ Solid oneFile.mem := by
  have hroot : ∀ f, InTree oneFile.mem f → fType oneFile.mem f = FTYPE_DIR → f = root := by
    intro f hf ht
    rcases List.mem_pair.mp (oneFile_fsck.2 f hf) with rfl | rfl
    · rfl
    · exact absurd ht (by decide +kernel)
  constructor
  · intro f hf ht
    obtain rfl := hroot f hf ht
    exact ⟨by decide +kernel, by decide +kernel⟩
  · intro f hf ht k _ hk
    obtain rfl := hroot f hf ht
    have hone : blocksUp (fSize oneFile.mem root) = 1 := by decide +kernel
    obtain rfl : k = 0 := by omega
    decide +kernel

/-- The path "//f/" leads to the file "f". -/
theorem oneFile_resolves : ∃ s', walkPath [47, 47, 102, 47] oneFile = .ok (.found (some root) ⟨4, 0⟩) s' := by
  obtain ⟨r, ⟨s', -, hs'⟩, hfound, -⟩ := walkPath_resolves oneFile_fsck.1 oneFile_dirs.1 oneFile_dirs.2
    (show 0 ∉ [47, 47, 102, 47] by decide)
  have hr : r = .ok (.found (some root) ⟨4, 0⟩) :=
    (hfound _ _).mpr (.cons (by decide) (by decide +kernel) (by decide +kernel) (.nil _ _))
  exact ⟨s', by rw [hs', hr]; rfl⟩

end Fs
end Jos
