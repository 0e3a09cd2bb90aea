/-
# The file system between two calls

What the handlers of the server rely on and keep, over the functions of the
file system they call. `Sound` is the invariant of the file system with the
assignment of its blocks left open. `Acts` is what a handler does to it: some
calls of these functions, and work on the journal between them, which leaves
the blocks of the tree alone (`Aside`).

Key definitions: `Sound`, `Aside`, `Acts`.
Key theorems: `Sound.run_op`, `Aside.sameTree`, `Acts.trans`.
-/
import Jos.Fs.Ending
import Jos.Fs.Ownership

namespace Jos
namespace Fs

open Block

/-- A function of the file system run in the server. -/
theorem liftFs_run {α : Type} {x : FsM α} {s : Srv} {Q : α → FsSt → Prop} {E : Fault → FsSt → Prop}
    (h : Run x s.fs Q E) :
    Run (liftFs x) s (fun r s' => ∃ f, s' = { s with fs := f } ∧ Q r f)
      (fun e s' => ∃ f, s' = { s with fs := f } ∧ E e f) := by
  unfold Run at h ⊢
  unfold liftFs
  cases hx : x s.fs with
  | ok a f =>
    rw [hx] at h
    exact ⟨f, rfl, h⟩
  | error e f =>
    rw [hx] at h
    exact ⟨f, rfl, h⟩

/-- The file system with `N` blocks, whose directories have whole blocks, with
the transaction `a` active. -/
def Sound (R : Rules) (N : ℕ) (a : Option ℕ) (s : FsSt) : Prop :=
  ∃ L own jown, L.nb = N ∧ L.D ∧ FsInv R L own jown a s

/-- How a function of the file system fails: the journal is as it was. -/
def Failed (R : Rules) (N : ℕ) (a : Option ℕ) (s : FsSt) (e : Fault) (s' : FsSt) : Prop :=
  (∃ er, e = .err er) ∧ Sound R N a s' ∧ s'.mem 3 = s.mem 3

/-- The server stops. -/
def Stops (R : Rules) (N : ℕ) (e : Fault) (s : FsSt) : Prop := ∃ p, e = .panic p ∧ TrOk R N s.trace ∧ p.Basic

section
variable {R : Rules} {N : ℕ} {a : Option ℕ} {α : Type} {s s' : FsSt} {t : ℕ} {f : Ptr}

/-- A function of the file system. -/
theorem Sound.run_op {x : FsM α} {P : α → FsSt → Prop} (h : Sound R N a s)
    (hx : ∀ L own, L.D → FInv L own s.mem → Run x s (fun r s' => ∃ own', Moved L own own' s s' ∧ P r s')
      (fun e s' => Panics L s e s' ∨ ∃ er own', e = .err er ∧ Moved L own own' s s')) :
    Run x s (fun r s' => Sound R N a s' ∧ s'.mem 3 = s.mem 3 ∧ P r s') (Failed R N a s) := by
  obtain ⟨L, own, jown, rfl, hD, hi⟩ := h
  refine (hx L own hD hi.inv).mono ?_ ?_
  · rintro r s' ⟨own', hm, hP⟩
    exact ⟨⟨L, own', jown, rfl, hD, hi.of_moved hm⟩, hm.keeps.mem 3 hi.j3, hP⟩
  · rintro e s' (⟨p, -, -, hp⟩ | ⟨er, own', rfl, hm⟩)
    · exact absurd hD hp
    · exact ⟨⟨er, rfl⟩, ⟨L, own', jown, rfl, hD, hi.of_moved hm⟩, hm.keeps.mem 3 hi.j3⟩

theorem zero_not_mem_cstr : ∀ (n : ℕ) (p : ℕ → UInt8), 0 ∉ cstr p n
  | 0, _ => by simp [cstr]
  | n + 1, p => by
    unfold cstr
    split_ifs with h
    · simp
    · simp only [List.mem_cons, not_or]
      exact ⟨Ne.symm h, zero_not_mem_cstr n _⟩

theorem zero_not_mem_pathStr (p : ℕ → UInt8) : 0 ∉ pathStr p := zero_not_mem_cstr _ p

theorem Sound.fileOpen (h : Sound R N a s) {path : List UInt8} (hp : 0 ∉ path) :
    Run (fileOpen path) s (fun f s' => Sound R N a s' ∧ s'.mem 3 = s.mem 3 ∧ InTree s'.mem f ∧
      ∃ dir, PathTo s.mem path (.ok (.found dir f))) (Failed R N a s) := by
  refine h.run_op fun L own _ hi => (fileOpen_run hi hp).mono ?_ fun _ _ he => he.moved id
  rintro f s' ⟨own', hg, dir, hw⟩
  exact ⟨own', hg.moved, hg.inTree.mpr (PathTo.result hw hp), dir, hw⟩

/-- A new file was not in the tree. -/
theorem Slot.not_inTree {dir : Ptr} {k : ℕ} {own own' : ℕ → Use} {L : Layout} (hs : Slot L own own' dir k s s')
    (hi : FInv L own s.mem) (hdir : InTree s.mem dir) (hdt : fType s.mem dir = 1) :
    ¬ InTree s.mem (entryAt s'.mem dir k) := by
  intro hf
  obtain ⟨-, hroot, -⟩ := hs.entry (hi.isRec hdir) hdt
  have hl := hs.stretched.moved.inv.live (hs.stretched.inTree hdir hf)
  exact (hl.resolve_left hroot) hs.blank

/-- `file_create`, its error looked at by the caller. -/
theorem Sound.attemptCreate (h : Sound R N a s) {path : List UInt8} (hp : 0 ∉ path) (type : ℕ) :
    Run (attempt (Fs.fileCreate path type)) s (fun r s' => Sound R N a s' ∧ s'.mem 3 = s.mem 3 ∧
      (∀ f, r = .ok f → InTree s'.mem f ∧ ¬ InTree s.mem f) ∧ (r = .error .fileExists → SameTree s.mem s'.mem))
      (Failed R N a s) := by
  refine h.run_op fun L own _ hi => (attempt_run (fileCreate_run hi hp type)).mono ?_ ?_
  · rintro _ s' (⟨f, rfl, dir, name, k, own', s1, hw, hs, rfl, hed, hc⟩ | ⟨er, rfl, he | ⟨er', he', hce⟩⟩)
    · obtain ⟨hdir, hdt, -⟩ := PathTo.result hw hp
      refine ⟨own', hs.stretched.moved.trans hed.moved, fun f hf => ?_, by simp⟩
      obtain rfl := Except.ok.inj hf
      exact ⟨hs.inTree hi hp hw hed hc, hs.not_inTree hi hdir hdt⟩
    · obtain ⟨p, he, -⟩ := he
      cases he
    · obtain rfl : er = er' := Fault.err.inj he'
      obtain ⟨own', hm⟩ := hce.effect hi
      refine ⟨own', hm.moved, by simp, fun hex => ?_⟩
      obtain rfl := Except.error.inj hex
      cases hce with
      | walk _ own1 hg _ => exact hg.sameTree
      | exist own1 hg _ _ _ => exact hg.sameTree
  · rintro e s' ⟨⟨p, rfl⟩, he | ⟨er, he, -⟩⟩
    · exact .inl he
    · cases he

theorem Sound.fileSetSize (h : Sound R N a s) (hf : InTree s.mem f) {n : ℤ} (h0 : 0 ≤ n) (h1 : n < 2 ^ 31)
    (hd : fType s.mem f = 1 → (4096 : ℤ) ∣ n) :
    Run (fileSetSize f n) s (fun _ s' => Sound R N a s' ∧ s'.mem 3 = s.mem 3 ∧ True) (Failed R N a s) := by
  refine h.run_op fun L own _ hi => (fileSetSize_run hi (hi.isRec hf) (hi.not_self hf) (hi.live hf) h0 h1
    fun _ => hd).post ?_
  rintro _ s' ⟨own', hed, -⟩
  exact ⟨own', hed.moved, trivial⟩

theorem Sound.fileRead (h : Sound R N a s) (hf : InTree s.mem f) (n : ℕ) {off : ℤ} (h0 : 0 ≤ off) :
    Run (fileRead f n off) s (fun _ s' => Sound R N a s' ∧ s'.mem 3 = s.mem 3 ∧ True) (Failed R N a s) := by
  obtain ⟨off, rfl⟩ := Int.eq_ofNat_of_zero_le h0
  refine h.run_op fun L own _ hi => (fileRead_run hi (hi.isRec hf) (hi.live hf) n off).mono ?_ fun _ _ he =>
    he.moved fun _ => trivial
  rintro _ s' ⟨own', hg⟩
  exact ⟨own', hg.moved, trivial⟩

theorem Sound.fileWrite (h : Sound R N a s) (hf : InTree s.mem f) (ht : fType s.mem f ≠ 1) (buf : ℕ → UInt8)
    {n : ℕ} {off : ℤ} (h0 : 0 ≤ off) (hlt : off + n < 2 ^ 31) :
    Run (fileWrite f buf n off) s (fun _ s' => Sound R N a s' ∧ s'.mem 3 = s.mem 3 ∧ True) (Failed R N a s) := by
  obtain ⟨off, rfl⟩ := Int.eq_ofNat_of_zero_le h0
  refine h.run_op fun L own _ hi => (fileWrite_moved hi hf ht buf (by omega)).mono ?_ fun _ _ he => he
  rintro _ s' ⟨own', hm⟩
  exact ⟨own', hm, trivial⟩

/-- `file_flush` changes nothing in the cache; the blocks of the file are then
on the disk. -/
def FileClean (m : Disk) (y : ℕ → Bool) (f : Ptr) : Prop :=
  y f.blk = false ∧ (fIndirect m f ≠ 0 → y (fIndirect m f) = false) ∧
    (fSize m f < 2 ^ 31 - 4095 → ∀ k < 1034, ptr m f k ≠ 0 → y (ptr m f k) = false)

theorem Sound.fileFlush {E : Fault → FsSt → Prop} (h : Sound R N a s) (hf : InTree s.mem f) :
    Run (fileFlush f) s (fun _ s' => Sound R N a s' ∧ s'.mem = s.mem ∧
      (∀ b, s.dirty b = false → s'.dirty b = false) ∧ FileClean s.mem s'.dirty f) E := by
  obtain ⟨L, own, jown, rfl, hD, hi⟩ := h
  refine (fileFlush_run hi.inv (hi.inv.isRec hf)).post ?_
  rintro _ s' ⟨hw, h1, h2, h3⟩
  exact ⟨⟨L, own, jown, rfl, hD, hi.of_moved (hw.moved hi.inv)⟩, hw.mem, fun b hb => hw.clean hb, h1, h2, h3⟩

theorem Sound.fileRemove (h : Sound R N a s) {path : List UInt8} (hp : 0 ∉ path) :
    Run (fileRemove path) s (fun _ s' => Sound R N a s' ∧ s'.mem 3 = s.mem 3 ∧ True) (Failed R N a s) := by
  refine h.run_op fun L own _ hi => (fileRemove_run hi hp).mono ?_ fun _ _ he => he.moved id
  rintro _ s' ⟨dir, f, own1, s1, own', -, hg, hed, -⟩
  exact ⟨own', hg.moved.trans hed.moved, trivial⟩

end

/-! ### The tree left alone -/

/-- Block `b` is the superblock or is named in the tree. -/
def OfTree (m : Disk) (b : ℕ) : Prop := b = 1 ∨ ∃ r : Ref, InTree m r.file ∧ Names m r b

/-- The blocks of the tree are left alone. -/
def Aside (s s' : FsSt) : Prop := ∀ b, OfTree s.mem b → s'.mem b = s.mem b ∧ s'.dirty b = s.dirty b

section
variable {R : Rules} {L L' : Layout} {own : ℕ → Use} {jown : ℕ → JUse} {N n t : ℕ} {a : Option ℕ} {s s' s'' : FsSt}
  {f : Ptr} {m : Disk}

theorem OfTree.blk (hf : InTree m f) : OfTree m f.blk := by
  obtain ⟨sp, hsp⟩ := hf
  cases sp with
  | nil =>
    obtain rfl : root = f := Option.some.inj hsp
    exact .inl rfl
  | cons k sp =>
    obtain ⟨g, hg, ht, hc⟩ := node_cons.mp hsp
    obtain ⟨h1, h2, -, rfl⟩ := child_some.mp hc
    exact .inr ⟨.block g (k / 16), ⟨sp, hg⟩, h1, rfl, h2⟩

theorem Aside.sameFile (h : Aside s s') (hf : InTree s.mem f) : SameFile s.mem s'.mem f :=
  ⟨fun i _ => by rw [(h _ (OfTree.blk hf)).1], fun h0 => (h _ (.inr ⟨.indirect f, hf, rfl, h0⟩)).1⟩

theorem SameFile.nameOf {m m' : Disk} (h : SameFile m m' f) : Fs.nameOf m' f = Fs.nameOf m f :=
  cstr_congr fun _ hi => h.1.fName hi

theorem Aside.sameTree (h : Aside s s') : SameTree s.mem s'.mem := by
  refine ⟨fun f hf => (h.sameFile hf).1.fType, fun f hf => (h.sameFile hf).nameOf, fun f hf _ => (h.sameFile hf).1.fSize,
    fun f k hf _ => ?_⟩
  have hs := h.sameFile hf
  have he : entryAt s'.mem f k = entryAt s.mem f k := by rw [entryAt, entryAt, hs.ptr]
  unfold child
  rw [hs.ptr, he]
  by_cases hp : k / 16 < 1034 ∧ ptr s.mem f (k / 16) ≠ 0
  · have hb := (h (entryAt s.mem f k).blk (.inr ⟨.block f (k / 16), hf, hp.1, rfl, hp.2⟩)).1
    rw [fName, hb, fName]
  · rw [if_neg fun hc => hp ⟨hc.1, hc.2.1⟩, if_neg fun hc => hp ⟨hc.1, hc.2.1⟩]

theorem Aside.inTree (h : Aside s s') : InTree s'.mem f ↔ InTree s.mem f := h.sameTree.inTree

theorem Aside.ofTree (h : Aside s s') {b : ℕ} (hb : OfTree s.mem b) : OfTree s'.mem b := by
  refine hb.imp_right ?_
  rintro ⟨r, hr, hn⟩
  exact ⟨r, h.inTree.mpr hr, (h.sameFile hr).names.mpr hn⟩

theorem Aside.refl (s : FsSt) : Aside s s := fun _ _ => ⟨rfl, rfl⟩

theorem Aside.trans (h : Aside s s') (h' : Aside s' s'') : Aside s s'' := fun b hb =>
  ⟨(h' b (h.ofTree hb)).1.trans (h b hb).1, (h' b (h.ofTree hb)).2.trans (h b hb).2⟩

theorem FInv.own_ofTree (h : FInv L own m) {b : ℕ} (hb : OfTree m b) : b = 1 ∨ own b ≠ .none := by
  refine hb.imp_right ?_
  rintro ⟨r, hr, hn⟩
  rw [h.own_names (h.isRec hr) hn]
  exact r.use_ne m

theorem Logged.aside (h : Logged L own jown t s s') (hi : FInv L own s.mem) : Aside s s' := fun b hb =>
  have hb' : Others own jown t b := (hi.own_ofTree hb).imp_right .inl
  ⟨h.keeps.mem b hb', h.keeps.dirty b hb'⟩

theorem Committed.aside (h : Committed jown n t s s') (hi : FInv L own s.mem) (hj : Jrn L jown) : Aside s s' := by
  intro b hb
  have hb' := hi.own_ofTree hb
  have h3 : b ≠ 3 := by
    rintro rfl
    exact hb'.elim (by omega) fun hu => hu (hi.fixed 3 (.inl (.inl le_rfl))).1
  refine ⟨h.words.2.2.2.1 b h3, h.dirty b h3 fun hm => ?_⟩
  rcases hb' with rfl | hu
  · have := hj.mine hm
    omega
  · exact hu (hi.own_jown hj hm.ne).1

theorem Cleared.aside {F : ℕ → Prop} (h : Cleared F t s s') (hi : FsInv R L own jown a s) (ht : t < 112) : Aside s s' := by
  intro b hb
  have hfix : ∀ c, L.Fixed c → c ≠ 1 → b ≠ c := by
    rintro c hc h1 rfl
    exact (hi.inv.own_ofTree hb).elim h1 fun hu => hu (hi.inv.fixed b hc).1
  have htab : b ≠ tHandlei s.mem t := by
    by_cases h0 : tHandlei s.mem t = 0
    · rw [h0]
      exact hfix 0 (.inl (.inl (by omega))) (by omega)
    · have hj := hi.jrn.blk ((hi.ok t ht).tab_ne h0)
      refine hfix _ (.inr ((hi.jrn.journal _).mpr (.inr ?_))) (by omega)
      rw [(hi.ok t ht).tab h0]
      simp
  have h2 : b ≠ 2 := hfix 2 (.inl (.inl (by omega))) (by omega)
  have h3 : b ≠ 3 := hfix 3 (.inl (.inl le_rfl)) (by omega)
  exact ⟨h.mem b h2 h3 htab, h.dirty b h2 h3 htab⟩

end

/-! ### The calls of a handler -/

/-- A call returned, with an error or without. -/
def Op.Done (op : Op) (g g' : FsSt) : Prop := ∃ r, attempt op.call g = .ok r g'

/-- The server may make the call: its arguments are in order, and directories
are resized by whole blocks and not written to. -/
def Op.Fits (m : Disk) (op : Op) : Prop :=
  op.Legal m ∧ op.SparesDirs m ∧ ∀ f size, op = .setSize f size → fType m f = 1 → (4096 : ℤ) ∣ size

/-- The files and directories are in order. -/
def Tidy (m : Disk) : Prop := ∃ L own, L.D ∧ FInv L own m

/-- What a handler does to the file system if it makes no calls but those of `C`. -/
inductive Acts (C : Op → Prop) (s : FsSt) : FsSt → Prop
  | refl : Acts C s s
  | aside {g g' : FsSt} (h : Acts C s g) (ha : Aside g g') : Acts C s g'
  /-- Blocks are written back. -/
  | clean {g g' : FsSt} (h : Acts C s g) (hm : g'.mem = g.mem) : Acts C s g'
  | call {g g' : FsSt} {op : Op} (h : Acts C s g) (ht : Tidy g.mem) (hc : C op) (hf : op.Fits g.mem)
      (hd : op.Done g g') : Acts C s g'

section
variable {C C' : Op → Prop} {s s' s'' : FsSt} {R : Rules} {N : ℕ} {a : Option ℕ} {α : Type} {x : FsM α} {op : Op}

theorem Acts.trans (h : Acts C s s') (h' : Acts C s' s'') : Acts C s s'' := by
  induction h' with
  | refl => exact h
  | aside _ ha ih => exact ih.aside ha
  | clean _ hm ih => exact ih.clean hm
  | call _ ht hc hf hd ih => exact ih.call ht hc hf hd

theorem Acts.of_aside (h : Aside s s') : Acts C s s' := Acts.refl.aside h

theorem Sound.tidy (h : Sound R N a s) : Tidy s.mem := by
  obtain ⟨L, own, jown, -, hD, hi⟩ := h
  exact ⟨L, own, hD, hi.inv⟩

/-- The outcome of `x` is that of the call `op`. -/
def Op.Runs (op : Op) (x : FsM α) : Prop :=
  ∀ g g', ((∃ r, x g = .ok r g') ∨ ∃ e, x g = .error (.err e) g') → op.Done g g'

theorem Op.runs_of_call (hop : op.call = do let _ ← x) : op.Runs x := by
  rintro g g' (⟨r, hx⟩ | ⟨e, hx⟩)
  · refine ⟨.ok (), ?_⟩
    rw [hop]
    simp [attempt, bind, EStateM.bind, hx, pure, EStateM.pure]
  · refine ⟨.error e, ?_⟩
    rw [hop]
    simp [attempt, bind, EStateM.bind, hx]

theorem Op.runs_of_unit {x : FsM Unit} (hop : op.call = x) : op.Runs x := by
  rintro g g' (⟨r, hx⟩ | ⟨e, hx⟩)
  · exact ⟨.ok (), by rw [hop, attempt, hx]⟩
  · exact ⟨.error e, by rw [hop, attempt, hx]⟩

theorem Op.Runs.attempt (h : op.Runs x) : op.Runs (attempt x) := by
  rintro g g' (⟨r, hx⟩ | ⟨e, hx⟩)
  · rw [Fs.attempt] at hx
    split at hx
    · next a g1 hx1 =>
      obtain ⟨-, rfl⟩ := EStateM.Result.ok.inj hx
      exact h g _ (.inl ⟨a, hx1⟩)
    · next e g1 hx1 =>
      obtain ⟨-, rfl⟩ := EStateM.Result.ok.inj hx
      exact h g _ (.inr ⟨e, hx1⟩)
    · cases hx
  · rw [Fs.attempt] at hx
    split at hx
    · cases hx
    · cases hx
    · cases hx

end

end Fs
end Jos
