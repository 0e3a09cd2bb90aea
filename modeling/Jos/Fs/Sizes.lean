/-
# Sizes that clients ask for

`serve_set_size` takes any 32-bit size, and `serve_write` extends a file to
its seek position, which is the client's, plus the byte count; neither is
compared with what a file can hold. What the two requests come to is said once
(`setSize_reach`, `write_reach`): the id is refused, the server stops, or the
handle is logged and the call is made. From it, when exactly the size is in
range after the request.

Key definitions: `InRange`, `Resizes`, `Writes`.
Key theorems: `setSize_reach`, `write_reach`, `inRange_iff`.
-/
import Jos.Fs.NoPanic
import Jos.Fs.OpenModes
import Jos.Fs.WriteAhead

namespace Jos
namespace Fs

open Block

/-- The size of `f` is one a file can have, and its blocks are within it. -/
def InRange (m : Disk) (f : Ptr) : Prop :=
  0 ≤ fSize m f ∧ fSize m f ≤ MAXFILESIZE ∧ ∀ k < NDIRECT + NINDIRECT, ptr m f k ≠ 0 → k < blocksUp (fSize m f)

/-! ### What a request on an open file comes to -/

/-- `serve_set_size` logs the handle and makes the call: `g` is the file system
in between. -/
structure Resizes (R : Rules) (N id : ℕ) (s : Srv) (f : Ptr) (g : FsSt) : Prop where
  file : (s.opentab (id % MAXOPEN)).file = some f
  valid : ¬ Refused s id
  sound : Sound R N none g
  aside : Aside s.fs g

/-- `serve_write` logs the handle, from `s1` with the transaction `t`, and makes
the call from `g`. -/
structure Writes (R : Rules) (N envid id n : ℕ) (buf : ℕ → UInt8) (s : Srv) (f : Ptr) (s1 : Srv) (t : ℕ) (g : FsSt) :
    Prop extends Resizes R N id s f g where
  small : n ≤ HANDLE_DATASIZE
  looked : Looked R (fun _ => False) N envid id s (id % MAXOPEN) s1
  mapped : (s.fds (id % MAXOPEN)).mapped = true
  trans : (s1.envs (envx envid)).trans = some t
  added : addHandle t (writeHandle (s.opentab (id % MAXOPEN)).fpath (s.fds (id % MAXOPEN)).offset n buf) s1.fs =
    .ok () g

/-- The id is refused, or the server stops. -/
def Declined (s : Srv) (id : ℕ) (e : Fault) (s' : Srv) : Prop :=
  (e = .err .inval ∧ s = s' ∧ Refused s id) ∨ ∃ p, e = .panic p

section
variable {R : Rules} {C : Op → Prop} {N : ℕ} {s s' : Srv} {envid id n : ℕ} {size : ℤ} {buf : ℕ → UInt8} {f : Ptr}
  {g g' : FsSt}

theorem openfileLookup_looked (h : Fit R N none s) (hl : s.Alive envid) :
    Run (openfileLookup envid id) s (fun i s' => i = id % MAXOPEN ∧ ¬ Refused s id ∧ Looked R C N envid id s i s')
      (Declined s id) := by
  by_cases hr : Refused s id
  · unfold Run
    rw [lookup_inval envid hr]
    exact .inl ⟨rfl, rfl, hr⟩
  · exact ((openfileLookup_answer hr).and (openfileLookup_fit h hl id)).mono
      (fun i s' h => ⟨h.1, hr, h.2⟩) fun _ _ h => .inr h.1

theorem addHandleToTransaction_reach (h : Fit R N none s) (hb : Block) :
    Run (addHandleToTransaction envid hb) s
      (fun _ s' => ∃ t g, s' = { s with fs := g } ∧ Fit R N none s' ∧ Aside s.fs g ∧
        (s.envs (envx envid)).trans = some t ∧ addHandle t hb s.fs = .ok () g)
      (fun e _ => ∃ p, e = .panic p) := by
  refine .getBind ?_
  rw [if_neg (by simp [h.ip])]
  cases ht : (s.envs (envx envid)).trans with
  | none => exact .throw ⟨_, rfl⟩
  | some t =>
    refine (liftFs_run ((h.fs.addHandle (h.trans _ t ht).1 hb).and (OnlyPanics.addHandle t hb s.fs)).with_eq).mono ?_ ?_
    · rintro _ _ ⟨g, rfl, hrun, ⟨h1, h2, h3, -⟩, -⟩
      exact ⟨t, g, rfl, h.of_fs h1 h3, h2, rfl, hrun⟩
    · rintro _ _ ⟨g, -, -, -, hp⟩
      exact hp

theorem liftFs_reach {α : Type} (x : FsM α) (s : Srv) :
    Run (liftFs x) s (fun r s' => ∃ g, s' = { s with fs := g } ∧ x s.fs = .ok r g)
      (fun e s' => ∃ g, s' = { s with fs := g } ∧ x s.fs = .error e g) :=
  (liftFs_run (Run.any x s.fs).with_eq).mono (fun _ _ ⟨g, h1, h2⟩ => ⟨g, h1, h2.1⟩) fun _ _ ⟨g, h1, h2⟩ => ⟨g, h1, h2.1⟩

theorem theFile_reach (o : OpenFile) (s : Srv) :
    Run (theFile o) s (fun f s' => o.file = some f ∧ s = s') (fun e _ => ∃ p, e = .panic p) := by
  unfold theFile
  cases ho : o.file with
  | some f => exact .pure ⟨rfl, rfl⟩
  | none => exact .throw ⟨_, rfl⟩

theorem fdOffset_reach (i : ℕ) (s : Srv) :
    Run (fdOffset i) s (fun off s' => off = (s.fds i).offset ∧ (s.fds i).mapped = true ∧ s = s')
      (fun e _ => ∃ p, e = .panic p) := by
  refine .getBind ?_
  split_ifs with hm
  · exact .pure ⟨rfl, hm, rfl⟩
  · exact .throw ⟨_, rfl⟩

/-- `serve_set_size`. -/
theorem setSize_reach (h : Fit R N none s) (hl : s.Alive envid) (id : ℕ) (size : ℤ) :
    Run (serveSetSize envid id size) s
      (fun _ s' => ∃ f g, Resizes R N id s f g ∧ fileSetSize f size g = .ok () s'.fs) (Declined s id) := by
  refine .bind (openfileLookup_looked (C := fun _ => False) h hl) ?_
  rintro i s1 ⟨rfl, hv, h1⟩
  refine .getBind ?_
  refine .step (addHandleToTransaction_reach h1.fit _) (fun _ _ he => .inr he) ?_
  rintro _ _ ⟨t, g, rfl, hf, ha, -, -⟩
  refine .step (theFile_reach _ _) (fun _ _ he => .inr he) ?_
  rintro f _ ⟨hof, rfl⟩
  refine .step ((liftFs_reach _ _).and ((OnlyPanics.fileSetSize f size).liftFs _)) (fun _ _ he => .inr he.2) ?_
  rintro _ _ ⟨⟨g', rfl, hrun⟩, -⟩
  rw [h1.tabs.1] at hof
  exact .pure ⟨f, g, ⟨hof, hv, hf.fs, h1.aside.trans ha⟩, hrun⟩

/-- `serve_write`. -/
theorem write_reach (h : Fit R N none s) (hl : s.Alive envid) (id n : ℕ) (buf : ℕ → UInt8) :
    Run (serveWrite envid id n buf) s
      (fun rep s' => ∃ f s1 t g g', Writes R N envid id n buf s f s1 t g ∧
        ∃ r, fileWrite f buf n (s.fds (id % MAXOPEN)).offset g = .ok r g' ∧ rep.value = r ∧
          advance (id % MAXOPEN) r { s1 with fs := g' } = .ok () s')
      (fun e s' => Declined s id e s' ∨ ∃ f s1 t g g', Writes R N envid id n buf s f s1 t g ∧
        fileWrite f buf n (s.fds (id % MAXOPEN)).offset g = .error e g' ∧ s' = { s1 with fs := g' }) := by
  refine .step (openfileLookup_looked (C := fun _ => False) h hl) (fun _ _ h =>
    .inl h) ?_
  rintro i s1 ⟨rfl, hv, h1⟩
  refine .getBind ?_
  refine .step (theFile_reach _ _) (fun _ _ he => .inl (.inr he)) ?_
  rintro f _ ⟨hof, rfl⟩
  split_ifs with hn
  · exact .throw (.inl (.inr ⟨_, rfl⟩))
  refine .step (fdOffset_reach _ _) (fun _ _ he => .inl (.inr he)) ?_
  rintro off _ ⟨hoff, hm, rfl⟩
  refine .step (addHandleToTransaction_reach h1.fit _) (fun _ _ he =>
    .inl (.inr he)) ?_
  rintro _ _ ⟨t, g, rfl, hf, ha, ht, hadd⟩
  rw [h1.tabs.2] at hoff hm
  rw [h1.tabs.1] at hof hadd
  rw [hoff] at hadd
  have hw : Writes R N envid id n buf s f s1 t g :=
    ⟨⟨hof, hv, hf.fs, h1.aside.trans ha⟩, not_lt.mp hn, h1, hm, ht, hadd⟩
  refine .step (liftFs_reach _ _) ?_ ?_
  · rintro e _ ⟨g', rfl, hrun⟩
    rw [hoff] at hrun
    exact .inr ⟨f, s1, t, g, g', hw, hrun, rfl⟩
  · rintro r _ ⟨g', rfl, hrun⟩
    rw [hoff] at hrun
    exact .modifyBind (.pure ⟨f, s1, t, g, g', hw, r, hrun, rfl, rfl⟩)

end

/-! ### The size after a call -/

/-- No block of `f` is past its size. -/
def Within (m : Disk) (f : Ptr) : Prop := ∀ k < NDIRECT + NINDIRECT, ptr m f k ≠ 0 → k < blocksUp (fSize m f)

section
variable {R : Rules} {L : Layout} {own : ℕ → Use} {N n : ℕ} {a : Option ℕ} {f : Ptr} {g : FsSt} {m : Disk}
  {buf : ℕ → UInt8} {off : ℤ}

theorem FInv.within (h : FInv L own m) (hf : IsRec own f) : Within m f := fun k hk hp => ((h.recOk f hf).ptr k hk hp).2

/-- `file_set_size` stores the size it is given, whatever it is. -/
theorem fileSetSize_size (f : Ptr) (newsize : ℤ) (g : FsSt) :
    Run (fileSetSize f newsize) g (fun _ g' => fSize g'.mem f = toInt32 (ofInt32 newsize)) (fun _ _ => True) := by
  refine .getBind (.iteBind (Q := fun _ _ => True) ?_ ?_)
  · split_ifs
    · exact (Run.any _ _).mono (fun _ _ _ => trivial) fun _ _ _ => trivial
    · exact .pure trivial
  intro _ g _
  refine .step (store_run _ _ _ _ g) (fun _ _ _ => trivial) ?_
  intro _ g1 hst
  refine (flushBlock_run _ g1).mono ?_ fun _ _ _ => trivial
  intro _ g2 hfl
  have hblk : g1.mem f.blk = (g.mem f.blk).put32 (f.off + 128) (ofInt32 newsize) := by
    rw [hst.mem, Function.update_self]
    rfl
  rw [fSize, hfl.mem, hblk, le32_put32, Nat.mod_eq_of_lt (ofInt32_lt _)]

/-- Set to a size that is not negative, a file keeps no block past it. -/
theorem Sound.resize (h : Sound R N a g) (hf : InTree g.mem f) {newsize : ℤ} (h0 : 0 ≤ newsize)
    (h1 : newsize < 2 ^ 31) :
    Run (Fs.fileSetSize f newsize) g (fun _ g' => fSize g'.mem f = newsize ∧ Within g'.mem f)
      (fun e _ => ∃ p, e = .panic p) := by
  obtain ⟨L, own, jown, -, -, hi⟩ := h
  refine (fileSetSize_run hi.inv.forget (hi.inv.isRec hf) (hi.inv.not_self hf) (hi.inv.live hf) h0 h1
    fun hD => hD.elim).post ?_
  rintro _ g' ⟨own', hed, hres⟩
  exact ⟨hres.size, hed.inv.within (hed.isRec (hi.inv.isRec hf) (hi.inv.not_self hf)).1⟩

/-- How `file_write` ends: in a state of which `S` holds, or in a panic. -/
def Leads (S : FsSt → Prop) (e : Fault) (g : FsSt) : Prop := (∃ p, e = .panic p) ∨ S g

/-- `file_write` at a position in a regular file. -/
theorem Sound.write_at (h : Sound R N a g) (hf : InTree g.mem f) (ht : fType g.mem f ≠ 1) (h0 : 0 ≤ off)
    (hlt : off + n < 2 ^ 31) :
    Run (Fs.fileWrite f buf n off) g
      (fun _ g' => fSize g'.mem f = max (fSize g.mem f) (off + n) ∧ Within g'.mem f)
      (Leads fun g' => fSize g'.mem f = max (fSize g.mem f) (off + n) ∧ Within g'.mem f) := by
  obtain ⟨L, own, jown, -, -, hi⟩ := h
  obtain ⟨off, rfl⟩ := Int.eq_ofNat_of_zero_le h0
  have hrec := hi.inv.isRec hf
  have hnew : ∀ {own1 own' s1 g'}, Edit L own own1 f g s1 → Resized own1 f (max (fSize g.mem f) (off + n)) g s1 →
      Filled L own1 own' f s1 g' → fSize g'.mem f = max (fSize g.mem f) (off + n) ∧ Within g'.mem f := by
    intro own1 own' s1 g' hed hres hfill
    have hrec1 := (hed.isRec hrec (hi.inv.not_self hf)).1
    exact ⟨(hfill.fSize hrec1).trans hres.size, hfill.inv.within (hfill.isRec hrec1)⟩
  refine (fileWrite_run hi.inv hf ht buf (by omega)).mono ?_ ?_
  · rintro _ g' ⟨-, own1, s1, own', hed, hres, hfill, -⟩
    exact hnew hed hres hfill
  · rintro e g' ⟨-, own1, s1, own', hed, hres, hfill⟩
    exact .inr (hnew hed hres hfill)

/-- A write that starts before the file and ends in it: the file may get
longer, and nothing is written. -/
theorem Sound.write_before (h : Sound R N a g) (hf : InTree g.mem f) (h0 : off < 0) (h31 : -2 ^ 31 ≤ off)
    (h1 : 0 ≤ off + n) (hlt : off + n < 2 ^ 31) :
    Run (Fs.fileWrite f buf n off) g
      (fun _ g' => fSize g'.mem f = max (fSize g.mem f) (off + n) ∧ Within g'.mem f)
      (Leads fun g' => fSize g'.mem f = max (fSize g.mem f) (off + n) ∧ Within g'.mem f) := by
  have hfin : ofInt32 (off + n) = (off + n).toNat := by
    rw [ofInt32]
    omega
  have hpos : ¬ ofInt32 off < (off + n).toNat := by
    rw [ofInt32]
    omega
  have hloop : ∀ g1, Run (do
      writeLoop f buf (off + n).toNat n off 0
      pure n : FsM ℕ) g1 (fun _ g' => g1 = g') (fun _ _ => False) := by
    intro g1
    refine .bind (Q := fun _ g' => g1 = g') ?_ fun _ _ h => .pure h
    obtain ⟨n', rfl⟩ : ∃ n', n = n' + 1 := ⟨n - 1, by omega⟩
    unfold writeLoop
    rw [if_neg hpos]
    exact .pure rfl
  have hold : 0 ≤ fSize g.mem f ∧ Within g.mem f := by
    obtain ⟨L, own, jown, -, -, hi⟩ := h
    have hrec := hi.inv.isRec hf
    exact ⟨(hi.inv.recOk f hrec).size, hi.inv.within hrec⟩
  have hsz := fSize_lt g.mem f
  have hword : ofInt32 (fSize g.mem f) = (fSize g.mem f).toNat := by
    rw [ofInt32]
    omega
  refine .getBind ?_
  dsimp only
  rw [hfin, hword]
  split_ifs with hext
  · have hto : toInt32 (off + n).toNat = off + n := by
      rw [toInt32_of_lt (by omega)]
      omega
    rw [hto]
    refine .step (h.resize hf h1 hlt) (fun _ _ he => .inl he) ?_
    rintro _ g1 ⟨hs, hw⟩
    refine (hloop g1).mono ?_ fun _ _ he => he.elim
    rintro _ _ rfl
    exact ⟨by omega, hw⟩
  · refine (hloop g).mono ?_ fun _ _ he => he.elim
    rintro _ _ rfl
    exact ⟨by omega, hold.2⟩

theorem toInt32_wraps {z : ℤ} (hlo : -2 ^ 31 ≤ z) (hhi : z < 2 ^ 31 + 2 ^ 12) (hneg : z < 0 ∨ 2 ^ 31 ≤ z) :
    2 ^ 31 ≤ ofInt32 z ∧ toInt32 (ofInt32 (toInt32 (ofInt32 z))) < 0 := by
  have hw : (2 : ℕ) ^ 31 ≤ ofInt32 z := by
    rw [ofInt32]
    omega
  have hw' := ofInt32_lt z
  have hs : toInt32 (ofInt32 z) = ofInt32 z - 2 ^ 32 := if_neg (by omega)
  refine ⟨hw, ?_⟩
  rw [toInt32_ofInt32 (by omega) (by omega)]
  omega

/-- The first block of a write at a position far outside of what a file can
have. -/
theorem chunk_far (hlo : -2 ^ 31 ≤ off) (hhi : off < 2 ^ 31) (hfar : off ≤ -4096 ∨ 1034 * 4096 ≤ off) (fin : ℕ) :
    NDIRECT + NINDIRECT ≤ (chunk fin off).1 := by
  have hdiv : off.tdiv ((BLKSIZE : ℕ) : ℤ) < 0 ∧ -2 ^ 31 ≤ off.tdiv ((BLKSIZE : ℕ) : ℤ) ∨
      1034 ≤ off.tdiv ((BLKSIZE : ℕ) : ℤ) ∧ off.tdiv ((BLKSIZE : ℕ) : ℤ) < 2 ^ 31 := by
    simp only [BLKSIZE, Nat.cast_ofNat]
    rcases hfar with hoff | hoff
    · rw [← neg_neg off, Int.neg_tdiv, Int.tdiv_eq_ediv_of_nonneg (by omega)]
      omega
    · rw [Int.tdiv_eq_ediv_of_nonneg (by omega)]
      omega
  show 1034 ≤ ofInt32 _
  rw [ofInt32]
  omega

/-- The loop of `file_write` fails in its first turn, or makes none. -/
theorem writeLoop_far {S : FsSt → Prop} (hS : S g) (hblk : 0 < n → ∀ fin, NDIRECT + NINDIRECT ≤ (chunk fin off).1)
    (fin : ℕ) : Run (writeLoop f buf fin n off 0) g (fun _ g' => S g') (Leads S) := by
  cases n with
  | zero => exact .pure hS
  | succ n =>
    unfold writeLoop
    split_ifs
    · refine .bind (Q := fun _ _ => False) ?_ fun _ _ h => h.elim
      unfold fileGetBlock
      rw [if_pos (hblk (by omega) _)]
      exact .throw (.inr hS)
    · exact .pure hS

/-- A write whose end wraps to a negative size, outside of the block before the
file: the size is stored, and the loop does not get to a block. -/
theorem write_wraps (h0 : 0 ≤ fSize g.mem f) (hn : n ≤ HANDLE_DATASIZE) (hlo : -2 ^ 31 ≤ off) (hhi : off < 2 ^ 31)
    (hneg : off + n < 0 ∨ 2 ^ 31 ≤ off + n) (hcorner : ¬ (0 < n ∧ -(BLKSIZE : ℤ) < off ∧ off + n < 0)) :
    Run (fileWrite f buf n off) g (fun _ g' => fSize g'.mem f < 0) (Leads fun g' => fSize g'.mem f < 0) := by
  have hn' : n ≤ 3056 := hn
  obtain ⟨hword, hto⟩ := toInt32_wraps (z := off + n) (by omega) (by omega) hneg
  have hext : ofInt32 (fSize g.mem f) < ofInt32 (off + n) := by
    have hsz := fSize_lt g.mem f
    rw [ofInt32]
    omega
  have hblk : 0 < n → ∀ fin, NDIRECT + NINDIRECT ≤ (chunk fin off).1 := by
    simp only [BLKSIZE] at hcorner
    exact fun hpos => chunk_far hlo hhi (by omega)
  refine .getBind ?_
  dsimp only
  rw [if_pos hext]
  refine .bind ((fileSetSize_size f _ g).and (OnlyPanics.fileSetSize f _ g) |>.mono (fun _ _ h => h)
    fun _ _ he => .inl he.2) ?_
  rintro _ g1 ⟨hs, -⟩
  have hs1 : fSize g1.mem f < 0 := by omega
  exact .bind (writeLoop_far hs1 hblk _) fun _ _ h => .pure h

end

/-! ### The size after a request -/

section
variable {R : Rules} {N : ℕ} {s s' : Srv} {envid id n : ℕ} {size : ℤ} {buf : ℕ → UInt8} {f : Ptr} {g : FsSt}
  {rep : Reply}

/-- What a request that was answered leaves, whatever the answer. -/
theorem serve_leads {P : Srv → Prop} {r : Req} (hr : ∀ path omode, r ≠ .open path omode)
    (h : Run (handle envid r) s (fun _ s' => P s') (fun e s' => (∃ p, e = .panic p) ∨ P s'))
    (hs : serve envid r s = .ok rep s') : P s' := by
  refine (serve_run (P := fun _ s' => P s') (F := fun _ _ => True) ((handle_page envid r hr s).and h) ?_
    (fun er s1 hh => hh.2.resolve_left (by simp)) fun _ _ _ => trivial).of_ok hs
  rintro rep s1 ⟨hp, hP⟩
  rw [hp]
  exact hP

theorem inRange_of_within {m : Disk} (h0 : 0 ≤ fSize m f) (hw : Within m f) :
    InRange m f ↔ fSize m f ≤ MAXFILESIZE := ⟨fun h => h.2.1, fun h => ⟨h0, h, hw⟩⟩

theorem Resizes.inTree (h : Resizes R N id s f g) (hf : InTree s.fs.mem f) : InTree g.mem f := h.aside.inTree.mpr hf

theorem Resizes.fSize (h : Resizes R N id s f g) (hf : InTree s.fs.mem f) : fSize g.mem f = fSize s.fs.mem f :=
  (h.aside.sameFile hf).1.fSize

/-- `serve_set_size` with any 32-bit size. -/
theorem setSize_inRange (h : Fit R N none s) (hl : s.Alive envid) (hfile : (s.opentab (id % MAXOPEN)).file = some f)
    (hin : InTree s.fs.mem f) (hlo : -2 ^ 31 ≤ size) (hhi : size < 2 ^ 31)
    (hs : serve envid (.setSize id size) s = .ok rep s') :
    InRange s'.fs.mem f ↔
      (Refused s id ∧ InRange s.fs.mem f) ∨ (¬ Refused s id ∧ 0 ≤ size ∧ size ≤ MAXFILESIZE) := by
  refine serve_leads (r := .setSize id size) (P := fun s' => InRange s'.fs.mem f ↔ _) (by simp)
    ((setSize_reach h hl id size).mono ?_ ?_) hs
  · rintro _ s1 ⟨f', g, hr, hrun⟩
    obtain rfl : f' = f := Option.mem_unique hr.file hfile
    have hsize := (fileSetSize_size f' size g).of_ok hrun
    rw [toInt32_ofInt32 hlo hhi] at hsize
    by_cases h0 : 0 ≤ size
    · obtain ⟨-, hw⟩ := (hr.sound.resize (hr.inTree hin) h0 hhi).of_ok hrun
      rw [inRange_of_within (by omega) hw, hsize]
      simp [hr.valid, h0]
    · refine iff_of_false (fun hc => h0 (hsize ▸ hc.1)) ?_
      simp [hr.valid, h0]
  · rintro e s1 (⟨-, rfl, hr⟩ | hp)
    · exact .inr (by simp [hr])
    · exact .inl hp

/-- `serve_write` on a regular file, at any 32-bit position. -/
theorem write_inRange (h : Fit R N none s) (hl : s.Alive envid) (hfile : (s.opentab (id % MAXOPEN)).file = some f)
    (hin : InTree s.fs.mem f) (hreg : fType s.fs.mem f ≠ FTYPE_DIR)
    (hlo : -2 ^ 31 ≤ (s.fds (id % MAXOPEN)).offset) (hhi : (s.fds (id % MAXOPEN)).offset < 2 ^ 31)
    (hs : serve envid (.write id n buf) s = .ok rep s')
    (hcorner : ¬ Refused s id →
      ¬ (0 < n ∧ -(BLKSIZE : ℤ) < (s.fds (id % MAXOPEN)).offset ∧ (s.fds (id % MAXOPEN)).offset + n < 0)) :
    InRange s'.fs.mem f ↔ InRange s.fs.mem f ∧ (Refused s id ∨
      0 ≤ (s.fds (id % MAXOPEN)).offset + n ∧ (s.fds (id % MAXOPEN)).offset + n ≤ MAXFILESIZE) := by
  have hmain : ∀ {f' s1 t g}, Writes R N envid id n buf s f' s1 t g →
      Run (fileWrite f' buf n (s.fds (id % MAXOPEN)).offset) g
        (fun _ g' => InRange g'.mem f ↔ InRange s.fs.mem f ∧ (Refused s id ∨
          0 ≤ (s.fds (id % MAXOPEN)).offset + n ∧ (s.fds (id % MAXOPEN)).offset + n ≤ MAXFILESIZE))
        (Leads fun g' => InRange g'.mem f ↔ InRange s.fs.mem f ∧ (Refused s id ∨
          0 ≤ (s.fds (id % MAXOPEN)).offset + n ∧ (s.fds (id % MAXOPEN)).offset + n ≤ MAXFILESIZE)) := by
    intro f' s1 t g hw
    obtain rfl : f' = f := Option.mem_unique hw.file hfile
    have hin2 := hw.inTree hin
    have hold : 0 ≤ fSize s.fs.mem f' ∧ Within s.fs.mem f' := by
      obtain ⟨L, own, jown, -, -, hi⟩ := h.fs
      have hrec := hi.inv.isRec hin
      exact ⟨(hi.inv.recOk f' hrec).size, hi.inv.within hrec⟩
    have hsz := hw.fSize hin
    have hn : n ≤ 3056 := hw.small
    have hcorner := hcorner hw.valid
    generalize (s.fds (id % MAXOPEN)).offset = off at hlo hhi hcorner ⊢
    rw [inRange_of_within hold.1 hold.2]
    by_cases hneg : off + n < 0 ∨ 2 ^ 31 ≤ off + n
    · -- the size is negative after
      have hfail : ∀ m : Disk, fSize m f' < 0 → (InRange m f' ↔ fSize s.fs.mem f' ≤ MAXFILESIZE ∧
          (Refused s id ∨ 0 ≤ off + n ∧ off + n ≤ MAXFILESIZE)) := fun m hm =>
        iff_of_false (fun hc => absurd hc.1 (by omega)) fun hc => by
          have := hc.2.resolve_left hw.valid
          simp only [MAXFILESIZE, NDIRECT, NINDIRECT, BLKSIZE] at this
          omega
      exact (write_wraps (by omega) hw.small hlo hhi hneg hcorner).mono (fun _ g' hm => hfail _ hm)
        fun _ g' he => he.imp_right (hfail _)
    · have hlong : ∀ m : Disk, fSize m f' = max (fSize g.mem f') (off + n) ∧ Within m f' →
          (InRange m f' ↔ fSize s.fs.mem f' ≤ MAXFILESIZE ∧
            (Refused s id ∨ 0 ≤ off + n ∧ off + n ≤ MAXFILESIZE)) := by
        rintro m ⟨hm, hwi⟩
        rw [inRange_of_within (by omega) hwi, hm, hsz, max_le_iff]
        refine and_congr_right fun _ => ⟨fun h1 => .inr ⟨by omega, h1⟩, fun h1 => (h1.resolve_left hw.valid).2⟩
      rcases lt_or_ge off 0 with h0 | h0
      · exact (hw.sound.write_before hin2 h0 hlo (by omega) (by omega)).mono (fun _ g' hm => hlong _ hm)
          fun _ g' he => he.imp_right (hlong _)
      · have hreg2 : fType g.mem f' ≠ 1 := by
          rw [(hw.aside.sameFile hin).1.fType]
          exact hreg
        exact (hw.sound.write_at hin2 hreg2 h0 (by omega)).mono (fun _ g' hm => hlong _ hm)
          fun _ g' he => he.imp_right (hlong _)
  refine serve_leads (r := .write id n buf) (P := fun s' => InRange s'.fs.mem f ↔ _) (by simp)
    ((write_reach h hl id n buf).mono ?_ ?_) hs
  · rintro _ s1 ⟨f', s2, t, g, g', hw, r, hrun, -, hadv⟩
    obtain rfl : _ = s1 := (EStateM.Result.ok.inj hadv).2
    exact (hmain hw).of_ok hrun
  · rintro e s1 ((⟨-, rfl, hr⟩ | hp) | ⟨f', s2, t, g, g', hw, hrun, rfl⟩)
    · exact .inr (by simp [hr])
    · exact .inl hp
    · exact (hmain hw).of_error hrun

end

/-- A client opens "a" for writing. -/
def openWrite : List Act := [.req 4098 (.open (bytes [97]) O_RDWR)]

theorem openWrite_run : run openWrite (serverInit (boot twoFiles) someEnvs) =
    .ok () (after (run openWrite) (serverInit (boot twoFiles) someEnvs)) :=
  eq_ok_of_returns (by decide +kernel)

end Fs
end Jos
