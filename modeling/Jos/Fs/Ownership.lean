/-
# Sequences of file operations

The functions of `fs/fs.c` called one after the other, each from the state the
last one left, whether it returned or failed; a panic ends the sequence.

No operation but one breaks the ownership of blocks (`owned_of_run`): writing
to a directory stores whatever bytes the caller has over the `File` records in
it, pointers included (`dir_write_breaks_ownership`).

Key definitions: `Op`, `runOps`, `Along`.
Key theorems: `moved_of_op`, `owned_of_run`.
-/
import Jos.Fs.Entries
import Jos.Fs.Fsck

namespace Jos
namespace Fs

/-- A call of a function of the file system. -/
inductive Op
  | create (path : List UInt8) (type : ℕ)
  | open (path : List UInt8)
  | read (f : Ptr) (count : ℕ) (off : ℤ)
  | write (f : Ptr) (buf : ℕ → UInt8) (count : ℕ) (off : ℤ)
  | setSize (f : Ptr) (size : ℤ)
  | remove (path : List UInt8)

def Op.call : Op → FsM Unit
  | .create path type => do let _ ← fileCreate path type
  | .open path => do let _ ← fileOpen path
  | .read f count off => do let _ ← fileRead f count off
  | .write f buf count off => do let _ ← fileWrite f buf count off
  | .setSize f size => fileSetSize f size
  | .remove path => fileRemove path

/-- The calls in order. What a call returns, an error or not, is not looked
at. -/
def runOps : List Op → FsM Unit
  | [] => pure ()
  | op :: ops => do
    let _ ← attempt op.call
    runOps ops

/-- `P` holds of every call in the state it is made in. -/
def Along (P : Disk → Op → Prop) : List Op → FsSt → Prop
  | [], _ => True
  | op :: ops, s => P s.mem op ∧ ∀ r s', attempt op.call s = .ok r s' → Along P ops s'

/-- The arguments a caller may pass: C strings, files in the tree, sizes and
offsets that are not negative. -/
def Op.Legal (m : Disk) : Op → Prop
  | .create path _ => 0 ∉ path
  | .open path => 0 ∉ path
  | .read f _ off => InTree m f ∧ 0 ≤ off
  | .write f _ count off => InTree m f ∧ 0 ≤ off ∧ off + count < 2 ^ 31
  | .setSize f size => InTree m f ∧ 0 ≤ size ∧ size < 2 ^ 31
  | .remove path => 0 ∉ path

/-- No directory is written to. -/
def Op.SparesDirs (m : Disk) : Op → Prop
  | .write f _ _ _ => fType m f ≠ FTYPE_DIR
  | _ => True

/-- The change a call makes, returning or failing. -/
inductive Op.Effect (L : Layout) (own own' : ℕ → Use) (s s' : FsSt) : Op → Prop
  | grown {op : Op} (hg : Grown L own own' s s') : Effect L own own' s s' op
  | created {path : List UInt8} {type k : ℕ} {dir : Ptr} {name : List UInt8} {s1 : FsSt}
      (hw : PathTo s.mem path (.ok (.missing dir name))) (hs : Slot L own own' dir k s s1)
      (hed : Edit L own' own' (entryAt s1.mem dir k) s1 s') (hc : Created own' (entryAt s1.mem dir k) name type s1 s') :
      Effect L own own' s s' (.create path type)
  | stretched {path : List UInt8} {type : ℕ} {dir : Ptr} {name : List UInt8} {n : ℤ}
      (hw : PathTo s.mem path (.ok (.missing dir name))) (hst : Stretched L own own' dir n s s') :
      Effect L own own' s s' (.create path type)
  | written {f : Ptr} {buf : ℕ → UInt8} {count : ℕ} {off n : ℤ} {own1 : ℕ → Use} {s1 : FsSt}
      (hed : Edit L own own1 f s s1) (hr : Resized own1 f n s s1) (hf : Filled L own1 own' f s1 s') :
      Effect L own own' s s' (.write f buf count off)
  | resized {f : Ptr} {size : ℤ} (hed : Edit L own own' f s s') (hr : Resized own' f size s s') :
      Effect L own own' s s' (.setSize f size)
  | removed {path : List UInt8} {dir : Option Ptr} {f : Ptr} {own1 : ℕ → Use} {s1 : FsSt}
      (hw : PathTo s.mem path (.ok (.found dir f))) (hg : Grown L own own1 s s1) (hed : Edit L own1 own' f s1 s')
      (hr : Removed own' f s1 s') : Effect L own own' s s' (.remove path)

section
variable {L : Layout} {own own' : ℕ → Use} {s s' : FsSt} {op : Op}

theorem Op.Effect.moved (h : op.Effect L own own' s s') : Moved L own own' s s' := by
  cases h with
  | grown hg => exact hg.moved
  | created _ hs hed _ => exact hs.stretched.moved.trans hed.moved
  | stretched _ hst => exact hst.moved
  | written hed _ hf => exact hed.moved.trans hf.moved
  | resized hed _ => exact hed.moved
  | removed _ hg hed _ => exact hg.moved.trans hed.moved

theorem Fails.effect {D : Prop} {P : Err → FsSt → Prop} {e : Fault} (h : Fails L own s D P e s') (hD : L.D → D) :
    Panics L s e s' ∨ ∃ er own', e = .err er ∧ op.Effect L own own' s s' := by
  cases e with
  | err er =>
    obtain ⟨own', hg, -⟩ := h
    exact .inr ⟨er, own', rfl, .grown hg⟩
  | panic p => exact .inl ⟨p, rfl, h.1, fun hd => h.2 (hD hd)⟩

theorem CreateErr.effect {path : List UInt8} {type : ℕ} {er : Err} (h : FInv L own s.mem)
    (hc : CreateErr L own path type s s' er) : ∃ own', (Op.create path type).Effect L own own' s s' := by
  cases hc with
  | type _ h2 =>
    subst h2
    exact ⟨own, .grown (.refl h)⟩
  | full own' hg _ => exact ⟨own', .grown hg⟩
  | walk _ own' hg _ => exact ⟨own', .grown hg⟩
  | exist own' hg _ _ _ => exact ⟨own', .grown hg⟩
  | alloc dir name hw er' hs =>
    obtain ⟨n, own', hst, -⟩ := hs
    exact ⟨own', .stretched hw hst⟩

/-- What every call does, returning or failing. -/
theorem effect_of_op (h : FInv L own s.mem) (hop : op.Legal s.mem) (hdir : op.SparesDirs s.mem)
    (hD : L.D → ∀ f size, op = .setSize f size → fType s.mem f = 1 → (4096 : ℤ) ∣ size) :
    Run op.call s (fun _ s' => ∃ own', op.Effect L own own' s s')
      (fun e s' => Panics L s e s' ∨ ∃ er own', e = .err er ∧ op.Effect L own own' s s') := by
  cases op with
  | create path type =>
    refine .bind ((fileCreate_run h hop type).mono ?_ ?_) fun _ _ h => .pure h
    · rintro f s' ⟨dir, name, k, own', s1, hw, hs, rfl, hed, hc⟩
      exact ⟨own', .created hw hs hed hc⟩
    · rintro e s' (he | ⟨er, rfl, he⟩)
      · exact .inl he
      · obtain ⟨own', hm⟩ := he.effect h
        exact .inr ⟨er, own', rfl, hm⟩
  | «open» path =>
    refine .bind ((fileOpen_run h hop).mono ?_ fun e s' he => he.effect id) fun _ _ h => .pure h
    rintro f s' ⟨own', hg, -⟩
    exact ⟨own', .grown hg⟩
  | read f count off =>
    obtain ⟨hf, hoff⟩ := hop
    obtain ⟨off, rfl⟩ := Int.eq_ofNat_of_zero_le hoff
    refine .bind ((fileRead_run h (h.isRec hf) (h.live hf) count off).mono ?_
      fun e s' he => he.effect fun _ => trivial) fun _ _ h => .pure h
    rintro _ s' ⟨own', hg⟩
    exact ⟨own', .grown hg⟩
  | write f buf count off =>
    obtain ⟨hf, hoff, hlt⟩ := hop
    obtain ⟨off, rfl⟩ := Int.eq_ofNat_of_zero_le hoff
    refine .bind ((fileWrite_run h hf hdir buf (by omega)).mono ?_ ?_) fun _ _ h => .pure h
    · rintro _ s' ⟨-, own1, s1, own', hed, hr, hfi, -⟩
      exact ⟨own', .written hed hr hfi⟩
    · rintro _ s' ⟨⟨er, rfl⟩, own1, s1, own', hed, hr, hfi⟩
      exact .inr ⟨er, own', rfl, .written hed hr hfi⟩
  | setSize f size =>
    obtain ⟨hf, h0, hlt⟩ := hop
    refine (fileSetSize_run h (h.isRec hf) (h.not_self hf) (h.live hf) h0 hlt
      fun hd ht => hD hd f size rfl ht).post ?_
    rintro _ s' ⟨own', hed, hr⟩
    exact ⟨own', .resized hed hr⟩
  | remove path =>
    refine (fileRemove_run h hop).mono ?_ fun e s' he => he.effect id
    rintro _ s' ⟨dir, f, own1, s1, own', hw, hg, hed, hr⟩
    exact ⟨own', .removed hw hg hed hr⟩

theorem effect_of_attempt {r : Except Err Unit} (h : FInv L own s.mem) (hop : op.Legal s.mem)
    (hdir : op.SparesDirs s.mem)
    (hD : L.D → ∀ f size, op = .setSize f size → fType s.mem f = 1 → (4096 : ℤ) ∣ size)
    (hx : attempt op.call s = .ok r s') : ∃ own', op.Effect L own own' s s' := by
  rcases (attempt_run (effect_of_op h hop hdir hD)).of_ok hx with ⟨_, -, h1⟩ | ⟨e, -, ⟨p, hp, -⟩ | ⟨_, own', -, h1⟩⟩
  · exact h1
  · cases hp
  · exact ⟨own', h1⟩

/-- Every call keeps the invariant, returning or failing. -/
theorem moved_of_op (h : FInv L own s.mem) (hop : op.Legal s.mem) (hdir : op.SparesDirs s.mem)
    (hD : L.D → ∀ f size, op = .setSize f size → fType s.mem f = 1 → (4096 : ℤ) ∣ size) :
    Run op.call s (fun _ s' => ∃ own', Moved L own own' s s')
      (fun e s' => Panics L s e s' ∨ ∃ er own', e = .err er ∧ Moved L own own' s s') := by
  refine (effect_of_op h hop hdir hD).mono ?_ ?_
  · rintro _ s' ⟨own', he⟩
    exact ⟨own', he.moved⟩
  · rintro e s' (hp | ⟨er, own', he, hm⟩)
    · exact .inl hp
    · exact .inr ⟨er, own', he, hm.moved⟩

/-- The layout of an image whose directories may have any size. -/
def looseLayout (m : Disk) (h : 3 < (m 1).le32 4) : Layout :=
  ⟨(m 1).le32 4, fun _ => False, False, h, fun _ hj => hj.elim⟩

theorem Along.and {P Q : Disk → Op → Prop} : ∀ {ops : List Op} {s : FsSt}, Along P ops s → Along Q ops s →
    Along (fun m op => P m op ∧ Q m op) ops s
  | [], _, _, _ => trivial
  | _ :: _, _, hp, hq => ⟨⟨hp.1, hq.1⟩, fun r s' hx => (hp.2 r s' hx).and (hq.2 r s' hx)⟩

/-- What every call of a run preserves, the run preserves. -/
theorem runOps_preserves {P : FsSt → Prop} {C : Disk → Op → Prop}
    (hstep : ∀ {op s r s'}, P s → C s.mem op → attempt op.call s = .ok r s' → P s') :
    ∀ {ops : List Op} {s s' : FsSt}, P s → Along C ops s → runOps ops s = .ok () s' → P s'
  | [], s, s', h, _, hrun => by
    obtain rfl : s = s' := by
      injection hrun
    exact h
  | op :: ops, s, s', h, hc, hrun => by
    cases hx : attempt op.call s with
    | error e s1 =>
      simp only [runOps, bind, EStateM.bind, hx] at hrun
      cases hrun
    | ok r s1 =>
      simp only [runOps, bind, EStateM.bind, hx] at hrun
      exact runOps_preserves hstep (hstep h hc.1 hx) (hc.2 r s1 hx) hrun

theorem inv_of_run (hD : ¬ L.D) {ops : List Op} (h : FInv L own s.mem) (hl : Along Op.Legal ops s)
    (hd : Along Op.SparesDirs ops s) (hrun : runOps ops s = .ok () s') : ∃ own', FInv L own' s'.mem := by
  refine runOps_preserves (P := fun s => ∃ own, FInv L own s.mem) ?_ ⟨own, h⟩ (hl.and hd) hrun
  rintro op s r s' ⟨own, h⟩ ⟨hop, hdir⟩ hx
  obtain ⟨own', he⟩ := effect_of_attempt h hop hdir (fun hc => absurd hc hD) hx
  exact ⟨own', he.moved.inv⟩

/-- After any calls that write to no directory, every block in the tree is
owned once. -/
theorem owned_of_run {ops : List Op} {s s' : FsSt} (h : Consistent s.mem) (hl : Along Op.Legal ops s)
    (hd : Along Op.SparesDirs ops s) (hrun : runOps ops s = .ok () s') : Owned s'.mem := by
  have hinv : FInv (looseLayout s.mem h.nblocks) (ownOf s.mem) s.mem :=
    h.inv rfl (fun b hb => hb.elim) fun hc => hc.elim
  obtain ⟨own', h'⟩ := inv_of_run id hinv hl hd hrun
  exact h'.owned

end

/-- An image with an empty root directory. -/
def emptyRoot : FsSt := boot (image 16 0xFFF0 0 0 fun _ => Block.zero)

theorem emptyRoot_consistent : Consistent emptyRoot.mem :=
  (consistent_of_fsck (l := [root]) (by decide +kernel)).1

theorem emptyRoot_create : ∃ s', runOps [.create [97] 0] emptyRoot = .ok () s' ∧
    Along Op.Legal [.create [97] 0] emptyRoot :=
  ⟨_, eq_ok_of_returns (by decide +kernel), by simp [Op.Legal], fun _ _ _ => trivial⟩

theorem owned_after_create : ∃ s', runOps [.create [97] 0] emptyRoot = .ok () s' ∧ Owned s'.mem := by
  obtain ⟨s', hrun, hlegal⟩ := emptyRoot_create
  have hdirs : Along Op.SparesDirs [.create [97] 0] emptyRoot := ⟨trivial, fun _ _ _ => trivial⟩
  exact ⟨_, hrun, owned_of_run emptyRoot_consistent hlegal hdirs hrun⟩

/-- 256 bytes written to the root directory are a file "x" in it, whose first
block is the journal superblock. -/
theorem dir_write_breaks_ownership : ∃ (ops : List Op) (s s' : FsSt), Consistent s.mem ∧ Along Op.Legal ops s ∧
    runOps ops s = .ok () s' ∧ ¬ Owned s'.mem := by
  let ops : List Op := [.write root (withFile Block.zero 0 [120] 0 4096 3) 256 0]
  have hrun : runOps ops emptyRoot = .ok () (after (runOps ops) emptyRoot) := eq_ok_of_returns (by decide +kernel)
  refine ⟨ops, emptyRoot, _, emptyRoot_consistent, ⟨⟨inTree_root _, by decide, by decide⟩, fun _ _ _ => trivial⟩,
    hrun, fun h => ?_⟩
  have htree : InTree (after (runOps ops) emptyRoot).mem ⟨4, 0⟩ := ⟨[0], by decide +kernel⟩
  have hname : Names (after (runOps ops) emptyRoot).mem (.block ⟨4, 0⟩ 0) 3 :=
    ⟨by decide, by decide +kernel, by decide⟩
  exact (h.inUse (.block ⟨4, 0⟩ 0) 3 htree hname).2.2 (.inl le_rfl)

end Fs
end Jos
