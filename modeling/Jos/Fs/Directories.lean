/-
# Directories in a run

In a run whose requests fit, every directory keeps a size of whole blocks, so
the assertions of `dir_lookup` and `dir_alloc_file` hold, and the entries of
the directories are written by `file_create` and `file_remove` alone: every
other request leaves the names and types of all files as they are
(`dirs_of_run`). Directories are files to the server, though, and a client may
give one an odd size.

Key definitions: `Shrunk`.
Key theorems: `Op.Effect.shrunk`, `Acts.shrunk`, `dirs_of_run`, `dirSize_panic`.
-/
import Jos.Fs.WriteAhead

namespace Jos
namespace Fs

/-- Every file in the tree was there before, of the same type and under the
same name. -/
def Shrunk (m m' : Disk) : Prop :=
  ∀ a, InTree m' a → InTree m a ∧ fType m' a = fType m a ∧ (a ≠ root → nameOf m' a = nameOf m a)

section
variable {L : Layout} {own own' : ℕ → Use} {m m' m'' : Disk} {s s' : FsSt} {a : Ptr}

theorem Shrunk.refl (m : Disk) : Shrunk m m := fun _ h => ⟨h, rfl, fun _ => rfl⟩

theorem Shrunk.trans (h : Shrunk m m') (h' : Shrunk m' m'') : Shrunk m m'' := by
  intro a ha
  obtain ⟨h1, h2, h3⟩ := h' a ha
  obtain ⟨h4, h5, h6⟩ := h a h1
  exact ⟨h4, h2.trans h5, fun hr => (h3 hr).trans (h6 hr)⟩

theorem SameTree.shrunk (h : SameTree m m') : Shrunk m m' := by
  intro a ha
  have ha' := h.inTree.mp ha
  exact ⟨ha', h.type a ha', fun _ => h.name a ha'⟩

/-- A record that gets no blocks and no name. -/
theorem Edit.shrunk (h : Edit L own own' a s s') (hi : FInv L own s.mem) (ha : IsRec own a)
    (htype : fType s'.mem a = fType s.mem a) (hptr : ∀ k < 1034, ptr s'.mem a k ≠ 0 → ptr s'.mem a k = ptr s.mem a k)
    (hname : fName s'.mem a 0 ≠ 0 → fName s.mem a 0 ≠ 0 ∧ nameOf s'.mem a = nameOf s.mem a) :
    Shrunk s.mem s'.mem := by
  rintro g ⟨sp, hsp⟩
  have hg : InTree s.mem g := ⟨sp, h.node_old hi ha htype (fun hn => (hname hn).1) hptr hsp⟩
  have hg' := h.inv.isRec ⟨sp, hsp⟩
  by_cases he : g = a
  · subst he
    refine ⟨hg, htype, fun hr => (hname ?_).2⟩
    exact (h.inv.live ⟨sp, hsp⟩).resolve_left hr
  · have hs := h.sameFile hi ha (h.isRec_old hg') hg' he
    exact ⟨hg, hs.1.fType, fun _ => hs.nameOf⟩

theorem Resized.shrunk {n : ℤ} (hr : Resized own' a n s s') (h : Edit L own own' a s s') (hi : FInv L own s.mem)
    (ha : IsRec own a) : Shrunk s.mem s'.mem := by
  refine h.shrunk hi ha hr.type (fun k hk hp => ?_) fun hn => ⟨?_, cstr_congr hr.name⟩
  · rw [hr.ptr k hk] at hp ⊢
    split_ifs at hp ⊢ with hlt
    · rfl
    · exact absurd rfl hp
  · rwa [← hr.name 0 (by omega)]

/-! ### The calls -/

/-- The calls that leave the directories as they are. -/
def Op.Still (m : Disk) : Op → Prop
  | .create _ _ => False
  | .setSize f _ => fType m f ≠ FTYPE_DIR
  | .remove _ => False
  | _ => True

theorem Op.Effect.sameTree {op : Op} (he : op.Effect L own own' s s') (hi : FInv L own s.mem) (hf : op.Fits s.mem)
    (hst : op.Still s.mem) : SameTree s.mem s'.mem := by
  cases he with
  | grown hg => exact hg.sameTree
  | created => exact hst.elim
  | stretched => exact hst.elim
  | written hed hr hfi => exact (hr.sameTree hed hi hf.1.1 hf.2.1).trans hfi.sameTree
  | resized hed hr => exact hr.sameTree hed hi hf.1.1 hst
  | removed => exact hst.elim

/-- Every call but `file_create`. -/
theorem Op.Effect.shrunk {op : Op} (he : op.Effect L own own' s s') (hi : FInv L own s.mem) (hf : op.Fits s.mem)
    (hc : ∀ path type, op ≠ .create path type) : Shrunk s.mem s'.mem := by
  cases he with
  | grown hg => exact hg.sameTree.shrunk
  | created => exact absurd rfl (hc _ _)
  | stretched => exact absurd rfl (hc _ _)
  | written hed hr hfi => exact (hr.shrunk hed hi (hi.isRec hf.1.1)).trans hfi.sameTree.shrunk
  | resized hed hr => exact hr.shrunk hed hi (hi.isRec hf.1.1)
  | removed hw hg hed hr =>
    have hrec := hg.isRec (hi.isRec (PathTo.result hw hf.1))
    refine hg.sameTree.shrunk.trans (hed.shrunk hg.inv hrec hr.type ?_ ?_)
    · exact fun k _ hk => absurd (hr.ptr k) hk
    · exact fun hn => absurd hr.name hn

theorem Op.Done.effect {op : Op} (hd : op.Done s s') (hi : FInv L own s.mem) (hf : op.Fits s.mem) :
    ∃ own', op.Effect L own own' s s' := by
  obtain ⟨r, hx⟩ := hd
  exact effect_of_attempt hi hf.1 hf.2.1 (fun _ => hf.2.2) hx

end

/-- A handler that does not create. -/
theorem Acts.shrunk {C : Op → Prop} {s s' : FsSt} (h : Acts C s s') (hC : ∀ path type, ¬ C (.create path type)) :
    Shrunk s.mem s'.mem := by
  induction h with
  | refl => exact Shrunk.refl _
  | aside _ ha ih => exact ih.trans ha.sameTree.shrunk
  | clean _ hm ih =>
    rw [hm]
    exact ih
  | call _ ht hc hf hd ih =>
    obtain ⟨L, own, -, hi⟩ := ht
    obtain ⟨own', he⟩ := hd.effect hi hf
    refine ih.trans (he.shrunk hi hf ?_)
    rintro path type rfl
    exact hC path type hc

/-- A handler that neither creates, removes nor resizes a directory. -/
theorem Acts.sameTree {C : Op → Prop} {s s' : FsSt} (h : Acts C s s') (hC : ∀ op, C op → op.Still s.mem) :
    SameTree s.mem s'.mem := by
  induction h with
  | refl => exact .refl _
  | aside _ ha ih => exact ih.trans ha.sameTree
  | clean _ hm ih =>
    rw [hm]
    exact ih
  | @call g g' op _ ht hc hf hd ih =>
    obtain ⟨L, own, -, hi⟩ := ht
    obtain ⟨own', he⟩ := hd.effect hi hf
    refine ih.trans (he.sameTree hi hf ?_)
    have hst := hC op hc
    cases op with
    | setSize f size =>
      rw [Op.Still, ih.type f (ih.inTree.mp hf.1.1)]
      exact hst
    | create path type => exact hst.elim
    | remove path => exact hst.elim
    | «open» path => trivial
    | read f count off => trivial
    | write f buf count off => trivial

/-! ### Runs -/

/-- The requests that may call `file_create`. -/
def Req.Creates : Req → Prop
  | .open _ omode => hasFlag omode O_CREAT = true
  | _ => False

/-- The requests that leave the directories as they are. -/
def Req.Still (s : Srv) : Req → Prop
  | .open _ omode => hasFlag omode O_CREAT = false ∧ hasFlag omode O_TRUNC = false
  | .setSize id _ => ∀ f, (s.opentab (id % MAXOPEN)).file = some f → fType s.fs.mem f ≠ FTYPE_DIR
  | .remove _ => False
  | _ => True

section
variable {f : FsSt} {envs : ℕ → Env} {as : List Act} {s : Srv}

theorem Req.Calls.not_create {r : Req} (hr : ¬ r.Creates) (path : List UInt8) (type : ℕ) :
    ¬ r.Calls s (.create path type) := by
  intro hc
  cases r with
  | «open» p omode =>
    rcases hc with hc | ⟨hc, -⟩ | ⟨-, g, hc, -⟩
    · cases hc
    · exact hr hc
    · cases hc
  | setSize id size => obtain ⟨g, -, hc⟩ := hc; cases hc
  | read id n => obtain ⟨g, -, hc⟩ := hc; cases hc
  | write id n buf => obtain ⟨g, -, hc⟩ := hc; cases hc
  | remove p => exact absurd hc (by simp [Req.Calls])
  | stat id => exact hc
  | flush id => exact hc
  | sync => exact hc

theorem Req.Calls.still {r : Req} (hr : r.Still s) {op : Op} (hc : r.Calls s op) : op.Still s.fs.mem := by
  cases r with
  | «open» p omode =>
    rcases hc with rfl | ⟨hc, -⟩ | ⟨hc, -⟩
    · trivial
    · rw [hr.1] at hc
      cases hc
    · rw [hr.2] at hc
      cases hc
  | setSize id size =>
    obtain ⟨g, hg, rfl⟩ := hc
    exact hr g hg
  | read id n =>
    obtain ⟨g, -, rfl⟩ := hc
    trivial
  | write id n buf =>
    obtain ⟨g, -, rfl⟩ := hc
    trivial
  | remove p => exact hr.elim
  | stat id => exact hc.elim
  | flush id => exact hc.elim
  | sync => exact hc.elim

/-- After every run that fits, the tree is consistent and its directories have
sizes of whole blocks; the next request changes names and types of no file
unless it creates one, and leaves the directories as they are unless it
creates, removes or resizes a directory. No run fails an assertion on the size
of a directory. -/
theorem dirs_of_run (h : Ready f) (he : EnvsOk envs) (hok : AlongS (fun s a => a.Fits s) as (serverInit f envs)) :
    (∀ s, run as (serverInit f envs) = .ok () s → Consistent s.fs.mem ∧
      (∀ g, InTree s.fs.mem g → fType s.fs.mem g = FTYPE_DIR →
        0 ≤ fSize s.fs.mem g ∧ (BLKSIZE : ℤ) ∣ fSize s.fs.mem g) ∧
      ∀ envid r, (Act.req envid r).Fits s → ∀ rep s', step (.req envid r) s = .ok rep s' →
        (¬ r.Creates → Shrunk s.fs.mem s'.fs.mem) ∧ (r.Still s → SameTree s.fs.mem s'.fs.mem)) ∧
    ∀ s, run as (serverInit f envs) ≠ .error (.panic .dirSize) s := by
  have hrun := fit_of_fits h he hok
  constructor
  · intro s hs
    have hfit := hrun.of_ok hs
    obtain ⟨L, own, jown, -, hD, hi⟩ := hfit.fs
    refine ⟨hi.inv.consistent, fun g hg ht => ?_, fun envid r hr rep s' hstep => ?_⟩
    · have hrec := hi.inv.recOk g (hi.inv.isRec hg)
      exact ⟨hrec.size, hrec.dirSize hD ht⟩
    · rcases (step_req hfit hr.ok).of_ok hstep with rfl | ht
      · exact ⟨fun _ => Shrunk.refl _, fun _ => .refl _⟩
      · exact ⟨fun hc => ht.acts.shrunk (Req.Calls.not_create hc),
          fun hst => ht.acts.sameTree fun op hc => Req.Calls.still hst hc⟩
  · intro s hs
    obtain ⟨p, hp, -, hne⟩ := hrun.of_error hs
    exact hne (Fault.panic.inj hp).symm

end

theorem dirs_of_writeA : returns (run writeA) (serverInit (boot twoFiles) someEnvs) = true ∧
    (∀ s, run writeA (serverInit (boot twoFiles) someEnvs) = .ok () s → Consistent s.fs.mem ∧
      (∀ g, InTree s.fs.mem g → fType s.fs.mem g = FTYPE_DIR →
        0 ≤ fSize s.fs.mem g ∧ (BLKSIZE : ℤ) ∣ fSize s.fs.mem g) ∧
      ∀ envid r, (Act.req envid r).Fits s → ∀ rep s', step (.req envid r) s = .ok rep s' →
        (¬ r.Creates → Shrunk s.fs.mem s'.fs.mem) ∧ (r.Still s → SameTree s.fs.mem s'.fs.mem)) ∧
    ∀ s, run writeA (serverInit (boot twoFiles) someEnvs) ≠ .error (.panic .dirSize) s :=
  ⟨by decide +kernel, dirs_of_run twoFiles_ready someEnvs_ok writeA_fits⟩

/-- A client sets the size of the root directory to 100; the next lookup in it
fails an assertion. -/
theorem dirSize_panic : ∃ f envs as, Ready f ∧ EnvsOk envs ∧
    ∃ s, run as (serverInit f envs) = .error (.panic .dirSize) s :=
  ⟨boot twoFiles, someEnvs, [.req 4098 (.open (bytes [47]) O_RDWR), .req 4098 (.setSize 1024 100),
    .req 4098 (.open (bytes [97]) 0)], twoFiles_ready, someEnvs_ok, _, eq_error_of_throws (by decide +kernel)⟩

end Fs
end Jos
