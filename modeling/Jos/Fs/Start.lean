/-
# The server at its start

A file system in order has a consistent tree, directories of whole blocks, one
block of bitmap (the journal superblock comes right after it) and no
transaction in the journal. With no env in a transaction either, the server is
ready for requests.

Key definitions: `Ready`, `EnvsOk`.
Key theorems: `Ready.fit`, `ready_image`, `alongS_cons`.
-/
import Jos.Fs.Requests

namespace Jos
namespace Fs

open Block

/-- A file system no request has been served on yet: nothing waits to be
written, and there are no transactions. -/
structure Ready (f : FsSt) : Prop where
  consistent : Consistent f.mem
  dirs : ∀ g, InTree f.mem g → fType f.mem g = FTYPE_DIR → (BLKSIZE : ℤ) ∣ fSize f.mem g
  small : f.nblocks ≤ BLKBITSIZE
  same : f.mem = f.disk
  bitmap : f.dirty 2 = false
  blank : ∀ t < MAX_NTRANS, tActive f.mem t = 0 ∧ tEnvid f.mem t = 0 ∧ Quiet f.mem t
  trace : f.trace = []

/-- The env table when the server starts: no env has a transaction, and the
ids are those of `env_alloc`. -/
def EnvsOk (envs : ℕ → Env) : Prop := ∀ e, (envs e).trans = none ∧
  ((envs e).live = true → (envs e).id % NENV = e ∧ 0 < (envs e).id ∧ (envs e).id < 2 ^ 31)

section
variable {R : Rules} {f : FsSt} {envs : ℕ → Env}

/-- The layout of an image whose journal has no blocks but the superblock. -/
def startLayout (m : Disk) (h3 : 3 < (m 1).le32 4) (hs : (m 1).le32 4 ≤ 32768) : Layout :=
  ⟨(m 1).le32 4, fun b => b = 3, True, h3, fun b hb => by omega⟩

theorem Ready.fsInv (h : Ready f) :
    FsInv R (startLayout f.mem h.consistent.nblocks h.small) (ownOf f.mem) (fun _ => .none) none f := by
  have hinv := h.consistent.inv (L := startLayout f.mem h.consistent.nblocks h.small) rfl ?_ fun _ => h.dirs
  · refine ⟨hinv, ⟨h.small, rfl, rfl, fun b => by simp [startLayout]⟩, fun t ht => ?_, fun b _ => by rw [h.same], h.bitmap,
      ⟨rfl, by rw [← h.same]; rfl⟩, fun t ht _ => ⟨?_, ?_⟩, by simp, fun _ t ht _ => ?_, by simp, ?_⟩
    · have hq := (h.blank t ht).2.2
      rw [hq.2]
      exact ⟨fun h0 => absurd hq.1 h0, fun _ => rfl, by omega, fun k hk => by omega, fun h0 => absurd hq.1 h0⟩
    · exact (h.blank t ht).1
    · rw [← h.same]
      exact (h.blank t ht).1
    · rw [← h.same]
      exact (h.blank t ht).2.2
    · rw [h.trace]
      exact ⟨trivial, by simp, by simp⟩
  · rintro b rfl
    refine ⟨h.consistent.reserved 3 (.inl le_rfl), fun r hr hn => ?_⟩
    exact (h.consistent.owned.inUse r 3 hr hn).2.2 (.inl le_rfl)

theorem Ready.fit (h : Ready f) (he : EnvsOk envs) : Fit R f.nblocks none (serverInit f envs) := by
  refine ⟨⟨_, _, _, rfl, trivial, h.fsInv⟩, rfl, fun e t ht => ?_, fun e hl => ?_, fun _ _ => rfl⟩
  · have := (he e).1
    rw [show (serverInit f envs).envs e = envs e from rfl, this] at ht
    cases ht
  · exact (he e).2 (hl.resolve_right fun hc => hc (he e).1)

end

/-! ### Small starting states -/

theorem image_blank (nb free size blk : ℕ) (rest : ℕ → Block) (t o : ℕ) :
    (image nb free size blk rest 3).le32 (tOff t + o) = 0 := by
  refine (le32_put32_out (.inr ?_)).trans (le32_zero _)
  simp only [tOff, SECTSIZE]
  omega

/-- An image that passes the check is ready for requests. -/
theorem ready_image {nb free size blk : ℕ} {rest : ℕ → Block} {l : List Ptr}
    (h : fsck (image nb free size blk rest) l = true) (hnb : (image nb free size blk rest 1).le32 4 ≤ BLKBITSIZE)
    (hd : ∀ g ∈ l, fType (image nb free size blk rest) g = FTYPE_DIR →
      (BLKSIZE : ℤ) ∣ fSize (image nb free size blk rest) g) :
    Ready (boot (image nb free size blk rest)) := by
  obtain ⟨h1, h2⟩ := consistent_of_fsck h
  refine ⟨h1, fun g hg => hd g (h2 g hg), hnb, rfl, rfl, fun t _ => ?_, rfl⟩
  have hw := image_blank nb free size blk rest t
  exact ⟨hw 0, congrArg toInt32 (hw 4), hw 16, hw 12⟩

/-- The first env slots have live envs. -/
def someEnvs (e : ℕ) : Env := ⟨4096 + e, e < 10, none⟩

theorem someEnvs_ok : EnvsOk someEnvs := fun e => ⟨rfl, fun h => by
  have he : e < 10 := by simpa [someEnvs] using h
  simp only [someEnvs, NENV]
  omega⟩

/-- Two files "a" and "b" in the root directory, of one block each. -/
def twoFiles : Disk := image 16 0xFF80 4096 4 fun b =>
  if b = 4 then withFile (withFile Block.zero 0 [97] 0 10 5) 256 [98] 0 10 6 else Block.zero

theorem twoFiles_ready : Ready (boot twoFiles) :=
  ready_image (l := [root, ⟨4, 0⟩, ⟨4, 256⟩]) (by decide +kernel) (by decide +kernel) (by decide +kernel)

/-- A string as a request carries it. -/
def bytes (l : List UInt8) : ℕ → UInt8 := fun i => l.getD i 0

/-- A run of known actions, one at a time. -/
theorem alongS_cons {P : Srv → Act → Prop} {a : Act} {as : List Act} {s : Srv} (h : P s a)
    (hrest : AlongS P as (after (step a) s)) : AlongS P (a :: as) s := by
  refine ⟨h, fun r s' hs => ?_⟩
  rw [after, hs] at hrest
  exact hrest

end Fs
end Jos
