/-
# The file server's block cache and free-block bitmap

`fs/bc.c` and the bitmap functions of `fs/fs.c`. The disk is an array of
blocks; the server sees it through its page cache, one page a block, loaded
by the first access to it (`bc_pgfault`) and written back by `flush_block` or,
one sector at a time, by `flush_sector`. A crash keeps the disk and discards
the cache.

`trace` is a history variable: no function reads it. It records every disk
image as it is written (a crash leaves the disk in one of them), every block
marked free, every call of `alloc_block` that found the disk full, every block
allocated for a transaction, every call of `commit_transaction` with the
handles it was called on and every call of `end_transaction` with the cache it
was called on.

The superblock and the bitmap are read through pointers set once at boot, and
their pages stay mapped from then on, so reading them is reading `mem`. I/O
errors and running out of physical pages are not modelled.

Key definitions: `FsSt`, `FsSt.mem`, `touch`, `store`, `flushBlock`,
`flushSector`, `blockIsFree`, `freeBlock`, `allocBlock`.
-/
import Jos.Base.Bytes
import Jos.Base.Run

namespace Jos
namespace Fs

open Function

/-! ### Constants of `inc/fs.h`, `fs/fs.h` and `inc/error.h` -/

abbrev BLKSIZE : ℕ := 4096
abbrev SECTSIZE : ℕ := 512
abbrev BLKBITSIZE : ℕ := BLKSIZE * 8
abbrev MAXNAMELEN : ℕ := 128
abbrev MAXPATHLEN : ℕ := 1024
abbrev NDIRECT : ℕ := 10
abbrev NINDIRECT : ℕ := BLKSIZE / 4
abbrev MAXFILESIZE : ℕ := (NDIRECT + NINDIRECT) * BLKSIZE
/-- `sizeof (struct File)`. -/
abbrev FILESIZE : ℕ := 256
abbrev BLKFILES : ℕ := BLKSIZE / FILESIZE
/-- `DISKSIZE / BLKSIZE`. -/
abbrev DISKBLOCKS : ℕ := 0xC0000000 / BLKSIZE

/-- The error codes the file server returns, negated, to its clients. -/
inductive Err
  | inval | noDisk | maxOpen | notFound | badPath | fileExists
  deriving DecidableEq, Repr

def Err.code : Err → ℤ
  | .inval => -3
  | .noDisk => -9
  | .maxOpen => -10
  | .notFound => -11
  | .badPath => -12
  | .fileExists => -13

/-- The panics and failed assertions of the file server, by function. -/
inductive Panic
  /-- `diskaddr`: bad block number. -/
  | badBlock (b : ℕ)
  /-- `bc_pgfault`: reading free block. -/
  | readFree (b : ℕ)
  /-- `bc_pgfault`: page fault outside the disk map (a null or unmapped pointer). -/
  | pageFault
  /-- `free_block`: attempt to free zero block. -/
  | freeZero
  /-- `occupy_block`: `block_is_free(blockno)`. -/
  | occupied
  /-- `check_super`, `check_bitmap`, `check_journal`. -/
  | badSuper | badBitmap | badJournal
  /-- `file_block_walk`: `!block_is_free(f->f_indirect)`. -/
  | indirectFree
  /-- `file_get_block`: `!block_is_free(*pdiskbno)`. -/
  | blockFree
  /-- `dir_lookup`, `dir_alloc_file`: `dir->f_size % BLKSIZE == 0`. -/
  | dirSize
  /-- `transaction_handle_walk`: `!block_is_free(t->t_handlei)`. -/
  | handleiFree
  /-- `transaction_get_handle`: `!block_is_free(*pdiskbno)`. -/
  | handleFree
  /-- `start_transaction`: failed to allocate journal Transaction id. -/
  | noTransId
  /-- `start_transaction`, `commit_transaction`: the slot still has handles. -/
  | transInUse
  /-- `add_handle_to_transaction`, `commit_transaction`, `end_transaction`: `t != NULL`. -/
  | noTrans
  /-- `add_handle_to_transaction`: `off2 >= off1`. -/
  | writeOrder
  /-- `add_handle_to_transaction`: `transaction_get_handle` failed. -/
  | addHandle (e : Err)
  /-- `serve_write`: cannot accommodate the bytes in a single handle. -/
  | writeSize (n : ℕ)
  /-- `serve_flush`: `fd_ref >= 2`. -/
  | fdRef
  deriving DecidableEq, Repr

/-- The panics that need neither a directory of odd size nor a full table of
transactions. -/
@[simp]
def Panic.Basic (p : Panic) : Prop := p ≠ .dirSize ∧ p ≠ .noTransId

/-- How a function of the server can end other than by returning 0: with an
error code, which its caller sees, or with a panic, which ends the server. -/
inductive Fault
  | err (e : Err)
  | panic (p : Panic)
  deriving DecidableEq, Repr

/-! ### The state -/

/-- A page of the cache: its bytes and `PTE_D`. -/
structure Page where
  data : Block
  dirty : Bool

abbrev Disk := ℕ → Block

inductive Event
  | write (d : Disk)
  | freed (b : ℕ)
  | full
  | taken (b : ℕ)
  | commit (t : ℕ) (hs : List Block)
  | ending (t : ℕ) (m : Disk) (dirty : ℕ → Bool)

structure FsSt where
  disk : Disk
  cache : ℕ → Option Page
  /-- Newest event first. -/
  trace : List Event

abbrev FsM := EStateM Fault FsSt

/-- The server at boot: nothing mapped. -/
def boot (d : Disk) : FsSt := ⟨d, fun _ => none, []⟩

namespace FsSt

/-- What the server reads: the cached page, else the disk. -/
def mem (s : FsSt) (b : ℕ) : Block :=
  match s.cache b with
  | some p => p.data
  | none => s.disk b

def dirty (s : FsSt) (b : ℕ) : Bool :=
  match s.cache b with
  | some p => p.dirty
  | none => false

def setPage (s : FsSt) (b : ℕ) (p : Page) : FsSt := { s with cache := update s.cache b (some p) }

def log (s : FsSt) (e : Event) : FsSt := { s with trace := e :: s.trace }

/-- `super->s_nblocks`. -/
def nblocks (s : FsSt) : ℕ := (s.mem 1).le32 4

end FsSt

/-- The bitmap starts in block 2 with one bit a block, set when the block is
free: the block that holds the word of block `b`, and the word's offset in it. -/
def bitBlk (b : ℕ) : ℕ := 2 + b / BLKBITSIZE

def bitOff (b : ℕ) : ℕ := 4 * (b / 32 % 1024)

/-- `bitmap[b / 32]`. -/
def bitWord (m : Disk) (b : ℕ) : ℕ := (m (bitBlk b)).le32 (bitOff b)

/-- The bit of block `b` in the bitmap of an image. -/
def bitSet (m : Disk) (b : ℕ) : Bool := (bitWord m b).testBit (b % 32)

/-- `block_is_free`. -/
def blockIsFree (s : FsSt) (b : ℕ) : Bool := decide (b < s.nblocks) && bitSet s.mem b

def panic {α : Type} (p : Panic) : FsM α := throw (.panic p)

def fail {α : Type} (e : Err) : FsM α := throw (.err e)

/-- A failing call as a value, for the callers that look at the code. -/
def attempt {α : Type} (x : FsM α) : FsM (Except Err α) := fun s =>
  match x s with
  | .ok a s' => .ok (.ok a) s'
  | .error (.err e) s' => .ok (.error e) s'
  | .error (.panic p) s' => .error (.panic p) s'

/-! ### bc.c -/

/-- `diskaddr`: the block number stands for its address. -/
def diskaddr (b : ℕ) : FsM ℕ := do
  let s ← get
  if b = 0 ∨ s.nblocks ≤ b then panic (.badBlock b) else pure b

/-- `bc_pgfault`, taken by the first access to a block. The page is read in
before the check that the block is in use. -/
def touch (b : ℕ) : FsM Unit := do
  let s ← get
  if (s.cache b).isSome then pure () else do
    let _ ← diskaddr b
    let s' := s.setPage b ⟨s.disk b, false⟩
    set s'
    if blockIsFree s' b then panic (.readFree b) else pure ()

/-- `n` bytes of `src` stored into block `b`. -/
def store (b off n : ℕ) (src : ℕ → UInt8) : FsM Unit := do
  touch b
  modify fun s => s.setPage b ⟨(s.mem b).write off n src, true⟩

def store32 (b off v : ℕ) : FsM Unit := store b off 4 (Block.bytes32 v)

/-- `memset(diskaddr(b), 0, BLKSIZE)`. -/
def clearBlock (b : ℕ) : FsM Unit := do
  let va ← diskaddr b
  store va 0 BLKSIZE fun _ => 0

/-- The disk with block `b` replaced. -/
def FsSt.putDisk (s : FsSt) (b : ℕ) (d : Block) : FsSt :=
  { s with disk := update s.disk b d, trace := .write (update s.disk b d) :: s.trace }

/-- `flush_block` of an address in block `b`. -/
def flushBlock (b : ℕ) : FsM Unit := do
  let s ← get
  match s.cache b with
  | none => pure ()
  | some p =>
    if p.dirty then do
      let _ ← diskaddr b
      set ((s.putDisk b p.data).setPage b ⟨p.data, false⟩)
    else pure ()

/-- `flush_sector` of an address in block `b` at offset `off`. The page stays
dirty. -/
def flushSector (b off : ℕ) : FsM Unit := do
  let s ← get
  match s.cache b with
  | none => pure ()
  | some p =>
    if p.dirty then
      let o := off / SECTSIZE * SECTSIZE
      set (s.putDisk b ((s.disk b).write o SECTSIZE fun i => p.data (o + i)))
    else pure ()

/-! ### The bitmap (fs.c) -/

/-- `free_block`. Only the first bitmap block is flushed. -/
def freeBlock (b : ℕ) : FsM Unit := do
  if b = 0 then panic .freeZero else do
    let s ← get
    store32 (bitBlk b) (bitOff b) (bitWord s.mem b ||| 1 <<< (b % 32))
    modify fun s => s.log (.freed b)
    flushBlock 2

/-- `occupy_block`. -/
def occupyBlock (b : ℕ) : FsM Unit := do
  let s ← get
  if blockIsFree s b then do
    store32 (bitBlk b) (bitOff b) (bitWord s.mem b ^^^ 1 <<< (b % 32))
    flushBlock 2
  else panic .occupied

/-- The search of `alloc_block`: the first free block among the `n` from `b` on. -/
def firstFree (s : FsSt) : (n b : ℕ) → Option ℕ
  | 0, _ => none
  | n + 1, b => if blockIsFree s b then some b else firstFree s n (b + 1)

/-- `alloc_block(1)`. -/
def allocBlock : FsM ℕ := do
  let s ← get
  match firstFree s (s.nblocks - 1) 1 with
  | some b => do
    occupyBlock b
    pure b
  | none => do
    modify fun s => s.log .full
    fail .noDisk

end Fs
end Jos
