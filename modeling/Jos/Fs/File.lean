/-
# Files and directories (fs/fs.c)

A `struct File *` or a `uint32_t *` into the cache is a block and an offset in
it (`Ptr`). A function that returns a negative code throws `Fault.err`, so
`if ((r = f()) < 0) return r` is a plain bind; the callers that look at the
code use `attempt`. `off_t` and `int` are integers that wrap at 32 bits,
`size_t` and `uint32_t` are naturals below `2 ^ 32`: where the source mixes
them, the comparison is made on the words, as in C.

The `crash` arguments only print and sleep in a build with `TEST_CRASH`; they
are left out.

Key definitions: `fileBlockWalk`, `fileGetBlock`, `dirLookup`, `dirAllocFile`,
`walkPath`, `fileCreate`, `fileRead`, `fileWrite`, `fileTruncateBlocks`,
`fileSetSize`, `fileFlush`, `fileRemove`.
-/
import Jos.Fs.Cache

namespace Jos
namespace Fs

/-- An address in the block cache. -/
structure Ptr where
  blk : ℕ
  off : ℕ
  deriving DecidableEq, Repr

abbrev FTYPE_REG : ℕ := 0
abbrev FTYPE_DIR : ℕ := 1

/-! ### `struct File` -/

/-- Byte `i` of `f_name`. -/
def fName (m : Disk) (f : Ptr) (i : ℕ) : UInt8 := m f.blk (f.off + i)

def fSize (m : Disk) (f : Ptr) : ℤ := toInt32 ((m f.blk).le32 (f.off + 128))

def fType (m : Disk) (f : Ptr) : ℕ := (m f.blk).le32 (f.off + 132)

def fDirect (m : Disk) (f : Ptr) (i : ℕ) : ℕ := (m f.blk).le32 (f.off + 136 + 4 * i)

def fIndirect (m : Disk) (f : Ptr) : ℕ := (m f.blk).le32 (f.off + 176)

/-- `&super->s_root`. -/
def root : Ptr := ⟨1, 8⟩

/-- `*p` for a `uint32_t *p`. -/
def load32 (p : Ptr) : FsM ℕ := do
  touch p.blk
  let s ← get
  pure ((s.mem p.blk).le32 p.off)

/-! ### Blocks of a file -/

/-- `file_block_walk`. -/
def fileBlockWalk (f : Ptr) (filebno : ℕ) (alloc : Bool) : FsM Ptr :=
  if NDIRECT + NINDIRECT ≤ filebno then fail .inval
  else if filebno < NDIRECT then pure ⟨f.blk, f.off + 136 + 4 * filebno⟩
  else do
    let s ← get
    if fIndirect s.mem f = 0 then
      if alloc then do
        let b ← allocBlock
        clearBlock b
        store32 f.blk (f.off + 176) b
      else fail .notFound
    else if blockIsFree s (fIndirect s.mem f) then panic .indirectFree
    else pure ()
    let s ← get
    let va ← diskaddr (fIndirect s.mem f)
    pure ⟨va, 4 * (filebno - NDIRECT)⟩

/-- `file_get_block`. -/
def fileGetBlock (f : Ptr) (filebno : ℕ) : FsM ℕ :=
  if NDIRECT + NINDIRECT ≤ filebno then fail .inval
  else do
    let p ← fileBlockWalk f filebno true
    let b ← load32 p
    let s ← get
    if b = 0 then do
      let b ← allocBlock
      clearBlock b
      store32 p.blk p.off b
    else if blockIsFree s b then panic .blockFree
    else pure ()
    let b ← load32 p
    diskaddr b

/-! ### Directories -/

/-- `strcmp(p, name) == 0` for the bytes at `off` of a block. -/
def strEq (d : Block) : ℕ → List UInt8 → Bool
  | off, [] => d off = 0
  | off, c :: cs => d off = c && strEq d (off + 1) cs

/-- The loop of `dir_lookup` and `dir_alloc_file`: the first entry, in the `n`
blocks of `dir` from block `i` on, of which `p` holds. -/
def dirScan (dir : Ptr) (p : Block → ℕ → Bool) : (n i : ℕ) → FsM (Option Ptr)
  | 0, _ => pure none
  | n + 1, i => do
    let blk ← fileGetBlock dir i
    touch blk
    let s ← get
    match (List.range BLKFILES).find? fun j => p (s.mem blk) (FILESIZE * j) with
    | some j => pure (some ⟨blk, FILESIZE * j⟩)
    | none => dirScan dir p n (i + 1)

/-- `nblock = dir->f_size / BLKSIZE`, after the assertion on the size. -/
def dirBlocks (dir : Ptr) : FsM ℕ := do
  let s ← get
  if (fSize s.mem dir).tmod BLKSIZE = 0 then pure (ofInt32 ((fSize s.mem dir).tdiv BLKSIZE))
  else panic .dirSize

/-- `dir_lookup`. -/
def dirLookup (dir : Ptr) (name : List UInt8) : FsM Ptr := do
  let nblock ← dirBlocks dir
  match ← dirScan dir (fun d o => strEq d o name) nblock 0 with
  | some f => pure f
  | none => fail .notFound

/-- `dir_alloc_file`. -/
def dirAllocFile (dir : Ptr) : FsM Ptr := do
  let nblock ← dirBlocks dir
  match ← dirScan dir (fun d o => d o = 0) nblock 0 with
  | some f => pure f
  | none => do
    let s ← get
    store32 dir.blk (dir.off + 128) (ofInt32 (fSize s.mem dir + BLKSIZE))
    let blk ← fileGetBlock dir nblock
    pure ⟨blk, 0⟩

/-! ### Paths -/

abbrev slash : UInt8 := 47

/-- The C string in an array of `n` bytes. -/
def cstr (a : ℕ → UInt8) : ℕ → List UInt8
  | 0 => []
  | n + 1 => if a 0 = 0 then [] else a 0 :: cstr (fun i => a (i + 1)) n

def skipSlash (path : List UInt8) : List UInt8 := path.dropWhile (· = slash)

/-- What `walk_path` returns, and through its pointers. -/
inductive Walk
  /-- 0, with `*pdir` and `*pf`. -/
  | found (dir : Option Ptr) (f : Ptr)
  /-- `-E_NOT_FOUND` with `*pdir` and `lastelem` set. -/
  | missing (dir : Ptr) (lastelem : List UInt8)
  deriving DecidableEq, Repr

/-- The loop of `walk_path`. An element takes at least one character, so the
length of the path is fuel enough. -/
def walkLoop : (fuel : ℕ) → (dir : Option Ptr) → (f : Ptr) → (path : List UInt8) → FsM Walk
  | 0, dir, f, _ => pure (.found dir f)
  | n + 1, dir, f, path =>
    if path = [] then pure (.found dir f)
    else
      let name := path.takeWhile (· ≠ slash)
      let rest := skipSlash (path.dropWhile (· ≠ slash))
      if MAXNAMELEN ≤ name.length then fail .badPath
      else do
        let s ← get
        if fType s.mem f ≠ FTYPE_DIR then fail .notFound
        else do
          match ← attempt (dirLookup f name) with
          | .ok g => walkLoop n (some f) g rest
          | .error .notFound => if rest = [] then pure (.missing f name) else fail .notFound
          | .error e => fail e

/-- `walk_path`. -/
def walkPath (path : List UInt8) : FsM Walk := walkLoop path.length none root (skipSlash path)

/-! ### File operations -/

/-- `file_open`. -/
def fileOpen (path : List UInt8) : FsM Ptr := do
  match ← walkPath path with
  | .found _ f => pure f
  | .missing _ _ => fail .notFound

/-- The loop of `file_flush` over the blocks from `i` on. -/
def flushLoop (f : Ptr) : (n i : ℕ) → FsM Unit
  | 0, _ => pure ()
  | n + 1, i => do
    match ← attempt (fileBlockWalk f i false) with
    | .ok p => do
      let b ← load32 p
      if b = 0 then pure () else do
        let va ← diskaddr b
        flushBlock va
    | .error _ => pure ()
    flushLoop f n (i + 1)

/-- `(size + BLKSIZE - 1) / BLKSIZE`, in `int` arithmetic. -/
def blocksOf (size : ℤ) : ℤ := (toInt32 (ofInt32 (size + BLKSIZE - 1))).tdiv BLKSIZE

/-- `file_flush`. -/
def fileFlush (f : Ptr) : FsM Unit := do
  let s ← get
  flushLoop f (blocksOf (fSize s.mem f)).toNat 0
  flushBlock f.blk
  if fIndirect s.mem f = 0 then pure () else do
    let va ← diskaddr (fIndirect s.mem f)
    flushBlock va

/-- `file_create`. A failure of `dir_alloc_file` is reported with the code of
`walk_path`. -/
def fileCreate (path : List UInt8) (filetype : ℕ) : FsM Ptr :=
  if filetype ≠ FTYPE_REG ∧ filetype ≠ FTYPE_DIR then fail .inval
  else do
    match ← walkPath path with
    | .found _ _ => fail .fileExists
    | .missing dir name => do
      match ← attempt (dirAllocFile dir) with
      | .error _ => fail .notFound
      | .ok f => do
        store f.blk f.off (name.length + 1) fun i => name.getD i 0
        store32 f.blk (f.off + 132) filetype
        fileFlush dir
        pure f

/-- `file_free_block`. -/
def fileFreeBlock (f : Ptr) (filebno : ℕ) : FsM Unit := do
  let p ← fileBlockWalk f filebno false
  let b ← load32 p
  if b = 0 then pure () else do
    freeBlock b
    store32 p.blk p.off 0

/-- The loop of `file_truncate_blocks`; a failing `file_free_block` only prints. -/
def truncLoop (f : Ptr) : (n bno : ℕ) → FsM Unit
  | 0, _ => pure ()
  | n + 1, bno => do
    let _ ← attempt (fileFreeBlock f bno)
    truncLoop f n (bno + 1)

/-- `file_truncate_blocks`. -/
def fileTruncateBlocks (f : Ptr) (newsize : ℤ) : FsM Unit := do
  let s ← get
  let old := ofInt32 (blocksOf (fSize s.mem f))
  let new := ofInt32 (blocksOf newsize)
  truncLoop f (old - new) new
  let s ← get
  if new ≤ NDIRECT ∧ fIndirect s.mem f ≠ 0 then do
    freeBlock (fIndirect s.mem f)
    store32 f.blk (f.off + 176) 0
  else pure ()

/-- `file_set_size`. -/
def fileSetSize (f : Ptr) (newsize : ℤ) : FsM Unit := do
  let s ← get
  if newsize < fSize s.mem f then fileTruncateBlocks f newsize else pure ()
  store32 f.blk (f.off + 128) (ofInt32 newsize)
  flushBlock f.blk

/-- `blk + z`, which for a negative `z` lies in the block before. -/
def blkAt (blk : ℕ) (z : ℤ) : Ptr := if z < 0 then ⟨blk - 1, (BLKSIZE + z).toNat⟩ else ⟨blk, z.toNat⟩

/-- One turn of the loops of `file_read` and `file_write` at `pos`, where the
last byte is before `fin`: the block it is in, and how many bytes go there. -/
def chunk (fin : ℕ) (pos : ℤ) : ℕ × ℕ :=
  (ofInt32 (pos.tdiv BLKSIZE),
    min (ofInt32 (BLKSIZE - pos.tmod BLKSIZE)) (ofInt32 (fin - pos)))

/-- The loop of `file_read`. It ends after at most as many turns as there are
bytes. -/
def readLoop (f : Ptr) (fin : ℕ) : (fuel : ℕ) → (pos : ℤ) → FsM (List UInt8)
  | 0, _ => pure []
  | n + 1, pos =>
    if ofInt32 pos < fin then do
      let blk ← fileGetBlock f (chunk fin pos).1
      let p := blkAt blk (pos.tmod BLKSIZE)
      touch p.blk
      let s ← get
      let bn := (chunk fin pos).2
      let rest ← readLoop f fin n (toInt32 (ofInt32 (pos + bn)))
      pure ((List.range bn).map (fun i => s.mem p.blk (p.off + i)) ++ rest)
    else pure []

/-- `file_read`: the count returned and the bytes moved to the buffer. -/
def fileRead (f : Ptr) (count : ℕ) (offset : ℤ) : FsM (ℕ × List UInt8) := do
  let s ← get
  if fSize s.mem f ≤ offset then pure (0, []) else do
    let count := min count (ofInt32 (fSize s.mem f - offset))
    let bytes ← readLoop f (ofInt32 (offset + count)) count offset
    pure (count, bytes)

/-- The loop of `file_write`, with `buf` from its byte `i` on. -/
def writeLoop (f : Ptr) (buf : ℕ → UInt8) (fin : ℕ) : (fuel : ℕ) → (pos : ℤ) → (i : ℕ) → FsM Unit
  | 0, _, _ => pure ()
  | n + 1, pos, i =>
    if ofInt32 pos < fin then do
      let blk ← fileGetBlock f (chunk fin pos).1
      let p := blkAt blk (pos.tmod BLKSIZE)
      let bn := (chunk fin pos).2
      store p.blk p.off bn fun k => buf (i + k)
      writeLoop f buf fin n (toInt32 (ofInt32 (pos + bn))) (i + bn)
    else pure ()

/-- `file_write`. -/
def fileWrite (f : Ptr) (buf : ℕ → UInt8) (count : ℕ) (offset : ℤ) : FsM ℕ := do
  let s ← get
  let fin := ofInt32 (offset + count)
  if ofInt32 (fSize s.mem f) < fin then fileSetSize f (toInt32 fin) else pure ()
  writeLoop f buf fin count offset 0
  pure count

/-- `file_remove`. -/
def fileRemove (path : List UInt8) : FsM Unit := do
  let f ← fileOpen path
  fileTruncateBlocks f 0
  store f.blk f.off 1 fun _ => 0
  store32 f.blk (f.off + 128) 0
  flushBlock f.blk

/-- The loop of `fs_sync`. -/
def syncLoop : (n i : ℕ) → FsM Unit
  | 0, _ => pure ()
  | n + 1, i => do
    let va ← diskaddr i
    flushBlock va
    syncLoop n (i + 1)

/-- `fs_sync`. -/
def fsSync : FsM Unit := do
  let s ← get
  syncLoop (s.nblocks - 1) 1

end Fs
end Jos
