/-
# The journal (fs/jbd.c) and start-up

Block 3 is the journal superblock: after a first sector of its own, an array
of transaction records. A transaction's handles are blocks of their own,
listed in a handle indirect block (`t_handlei`). A `Transaction_t *` is the
record's index; a `Handle_t` is the bytes of its block.

The functions that start, extend, commit and end a transaction work on the
transaction of a client and are in `Jos.Fs.Server`.

Key definitions: `transactionGetHandle`, `transactionFreeHandle`,
`clearTransaction`, `handleReplay`, `transactionReplay`, `journalInit`, `fsInit`.
-/
import Jos.Fs.File

namespace Jos
namespace Fs

abbrev FS_MAGIC : ℕ := 0x4A0530AE
abbrev JBD_MAGIC : ℕ := 0x4A424421
/-- `(BLKSIZE - SECTSIZE) / sizeof (Transaction_t)`. -/
abbrev MAX_NTRANS : ℕ := (BLKSIZE - SECTSIZE) / 32
abbrev MAX_NHANDLES_INTRANS : ℕ := BLKSIZE / 4
/-- `sizeof (struct Handleheader)`. -/
abbrev HANDLE_HDRSIZE : ℕ := 4 + 4 + MAXPATHLEN
/-- The size of `p_data`. -/
abbrev HANDLE_DATASIZE : ℕ := BLKSIZE - HANDLE_HDRSIZE - 8

abbrev JBD_CREAT : ℕ := 1
abbrev JBD_WRITE : ℕ := 2
abbrev JBD_TRUNC : ℕ := 3
abbrev JBD_DELET : ℕ := 4

/-! ### `Transaction_t` -/

/-- The block of the journal superblock. -/
abbrev jblk : ℕ := 3

/-- The offset of record `t` in it. -/
def tOff (t : ℕ) : ℕ := SECTSIZE + 32 * t

def tActive (m : Disk) (t : ℕ) : ℕ := (m jblk).le32 (tOff t)

def tEnvid (m : Disk) (t : ℕ) : ℤ := toInt32 ((m jblk).le32 (tOff t + 4))

def tId (m : Disk) (t : ℕ) : ℕ := (m jblk).le32 (tOff t + 8)

def tNhandles (m : Disk) (t : ℕ) : ℕ := (m jblk).le32 (tOff t + 12)

def tHandlei (m : Disk) (t : ℕ) : ℕ := (m jblk).le32 (tOff t + 16)

/-! ### `Handle_t` -/

def hOper (h : Block) : ℕ := h.le32 4

/-- The string in `h_filename`. -/
def hFilename (h : Block) : List UInt8 := cstr (fun i => h (8 + i)) MAXPATHLEN

/-- `h_params.creat.p_filetype`. -/
def hFiletype (h : Block) : ℕ := h.le32 HANDLE_HDRSIZE

/-- `h_params.write.p_off`, and `h_params.trunc.p_off` at the same place. -/
def hOff (h : Block) : ℤ := toInt32 (h.le32 HANDLE_HDRSIZE)

def hDsize (h : Block) : ℕ := h.le32 (HANDLE_HDRSIZE + 4)

/-- `h_params.write.p_data`. -/
def hData (h : Block) : ℕ → UInt8 := fun i => h (HANDLE_HDRSIZE + 8 + i)

/-- A handle of operation `oper` on `path`, cleared but for its header. -/
def mkHandle (oper : ℕ) (path : ℕ → UInt8) : Block := (Block.zero.put32 4 oper).write 8 MAXPATHLEN path

def creatHandle (path : ℕ → UInt8) (filetype : ℕ) : Block :=
  (mkHandle JBD_CREAT path).put32 HANDLE_HDRSIZE filetype

def truncHandle (path : ℕ → UInt8) (off : ℤ) : Block :=
  (mkHandle JBD_TRUNC path).put32 HANDLE_HDRSIZE (ofInt32 off)

def deletHandle (path : ℕ → UInt8) : Block := mkHandle JBD_DELET path

def writeHandle (path : ℕ → UInt8) (off : ℤ) (count : ℕ) (buf : ℕ → UInt8) : Block :=
  (((mkHandle JBD_WRITE path).put32 HANDLE_HDRSIZE (ofInt32 off)).put32 (HANDLE_HDRSIZE + 4) count).write
    (HANDLE_HDRSIZE + 8) count buf

/-! ### The handles of a transaction -/

/-- `transaction_handle_walk`. -/
def transactionHandleWalk (t handleno : ℕ) (alloc : Bool) : FsM Ptr :=
  if MAX_NHANDLES_INTRANS ≤ handleno then fail .inval
  else do
    let s ← get
    if tHandlei s.mem t = 0 then
      if alloc then do
        let b ← allocBlock
        modify fun s => s.log (.taken b)
        clearBlock b
        store32 jblk (tOff t + 16) b
      else fail .notFound
    else if blockIsFree s (tHandlei s.mem t) then panic .handleiFree
    else pure ()
    let s ← get
    let va ← diskaddr (tHandlei s.mem t)
    pure ⟨va, 4 * handleno⟩

/-- `transaction_get_handle`: the handle's block. -/
def transactionGetHandle (t handleno : ℕ) (alloc : Bool) : FsM ℕ :=
  if MAX_NHANDLES_INTRANS ≤ handleno then fail .inval
  else do
    let p ← transactionHandleWalk t handleno alloc
    let b ← load32 p
    let s ← get
    if b = 0 then
      if alloc then do
        let b ← allocBlock
        modify fun s => s.log (.taken b)
        clearBlock b
        store32 p.blk p.off b
      else fail .notFound
    else if blockIsFree s b then panic .handleFree
    else pure ()
    let b ← load32 p
    diskaddr b

/-- `transaction_free_handle`. -/
def transactionFreeHandle (t handleno : ℕ) : FsM Unit := do
  let p ← transactionHandleWalk t handleno false
  let b ← load32 p
  if b = 0 then pure () else do
    freeBlock b
    store32 p.blk p.off 0

/-! ### Clearing a transaction -/

/-- The loop of `clear_transaction`. It reads `t_nhandles` in every turn;
`handleno` is 32 bits wide, which bounds the turns. -/
def clearLoop (t : ℕ) : (fuel handleno : ℕ) → FsM Unit
  | 0, _ => pure ()
  | n + 1, handleno => do
    let s ← get
    if handleno < tNhandles s.mem t then do
      let _ ← attempt (transactionFreeHandle t handleno)
      clearLoop t n (handleno + 1)
    else pure ()

/-- `clear_transaction`. -/
def clearTransaction (t : ℕ) : FsM Unit := do
  store32 jblk (tOff t) 0
  store32 jblk (tOff t + 4) 0
  flushSector jblk (tOff t)
  clearLoop t (2 ^ 32) 0
  let s ← get
  if tHandlei s.mem t = 0 then pure () else freeBlock (tHandlei s.mem t)
  store32 jblk (tOff t + 16) 0
  store32 jblk (tOff t + 12) 0
  flushSector jblk (tOff t)

/-! ### Replay -/

/-- `handle_replay` of the handle `h`. -/
def handleReplay (h : Block) : FsM Unit :=
  if hOper h = JBD_CREAT then do
    let f ← fileCreate (hFilename h) (hFiletype h)
    fileFlush f
  else do
    let f ← fileOpen (hFilename h)
    if hOper h = JBD_WRITE then do
      let _ ← fileWrite f (hData h) (hDsize h) (hOff h)
      fileFlush f
    else if hOper h = JBD_TRUNC then do
      fileSetSize f (hOff h)
      fileFlush f
    else if hOper h = JBD_DELET then fileRemove (hFilename h)
    else pure ()

/-- The loop of `transaction_replay`, which returns at the first handle that
cannot be had or fails. -/
def replayLoop (t : ℕ) : (fuel handleno : ℕ) → FsM Unit
  | 0, _ => pure ()
  | n + 1, handleno => do
    let s ← get
    if handleno < tNhandles s.mem t then do
      match ← attempt (transactionGetHandle t handleno false) with
      | .error _ => pure ()
      | .ok pdh => do
        touch pdh
        let s ← get
        match ← attempt (handleReplay (s.mem pdh)) with
        | .error _ => pure ()
        | .ok _ => replayLoop t n (handleno + 1)
    else pure ()

/-- `transaction_replay`. -/
def transactionReplay (t : ℕ) : FsM Unit := do
  let s ← get
  if tHandlei s.mem t = 0 then pure () else replayLoop t (2 ^ 32) 0

/-- The body of the loop of `journal_init`. -/
def auditTransaction (t : ℕ) : FsM Unit := do
  let s ← get
  if 0 < tActive s.mem t then transactionReplay t else pure ()
  clearTransaction t

def auditLoop : (n t : ℕ) → FsM Unit
  | 0, _ => pure ()
  | n + 1, t => do
    auditTransaction t
    auditLoop n (t + 1)

/-- `journal_init`. `trans_replay_ip`, which it sets meanwhile, is read only
by functions it does not call. -/
def journalInit : FsM Unit := auditLoop MAX_NTRANS 0

/-! ### Start-up -/

/-- `check_bc`: the superblock is smashed on disk, read back and restored. The
pointers `super` and `bitmap` are not set yet, so no block number is checked. -/
def checkBc : FsM Unit := modify fun s =>
  let d := s.mem 1
  let smashed := d.write 0 7 fun i => [79, 79, 80, 83, 33, 10].getD i 0
  let fixed := smashed.write 0 (8 + FILESIZE) d
  ((s.putDisk 1 smashed).putDisk 1 fixed).setPage 1 ⟨fixed, false⟩

/-- `check_super`. -/
def checkSuper : FsM Unit := do
  let s ← get
  if (s.mem 1).le32 0 = FS_MAGIC ∧ s.nblocks ≤ DISKBLOCKS then pure () else panic .badSuper

/-- `check_bitmap`. -/
def checkBitmap : FsM Unit := do
  let s ← get
  if ((List.range ((s.nblocks + BLKBITSIZE - 1) / BLKBITSIZE)).all fun i => !blockIsFree s (2 + i)) ∧
      !blockIsFree s 0 ∧ !blockIsFree s 1 ∧ !blockIsFree s 3 then pure ()
  else panic .badBitmap

/-- `check_journal`. -/
def checkJournal : FsM Unit := do
  let s ← get
  if (s.mem jblk).le32 0 = JBD_MAGIC ∧ (s.mem jblk).le32 4 ≤ MAX_NTRANS then pure () else panic .badJournal

/-- `fs_init`. The journal superblock, and through it the bitmap, are read
before the checks. -/
def fsInit : FsM Unit := do
  checkBc
  touch 2
  touch jblk
  checkSuper
  checkBitmap
  checkJournal
  journalInit

end Fs
end Jos
