/-
# The file server (fs/serv.c) and the transactions of its clients

The server's tables, the functions of `fs/jbd.c` that work on the transaction
of a client, the request handlers, and the actions of the clients between
requests: they may move the seek position in an `Fd` page they have mapped
(the page is shared writable), map the page into other envs, drop it, exit,
and be created. The server handles one request at a time, so a run of the
system is a list of these actions (`run`).

`envs` is the part of the kernel's env table the server reads: ids, which
slots are in use and `env_trans`.

Key definitions: `Srv`, `startTransaction`, `addHandleToTransaction`,
`commitTransaction`, `endTransaction`, `serve`, `step`, `run`.
-/
import Jos.Fs.Journal

namespace Jos
namespace Fs

open Function

abbrev MAXOPEN : ℕ := 1024
abbrev NENV : ℕ := 1024
abbrev PGSIZE : ℕ := 4096

abbrev O_WRONLY : ℕ := 0x0001
abbrev O_RDWR : ℕ := 0x0002
abbrev O_CREAT : ℕ := 0x0100
abbrev O_TRUNC : ℕ := 0x0200
abbrev O_EXCL : ℕ := 0x0400
abbrev O_MKDIR : ℕ := 0x0800

/-- The test `o_mode & (O_WRONLY | O_RDWR | O_CREAT | O_TRUNC)`. -/
def writeMode (mode : ℕ) : Bool := mode &&& (O_WRONLY ||| O_RDWR ||| O_CREAT ||| O_TRUNC) ≠ 0

def hasFlag (mode flag : ℕ) : Bool := mode &&& flag ≠ 0

/-! ### The state -/

structure OpenFile where
  fileid : ℕ
  /-- A null pointer until the entry is first opened. -/
  file : Option Ptr
  mode : ℕ
  fpath : ℕ → UInt8

/-- The `Fd` page of an entry of the open-file table: whether the server has
it mapped, the envs that have, once for each mapping, and `fd_offset`. -/
structure FdPage where
  mapped : Bool
  clients : List ℕ
  offset : ℤ

structure Env where
  id : ℕ
  /-- `env_status != ENV_FREE`. -/
  live : Bool
  trans : Option ℕ

structure Srv where
  fs : FsSt
  transReplayIp : Bool
  opentab : ℕ → OpenFile
  fds : ℕ → FdPage
  envs : ℕ → Env

abbrev SrvM := EStateM Fault Srv

namespace Srv

def setFd (s : Srv) (i : ℕ) (p : FdPage) : Srv := { s with fds := update s.fds i p }

def setOpen (s : Srv) (i : ℕ) (o : OpenFile) : Srv := { s with opentab := update s.opentab i o }

def setEnv (s : Srv) (e : ℕ) (v : Env) : Srv := { s with envs := update s.envs e v }

@[simp]
theorem setEnv_envs (s : Srv) (e : ℕ) (v : Env) : (s.setEnv e v).envs e = v := update_self ..

theorem setEnv_envs_ne (s : Srv) {e e' : ℕ} (v : Env) (h : e' ≠ e) : (s.setEnv e v).envs e' = s.envs e' :=
  update_of_ne h ..

end Srv

/-- A function of the file system, run in the server. -/
def liftFs {α : Type} (x : FsM α) : SrvM α := fun s =>
  match x s.fs with
  | .ok a f => .ok a { s with fs := f }
  | .error e f => .error e { s with fs := f }

def panicS {α : Type} (p : Panic) : SrvM α := throw (.panic p)

def failS {α : Type} (e : Err) : SrvM α := throw (.err e)

/-- `ENVX`. -/
def envx (envid : ℕ) : ℕ := envid % NENV

/-- `serve_init`: the table before any file is opened. -/
def opentab0 (i : ℕ) : OpenFile := ⟨i, none, if i = 0 then 1 else 0, fun _ => 0⟩

/-- The server once `fs_init` has returned in `s`, with the envs `envs`. -/
def serverInit (s : FsSt) (envs : ℕ → Env) : Srv :=
  ⟨s, false, opentab0, fun _ => ⟨false, [], 0⟩, envs⟩

/-! ### Transactions of clients (jbd.c) -/

/-- `sys_env_set_transaction`. The caller ignores the error for a stale id. -/
def sysEnvSetTransaction (envid : ℕ) (trans : Option ℕ) : SrvM Unit := modify fun s =>
  let e := s.envs (envx envid)
  if e.live ∧ e.id = envid then s.setEnv (envx envid) { e with trans := trans } else s

/-- The slot `start_transaction` takes: one past the last in use. -/
def nextTrans (m : Disk) : ℕ :=
  (List.range MAX_NTRANS).foldl (fun next i => if 0 < tEnvid m i then i + 1 else next) 0

/-- `start_transaction`. -/
def startTransaction (envid : ℕ) : SrvM Unit := do
  let s ← get
  if s.transReplayIp ∨ (s.envs (envx envid)).trans.isSome then pure ()
  else if MAX_NTRANS ≤ nextTrans s.fs.mem then panicS .noTransId
  else do
    sysEnvSetTransaction envid (some (nextTrans s.fs.mem))
    let s ← get
    match (s.envs (envx envid)).trans with
    | none => panicS .pageFault
    | some t => do
      liftFs (store32 jblk (tOff t + 4) envid)
      let s ← get
      if tNhandles s.fs.mem t = 0 ∧ tHandlei s.fs.mem t = 0 then pure () else panicS .transInUse

/-- How the search of `add_handle_to_transaction` for a write to merge into
ends: the bytes went there, a new handle is needed, or the function returns. -/
inductive Merge
  | merged | append | dropped
  deriving DecidableEq

/-- The search, from handle `k - 1` down. Below handle 0 the 32-bit counter
wraps, and `transaction_get_handle` refuses the number. -/
def mergeLoop (t : ℕ) (h : Block) : (k : ℕ) → FsM Merge
  | 0 => pure .dropped
  | k + 1 => do
    match ← attempt (transactionGetHandle t k false) with
    | .error _ => pure .dropped
    | .ok pdh => do
      touch pdh
      let s ← get
      let g := s.mem pdh
      if hOper g = JBD_WRITE ∧ strEq g 8 (hFilename h) then
        if hOff h < hOff g then panic .writeOrder
        else if (hOff h - hOff g).toNat + hDsize h ≤ HANDLE_DATASIZE then do
          store pdh (HANDLE_HDRSIZE + 8 + (hOff h - hOff g).toNat) (hDsize h) (hData h)
          store32 pdh (HANDLE_HDRSIZE + 4) (hDsize g + hDsize h)
          pure .merged
        else pure .append
      else mergeLoop t h k

/-- The rest of `add_handle_to_transaction`: one more handle. -/
def appendHandle (t : ℕ) (h : Block) : FsM Unit := do
  let s ← get
  let hno := tNhandles s.mem t
  store32 jblk (tOff t + 12) (hno + 1)
  match ← attempt (transactionGetHandle t hno true) with
  | .error e => panic (.addHandle e)
  | .ok pdh => do
    store pdh 0 BLKSIZE h
    let s ← get
    store32 pdh 0 (tId s.mem t)

/-- `add_handle_to_transaction` on the transaction `t`. -/
def addHandle (t : ℕ) (h : Block) : FsM Unit := do
  let s ← get
  if hOper h = JBD_WRITE ∧ 0 < tNhandles s.mem t then do
    match ← mergeLoop t h (tNhandles s.mem t) with
    | .append => appendHandle t h
    | _ => pure ()
  else appendHandle t h

/-- `add_handle_to_transaction`. -/
def addHandleToTransaction (envid : ℕ) (h : Block) : SrvM Unit := do
  let s ← get
  if s.transReplayIp then pure ()
  else match (s.envs (envx envid)).trans with
    | none => panicS .noTrans
    | some t => liftFs (addHandle t h)

/-- The handles of transaction `t`, as the cache has them. -/
def handlesOf (m : Disk) (t : ℕ) : List Block :=
  (List.range (tNhandles m t)).map fun k => m ((m (tHandlei m t)).le32 (4 * k))

/-- The first loop of `commit_transaction`: `false` if it returned early. -/
def commitLoop (t : ℕ) : (n handleno : ℕ) → FsM Bool
  | 0, _ => pure true
  | n + 1, handleno => do
    match ← attempt (transactionGetHandle t handleno false) with
    | .error _ => pure false
    | .ok pdh => do
      flushBlock pdh
      commitLoop t n (handleno + 1)

/-- `commit_transaction` on the transaction `t`. -/
def commit (t : ℕ) : FsM Unit := do
  let s ← get
  set (s.log (.commit t (handlesOf s.mem t)))
  if tNhandles s.mem t = 0 then
    if tHandlei s.mem t = 0 then pure () else panic .transInUse
  else do
    if ← commitLoop t (tNhandles s.mem t) 0 then do
      let va ← diskaddr (tHandlei s.mem t)
      flushBlock va
      store32 jblk (tOff t) 1
      flushSector jblk (tOff t)
    else pure ()

/-- `commit_transaction`; the handlers call it with `create_new` 0. -/
def commitTransaction (envid : ℕ) (createNew : Bool) : SrvM Unit := do
  let s ← get
  if s.transReplayIp then pure () else do
    if (s.envs (envx envid)).trans.isNone && createNew then startTransaction envid else pure ()
    let s ← get
    match (s.envs (envx envid)).trans with
    | none => panicS .noTrans
    | some t => liftFs (commit t)

/-- `end_transaction`. -/
def endTransaction (envid : ℕ) : SrvM Unit := do
  let s ← get
  if s.transReplayIp then pure ()
  else match (s.envs (envx envid)).trans with
    | none => panicS .noTrans
    | some t => do
      liftFs (modify fun s => s.log (.ending t s.mem s.dirty))
      liftFs (clearTransaction t)
      sysEnvSetTransaction envid none

/-! ### The open-file table -/

/-- `pageref(o->o_fd)`: it looks at the server's own mapping first. -/
def pageref (p : FdPage) : ℕ := if p.mapped then 1 + p.clients.length else 0

/-- `openfile_alloc`: the first entry no client has mapped. -/
def openfileAlloc : SrvM ℕ := do
  let s ← get
  match (List.range MAXOPEN).find? fun i => pageref (s.fds i) ≤ 1 with
  | none => failS .maxOpen
  | some i => do
    let o := s.opentab i
    set ((s.setOpen i { o with fileid := (o.fileid + MAXOPEN) % 2 ^ 32, fpath := fun _ => 0 }).setFd i
      { s.fds i with mapped := true, offset := 0 })
    pure i

/-- `openfile_lookup`: the entry's index. -/
def openfileLookup (envid fileid : ℕ) : SrvM ℕ := do
  let s ← get
  let i := fileid % MAXOPEN
  if pageref (s.fds i) = 1 ∨ (s.opentab i).fileid ≠ fileid then failS .inval
  else do
    if writeMode (s.opentab i).mode then startTransaction envid else pure ()
    pure i

/-! ### Requests -/

/-- The requests of `inc/fs.h`, with the fields the server reads from the
request page. -/
inductive Req
  | open (path : ℕ → UInt8) (omode : ℕ)
  | setSize (fileid : ℕ) (size : ℤ)
  | read (fileid n : ℕ)
  | write (fileid n : ℕ) (buf : ℕ → UInt8)
  | stat (fileid : ℕ)
  | flush (fileid : ℕ)
  | remove (path : ℕ → UInt8)
  | sync

/-- What a request returns: the value sent back, the bytes written to the
request page, and the entry whose `Fd` page is sent along. -/
structure Reply where
  value : ℤ
  data : List UInt8 := []
  page : Option ℕ := none

/-- `memmove(path, req->req_path, MAXPATHLEN); path[MAXPATHLEN-1] = 0`. -/
def copyPath (p : ℕ → UInt8) : ℕ → UInt8 := fun i => if i < MAXPATHLEN - 1 then p i else 0

/-- The C string in a path buffer. -/
def pathStr (p : ℕ → UInt8) : List UInt8 := cstr p MAXPATHLEN

/-- The part of `serve_open` that finds the file, with the handle it logs. -/
def openPath (envid : ℕ) (path : ℕ → UInt8) (omode : ℕ) : SrvM Ptr :=
  if hasFlag omode O_CREAT then do
    let filetype := if hasFlag omode O_MKDIR then FTYPE_DIR else FTYPE_REG
    startTransaction envid
    addHandleToTransaction envid (creatHandle path filetype)
    match ← liftFs (attempt (fileCreate (pathStr path) filetype)) with
    | .ok f => pure f
    | .error e =>
      if !hasFlag omode O_EXCL ∧ e = .fileExists then liftFs (fileOpen (pathStr path)) else failS e
  else do
    if hasFlag omode (O_WRONLY ||| O_RDWR ||| O_TRUNC) then startTransaction envid else pure ()
    liftFs (fileOpen (pathStr path))

/-- `serve_open`. -/
def serveOpen (envid : ℕ) (reqPath : ℕ → UInt8) (omode : ℕ) : SrvM Reply := do
  let path := copyPath reqPath
  let i ← openfileAlloc
  let f ← openPath envid path omode
  if hasFlag omode O_TRUNC then do
    addHandleToTransaction envid (truncHandle path 0)
    liftFs (fileSetSize f 0)
  else pure ()
  modify fun s => s.setOpen i ⟨(s.opentab i).fileid, some f, omode, path⟩
  pure { value := 0, page := some i }

/-- `o->o_file`, where the handler goes on to use it. -/
def theFile (o : OpenFile) : SrvM Ptr :=
  match o.file with
  | some f => pure f
  | none => panicS .pageFault

/-- `serve_set_size`. -/
def serveSetSize (envid fileid : ℕ) (size : ℤ) : SrvM Reply := do
  let i ← openfileLookup envid fileid
  let s ← get
  addHandleToTransaction envid (truncHandle (s.opentab i).fpath size)
  let f ← theFile (s.opentab i)
  liftFs (fileSetSize f size)
  pure { value := 0 }

/-- `o->o_fd->fd_offset`: the server may not have the page mapped. -/
def fdOffset (i : ℕ) : SrvM ℤ := do
  let s ← get
  if (s.fds i).mapped then pure (s.fds i).offset else panicS .pageFault

/-- `o->o_fd->fd_offset += r`. -/
def advance (i r : ℕ) : SrvM Unit := modify fun s =>
  s.setFd i { s.fds i with offset := toInt32 (ofInt32 ((s.fds i).offset + r)) }

/-- `serve_read`. -/
def serveRead (envid fileid n : ℕ) : SrvM Reply := do
  let i ← openfileLookup envid fileid
  let off ← fdOffset i
  let s ← get
  let f ← theFile (s.opentab i)
  let (r, bytes) ← liftFs (fileRead f (min n PGSIZE) off)
  advance i r
  pure { value := r, data := bytes }

/-- `serve_write`. -/
def serveWrite (envid fileid n : ℕ) (buf : ℕ → UInt8) : SrvM Reply := do
  let i ← openfileLookup envid fileid
  let s ← get
  let f ← theFile (s.opentab i)
  if HANDLE_DATASIZE < n then panicS (.writeSize n) else do
    let off ← fdOffset i
    addHandleToTransaction envid (writeHandle (s.opentab i).fpath off n buf)
    let r ← liftFs (fileWrite f buf n off)
    advance i r
    pure { value := r }

/-- `serve_stat`: name, size and whether it is a directory. -/
def serveStat (envid fileid : ℕ) : SrvM (Reply × ℤ × Bool) := do
  let i ← openfileLookup envid fileid
  let s ← get
  let f ← theFile (s.opentab i)
  pure ({ value := 0, data := cstr (fName s.fs.mem f) MAXNAMELEN }, fSize s.fs.mem f,
    decide (fType s.fs.mem f = FTYPE_DIR))

/-- `serve_flush`. -/
def serveFlush (envid fileid : ℕ) : SrvM Reply := do
  let i ← openfileLookup envid fileid
  let s ← get
  if pageref (s.fds i) < 2 then panicS .fdRef else do
    if writeMode (s.opentab i).mode then commitTransaction envid false else pure ()
    let f ← theFile (s.opentab i)
    liftFs (fileFlush f)
    if writeMode (s.opentab i).mode then endTransaction envid else pure ()
    pure { value := 0 }

/-- `serve_remove`. The transaction is ended whether or not the file was
removed. -/
def serveRemove (envid : ℕ) (reqPath : ℕ → UInt8) : SrvM Reply := do
  let path := copyPath reqPath
  startTransaction envid
  addHandleToTransaction envid (deletHandle path)
  commitTransaction envid false
  let r ← liftFs (attempt (fileRemove (pathStr path)))
  endTransaction envid
  match r with
  | .ok _ => pure { value := 0 }
  | .error e => failS e

/-- The request handlers. -/
def handle (envid : ℕ) : Req → SrvM Reply
  | .open path omode => serveOpen envid path omode
  | .setSize fileid size => serveSetSize envid fileid size
  | .read fileid n => serveRead envid fileid n
  | .write fileid n buf => serveWrite envid fileid n buf
  | .stat fileid => do
    let r ← serveStat envid fileid
    pure r.1
  | .flush fileid => serveFlush envid fileid
  | .remove path => serveRemove envid path
  | .sync => do
    liftFs fsSync
    pure { value := 0 }

/-- One turn of `serve`: the handler's code goes back to the client, with the
`Fd` page of a file it opened. -/
def serve (envid : ℕ) (r : Req) : SrvM Reply := fun s =>
  match handle envid r s with
  | .ok a s' =>
    match a.page with
    | some i => .ok a (s'.setFd i { s'.fds i with clients := envx envid :: (s'.fds i).clients })
    | none => .ok a s'
  | .error (.err e) s' => .ok { value := e.code } s'
  | .error (.panic p) s' => .error (.panic p) s'

/-! ### Runs -/

/-- What can happen between the server and its clients. -/
inductive Act
  /-- The live env `envid` sends a request and gets its reply. -/
  | req (envid : ℕ) (r : Req)
  /-- A client stores a seek position into the `Fd` page of entry `i`. -/
  | seek (i : ℕ) (off : ℤ)
  /-- The `Fd` page of entry `i` is mapped once more, in env slot `e` (`dup`, `fork`). -/
  | share (i e : ℕ)
  /-- Env slot `e` unmaps the `Fd` page of entry `i` once. -/
  | drop (i e : ℕ)
  /-- The env in slot `e` exits (`env_free`). -/
  | exit (e : ℕ)
  /-- An env is created in slot `e` (`env_alloc`). -/
  | alloc (e : ℕ)

/-- The id `env_alloc` gives the next env of a slot whose last id was `id`. -/
def nextEnvid (id e : ℕ) : ℕ :=
  let g := (id + 4096) / NENV * NENV % 2 ^ 32
  (if g = 0 ∨ 2 ^ 31 ≤ g then 4096 else g) + e

/-- One action. An action that is not possible in a state leaves it as it is. -/
def step : Act → SrvM Reply
  | .req envid r => do
    let s ← get
    if (s.envs (envx envid)).live ∧ (s.envs (envx envid)).id = envid then serve envid r
    else pure { value := 0 }
  | .seek i off => do
    modify fun s =>
      if (s.fds i).clients = [] then s
      else s.setFd i { s.fds i with offset := toInt32 (ofInt32 off) }
    pure { value := 0 }
  | .share i e => do
    modify fun s =>
      if (s.fds i).clients = [] ∨ !(s.envs e).live then s
      else s.setFd i { s.fds i with clients := e :: (s.fds i).clients }
    pure { value := 0 }
  | .drop i e => do
    modify fun s => s.setFd i { s.fds i with clients := (s.fds i).clients.erase e }
    pure { value := 0 }
  | .exit e => do
    modify fun s =>
      { s.setEnv e { s.envs e with live := false } with
        fds := fun i => { s.fds i with clients := (s.fds i).clients.filter (· ≠ e) } }
    pure { value := 0 }
  | .alloc e => do
    modify fun s =>
      if e < NENV ∧ !(s.envs e).live then s.setEnv e ⟨nextEnvid (s.envs e).id e, true, none⟩ else s
    pure { value := 0 }

/-- A run: the actions in order, up to a panic of the server. -/
def run : List Act → SrvM Unit
  | [] => pure ()
  | a :: as => do
    let _ ← step a
    run as

end Fs
end Jos
