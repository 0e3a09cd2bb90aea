/-
# Envs, traps and system calls (`kern/env.c`, `kern/trap.c`, `kern/syscall.c`)

The envs, their page directories and saved trap frames, and the system calls.
An env that is runnable resumes from its saved frame and traps with a frame
that it can get to; the trap saves the frame and dispatches. Any runnable env
may be the next, so a run is any interleaving the scheduler can choose.

Not here: what programs write into their pages, the console, the network card,
and the monitor.

Key definitions: `envAlloc`, `envFree`, `syscall`, `Trap`, `trap`, `KAct`, `kstep`,
`krun`, `boot`.
-/
import Jos.Kern.Pmap

namespace Jos
namespace Kern

open Fs (NENV PGSIZE envx nextEnvid)

abbrev GD_UT : ℕ := 0x18
abbrev GD_UD : ℕ := 0x20
abbrev FL_IF : ℕ := 0x200
abbrev FL_IOPL_3 : ℕ := 0x3000
abbrev UXSTACKTOP : ℕ := UTOP
/-- `sizeof(struct Trapframe)`. -/
abbrev TF_SIZE : ℕ := 0x44
/-- `sizeof(struct UTrapframe)`. -/
abbrev UTF_SIZE : ℕ := 52

/-! ### Envs -/

/-- The list `env_init` makes. -/
def envInit : Queue := (List.range NENV).foldr (fun e q => q.insertHead e) Queue.empty

/-- `env_pgdir`; null is not a directory. -/
def pgdirOf (e : ℕ) : KM ℕ := do
  match ((← get).envs e).pgdir with
  | none => throw (.panic .pageFault)
  | some d => pure d

/-- The entries of a new page directory at page `p`. -/
def newPgdir (k : KernSt) (p i : ℕ) : Pte :=
  if i = pdx VPT then ⟨p, PTE_P ||| PTE_W⟩
  else if i = pdx UVPT then ⟨p, PTE_P ||| PTE_U⟩
  else if pdx UTOP ≤ i then k.word k.bootPgdir i
  else .zero

/-- `false` is `-E_NO_MEM`. -/
def envSetupVm (e : ℕ) : KM Bool := do
  match ← pageAlloc with
  | none => pure false
  | some p =>
    kaddr p
    modify fun k => k.setEnv e { k.envs e with pgdir := some p }
    modify fun k => k.setRef p 1
    modify fun k => { k with word := Function.update k.word p (newPgdir k p) }
    pure true

/-- The frame of a new env; the file server gets I/O privileges. -/
def initFrame (e : ℕ) : Trapframe where
  regs := ⟨0, 0, 0, 0, 0, 0, 0, 0⟩
  es := GD_UD ||| 3
  ds := GD_UD ||| 3
  trapno := 0
  err := 0
  eip := 0
  cs := GD_UT ||| 3
  eflags := if e = 1 then FL_IF ||| FL_IOPL_3 else FL_IF
  esp := USTACKTOP
  ss := GD_UD ||| 3

def envAlloc (parent : ℕ) : KM (Except Err ℕ) := do
  match (← get).envFree.first with
  | none => pure (.error .noFreeEnv)
  | some e =>
    if ← envSetupVm e then
      modify fun k => k.setEnv e { k.envs e with
        id := nextEnvid (k.envs e).id e, parent := parent, status := .runnable, tf := initFrame e, upcall := 0,
        recving := false, trans := 0 }
      let k ← get
      match k.envFree.remove e with
      | none => throw (.panic .pageFault)
      | some q =>
        set ({ k with envFree := q } : KernSt)
        pure (.ok e)
    else pure (.error .noMem)

/-- `segment_alloc` of `n` pages from `va`. -/
def segmentAlloc (e : ℕ) : (n va : ℕ) → KM Unit
  | 0, _ => pure ()
  | n + 1, va => do
    match ← pageAlloc with
    | none => throw (.panic .segmentAlloc)
    | some pp =>
      if ← pageInsert (← pgdirOf e) pp va (PTE_W ||| PTE_U) then segmentAlloc e n (va + PGSIZE)
      else throw (.panic .segmentAlloc)

/-- The segments of a binary, first page and number of pages, and its entry point. -/
structure Program where
  segs : List (ℕ × ℕ)
  entry : ℕ

/-- The segments, the entry point, and a page for the stack. -/
def loadIcode (e : ℕ) (prog : Program) : KM Unit := do
  prog.segs.forM fun g => segmentAlloc e g.2 (g.1 * PGSIZE)
  modify fun k => k.setEnv e { k.envs e with tf := { (k.envs e).tf with eip := prog.entry } }
  segmentAlloc e 1 (USTACKTOP - PGSIZE)

def envCreate (prog : Program) : KM Unit := do
  match ← envAlloc 0 with
  | .error _ => throw (.panic .envCreate)
  | .ok e => loadIcode e prog

/-- The loop of `env_free` over the entries of a table. -/
def freeEntries (d pdeno t : ℕ) : KM Unit :=
  forUpTo (fun pteno => do
    if ((← get).word t pteno).present then pageRemove d (pgaddr pdeno pteno)) NPTENTRIES

/-- One turn of the loop of `env_free` over the directory. -/
def freeTable (d pdeno : ℕ) : KM Unit := do
  let pde := (← get).word d pdeno
  if pde.present then
    kaddr pde.ppn
    freeEntries d pdeno pde.ppn
    modify fun k => k.setWord d pdeno .zero
    let pp ← pa2page pde.ppn
    pageDecref pp

def envFree (e : ℕ) : KM Unit := do
  let d ← pgdirOf e
  forUpTo (freeTable d) (pdx UTOP)
  modify fun k => k.setEnv e { k.envs e with pgdir := none }
  let pp ← pa2page d
  pageDecref pp
  modify fun k => { k.setEnv e { k.envs e with status := .free } with envFree := k.envFree.insertHead e }

/-- The slot of an env id, for the env in slot `c`. -/
def envid2env (k : KernSt) (c envid : ℕ) (checkperm : Bool) : Option ℕ :=
  if envid = 0 then some c
  else if (k.envs (envx envid)).status = .free ∨ (k.envs (envx envid)).id ≠ envid then none
  else if checkperm && envx envid != c && (k.envs (envx envid)).parent != (k.envs c).id then none
  else some (envx envid)

/-! ### Memory of users -/

/-- Some bit of `mask` is set. -/
def Pte.any (e : Pte) (mask : ℕ) : Bool := e.perm &&& mask != 0

/-- `user_mem_check` in the directory `d`: an entry is good if it has one of the bits. -/
def userMemCheck (k : KernSt) (d va len perm : ℕ) : Bool :=
  let mask := perm ||| PTE_P
  let vaEnd := (va + len + (2 ^ 32 - 1)) % 2 ^ 32
  va ≤ ULIM && vaEnd ≤ ULIM &&
    (List.range (pdx vaEnd + 1 - pdx va)).all fun n =>
      let i := pdx va + n
      let ptemin := if i = pdx va then ptx va else 0
      let ptemax := if i = pdx vaEnd then ptx vaEnd else NPTENTRIES - 1
      (k.word d i).any mask &&
        (List.range (ptemax + 1 - ptemin)).all fun m => (k.word (k.word d i).ppn (ptemin + m)).any mask

/-- A store of `len` bytes at `va` does not fault in the directory `d`; `CR0_WP` is set. -/
def storeOk (k : KernSt) (d va len : ℕ) : Bool :=
  (List.range ((va + len - 1) / PGSIZE + 1 - va / PGSIZE)).all fun n =>
    let v := va / PGSIZE + n
    let pde := k.word d (v / NPTENTRIES)
    let pte := k.word pde.ppn (v % NPTENTRIES)
    pde.present && pde.writable && pte.present && pte.writable

/-! ### System calls -/

inductive Call
  | pageAlloc (envid va perm : ℕ)
  | pageMap (srcenvid srcva dstenvid dstva perm : ℕ)
  | pageUnmap (envid va : ℕ)
  | exofork
  /-- A status that is not one of the two is `.free` here. -/
  | envSetStatus (envid : ℕ) (status : Status)
  /-- The memory at `va` holds `tf`. -/
  | envSetTrapframe (envid va : ℕ) (tf : Trapframe)
  | envSetPgfaultUpcall (envid func : ℕ)
  | envSetTransaction (envid trans : ℕ)
  | envDestroy (envid : ℕ)
  | ipcTrySend (envid value srcva perm : ℕ)
  | ipcRecv (dstva : ℕ)
  | yield
  /-- `sys_cputs` and the calls of the network card: a range of memory is checked. -/
  | userMem (va len perm r : ℕ)
  /-- `sys_cgetc`, `sys_getenvid`, `sys_time_msec`: a number is returned. -/
  | query (r : ℕ)
  /-- A number that is no system call. -/
  | unknown
  deriving DecidableEq

/-- `PTE_U` and `PTE_P` are set, and nothing outside `PTE_USER`. -/
def permOk (perm : ℕ) : Bool :=
  perm &&& PTE_U != 0 && perm &&& PTE_P != 0 && perm ||| PTE_USER == PTE_USER

/-- An address a call may map or unmap. -/
def vaOk (va : ℕ) : Bool := va < UTOP && va % PGSIZE == 0

/-- `envid2env` in a call. -/
def lookupEnv (c envid : ℕ) (checkperm : Bool) : KM ℕ := do
  match envid2env (← get) c envid checkperm with
  | none => throw (.err .badEnv)
  | some e => pure e

def sysPageAlloc (c envid va perm : ℕ) : KM (Option ℕ) := do
  if !vaOk va then throw (.err .inval)
  else if !permOk perm then throw (.err .inval)
  else
    let e ← lookupEnv c envid true
    match ← Kern.pageAlloc with
    | none => throw (.err .noMem)
    | some pp =>
      if ← pageInsert (← pgdirOf e) pp va perm then
        -- the kernel clears the page through the new mapping, and `CR0_WP` is set
        if perm &&& PTE_W = 0 then throw (.panic .pageFault)
        else
          modify fun k => k.zeroPage pp
          pure (some 0)
      else
        pageFree pp
        throw (.err .noMem)

/-- The page at `srcva` in `src`, which may be written to if `perm` says so, is
mapped at `dstva` in `dst`. -/
def sharePage (src srcva dst dstva perm : ℕ) : KM Unit := do
  match ← pageLookup (← pgdirOf src) srcva with
  | none => throw (.err .inval)
  | some (pp, t, j) =>
    if perm &&& PTE_W != 0 && !((← get).word t j).writable then throw (.err .inval)
    else if ← pageInsert (← pgdirOf dst) pp dstva perm then pure ()
    else throw (.err .noMem)

def sysPageMap (c srcenvid srcva dstenvid dstva perm : ℕ) : KM (Option ℕ) := do
  if !vaOk srcva || !vaOk dstva then throw (.err .inval)
  else if !permOk perm then throw (.err .inval)
  else
    let src ← lookupEnv c srcenvid true
    let dst ← lookupEnv c dstenvid true
    sharePage src srcva dst dstva perm
    pure (some 0)

def sysPageUnmap (c envid va : ℕ) : KM (Option ℕ) := do
  if !vaOk va then throw (.err .inval)
  else
    let e ← lookupEnv c envid true
    pageRemove (← pgdirOf e) va
    pure (some 0)

def sysExofork (c : ℕ) : KM (Option ℕ) := do
  match ← envAlloc ((← get).envs c).id with
  | .error e => throw (.err e)
  | .ok e =>
    modify fun k => k.setEnv e { k.envs e with
      status := .notRunnable, tf := { (k.envs c).tf with regs := { (k.envs c).tf.regs with eax := 0 } } }
    pure (some ((← get).envs e).id)

def sysEnvSetStatus (c envid : ℕ) (status : Status) : KM (Option ℕ) := do
  let e ← lookupEnv c envid true
  if status = .free ∨ status = ((← get).envs e).status then throw (.err .inval)
  else
    modify fun k => k.setEnv e { k.envs e with status := status }
    pure (some 0)

/-- The frame is written, through the pointer and to the env. -/
def storeFrame (c e va : ℕ) (tf : Trapframe) : KM (Option ℕ) := do
  if ULIM < va + TF_SIZE then throw (.panic .kernelStore)
  else if !storeOk (← get) (← pgdirOf c) va TF_SIZE then throw (.panic .pageFault)
  else
    modify fun k => k.setEnv e { k.envs e with tf := { tf with cs := tf.cs ||| 3, eflags := tf.eflags ||| FL_IF } }
    pure (some 0)

/-- The memory is checked in the env the frame is for; when the check fails for
another env than the caller, that env is destroyed and the call goes on. -/
def sysEnvSetTrapframe (c envid va : ℕ) (tf : Trapframe) : KM (Option ℕ) := do
  let e ← lookupEnv c envid true
  if userMemCheck (← get) (← pgdirOf e) va TF_SIZE PTE_U then storeFrame c e va tf
  else
    envFree e
    if e = c then pure none else storeFrame c e va tf

def sysEnvSetPgfaultUpcall (c envid func : ℕ) : KM (Option ℕ) := do
  let e ← lookupEnv c envid true
  modify fun k => k.setEnv e { k.envs e with upcall := func }
  pure (some 0)

def sysEnvSetTransaction (c envid trans : ℕ) : KM (Option ℕ) := do
  let e ← lookupEnv c envid false
  modify fun k => k.setEnv e { k.envs e with trans := trans }
  pure (some 0)

def sysEnvDestroy (c envid : ℕ) : KM (Option ℕ) := do
  let e ← lookupEnv c envid true
  envFree e
  if e = c then pure none else pure (some 0)

/-- The page of a message, if it has one and the receiver asks for one. -/
def sendPage (c e srcva perm : ℕ) : KM Unit := do
  if srcva < UTOP ∧ ((← get).envs e).dstva ≠ 0 then
    sharePage c srcva e ((← get).envs e).dstva perm
    modify fun k => k.setEnv e { k.envs e with perm := perm }

def sysIpcTrySend (c envid value srcva perm : ℕ) : KM (Option ℕ) := do
  if srcva < UTOP ∧ (!vaOk srcva || !permOk perm) = true then throw (.err .inval)
  else
    let e ← lookupEnv c envid false
    if !((← get).envs e).recving then throw (.err .ipcNotRecv)
    else
      modify fun k => k.setEnv e { k.envs e with perm := 0 }
      sendPage c e srcva perm
      modify fun k => k.setEnv e { k.envs e with
        recving := false, sender := (k.envs c).id, value := value, status := .runnable,
        tf := { (k.envs e).tf with regs := { (k.envs e).tf.regs with eax := 0 } } }
      pure (some 0)

def sysIpcRecv (c dstva : ℕ) : KM (Option ℕ) := do
  if dstva < UTOP ∧ dstva % PGSIZE ≠ 0 then throw (.err .inval)
  else
    modify fun k => k.setEnv c { k.envs c with
      dstva := if dstva < UTOP then dstva else 0, recving := true, status := .notRunnable }
    pure none

/-- `user_mem_assert` on the caller. -/
def sysUserMem (c va len perm r : ℕ) : KM (Option ℕ) := do
  if userMemCheck (← get) (← pgdirOf c) va len (perm ||| PTE_U) then pure (some r)
  else
    envFree c
    pure none

/-- The call of the env in slot `c`. `none`: it does not return to the env. -/
def syscall (c : ℕ) : Call → KM (Option ℕ)
  | .pageAlloc envid va perm => sysPageAlloc c envid va perm
  | .pageMap srcenvid srcva dstenvid dstva perm => sysPageMap c srcenvid srcva dstenvid dstva perm
  | .pageUnmap envid va => sysPageUnmap c envid va
  | .exofork => sysExofork c
  | .envSetStatus envid status => sysEnvSetStatus c envid status
  | .envSetTrapframe envid va tf => sysEnvSetTrapframe c envid va tf
  | .envSetPgfaultUpcall envid func => sysEnvSetPgfaultUpcall c envid func
  | .envSetTransaction envid v => sysEnvSetTransaction c envid v
  | .envDestroy envid => sysEnvDestroy c envid
  | .ipcTrySend envid value srcva perm => sysIpcTrySend c envid value srcva perm
  | .ipcRecv dstva => sysIpcRecv c dstva
  | .yield => pure none
  | .userMem va len perm r => sysUserMem c va len perm r
  | .query r => pure (some r)
  | .unknown => throw (.err .inval)

/-! ### Traps -/

/-- What is written to the saved `eax` of the env when a call returns to it. -/
def setEax (c v : ℕ) : KM Unit :=
  modify fun k => k.setEnv c { k.envs c with tf := { (k.envs c).tf with regs := { (k.envs c).tf.regs with eax := v } } }

/-- `trap_dispatch` of a system call. -/
def dispatchCall (c : ℕ) (s : Call) : KM Unit := fun k =>
  match syscall c s k with
  | .ok (some v) k' => setEax c v k'
  | .ok none k' => .ok () k'
  | .error (.err e) k' => setEax c e.code k'
  | .error (.panic p) k' => .error (.panic p) k'

/-- Where the frame of a page fault goes on the stack of the handler, and its size. -/
def utfRange (esp : ℕ) : ℕ × ℕ :=
  if UXSTACKTOP - PGSIZE ≤ esp ∧ esp < UXSTACKTOP then (esp - (UTF_SIZE + 4), UTF_SIZE + 4)
  else (UXSTACKTOP - UTF_SIZE, UTF_SIZE)

def pageFaultHandler (c : ℕ) : KM Unit := do
  let env := (← get).envs c
  if env.upcall ≠ 0 then
    let (va, len) := utfRange env.tf.esp
    if userMemCheck (← get) (← pgdirOf c) va len (PTE_W ||| PTE_U) then
      if storeOk (← get) (← pgdirOf c) va len then
        modify fun k => k.setEnv c { k.envs c with tf := { (k.envs c).tf with esp := va, eip := env.upcall } }
      else throw (.panic .pageFault)
    else envFree c
  else envFree c

inductive Trap
  | syscall (s : Call)
  | pgflt
  /-- The timer and the other interrupts. -/
  | irq
  /-- A trap that the kernel does not expect. -/
  | unexpected

/-- `trap` from user mode: the env in slot `c` traps with the frame `tf`. -/
def trap (c : ℕ) (tf : Trapframe) (t : Trap) : KM Unit := do
  modify fun k => k.setEnv c { k.envs c with tf := tf }
  match t with
  | .syscall s => dispatchCall c s
  | .pgflt => pageFaultHandler c
  | .irq => pure ()
  | .unexpected => envFree c

def iopl (eflags : ℕ) : ℕ := eflags &&& FL_IOPL_3

/-- A program that starts with the frame `old` may trap with the frame `new`: at
privilege level 3 it does not get to another code segment or I/O privilege level,
and changes `FL_IF` only if its I/O privilege level is 3. -/
def userFrame (old new : Trapframe) : Bool :=
  new.cs == old.cs && iopl new.eflags == iopl old.eflags &&
    (iopl old.eflags == FL_IOPL_3 || new.eflags &&& FL_IF == old.eflags &&& FL_IF)

/-! ### Runs -/

/-- What happens in the kernel: a trap of an env, or a call of one of the kernel's
functions. -/
inductive KAct
  | trap (c : ℕ) (tf : Trapframe) (t : Trap)
  | pgdirWalk (e va : ℕ) (create : Bool)
  | pageInsert (e pp va perm : ℕ)
  | pageRemove (e va : ℕ)
  | envAlloc (parent : ℕ)
  | envFree (e : ℕ)
  | envCreate (prog : Program)

/-- One action. A trap of an env that does not run, or with a frame it cannot get
to, does not happen. -/
def kstep : KAct → KM Unit
  | .trap c tf t => do
    let env := (← get).envs c
    if c < NENV ∧ env.status = .runnable ∧ userFrame env.tf tf = true then Kern.trap c tf t
  | .pgdirWalk e va create => do
    let _ ← Kern.pgdirWalk (← pgdirOf e) va create
  | .pageInsert e pp va perm => do
    let _ ← Kern.pageInsert (← pgdirOf e) pp va perm
  | .pageRemove e va => do
    Kern.pageRemove (← pgdirOf e) va
  | .envAlloc parent => do
    let _ ← Kern.envAlloc parent
  | .envFree e => Kern.envFree e
  | .envCreate prog => Kern.envCreate prog

/-- A run: the actions in order, up to a panic. -/
def krun : List KAct → KM Unit
  | [] => pure ()
  | a :: as => do
    kstep a
    krun as

def noFrame : Trapframe := ⟨⟨0, 0, 0, 0, 0, 0, 0, 0⟩, 0, 0, 0, 0, 0, 0, 0, 0, 0⟩

/-- The machine when `page_init` is done: `mem` is what the memory holds. -/
def kernReset (npage freemem bootPgdir : ℕ) (mem : ℕ → ℕ → Pte) : KernSt where
  npage := npage
  freemem := freemem
  ref := fun _ => 0
  freeList := pageInit freemem npage
  word := Function.update mem bootPgdir fun i =>
    if i = pdx VPT then ⟨bootPgdir, PTE_W ||| PTE_P⟩ else if i = pdx UVPT then ⟨bootPgdir, PTE_U ||| PTE_P⟩ else .zero
  bootPgdir := bootPgdir
  envs := fun _ => ⟨noFrame, 0, 0, .free, none, 0, false, 0, 0, 0, 0, 0⟩
  envFree := envInit

/-- The kernel's mappings, then the first envs. -/
def boot (b : BootMem) (progs : List Program) : KM Unit := do
  i386VmInit b
  progs.forM envCreate

end Kern
end Jos
