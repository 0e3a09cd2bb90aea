/-
# Physical pages and page tables of the kernel (`kern/pmap.c`)

Physical memory is an array of pages of 1024 entries each, so that a page that
is both a page table and mapped by an env is one thing; of the other contents
of pages nothing is kept. A page has its number for an address, an entry the
number of the page it points to and its permission bits.

`pp_ref` has 16 bits. The free list is the pointers of `pp_link`.

Not here: the TLB, `page_check` and the other self tests of the kernel.

Key definitions: `KernSt`, `pageAlloc`, `pgdirWalk`, `pageInsert`, `pageRemove`,
`i386VmInit`.
-/
import Jos.Base.Queue
import Jos.Fs.Server

namespace Jos
namespace Kern

open Fs (NENV PGSIZE)
open Function

/-! ### Layout -/

abbrev NPTENTRIES : ℕ := 1024
abbrev PTSIZE : ℕ := PGSIZE * NPTENTRIES
abbrev IOPHYSMEM : ℕ := 0x0A0000
abbrev EXTPHYSMEM : ℕ := 0x100000
abbrev KERNBASE : ℕ := 0xF0000000
abbrev VPT : ℕ := KERNBASE - PTSIZE
abbrev KSTACKTOP : ℕ := VPT
abbrev ULIM : ℕ := KSTACKTOP - PTSIZE
abbrev UVPT : ℕ := ULIM - PTSIZE
abbrev UPAGES : ℕ := UVPT - PTSIZE
abbrev UENVS : ℕ := UPAGES - PTSIZE
abbrev UTOP : ℕ := UENVS
abbrev USTACKTOP : ℕ := UTOP - 2 * PGSIZE

abbrev PTE_P : ℕ := 0x001
abbrev PTE_W : ℕ := 0x002
abbrev PTE_U : ℕ := 0x004
abbrev PTE_AVAIL : ℕ := 0xE00
abbrev PTE_USER : ℕ := PTE_AVAIL ||| PTE_P ||| PTE_W ||| PTE_U

/-- Page directory index. -/
def pdx (va : ℕ) : ℕ := va / PTSIZE % NPTENTRIES

/-- Page table index. -/
def ptx (va : ℕ) : ℕ := va / PGSIZE % NPTENTRIES

/-- `PGADDR(d, t, 0)`. -/
def pgaddr (d t : ℕ) : ℕ := d * PTSIZE + t * PGSIZE

/-- An entry of a page table or directory: `PTE_ADDR` as a page number, and the
low twelve bits. -/
structure Pte where
  ppn : ℕ
  perm : ℕ
  deriving DecidableEq

namespace Pte

def zero : Pte := ⟨0, 0⟩

def present (e : Pte) : Bool := e.perm &&& PTE_P != 0

def writable (e : Pte) : Bool := e.perm &&& PTE_W != 0

/-- `page2pa(pp) | perm | PTE_P`. -/
def of (pp perm : ℕ) : Pte := ⟨pp ||| perm / PGSIZE, perm % PGSIZE ||| PTE_P⟩

@[simp] theorem zero_present : zero.present = false := by decide

@[simp] theorem or_present (ppn perm : ℕ) : (⟨ppn, perm ||| PTE_P⟩ : Pte).present = true := by
  unfold present
  simp only [PTE_P, Nat.and_one_is_mod]
  simp [Nat.or_mod_two_eq_one]

/-- The permissions are the low twelve bits. -/
theorem of_eq {pp perm : ℕ} (h : perm < PGSIZE) : of pp perm = ⟨pp, perm ||| PTE_P⟩ := by
  unfold of
  rw [Nat.div_eq_of_lt h, Nat.mod_eq_of_lt h, Nat.or_zero]

end Pte

/-! ### State -/

inductive Status
  | free | runnable | notRunnable
  deriving DecidableEq

/-- `struct PushRegs`. -/
structure PushRegs where
  edi : ℕ
  esi : ℕ
  ebp : ℕ
  oesp : ℕ
  ebx : ℕ
  edx : ℕ
  ecx : ℕ
  eax : ℕ
  deriving DecidableEq

/-- `struct Trapframe`. -/
structure Trapframe where
  regs : PushRegs
  es : ℕ
  ds : ℕ
  trapno : ℕ
  err : ℕ
  eip : ℕ
  cs : ℕ
  eflags : ℕ
  esp : ℕ
  ss : ℕ
  deriving DecidableEq

/-- `struct Env`, without the link and the number of runs. -/
structure Env where
  tf : Trapframe
  id : ℕ
  parent : ℕ
  status : Status
  /-- The page of `env_pgdir`, which is that of `env_cr3`. -/
  pgdir : Option ℕ
  upcall : ℕ
  recving : Bool
  dstva : ℕ
  value : ℕ
  sender : ℕ
  perm : ℕ
  trans : ℕ

structure KernSt where
  npage : ℕ
  /-- `PPN(PADDR(boot_freemem))` when `page_init` runs. -/
  freemem : ℕ
  /-- `pp_ref`. -/
  ref : ℕ → ℕ
  /-- `page_free_list` and the `pp_link`s. -/
  freeList : Queue
  /-- Physical memory: page and index. -/
  word : ℕ → ℕ → Pte
  bootPgdir : ℕ
  envs : ℕ → Env
  /-- `env_free_list` and the `env_link`s. -/
  envFree : Queue

inductive Err
  | noMem | noFreeEnv | badEnv | inval | ipcNotRecv
  deriving DecidableEq

/-- The negative of the code of `inc/error.h`, as 32 bits. -/
def Err.code : Err → ℕ
  | .badEnv => 2 ^ 32 - 2
  | .inval => 2 ^ 32 - 3
  | .noMem => 2 ^ 32 - 4
  | .noFreeEnv => 2 ^ 32 - 5
  | .ipcNotRecv => 2 ^ 32 - 7

inductive Panic
  /-- `page_remove: Error! duplicate request for remove?` -/
  | dupRemove
  /-- `KADDR called with invalid pa` -/
  | kaddr
  /-- `pa2page called with invalid pa` -/
  | pa2page
  /-- `boot_map_segment: Error! No PTE` -/
  | noPte
  /-- `segment_alloc: page_alloc FAILED`, `segment_alloc: page_insert FAILED` -/
  | segmentAlloc
  /-- `env_create: env_alloc FAILED` -/
  | envCreate
  /-- `Oops! Page fault in kernel` -/
  | pageFault
  /-- A store through a pointer of an env into the kernel's own memory. No panic;
  the model ends here. -/
  | kernelStore
  deriving DecidableEq

inductive Fault
  | err (e : Err)
  | panic (p : Panic)
  deriving DecidableEq

abbrev KM := EStateM Fault KernSt

namespace KernSt

def setRef (k : KernSt) (p n : ℕ) : KernSt := { k with ref := update k.ref p n }

def setWord (k : KernSt) (p i : ℕ) (e : Pte) : KernSt :=
  { k with word := update k.word p (update (k.word p) i e) }

/-- `memset(page, 0, PGSIZE)`. -/
def zeroPage (k : KernSt) (p : ℕ) : KernSt := { k with word := update k.word p fun _ => .zero }

def setEnv (k : KernSt) (e : ℕ) (v : Env) : KernSt := { k with envs := update k.envs e v }

end KernSt

/-! ### Pages -/

/-- The pages `page_init` keeps off the free list. -/
def reserved (freemem i : ℕ) : Bool :=
  i == 0 || (IOPHYSMEM / PGSIZE ≤ i && i < EXTPHYSMEM / PGSIZE) || (EXTPHYSMEM / PGSIZE ≤ i && i ≤ freemem)

/-- The list `page_init` makes of the pages below `n`. -/
def pageInit (freemem : ℕ) : ℕ → Queue
  | 0 => Queue.empty
  | n + 1 => if reserved freemem n then pageInit freemem n else (pageInit freemem n).insertHead n

def kaddr (ppn : ℕ) : KM Unit := do
  if (← get).npage ≤ ppn then throw (.panic .kaddr)

def pa2page (ppn : ℕ) : KM ℕ := do
  if (← get).npage ≤ ppn then throw (.panic .pa2page) else pure ppn

/-- `none` is `-E_NO_MEM`. -/
def pageAlloc : KM (Option ℕ) := do
  let k ← get
  match k.freeList.first with
  | none => pure none
  | some pf =>
    match k.freeList.remove pf with
    | none => throw (.panic .pageFault)
    | some q =>
      -- `page_initpp`
      set ({ k with freeList := q.clear pf, ref := update k.ref pf 0 } : KernSt)
      pure (some pf)

def pageFree (pp : ℕ) : KM Unit := modify fun k => { k with freeList := k.freeList.insertHead pp }

def pageDecref (pp : ℕ) : KM Unit := do
  modify fun k => k.setRef pp ((k.ref pp + (2 ^ 16 - 1)) % 2 ^ 16)
  if (← get).ref pp = 0 then pageFree pp

/-! ### Page tables -/

/-- The table and index of an address, in a directory that has the table. -/
def walkEntry (pgde : Pte) (va : ℕ) : KM (Option (ℕ × ℕ)) := do
  kaddr pgde.ppn
  pure (some (pgde.ppn, ptx va))

/-- A new table, cleared, and its entry in the directory. -/
def newTable (pgdir va pp : ℕ) : KM (Option (ℕ × ℕ)) := do
  modify fun k => k.setRef pp 1
  kaddr pp
  modify fun k => k.zeroPage pp
  let pgde : Pte := ⟨pp, PTE_W ||| PTE_U ||| PTE_P⟩
  modify fun k => k.setWord pgdir (pdx va) pgde
  walkEntry pgde va

def pgdirWalk (pgdir va : ℕ) (create : Bool) : KM (Option (ℕ × ℕ)) := do
  let pgde := (← get).word pgdir (pdx va)
  if pgde.present then walkEntry pgde va
  else if !create then pure none
  else match ← pageAlloc with
    | none => pure none
    | some pp => newTable pgdir va pp

/-- The page at `va`, with the place of its entry. -/
def pageLookup (pgdir va : ℕ) : KM (Option (ℕ × ℕ × ℕ)) := do
  match ← pgdirWalk pgdir va false with
  | none => pure none
  | some (t, j) =>
    let pte := (← get).word t j
    if !pte.present then pure none
    else
      let pp ← pa2page pte.ppn
      pure (some (pp, t, j))

def pageRemove (pgdir va : ℕ) : KM Unit := do
  match ← pageLookup pgdir va with
  | none => pure ()
  | some (pp, t, j) =>
    if (← get).ref pp = 0 then throw (.panic .dupRemove)
    else
      pageDecref pp
      modify fun k => k.setWord t j .zero

/-- The end of `page_insert`: the entry and the reference. -/
def linkPage (pp t j perm : ℕ) : KM Bool := do
  modify fun k => k.setWord t j (.of pp perm)
  modify fun k => k.setRef pp ((k.ref pp + 1) % 2 ^ 16)
  pure true

/-- `false` is `-E_NO_MEM`. -/
def pageInsert (pgdir pp va perm : ℕ) : KM Bool := do
  match ← pgdirWalk pgdir va true with
  | none => pure false
  | some (t, j) =>
    let pte := (← get).word t j
    if pte.present then
      let old ← pa2page pte.ppn
      if old = pp then
        modify fun k => k.setWord t j (.of pte.ppn perm)
        pure true
      else
        pageRemove pgdir va
        linkPage pp t j perm
    else linkPage pp t j perm

/-- A range of addresses, as a number of pages, and where it is mapped to. -/
structure Segment where
  la : ℕ
  n : ℕ
  pa : ℕ
  perm : ℕ

/-- `boot_map_segment` on the pages from `la`. -/
def bootMapLoop (perm : ℕ) : (n la pa : ℕ) → KM Unit
  | 0, _, _ => pure ()
  | n + 1, la, pa => do
    match ← pgdirWalk (← get).bootPgdir la true with
    | none => throw (.panic .noPte)
    | some (t, j) =>
      modify fun k => k.setWord t j (.of (pa / PGSIZE) perm)
      bootMapLoop perm n (la + PGSIZE) (pa + PGSIZE)

def bootMapSegment (g : Segment) : KM Unit := bootMapLoop g.perm g.n g.la g.pa

/-- Where `boot_alloc` and the linker put what `i386_vm_init` maps, as addresses. -/
structure BootMem where
  pages : ℕ
  envs : ℕ
  bootstack : ℕ

abbrev KSTKSIZE : ℕ := 8 * PGSIZE

/-- The pages that `n` bytes take. -/
def pagesOf (n : ℕ) : ℕ := (n + (PGSIZE - 1)) / PGSIZE

/-- The segments of `i386_vm_init`: a `struct Page` has 12 bytes and a `struct Env` 128. -/
def vmSegments (npage : ℕ) (b : BootMem) : List Segment :=
  [⟨UPAGES, pagesOf (npage * 12), b.pages, PTE_U ||| PTE_P⟩,
    ⟨UENVS, pagesOf (NENV * 128), b.envs, PTE_U ||| PTE_P⟩,
    ⟨KSTACKTOP - KSTKSIZE, pagesOf KSTKSIZE, b.bootstack, PTE_W ||| PTE_P⟩,
    ⟨KERNBASE, pagesOf (2 ^ 32 - 1 - KERNBASE), 0, PTE_W ||| PTE_P⟩]

/-- The mappings of `i386_vm_init`. -/
def i386VmInit (b : BootMem) : KM Unit := do
  (vmSegments (← get).npage b).forM bootMapSegment

end Kern
end Jos
