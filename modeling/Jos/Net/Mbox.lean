/-
# Mailboxes of the lwIP port

A mailbox is a ring of `MBOXSLOTS` messages between two semaphores:
`queued_msg` counts the messages and `free_msg` the slots. `head` is the oldest
message, or -1 when there is none, and `nextq` the slot after the newest, so
the two are equal when the ring is full. Threads post and fetch; each waits for
its semaphore, then moves a message, then signals the other semaphore.

The threads are cooperative and switch only in `thread_wait`. The model lets
any thread go on at any point between the parts of its call, and lets
`thread_wait` return at any time, which includes every schedule of the real
ones: `thread_wakeup` and the time-out only make it return earlier or later.
`lwip_core_lock` and `lwip_core_unlock` are empty.

`waited` is a sum of clock differences, and a wait that succeeds after
`SYS_ARCH_TIMEOUT` milliseconds would be taken for a time-out. The clock counts
in tens and the kernel panics before it wraps, so this does not happen.

Key theorem: `bounded_fifo`.
-/
import Mathlib.Data.Int.Notation
import Mathlib.Data.List.Nodup
import Mathlib.Tactic.Linarith
import Jos.Base.Ring
import Jos.Base.Steps

namespace Jos
namespace Net
namespace Mbox

open Function

abbrev NSEM : ℕ := 256
abbrev NMBOX : ℕ := 128
abbrev MBOXSLOTS : ℕ := 32
abbrev SYS_ARCH_TIMEOUT : ℕ := 0xffffffff
abbrev SYS_ARCH_NOWAIT : ℕ := 0xfffffffe

/-- `struct sys_sem_entry`. -/
structure Sem where
  freed : Bool
  gen : ℕ
  counter : ℕ
  waiters : ℕ

/-- The two semaphores of a mailbox. -/
inductive Side
  | queued
  | free
  deriving DecidableEq

/-- `struct sys_mbox_entry`; `sem` are `queued_msg` and `free_msg`. -/
structure Entry (μ : Type) where
  freed : Bool
  head : ℤ
  nextq : ℕ
  msg : ℕ → μ
  sem : Side → ℕ

/-- What a thread calls: `sys_mbox_trypost`, or `sys_arch_mbox_fetch` with its time-out. -/
inductive Op (μ : Type)
  | post (x : μ)
  | fetch (tm : ℕ)

/-- What it gets. -/
inductive Result (μ : Type)
  | ok
  | errMem
  | timeout
  | message (x : μ)
  | noMessage

/-- Where a thread is: in `sys_arch_sem_wait` on the semaphore `sem`, at the loop head (`wait`) or in
`thread_wait` since time `a` (`sleep`); returned from it with `r` (`got`); or out of the call. -/
inductive Pc (μ : Type)
  | idle
  | wait (op : Op μ) (mbox sem gen waited : ℕ)
  | sleep (op : Op μ) (mbox sem gen waited a : ℕ)
  | got (op : Op μ) (mbox r : ℕ)
  | done (r : Result μ)

/-- Semaphores, mailboxes, threads and clock, with the messages posted to and fetched from each mailbox. -/
structure Sys (μ : Type) where
  sems : ℕ → Sem
  semFree : List ℕ
  mboxes : ℕ → Entry μ
  mboxFree : List ℕ
  threads : List (Pc μ)
  ticks : ℕ
  panicked : Bool
  posted : ℕ → List μ
  fetched : ℕ → List μ

/-- A free list of `n` entries, each put at its front. -/
def freeList (n : ℕ) : List ℕ := (List.range n).reverse

/-- `sys_init`, with the threads `n` that will use the mailboxes. -/
def init {μ : Type} [Inhabited μ] (n : ℕ) : Sys μ where
  sems _ := ⟨true, 0, 0, 0⟩
  semFree := freeList NSEM
  mboxes _ := ⟨true, 0, 0, fun _ => default, fun _ => 0⟩
  mboxFree := freeList NMBOX
  threads := List.replicate n .idle
  ticks := 0
  panicked := false
  posted _ := []
  fetched _ := []

variable {μ : Type}

/-- `time_msec`. -/
def Sys.msec (s : Sys μ) : ℕ := s.ticks * 10 % 2 ^ 32

def Sys.setSem (s : Sys μ) (x : ℕ) (e : Sem) : Sys μ := { s with sems := update s.sems x e }

def Sys.setBox (s : Sys μ) (m : ℕ) (b : Entry μ) : Sys μ := { s with mboxes := update s.mboxes m b }

def Sys.setPc (s : Sys μ) (k : ℕ) (p : Pc μ) : Sys μ := { s with threads := s.threads.set k p }

def Sys.panic (s : Sys μ) : Sys μ := { s with panicked := true }

/-! ### Semaphores and mailboxes -/

/-- `sys_sem_new`. -/
def sysSemNew (count : ℕ) (s : Sys μ) : Option ℕ × Sys μ :=
  match s.semFree with
  | [] => (none, s)
  | x :: rest =>
    if (s.sems x).freed then
      (some x, { s with semFree := rest }.setSem x
        { s.sems x with freed := false, counter := count, gen := (s.sems x).gen + 1 })
    else (none, s.panic)

/-- `sys_mbox_new`. Without a semaphore it goes on to free the null one, which is outside the table. -/
def sysMboxNew (size : ℤ) (s : Sys μ) : Sys μ :=
  if size < MBOXSLOTS then
    match s.mboxFree with
    | [] => s
    | i :: rest =>
      if (s.mboxes i).freed then
        let (q, s1) := sysSemNew 0 { s with mboxFree := rest }
        let (f, s2) := sysSemNew MBOXSLOTS s1
        match q, f with
        | some q, some f =>
          { s2.setBox i { s.mboxes i with
              freed := false, head := -1, nextq := 0
              sem := fun | .queued => q | .free => f } with
            posted := update s.posted i []
            fetched := update s.fetched i [] }
        | _, _ => s2.panic
      else s.panic
  else s.panic

/-- `sys_sem_signal`; the wake-up of the waiters is left to `thread_wait`, which may return at any time. -/
def sysSemSignal (x : ℕ) (s : Sys μ) : Sys μ :=
  if (s.sems x).freed then s.panic
  else s.setSem x { s.sems x with counter := ((s.sems x).counter + 1) % 2 ^ 16, waiters := 0 }

/-- The semaphore that an operation waits for. -/
def Op.waitsFor : Op μ → Side
  | .post _ => .free
  | .fetch _ => .queued

/-- The time-out of an operation, zero for none. -/
def Op.tm : Op μ → ℕ
  | .post _ => 0
  | .fetch tm => tm

/-! ### Threads -/

/-- A thread calls an operation on a mailbox, with the assertions before the wait. -/
def call (k : ℕ) (op : Op μ) (m : ℕ) (s : Sys μ) : Sys μ :=
  let x := (s.mboxes m).sem op.waitsFor
  if (s.mboxes m).freed ∨ (s.sems x).freed then s.panic
  else s.setPc k (.wait op m x (s.sems x).gen 0)

/-- One turn of the loop of `sys_arch_sem_wait`, to its return or into `thread_wait`. -/
def semWait (k : ℕ) (op : Op μ) (m x gen waited : ℕ) (s : Sys μ) : Sys μ :=
  if op.tm = 0 ∨ waited < op.tm then
    if 0 < (s.sems x).counter then
      (s.setSem x { s.sems x with counter := (s.sems x).counter - 1 }).setPc k (.got op m waited)
    else if op.tm = SYS_ARCH_NOWAIT then s.setPc k (.got op m SYS_ARCH_TIMEOUT)
    else (s.setSem x { s.sems x with waiters := 1 }).setPc k (.sleep op m x gen waited s.msec)
  else s.setPc k (.got op m SYS_ARCH_TIMEOUT)

/-- `thread_wait` has returned. -/
def wake (k : ℕ) (op : Op μ) (m x gen waited a : ℕ) (s : Sys μ) : Sys μ :=
  if gen ≠ (s.sems x).gen then s.setPc k (.got op m SYS_ARCH_TIMEOUT)
  else s.setPc k (.wait op m x gen ((waited + (s.msec + 2 ^ 32 - a) % 2 ^ 32) % 2 ^ 32))

/-- A message behind the newest. -/
def Entry.push (b : Entry μ) (x : μ) : Entry μ :=
  { b with
    nextq := (b.nextq + 1) % MBOXSLOTS
    msg := update b.msg b.nextq x
    head := if b.head = -1 then b.nextq else b.head }

/-- The oldest message taken out. -/
def Entry.pop (b : Entry μ) : Entry μ :=
  let head := (b.head.toNat + 1) % MBOXSLOTS
  { b with head := if head = b.nextq then -1 else head }

def Sys.push (s : Sys μ) (m : ℕ) (x : μ) : Sys μ :=
  { s.setBox m ((s.mboxes m).push x) with posted := update s.posted m (s.posted m ++ [x]) }

def Sys.pop (s : Sys μ) (m : ℕ) : Sys μ :=
  { s.setBox m (s.mboxes m).pop with
    fetched := update s.fetched m (s.fetched m ++ [(s.mboxes m).msg (s.mboxes m).head.toNat]) }

/-- `sys_mbox_trypost` after its wait, whose result it does not look at. -/
def put (k m : ℕ) (x : μ) (s : Sys μ) : Sys μ :=
  let b := s.mboxes m
  if (b.nextq : ℤ) = b.head then s.setPc k (.done .errMem)
  else (sysSemSignal (b.sem .queued) (s.push m x)).setPc k (.done .ok)

/-- `sys_arch_mbox_fetch` after its wait. -/
def take (k m r : ℕ) (s : Sys μ) : Sys μ :=
  let b := s.mboxes m
  if r = SYS_ARCH_TIMEOUT then s.setPc k (.done .timeout)
  else if b.head = -1 then (s.setPc k (.done .noMessage)).panic
  else (sysSemSignal (b.sem .free) (s.pop m)).setPc k (.done (.message (b.msg b.head.toNat)))

/-- The thread goes on. -/
def run (k : ℕ) (s : Sys μ) : Sys μ :=
  match s.threads[k]? with
  | some (.wait op m x gen waited) => semWait k op m x gen waited s
  | some (.sleep op m x gen waited a) => wake k op m x gen waited a s
  | some (.got (.post x) m _) => put k m x s
  | some (.got (.fetch _) m r) => take k m r s
  | _ => s

/-- `time_tick`. -/
def timeTick (s : Sys μ) : Sys μ :=
  let t := (s.ticks + 1) % 2 ^ 32
  if t * 10 % 2 ^ 32 < t then { s with panicked := true } else { s with ticks := t }

/-- A thread that is in no call. -/
def Pc.outside : Pc μ → Bool
  | .idle | .done _ => true
  | _ => false

inductive Ev (μ : Type)
  | new (size : ℤ)
  | call (k : ℕ) (op : Op μ) (m : ℕ)
  | run (k : ℕ)
  | tick

/-- After a panic nothing runs. -/
def step (e : Ev μ) (s : Sys μ) : Sys μ :=
  if s.panicked then s
  else match e with
    | .new size => sysMboxNew size s
    | .call k op m => if (s.threads[k]?.elim false Pc.outside) then call k op m s else s
    | .run k => run k s
    | .tick => timeTick s

/-! ### The invariant -/

/-- The thread has taken a count from a semaphore of the mailbox and not yet moved its message. -/
def Pc.holds (σ : Side) (m : ℕ) : Pc μ → Bool
  | .got op m' r => op.waitsFor = σ ∧ m' = m ∧ r ≠ SYS_ARCH_TIMEOUT
  | _ => false

/-- How many threads have. -/
def Sys.holders (s : Sys μ) (σ : Side) (m : ℕ) : ℕ := s.threads.countP (Pc.holds σ m)

/-- What a thread knows at its place. -/
def Pc.Ok (s : Sys μ) : Pc μ → Prop
  | .idle => True
  | .wait op m x gen waited => (s.mboxes m).freed = false ∧ x = (s.mboxes m).sem op.waitsFor ∧
      gen = (s.sems x).gen ∧ waited ≤ s.msec
  | .sleep op m x gen waited a => (s.mboxes m).freed = false ∧ x = (s.mboxes m).sem op.waitsFor ∧
      gen = (s.sems x).gen ∧ waited ≤ a ∧ a ≤ s.msec
  | .got op m r => (s.mboxes m).freed = false ∧ (op.waitsFor = .free → r ≠ SYS_ARCH_TIMEOUT)
  | .done r => r ≠ .errMem ∧ r ≠ .noMessage

/-- A mailbox: the messages in the ring, and the counts of the two semaphores. -/
structure Box (s : Sys μ) (m : ℕ) : Prop where
  ring : Ring.Holds MBOXSLOTS (s.mboxes m).msg (s.posted m) (s.fetched m).length
  order : s.fetched m = (s.posted m).take (s.fetched m).length
  nextq : (s.mboxes m).nextq = (s.posted m).length % MBOXSLOTS
  head : (s.mboxes m).head =
    if (s.fetched m).length = (s.posted m).length then -1 else (((s.fetched m).length % MBOXSLOTS : ℕ) : ℤ)
  queued : (s.sems ((s.mboxes m).sem .queued)).counter + s.holders .queued m + (s.fetched m).length =
    (s.posted m).length
  free : (s.sems ((s.mboxes m).sem .free)).counter + s.holders .free m + (s.posted m).length =
    (s.fetched m).length + MBOXSLOTS

structure Inv (s : Sys μ) : Prop where
  clock : s.ticks * 10 < 2 ^ 32
  semFree : s.semFree.Nodup
  mboxFree : s.mboxFree.Nodup
  unused : ∀ m ∈ s.mboxFree, (s.mboxes m).freed = true
  opened : ∀ m σ, (s.mboxes m).freed = false →
    (s.sems ((s.mboxes m).sem σ)).freed = false ∧ (s.mboxes m).sem σ ∉ s.semFree
  apart : ∀ m m' σ σ', (s.mboxes m).freed = false → (s.mboxes m').freed = false →
    (s.mboxes m).sem σ = (s.mboxes m').sem σ' → m = m' ∧ σ = σ'
  box : ∀ m, (s.mboxes m).freed = false → Box s m
  pcs : ∀ p ∈ s.threads, p.Ok s

variable {s s' : Sys μ} {k m x : ℕ} {p p' : Pc μ} {σ : Side}

theorem Inv.msec_eq (h : Inv s) : s.msec = s.ticks * 10 := Nat.mod_eq_of_lt h.clock

/-- No wait lasts as long as the mark for a time-out: the clock counts in tens. -/
theorem Inv.msec_lt (h : Inv s) : s.msec < SYS_ARCH_TIMEOUT := by
  have hc := h.clock
  rw [h.msec_eq]
  show s.ticks * 10 < 4294967295
  omega

/-! ### Frames

A step of a thread leaves the free lists, the clock, the marks and generations
of the semaphores, and which semaphores a mailbox has. -/

structure Same (s s' : Sys μ) : Prop where
  ticks : s'.ticks = s.ticks
  semFree : s'.semFree = s.semFree
  mboxFree : s'.mboxFree = s.mboxFree
  freed : ∀ m, (s'.mboxes m).freed = (s.mboxes m).freed
  sem : ∀ m, (s'.mboxes m).sem = (s.mboxes m).sem
  semFreed : ∀ x, (s'.sems x).freed = (s.sems x).freed
  gen : ∀ x, (s'.sems x).gen = (s.sems x).gen

theorem Same.trans {s'' : Sys μ} (h : Same s s') (h' : Same s' s'') : Same s s'' :=
  ⟨h'.ticks.trans h.ticks, h'.semFree.trans h.semFree, h'.mboxFree.trans h.mboxFree,
    fun m => (h'.freed m).trans (h.freed m), fun m => (h'.sem m).trans (h.sem m),
    fun x => (h'.semFreed x).trans (h.semFreed x), fun x => (h'.gen x).trans (h.gen x)⟩

theorem Same.setPc (s : Sys μ) (k : ℕ) (p : Pc μ) : Same s (s.setPc k p) :=
  ⟨rfl, rfl, rfl, fun _ => rfl, fun _ => rfl, fun _ => rfl, fun _ => rfl⟩

theorem Same.setSem (s : Sys μ) (x counter waiters : ℕ) :
    Same s (s.setSem x { s.sems x with counter := counter, waiters := waiters }) := by
  refine ⟨rfl, rfl, rfl, fun _ => rfl, fun _ => rfl, fun y => ?_, fun y => ?_⟩ <;>
  · by_cases hy : y = x
    · subst hy
      simp [Sys.setSem]
    · simp [Sys.setSem, hy]

theorem Same.msec (h : Same s s') : s'.msec = s.msec := by rw [Sys.msec, h.ticks, Sys.msec]

/-- What a thread knows depends on the mailboxes in use and the generations of their semaphores. -/
theorem Pc.Ok.mono (h : p.Ok s) (hb : ∀ m, (s.mboxes m).freed = false → (s'.mboxes m).freed = false ∧
      (s'.mboxes m).sem = (s.mboxes m).sem ∧ ∀ σ, (s'.sems ((s.mboxes m).sem σ)).gen = (s.sems ((s.mboxes m).sem σ)).gen)
    (ht : s.msec ≤ s'.msec) : p.Ok s' := by
  cases p with
  | idle => trivial
  | wait op m x gen waited =>
    obtain ⟨hm, rfl, hg, hw⟩ := h
    obtain ⟨h1, h2, h3⟩ := hb m hm
    exact ⟨h1, by rw [h2], by rw [h3]; exact hg, hw.trans ht⟩
  | sleep op m x gen waited a =>
    obtain ⟨hm, rfl, hg, hw, ha⟩ := h
    obtain ⟨h1, h2, h3⟩ := hb m hm
    exact ⟨h1, by rw [h2], by rw [h3]; exact hg, hw, ha.trans ht⟩
  | got op m r => exact ⟨(hb m h.1).1, h.2⟩
  | done r => exact h

theorem Pc.Ok.same (h : p.Ok s) (hs : Same s s') : p.Ok s' :=
  h.mono (fun m hm => ⟨(hs.freed m).trans hm, hs.sem m, fun _ => hs.gen _⟩) hs.msec.ge

/-- A step of a thread keeps the invariant if it keeps the mailboxes, and its new place is sound. -/
theorem Inv.same (h : Inv s) (hs : Same s s') (hbox : ∀ m, (s.mboxes m).freed = false → Box s' m)
    (hpcs : ∀ p ∈ s'.threads, p ∈ s.threads ∨ p.Ok s') : Inv s' where
  clock := hs.ticks ▸ h.clock
  semFree := hs.semFree ▸ h.semFree
  mboxFree := hs.mboxFree ▸ h.mboxFree
  unused m hm := (hs.freed m).trans (h.unused m (hs.mboxFree ▸ hm))
  opened m σ hm := by
    rw [hs.semFreed, hs.sem, hs.semFree]
    exact h.opened m σ ((hs.freed m).symm.trans hm)
  apart m m' σ σ' hm hm' he := by
    rw [hs.sem, hs.sem] at he
    exact h.apart m m' σ σ' ((hs.freed m).symm.trans hm) ((hs.freed m').symm.trans hm') he
  box m hm := hbox m ((hs.freed m).symm.trans hm)
  pcs p hp := (hpcs p hp).elim (fun hp => (h.pcs p hp).same hs) id

theorem Inv.panic (h : Inv s) : Inv s.panic :=
  h.same ⟨rfl, rfl, rfl, fun _ => rfl, fun _ => rfl, fun _ => rfl, fun _ => rfl⟩
    (fun m hm => { h.box m hm with }) fun _ hp => .inl hp

/-- A mailbox depends on its entry, its messages, the counts of its semaphores and who holds one. -/
theorem Box.congr (h : Box s m) (hb : s'.mboxes m = s.mboxes m) (hp : s'.posted m = s.posted m)
    (hf : s'.fetched m = s.fetched m)
    (hc : ∀ σ, (s'.sems ((s.mboxes m).sem σ)).counter + s'.holders σ m =
      (s.sems ((s.mboxes m).sem σ)).counter + s.holders σ m) : Box s' m := by
  have hq := h.queued
  have hfr := h.free
  rw [← hc] at hq hfr
  exact ⟨by rw [hb, hp, hf]; exact h.ring, by rw [hp, hf]; exact h.order, by rw [hb, hp]; exact h.nextq,
    by rw [hb, hp, hf]; exact h.head, by rw [hb, hp, hf]; exact hq, by rw [hb, hp, hf]; exact hfr⟩

/-- The holders after a thread has moved. -/
theorem holders_set (hk : s.threads[k]? = some p) (hs : s'.threads = s.threads.set k p') (σ : Side) (m : ℕ) :
    s'.holders σ m + (p.holds σ m).toNat = s.holders σ m + (p'.holds σ m).toNat := by
  obtain ⟨hlt, hget⟩ := List.getElem?_eq_some_iff.mp hk
  have hle : (p.holds σ m).toNat ≤ s.threads.countP (Pc.holds σ m) := by
    cases hp : p.holds σ m with
    | false => exact Nat.zero_le _
    | true =>
      exact List.countP_pos_iff.mpr ⟨p, hget ▸ List.getElem_mem hlt, hp⟩
  have hif : ∀ q : Pc μ, (if q.holds σ m = true then 1 else 0) = (q.holds σ m).toNat := fun q => by
    cases q.holds σ m <;> rfl
  simp only [Sys.holders, hs, List.countP_set hlt, hget, hif]
  omega

/-! ### Steps up to the message -/

/-- A thread moves from `p` to `p'`; what it takes from a semaphore it holds. -/
theorem Inv.moved (h : Inv s) (hk : s.threads[k]? = some p) (hs : Same s s')
    (hth : s'.threads = s.threads.set k p') (hb : s'.mboxes = s.mboxes) (hpo : s'.posted = s.posted)
    (hfe : s'.fetched = s.fetched)
    (hc : ∀ m σ, (s.mboxes m).freed = false →
      (s'.sems ((s.mboxes m).sem σ)).counter + (p'.holds σ m).toNat =
        (s.sems ((s.mboxes m).sem σ)).counter + (p.holds σ m).toNat)
    (hok : p'.Ok s) : Inv s' := by
  refine h.same hs (fun m hm => ?_) fun q hq => ?_
  · refine (h.box m hm).congr (congrFun hb m) (congrFun hpo m) (congrFun hfe m) fun σ => ?_
    have h1 := hc m σ hm
    have h2 := holders_set hk hth σ m
    omega
  · rw [hth] at hq
    exact (List.mem_or_eq_of_mem_set hq).imp_right fun he : q = p' => he.symm ▸ hok.same hs

/-- A thread moves without touching a count. -/
theorem Inv.goto (h : Inv s) (hk : s.threads[k]? = some p) (hp : ∀ σ m, p'.holds σ m = p.holds σ m)
    (hok : p'.Ok s) : Inv (s.setPc k p') :=
  h.moved hk (.setPc s k p') rfl rfl rfl rfl (fun m σ _ => by rw [hp]; rfl) hok

theorem Inv.call (h : Inv s) (hk : s.threads[k]? = some p) (hp : p.outside = true) (op : Op μ) (m : ℕ) :
    Inv (call k op m s) := by
  have hno : ∀ σ m, p.holds σ m = false := by
    cases p <;> first | exact fun _ _ => rfl | exact absurd hp (by simp [Pc.outside])
  unfold Mbox.call
  by_cases hc : (s.mboxes m).freed ∨ (s.sems ((s.mboxes m).sem op.waitsFor)).freed
  · simp only [if_pos hc]
    exact h.panic
  · simp only [if_neg hc]
    refine h.goto hk (fun σ m => (hno σ m).symm) ⟨?_, rfl, rfl, Nat.zero_le _⟩
    simpa using fun hf => hc (.inl hf)

/-- One turn of the loop of the wait. -/
theorem Inv.semWait (h : Inv s) {op : Op μ} {gen waited : ℕ}
    (hk : s.threads[k]? = some (.wait op m x gen waited)) : Inv (semWait k op m x gen waited s) := by
  obtain ⟨hm, hx, hgen, hw⟩ := h.pcs _ (List.mem_of_getElem? hk)
  have hnot : waited ≠ SYS_ARCH_TIMEOUT := Nat.ne_of_lt (lt_of_le_of_lt hw h.msec_lt)
  have htimeout : ∀ (hop : op.tm ≠ 0), Inv (s.setPc k (.got op m SYS_ARCH_TIMEOUT)) := by
    intro hop
    refine h.goto hk (fun σ m => by simp [Pc.holds]) ⟨hm, fun hfree => ?_⟩
    cases op with
    | post _ => exact absurd rfl hop
    | fetch _ => exact absurd hfree (by simp [Op.waitsFor])
  unfold Mbox.semWait
  by_cases htm : op.tm = 0 ∨ waited < op.tm
  · rw [if_pos htm]
    by_cases hcount : 0 < (s.sems x).counter
    · rw [if_pos hcount]
      refine h.moved hk ((Same.setSem s x _ _).trans (Same.setPc _ k _)) rfl rfl rfl rfl ?_ ⟨hm, fun _ => hnot⟩
      intro m' σ hm'
      by_cases he : (s.mboxes m').sem σ = x
      · obtain ⟨rfl, rfl⟩ := h.apart m' m σ op.waitsFor hm' hm (he.trans hx)
        have hholds : (Pc.got op m' waited).holds op.waitsFor m' = true := decide_eq_true ⟨rfl, rfl, hnot⟩
        rw [hholds]
        simp only [Sys.setPc, Sys.setSem, he, update_self, Bool.toNat_true]
        exact Nat.sub_add_cancel hcount
      · have hne : ¬ (op.waitsFor = σ ∧ m = m') := by
          rintro ⟨rfl, rfl⟩
          exact he hx.symm
        simp [Sys.setPc, Sys.setSem, he, Pc.holds, hnot, hne]
    · rw [if_neg hcount]
      by_cases hnw : op.tm = SYS_ARCH_NOWAIT
      · rw [if_pos hnw]
        exact htimeout (by rw [hnw]; decide)
      · rw [if_neg hnw]
        refine h.moved hk ((Same.setSem s x _ _).trans (Same.setPc _ k _)) rfl rfl rfl rfl ?_
          ⟨hm, hx, hgen, hw, Nat.le_refl _⟩
        intro m' σ _
        by_cases he : (s.mboxes m').sem σ = x
        · simp [Sys.setPc, Sys.setSem, he, Pc.holds]
        · simp [Sys.setPc, Sys.setSem, he, Pc.holds]
  · rw [if_neg htm]
    exact htimeout fun hz => htm (.inl hz)

theorem Inv.wake (h : Inv s) {op : Op μ} {gen waited a : ℕ}
    (hk : s.threads[k]? = some (.sleep op m x gen waited a)) : Inv (wake k op m x gen waited a s) := by
  obtain ⟨hm, hx, hgen, hw, ha⟩ := h.pcs _ (List.mem_of_getElem? hk)
  have hlt : s.msec < 4294967295 := h.msec_lt
  -- the clock has not wrapped, so the sum of the waits is at most the time
  have hsum : (waited + (s.msec + 2 ^ 32 - a) % 2 ^ 32) % 2 ^ 32 = waited + (s.msec - a) := by
    have h1 : s.msec + 2 ^ 32 - a = s.msec - a + 2 ^ 32 := by omega
    rw [h1, Nat.add_mod_right, Nat.mod_eq_of_lt (by omega), Nat.mod_eq_of_lt (by omega)]
  unfold Mbox.wake
  rw [if_neg (fun hne => hne hgen), hsum]
  exact h.goto hk (fun _ _ => rfl) ⟨hm, hx, hgen, by omega⟩

/-! ### Moving a message -/

/-- The signal at the end of a call, on a semaphore that is in use and far from its limit. -/
def Sys.signalled (s' s : Sys μ) (x : ℕ) : Sys μ :=
  s'.setSem x { s.sems x with counter := (s.sems x).counter + 1, waiters := 0 }

/-- A semaphore of a mailbox never counts above the slots. -/
theorem Inv.counter_le (h : Inv s) (hm : (s.mboxes m).freed = false) (σ : Side) :
    (s.sems ((s.mboxes m).sem σ)).counter ≤ MBOXSLOTS := by
  have hb := h.box m hm
  have hq := hb.queued
  have hf := hb.free
  have hle := hb.ring.le
  have hroom := hb.ring.room
  cases σ <;> omega

theorem Inv.signal (h : Inv s) (hm : (s.mboxes m).freed = false) (σ : Side) (hs : s'.sems = s.sems) :
    sysSemSignal ((s.mboxes m).sem σ) s' = s'.signalled s ((s.mboxes m).sem σ) := by
  have hc : (s.sems ((s.mboxes m).sem σ)).counter ≤ 32 := h.counter_le hm σ
  have hopen := (h.opened m σ hm).1
  unfold sysSemSignal Sys.signalled
  rw [hs, if_neg (by simp [hopen]), Nat.mod_eq_of_lt (by omega)]

/-- What a call changes in the end: the entry and the messages of mailbox `m`, the count of its other
semaphore `τ`, and the thread, which gives up the count it held. -/
structure Shift (s s₁ : Sys μ) (m : ℕ) : Prop where
  same : Same s s₁
  sems : s₁.sems = s.sems
  threads : s₁.threads = s.threads
  other : ∀ m' ≠ m, s₁.mboxes m' = s.mboxes m' ∧ s₁.posted m' = s.posted m' ∧ s₁.fetched m' = s.fetched m'

section Shift

variable {s₁ : Sys μ} {op : Op μ} {r : ℕ} {res : Result μ} {τ : Side}

/-- The counts of the mailbox after that. -/
theorem Inv.counts (h : Inv s) (τ : Side) (res : Result μ) (hsh : Shift s s₁ m) (hk : s.threads[k]? = some (.got op m r))
    (hr : r ≠ SYS_ARCH_TIMEOUT) (hm : (s.mboxes m).freed = false) (hτ : τ ≠ op.waitsFor) :
    let s' := (s₁.signalled s ((s.mboxes m).sem τ)).setPc k (.done res)
    ((s'.sems ((s.mboxes m).sem op.waitsFor)).counter + s'.holders op.waitsFor m + 1 =
      (s.sems ((s.mboxes m).sem op.waitsFor)).counter + s.holders op.waitsFor m) ∧
    (s'.sems ((s.mboxes m).sem τ)).counter + s'.holders τ m =
      (s.sems ((s.mboxes m).sem τ)).counter + s.holders τ m + 1 := by
  intro s'
  have hne : (s.mboxes m).sem op.waitsFor ≠ (s.mboxes m).sem τ := fun he =>
    hτ (h.apart m m _ _ hm hm he).2.symm
  have hth : s'.threads = s.threads.set k (.done res) := congrArg (List.set · k _) hsh.threads
  have h1 := holders_set hk hth op.waitsFor m
  have h2 := holders_set hk hth τ m
  rw [show (Pc.got op m r).holds op.waitsFor m = true from decide_eq_true ⟨rfl, rfl, hr⟩] at h1
  rw [show (Pc.got op m r).holds τ m = false from decide_eq_false fun hh => hτ hh.1.symm] at h2
  simp only [Pc.holds, Bool.toNat_true, Bool.toNat_false] at h1 h2
  have hc1 : (s'.sems ((s.mboxes m).sem op.waitsFor)).counter =
      (s.sems ((s.mboxes m).sem op.waitsFor)).counter := by
    show (update s₁.sems _ _ _).counter = _
    rw [update_of_ne hne, hsh.sems]
  have hc2 : (s'.sems ((s.mboxes m).sem τ)).counter = (s.sems ((s.mboxes m).sem τ)).counter + 1 := by
    show (update s₁.sems _ _ _).counter = _
    rw [update_self]
  omega

/-- The invariant after that, with the mailbox itself still to be shown. -/
theorem Inv.shift (h : Inv s) (hsh : Shift s s₁ m) (hk : s.threads[k]? = some (.got op m r))
    (hm : (s.mboxes m).freed = false) (hres : (Pc.done res).Ok s)
    (hbox : Box ((s₁.signalled s ((s.mboxes m).sem τ)).setPc k (.done res)) m) :
    Inv ((s₁.signalled s ((s.mboxes m).sem τ)).setPc k (.done res)) := by
  set x := (s.mboxes m).sem τ with hx
  have hsig : Same s₁ (s₁.signalled s x) := by
    have := Same.setSem s₁ x ((s.sems x).counter + 1) 0
    rw [hsh.sems] at this
    exact this
  have hsame : Same s ((s₁.signalled s x).setPc k (.done res)) := (hsh.same.trans hsig).trans (.setPc _ k _)
  have hth : ((s₁.signalled s x).setPc k (.done res)).threads = s.threads.set k (.done res) :=
    congrArg (List.set · k _) hsh.threads
  refine h.same hsame (fun m' hm' => ?_) fun q hq => ?_
  · by_cases he : m' = m
    · exact he ▸ hbox
    · obtain ⟨hb, hpo, hfe⟩ := hsh.other m' he
      refine (h.box m' hm').congr hb hpo hfe fun σ => ?_
      have hne : (s.mboxes m').sem σ ≠ x := fun hh => he (h.apart m' m σ τ hm' hm hh).1
      have h2 := holders_set hk hth σ m'
      rw [show (Pc.got op m r).holds σ m' = false from decide_eq_false fun hh => he hh.2.1.symm] at h2
      have hc : ((s₁.signalled s x).setPc k (.done res)).sems ((s.mboxes m').sem σ) =
          s.sems ((s.mboxes m').sem σ) := by
        show update s₁.sems x _ _ = _
        rw [update_of_ne hne, hsh.sems]
      rw [hc]
      exact congrArg _ h2
  · rw [hth] at hq
    exact (List.mem_or_eq_of_mem_set hq).imp_right fun he : q = .done res => he.symm ▸ hres.same hsame

end Shift

/-- A change of mailbox `m` that leaves its semaphores. -/
theorem Shift.setBox (s : Sys μ) (m : ℕ) {b : Entry μ} {po fe : ℕ → List μ} (hf : b.freed = (s.mboxes m).freed)
    (hs : b.sem = (s.mboxes m).sem) (hp : ∀ m' ≠ m, po m' = s.posted m' ∧ fe m' = s.fetched m') :
    Shift s { s.setBox m b with posted := po, fetched := fe } m := by
  refine ⟨⟨rfl, rfl, rfl, fun m' => ?_, fun m' => ?_, fun _ => rfl, fun _ => rfl⟩, rfl, rfl,
    fun m' he => ⟨update_of_ne he _ _, hp m' he⟩⟩
  · by_cases he : m' = m <;> simp [Sys.setBox, he, hf]
  · by_cases he : m' = m <;> simp [Sys.setBox, he, hs]

/-- A mailbox with messages has the oldest at its head. -/
theorem Box.head_of_lt (h : Box s m) (hlt : (s.fetched m).length < (s.posted m).length) :
    (s.mboxes m).head = (((s.fetched m).length % MBOXSLOTS : ℕ) : ℤ) := by
  rw [h.head, if_neg (Nat.ne_of_lt hlt)]

/-- A mailbox with room is not taken for a full one. -/
theorem Box.nextq_ne_head (h : Box s m) (hroom : (s.posted m).length < (s.fetched m).length + MBOXSLOTS) :
    ((s.mboxes m).nextq : ℤ) ≠ (s.mboxes m).head := by
  have hle := h.ring.le
  rw [h.head, h.nextq]
  split
  · omega
  · intro he
    have hmod : (s.posted m).length % MBOXSLOTS = (s.fetched m).length % MBOXSLOTS := by exact_mod_cast he
    have := Ring.slot_inj (a := (s.fetched m).length) hle hroom (Nat.le_refl _) (by omega) hmod
    omega

/-- A thread with a free slot puts its message behind the others. -/
theorem Inv.put (h : Inv s) {y : μ} {r : ℕ} (hk : s.threads[k]? = some (.got (.post y) m r)) :
    Inv (put k m y s) := by
  obtain ⟨hm, hr⟩ := h.pcs _ (List.mem_of_getElem? hk)
  replace hr := hr rfl
  have hb := h.box m hm
  have hle := hb.ring.le
  have hhold : 0 < s.holders .free m :=
    List.countP_pos_iff.mpr ⟨_, List.mem_of_getElem? hk, decide_eq_true ⟨rfl, rfl, hr⟩⟩
  have hfree := hb.free
  have hqueued := hb.queued
  have hroom : (s.posted m).length < (s.fetched m).length + MBOXSLOTS := by omega
  have hsh : Shift s (s.push m y) m := .setBox s m rfl rfl fun _ he => ⟨update_of_ne he _ _, rfl⟩
  unfold Mbox.put
  simp only [if_neg (hb.nextq_ne_head hroom), h.signal hm .queued hsh.sems]
  obtain ⟨hcf, hcq⟩ := h.counts .queued .ok hsh hk hr hm (by simp [Op.waitsFor])
  refine h.shift hsh hk hm ⟨nofun, nofun⟩ ?_
  set s' := ((s.push m y).signalled s ((s.mboxes m).sem .queued)).setPc k (.done .ok) with hs'
  have hbox : s'.mboxes m = (s.mboxes m).push y := update_self ..
  have hpo : s'.posted m = s.posted m ++ [y] := update_self ..
  have hfe : s'.fetched m = s.fetched m := rfl
  have hlen : (s.posted m ++ [y]).length = (s.posted m).length + 1 := by simp
  refine ⟨?_, ?_, ?_, ?_, ?_, ?_⟩
  · rw [hbox, hpo, hfe]
    refine Ring.Holds.add ?_ hroom ?_
    · show Ring.Holds _ (update (s.mboxes m).msg (s.mboxes m).nextq y) _ _
      rw [hb.nextq]
      exact hb.ring.fill hroom y
    · show update (s.mboxes m).msg (s.mboxes m).nextq y _ = y
      rw [hb.nextq, update_self]
  · rw [hpo, hfe, List.take_append_of_le_length hle]
    exact hb.order
  · rw [hbox, hpo, hlen]
    show ((s.mboxes m).nextq + 1) % _ = _
    rw [hb.nextq, Nat.mod_add_mod]
  · rw [hbox, hpo, hfe, hlen, if_neg (by omega)]
    show (if (s.mboxes m).head = -1 then ((s.mboxes m).nextq : ℤ) else (s.mboxes m).head) = _
    rcases Nat.eq_or_lt_of_le hle with heq | hlt
    · rw [hb.head, if_pos heq, if_pos rfl, hb.nextq, heq]
    · rw [hb.head_of_lt hlt, if_neg (by omega)]
  · rw [hbox, hpo, hfe, hlen]
    show (s'.sems ((s.mboxes m).sem .queued)).counter + s'.holders .queued m + _ = _
    omega
  · rw [hbox, hpo, hfe, hlen]
    show (s'.sems ((s.mboxes m).sem .free)).counter + s'.holders .free m + _ = _
    simp only [Op.waitsFor] at hcf
    omega

/-- A thread with a message counted for it takes the oldest one. -/
theorem Inv.take (h : Inv s) {tm r : ℕ} (hk : s.threads[k]? = some (.got (.fetch tm) m r)) :
    Inv (take k m r s) := by
  obtain ⟨hm, -⟩ := h.pcs _ (List.mem_of_getElem? hk)
  unfold Mbox.take
  by_cases hr : r = SYS_ARCH_TIMEOUT
  · simp only [if_pos hr]
    exact h.goto hk (fun σ m => by simp [Pc.holds, hr]) ⟨nofun, nofun⟩
  have hb := h.box m hm
  have hle := hb.ring.le
  have hhold : 0 < s.holders .queued m :=
    List.countP_pos_iff.mpr ⟨_, List.mem_of_getElem? hk, decide_eq_true ⟨rfl, rfl, hr⟩⟩
  have hfree := hb.free
  have hqueued := hb.queued
  have hlt : (s.fetched m).length < (s.posted m).length := by omega
  have hhead := hb.head_of_lt hlt
  have hslot : (s.mboxes m).head.toNat = (s.fetched m).length % MBOXSLOTS := by rw [hhead, Int.toNat_natCast]
  have hsh : Shift s (s.pop m) m := .setBox s m rfl rfl fun _ he => ⟨rfl, update_of_ne he _ _⟩
  simp only [if_neg hr, if_neg (show (s.mboxes m).head ≠ -1 by rw [hhead]; omega), h.signal hm .free hsh.sems]
  obtain ⟨hcq, hcf⟩ := h.counts .free (.message ((s.mboxes m).msg (s.mboxes m).head.toNat)) hsh hk hr hm
    (by simp [Op.waitsFor])
  refine h.shift hsh hk hm ⟨nofun, nofun⟩ ?_
  set s' := ((s.pop m).signalled s ((s.mboxes m).sem .free)).setPc k
    (.done (.message ((s.mboxes m).msg (s.mboxes m).head.toNat))) with hs'
  have hbox : s'.mboxes m = (s.mboxes m).pop := update_self ..
  have hpo : s'.posted m = s.posted m := rfl
  have hfe : s'.fetched m = s.fetched m ++ [(s.mboxes m).msg ((s.fetched m).length % MBOXSLOTS)] := by
    rw [← hslot]
    exact update_self ..
  have hlen : (s.fetched m ++ [(s.mboxes m).msg ((s.fetched m).length % MBOXSLOTS)]).length =
      (s.fetched m).length + 1 := by simp
  refine ⟨?_, ?_, ?_, ?_, ?_, ?_⟩
  · rw [hbox, hpo, hfe, hlen]
    exact hb.ring.drop hlt
  · rw [hpo, hfe, hlen, hb.ring.front hlt, ← hb.order]
  · rw [hbox, hpo]
    exact hb.nextq
  · rw [hbox, hpo, hfe, hlen]
    show (if ((s.mboxes m).head.toNat + 1) % MBOXSLOTS = (s.mboxes m).nextq then (-1 : ℤ)
      else (((s.mboxes m).head.toNat + 1) % MBOXSLOTS : ℕ)) = _
    rw [hslot, Nat.mod_add_mod, hb.nextq]
    by_cases heq : (s.fetched m).length + 1 = (s.posted m).length
    · rw [if_pos heq, if_pos (by rw [heq])]
    · rw [if_neg heq, if_neg]
      intro hmod
      have hroom := hb.ring.room
      have := Ring.slot_inj (a := (s.fetched m).length + 1) (Nat.le_refl _) (by omega) (by omega) (by omega) hmod
      exact heq this
  · rw [hbox, hpo, hfe, hlen]
    show (s'.sems ((s.mboxes m).sem .queued)).counter + s'.holders .queued m + _ = _
    simp only [Op.waitsFor] at hcq
    omega
  · rw [hbox, hpo, hfe, hlen]
    show (s'.sems ((s.mboxes m).sem .free)).counter + s'.holders .free m + _ = _
    omega

/-! ### New mailboxes -/

/-- What stays when a semaphore is taken, or none is left. -/
structure Kept (s s' : Sys μ) : Prop where
  mboxes : s'.mboxes = s.mboxes
  mboxFree : s'.mboxFree = s.mboxFree
  threads : s'.threads = s.threads
  posted : s'.posted = s.posted
  fetched : s'.fetched = s.fetched

/-- A semaphore that is open with the count `c`, and was on the free list. -/
structure Fresh (s s' : Sys μ) (c x : ℕ) : Prop where
  mem : x ∈ s.semFree
  gone : x ∉ s'.semFree
  freed : (s'.sems x).freed = false
  counter : (s'.sems x).counter = c
  others : ∀ y ≠ x, s'.sems y = s.sems y
  rest : ∀ y ∈ s'.semFree, y ∈ s.semFree

theorem sysSemNew_kept (s : Sys μ) (c : ℕ) : Kept s (sysSemNew c s).2 := by
  unfold sysSemNew
  split
  · exact ⟨rfl, rfl, rfl, rfl, rfl⟩
  · split <;> exact ⟨rfl, rfl, rfl, rfl, rfl⟩

theorem Inv.fresh (h : Inv s) {c : ℕ} (hx : (sysSemNew c s).1 = some x) : Fresh s (sysSemNew c s).2 c x := by
  unfold sysSemNew at hx ⊢
  split at hx
  · cases hx
  · next y rest hl =>
    split at hx
    · next hf =>
      obtain rfl : y = x := by simpa using hx
      have hnd := h.semFree
      rw [hl, List.nodup_cons] at hnd
      simp only [if_pos hf]
      refine ⟨by rw [hl]; exact .head _, hnd.1, ?_, ?_, fun z hz => update_of_ne hz _ _,
        fun z hz => by rw [hl]; exact List.mem_cons_of_mem _ hz⟩
      · simp [Sys.setSem]
      · simp [Sys.setSem]
    · cases hx

/-- Taking a semaphore off the free list touches no mailbox in use. -/
theorem Inv.semNew (h : Inv s) (c : ℕ) : Inv (sysSemNew c s).2 := by
  unfold sysSemNew
  split
  · exact h
  · next x rest hl =>
    split
    · have hnd := h.semFree
      rw [hl, List.nodup_cons] at hnd
      have hne : ∀ m σ, (s.mboxes m).freed = false → (s.mboxes m).sem σ ≠ x := fun m σ hm he =>
        (h.opened m σ hm).2 (by rw [hl, he]; exact .head _)
      refine { h with semFree := hnd.2, opened := fun m σ hm => ?_, box := fun m hm => ?_, pcs := fun p hp => ?_ }
      · obtain ⟨ho, hn⟩ := h.opened m σ hm
        rw [hl] at hn
        refine ⟨?_, fun hm' => hn (.tail _ hm')⟩
        show (update s.sems x _ ((s.mboxes m).sem σ)).freed = false
        rw [update_of_ne (hne m σ hm)]
        exact ho
      · refine (h.box m hm).congr rfl rfl rfl fun σ => ?_
        show (update s.sems x _ _).counter + _ = _
        rw [update_of_ne (hne m σ hm)]
        rfl
      · refine (h.pcs p hp).mono (fun m hm => ⟨hm, rfl, fun σ => ?_⟩) le_rfl
        show (update s.sems x _ _).gen = _
        rw [update_of_ne (hne m σ hm)]
    · exact h.panic

/-- A mailbox put into use, with two semaphores of its own. -/
theorem Inv.newBox (h : Inv s) {i q f : ℕ} (hi : (s.mboxes i).freed = true) (hfree : i ∉ s.mboxFree)
    (hqf : q ≠ f) (hown : ∀ m σ, (s.mboxes m).freed = false → (s.mboxes m).sem σ ≠ q ∧ (s.mboxes m).sem σ ≠ f)
    (hq : (s.sems q).freed = false ∧ (s.sems q).counter = 0 ∧ q ∉ s.semFree)
    (hf : (s.sems f).freed = false ∧ (s.sems f).counter = MBOXSLOTS ∧ f ∉ s.semFree) :
    Inv { s.setBox i { s.mboxes i with
            freed := false, head := -1, nextq := 0
            sem := fun | .queued => q | .free => f } with
          posted := update s.posted i []
          fetched := update s.fetched i [] } := by
  set b : Entry μ := { s.mboxes i with
    freed := false, head := -1, nextq := 0
    sem := fun | .queued => q | .free => f } with hb
  have hsem : ∀ σ, b.sem σ = q ∨ b.sem σ = f := fun σ => by cases σ <;> simp [hb]
  have hinj : ∀ σ σ', b.sem σ = b.sem σ' → σ = σ' := fun σ σ' => by
    cases σ <;> cases σ' <;> simp [hb, hqf, hqf.symm]
  have hat : ∀ m, m ≠ i → update s.mboxes i b m = s.mboxes m := fun m hm => update_of_ne hm _ _
  have hlive : ∀ m, m ≠ i → (update s.mboxes i b m).freed = false → (s.mboxes m).freed = false :=
    fun m hm hf => by rwa [hat m hm] at hf
  have hdist : ∀ m σ σ', m ≠ i → (s.mboxes m).freed = false → (s.mboxes m).sem σ ≠ b.sem σ' := fun m σ σ' hm hl he => by
    obtain ⟨h1, h2⟩ := hown m σ hl
    exact (hsem σ').elim (fun hh => h1 (he.trans hh)) fun hh => h2 (he.trans hh)
  refine { h with unused := fun m hm => ?_, opened := fun m σ hm => ?_, apart := fun m m' σ σ' hm hm' he => ?_,
                  box := fun m hm => ?_, pcs := fun p hp => ?_ }
  · have hne : m ≠ i := fun he => hfree (he ▸ hm)
    show (update s.mboxes i b m).freed = true
    rw [hat m hne]
    exact h.unused m hm
  · show (s.sems ((update s.mboxes i b m).sem σ)).freed = false ∧
      (update s.mboxes i b m).sem σ ∉ s.semFree
    by_cases he : m = i
    · subst he
      rw [update_self]
      rcases hsem σ with hh | hh <;> rw [hh]
      · exact ⟨hq.1, hq.2.2⟩
      · exact ⟨hf.1, hf.2.2⟩
    · rw [hat m he]
      exact h.opened m σ (hlive m he hm)
  · change (update s.mboxes i b m).sem σ = (update s.mboxes i b m').sem σ' at he
    by_cases h1 : m = i <;> by_cases h2 : m' = i
    · subst h1 h2
      rw [update_self] at he
      exact ⟨rfl, hinj σ σ' he⟩
    · subst h1
      rw [update_self, hat m' h2] at he
      exact absurd he.symm (hdist m' σ' σ h2 (hlive m' h2 hm'))
    · subst h2
      rw [update_self, hat m h1] at he
      exact absurd he (hdist m σ σ' h1 (hlive m h1 hm))
    · rw [hat m h1, hat m' h2] at he
      exact h.apart m m' σ σ' (hlive m h1 hm) (hlive m' h2 hm') he
  · by_cases he : m = i
    · subst he
      -- no thread is at a mailbox that was not in use
      have hnone : ∀ σ, s.holders σ m = 0 := fun σ => by
        refine List.countP_eq_zero.mpr fun p hp hh => ?_
        cases p with
        | got op m' r =>
          obtain ⟨-, rfl, -⟩ := of_decide_eq_true hh
          cases (h.pcs _ hp).1.symm.trans hi
        | _ => exact absurd hh (by simp [Pc.holds])
      constructor <;> simp only [Sys.setBox, update_self]
      · exact Ring.Holds.empty _ _
      · rfl
      · rfl
      · rfl
      · show (s.sems q).counter + s.holders .queued m + 0 = 0
        rw [hq.2.1, hnone]
      · show (s.sems f).counter + s.holders .free m + 0 = 0 + MBOXSLOTS
        rw [hf.2.1, hnone]
        rfl
    · exact (h.box m (hlive m he hm)).congr (hat m he) (update_of_ne he _ _) (update_of_ne he _ _)
        fun σ => rfl
  · refine (h.pcs p hp).mono (fun m hm => ?_) le_rfl
    have hne : m ≠ i := fun he => by
      rw [he, hi] at hm
      cases hm
    show (update s.mboxes i b m).freed = false ∧ (update s.mboxes i b m).sem = _ ∧ _
    rw [hat m hne]
    exact ⟨hm, rfl, fun _ => rfl⟩

theorem Inv.new (h : Inv s) (size : ℤ) : Inv (sysMboxNew size s) := by
  unfold sysMboxNew
  split
  swap
  · exact h.panic
  split
  · exact h
  next i rest hl =>
  split
  swap
  · exact h.panic
  next hi =>
  have hnd := h.mboxFree
  rw [hl, List.nodup_cons] at hnd
  set s0 : Sys μ := { s with mboxFree := rest } with hs0
  have h0 : Inv s0 := by
    refine { h with mboxFree := hnd.2, unused := fun m hm => h.unused m ?_, box := fun m hm => { h.box m hm with }
                    pcs := h.pcs }
    rw [hl]
    exact List.mem_cons_of_mem _ hm
  have h1 := h0.semNew 0
  have h2 := h1.semNew MBOXSLOTS
  have k1 := sysSemNew_kept s0 0
  have k2 := sysSemNew_kept (sysSemNew 0 s0).2 MBOXSLOTS
  dsimp only
  split
  · next q f hq hf =>
    have f1 := h0.fresh hq
    have f2 := h1.fresh hf
    have hqf : q ≠ f := fun he => f1.gone (he ▸ f2.mem)
    have hbox : (sysSemNew MBOXSLOTS (sysSemNew 0 s0).2).2.mboxes = s.mboxes := k2.mboxes.trans k1.mboxes
    have hmf : (sysSemNew MBOXSLOTS (sysSemNew 0 s0).2).2.mboxFree = rest := k2.mboxFree.trans k1.mboxFree
    have := h2.newBox (i := i) (q := q) (f := f) (by rw [hbox]; exact hi) (by rw [hmf]; exact hnd.1) hqf ?_ ?_ ?_
    · rw [hbox, k2.posted.trans k1.posted, k2.fetched.trans k1.fetched] at this
      exact this
    · intro m σ hm
      rw [hbox] at hm ⊢
      have ho := (h.opened m σ hm).2
      exact ⟨fun he => ho (he ▸ f1.mem), fun he => ho (f1.rest _ (he ▸ f2.mem))⟩
    · rw [f2.others q hqf]
      exact ⟨f1.freed, f1.counter, fun hm => f1.gone (f2.rest _ hm)⟩
    · exact ⟨f2.freed, f2.counter, f2.gone⟩
  · exact h2.panic

/-! ### Whole runs -/

theorem Inv.tick (h : Inv s) : Inv (timeTick s) := by
  have hc : s.ticks * 10 < 4294967296 := h.clock
  unfold timeTick
  by_cases ht : (s.ticks + 1) % 2 ^ 32 * 10 % 2 ^ 32 < (s.ticks + 1) % 2 ^ 32
  · simp only [if_pos ht]
    exact h.panic
  · simp only [if_neg ht]
    have ht1 : (s.ticks + 1) % 2 ^ 32 = s.ticks + 1 := Nat.mod_eq_of_lt (by omega)
    rw [ht1] at ht ⊢
    have hlt : (s.ticks + 1) * 10 < 2 ^ 32 := by
      by_contra hge
      apply ht
      omega
    have hmsec : Sys.msec { s with ticks := s.ticks + 1 } = s.msec + 10 := by
      rw [h.msec_eq, Sys.msec, Nat.mod_eq_of_lt hlt]
      ring
    exact { h with clock := hlt, box := fun m hm => { h.box m hm with }, pcs := fun p hp =>
      (h.pcs p hp).mono (fun m hm => ⟨hm, rfl, fun _ => rfl⟩) (by rw [hmsec]; omega) }

theorem Inv.run (h : Inv s) (k : ℕ) : Inv (run k s) := by
  unfold Mbox.run
  split
  · next hk => exact h.semWait hk
  · next hk => exact h.wake hk
  · next hk => exact h.put hk
  · next hk => exact h.take hk
  · exact h

theorem Inv.step (h : Inv s) (e : Ev μ) : Inv (step e s) := by
  unfold Mbox.step
  split
  · exact h
  cases e with
  | new size => exact h.new size
  | call k op m =>
    show Inv (if _ then _ else _)
    split
    · next hout =>
      cases hk : s.threads[k]? with
      | none => simp [hk] at hout
      | some p => exact h.call hk (by simpa [hk] using hout) op m
    · exact h
  | run k => exact h.run k
  | tick => exact h.tick

theorem nodup_freeList (n : ℕ) : (freeList n).Nodup := List.nodup_reverse.mpr List.nodup_range

theorem Inv.init [Inhabited μ] (n : ℕ) : Inv (init n : Sys μ) := by
  refine ⟨by simp [Mbox.init], by simp only [Mbox.init, nodup_freeList], by simp only [Mbox.init, nodup_freeList],
    fun _ _ => rfl, fun _ _ hm => Bool.noConfusion hm, fun _ _ _ _ hm => Bool.noConfusion hm, fun _ hm => Bool.noConfusion hm, ?_⟩
  intro p hp
  rw [List.eq_of_mem_replicate hp]
  trivial

/-- **Mailboxes are bounded queues.** Whatever the threads do and in whatever order they run: what has
been fetched from a mailbox in use is a beginning of what has been posted to it; at most `MBOXSLOTS`
messages are queued, and they are the count of `queued_msg` and one for each fetcher that has taken its
count and not yet its slot. No post fails for want of a slot, and no fetch finds its slot empty. -/
theorem bounded_fifo [Inhabited μ] (n : ℕ) (es : List (Ev μ)) :
    let s := exec step es (init n)
    (∀ m, (s.mboxes m).freed = false →
      s.fetched m <+: s.posted m ∧ (s.posted m).length ≤ (s.fetched m).length + MBOXSLOTS ∧
      (s.posted m).length =
        (s.fetched m).length + ((s.sems ((s.mboxes m).sem .queued)).counter + s.holders .queued m)) ∧
    ∀ p ∈ s.threads, p ≠ .done .errMem ∧ p ≠ .done .noMessage := by
  intro s
  have h : Inv s := exec_invariant (fun e _ hs => hs.step e) es (Inv.init n)
  refine ⟨fun m hm => ⟨?_, (h.box m hm).ring.room, ?_⟩, fun p hp => ⟨?_, ?_⟩⟩
  · rw [(h.box m hm).order]
    exact List.take_prefix _ _
  · have := (h.box m hm).queued
    omega
  · rintro rfl
    exact (h.pcs _ hp).1 rfl
  · rintro rfl
    exact (h.pcs _ hp).2 rfl

/-- A fetcher that waits first, then a message for it. -/
example : (exec step [.new 10, .call 0 (.fetch 0) 127, .run 0, .call 1 (.post 5) 127, .run 1, .run 1, .run 0, .run 0,
    .run 0] (init 2 : Sys ℕ)).fetched 127 = [5] := by decide +kernel

end Mbox
end Net
end Jos
