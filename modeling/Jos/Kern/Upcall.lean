/-
# The page fault upcall (`kern/trap.c`, `lib/pfentry.S`)

On a page fault the kernel pushes a `UTrapframe` on the exception stack and starts
`_pgfault_upcall`, which calls the handler and then returns to the program
without the kernel: it pushes the trap-time `eip` on the trap-time stack, takes the
registers from the frame and switches stacks. Faults nest: the handler and the return
sequence may fault, at any instruction.

A run is a tree of events (`Ev`): instructions of the upcall, of the handler, and
faults with the events that serve them. Every fault is a round trip, at any
depth, if none is taken at the three instructions that run on the trap-time stack
and no program has its stack right at `UXSTACKTOP`. At those three, the first of
which is the push of `eip`, the kernel puts the new frame over the one in use: it
looks only at `esp`, and `esp` is not below the frame then.

Key definitions: `pgfaultUpcall`, `step`, `pageFault`, `run`, `Fits`, `Safe`.
Key theorems: `round_trip`, `registers_lost`.
-/
import Mathlib.Tactic.IntervalCases
import Jos.Kern.Slots

namespace Jos
namespace Kern
namespace Upcall

open Fs (PGSIZE)
open Function

/-! ### The machine -/

inductive Reg
  | edi | esi | ebp | ebx | edx | ecx | eax | esp
  deriving DecidableEq

@[ext]
structure Cpu where
  edi : ℕ
  esi : ℕ
  ebp : ℕ
  ebx : ℕ
  edx : ℕ
  ecx : ℕ
  eax : ℕ
  esp : ℕ
  eip : ℕ
  eflags : ℕ
  deriving DecidableEq

/-- An env in user mode: its registers and its memory. -/
structure User where
  cpu : Cpu
  mem : Block

namespace Cpu

def get (c : Cpu) : Reg → ℕ
  | .edi => c.edi
  | .esi => c.esi
  | .ebp => c.ebp
  | .ebx => c.ebx
  | .edx => c.edx
  | .ecx => c.ecx
  | .eax => c.eax
  | .esp => c.esp

def set (c : Cpu) (v : ℕ) : Reg → Cpu
  | .edi => { c with edi := v }
  | .esi => { c with esi := v }
  | .ebp => { c with ebp := v }
  | .ebx => { c with ebx := v }
  | .edx => { c with edx := v }
  | .ecx => { c with ecx := v }
  | .eax => { c with eax := v }
  | .esp => { c with esp := v }

/-- Registers have 32 bits. -/
structure Word (c : Cpu) : Prop where
  edi : c.edi < 2 ^ 32
  esi : c.esi < 2 ^ 32
  ebp : c.ebp < 2 ^ 32
  ebx : c.ebx < 2 ^ 32
  edx : c.edx < 2 ^ 32
  ecx : c.ecx < 2 ^ 32
  eax : c.eax < 2 ^ 32
  esp : c.esp < 2 ^ 32
  eip : c.eip < 2 ^ 32
  eflags : c.eflags < 2 ^ 32

end Cpu

/-- The instructions of the upcall. -/
inductive Instr
  | push (r : Reg)
  /-- `movl _pgfault_handler, %eax` -/
  | handler
  | call
  | addEsp (n : ℕ)
  | mov (src dst : Reg)
  /-- `movl off(%esp), dst` -/
  | load (off : ℕ) (dst : Reg)
  /-- `movl src, off(%esp)` -/
  | store (src : Reg) (off : ℕ)
  | popal
  | popfl
  | ret

/-- `_pgfault_upcall`: each instruction with its offset and its size. -/
def pgfaultUpcall : List (ℕ × ℕ × Instr) :=
  [(0, 1, .push .esp), (1, 5, .handler), (6, 2, .call), (8, 3, .addEsp 4),
    (11, 2, .mov .esp .eax), (13, 4, .load 40 .ebx), (17, 4, .load 48 .esp), (21, 1, .push .ebx),
    (22, 2, .mov .esp .ebx), (24, 2, .mov .eax .esp), (26, 4, .store .ebx 48),
    (30, 3, .addEsp 8), (33, 1, .popal), (34, 3, .addEsp 4), (37, 1, .popfl),
    (38, 3, .load 0 .esp), (41, 1, .ret)]

/-- Where the upcall and the variable `_pgfault_handler` are. -/
structure Image where
  upcall : ℕ
  var : ℕ
  low : upcall + 42 ≤ UTOP

/-- Four below, modulo 2 ^ 32. -/
def sub4 (n : ℕ) : ℕ := (n + (2 ^ 32 - 4)) % 2 ^ 32

abbrev ARITH : ℕ := 0x8D5

/-- `CF`, `PF`, `AF`, `ZF`, `SF` and `OF`. -/
def arithBits (cf pf af zf sf vf : Bool) : ℕ :=
  (if cf then 0x1 else 0) ||| (if pf then 0x4 else 0) ||| (if af then 0x10 else 0) ||| (if zf then 0x40 else 0) |||
    (if sf then 0x80 else 0) ||| (if vf then 0x800 else 0)

/-- The flags after the sum of `a` and `b`. -/
def addFlags (fl a b : ℕ) : ℕ :=
  let r := (a + b) % 2 ^ 32
  (fl &&& (2 ^ 32 - 1 - ARITH)) ||| arithBits (2 ^ 32 ≤ a + b) ((List.range 8).countP (r.testBit ·) % 2 = 0)
    (16 ≤ a % 16 + b % 16) (r = 0) (2 ^ 31 ≤ r) ((2 ^ 31 ≤ a) = (2 ^ 31 ≤ b) ∧ (2 ^ 31 ≤ r) ≠ (2 ^ 31 ≤ a))

/-- `popfl` at privilege level 3: `IOPL` stays, and `IF` does if `IOPL` is below 3. -/
def popFlags (fl v : ℕ) : ℕ :=
  let mask := if iopl fl = FL_IOPL_3 then FL_IOPL_3 else FL_IOPL_3 ||| FL_IF
  (v &&& (2 ^ 32 - 1 - mask)) ||| (fl &&& mask)

def exec (g : Image) (size : ℕ) (s : User) : Instr → User :=
  let c := { s.cpu with eip := s.cpu.eip + size }
  let m := s.mem
  fun
  | .push r => ⟨{ c with esp := sub4 c.esp }, m.put32 (sub4 c.esp) (c.get r)⟩
  | .handler => ⟨{ c with eax := m.le32 g.var }, m⟩
  | .call => ⟨{ c with esp := sub4 c.esp, eip := c.eax }, m.put32 (sub4 c.esp) c.eip⟩
  | .addEsp n => ⟨{ c with esp := (c.esp + n) % 2 ^ 32, eflags := addFlags c.eflags c.esp n }, m⟩
  | .mov src dst => ⟨c.set (c.get src) dst, m⟩
  | .load off dst => ⟨c.set (m.le32 ((c.esp + off) % 2 ^ 32)) dst, m⟩
  | .store src off => ⟨c, m.put32 ((c.esp + off) % 2 ^ 32) (c.get src)⟩
  | .popal => ⟨{ c with
      edi := m.le32 c.esp, esi := m.le32 (c.esp + 4), ebp := m.le32 (c.esp + 8), ebx := m.le32 (c.esp + 16),
      edx := m.le32 (c.esp + 20), ecx := m.le32 (c.esp + 24), eax := m.le32 (c.esp + 28),
      esp := (c.esp + 32) % 2 ^ 32 }, m⟩
  | .popfl => ⟨{ c with eflags := popFlags c.eflags (m.le32 c.esp), esp := (c.esp + 4) % 2 ^ 32 }, m⟩
  | .ret => ⟨{ c with eip := m.le32 c.esp, esp := (c.esp + 4) % 2 ^ 32 }, m⟩

/-- The instruction at `eip`, if it is one of the upcall. -/
def step (g : Image) (s : User) : Option User :=
  if g.upcall ≤ s.cpu.eip then
    (pgfaultUpcall.lookup (s.cpu.eip - g.upcall)).map fun i => exec g i.1 s i.2
  else none

/-! ### Faults -/

/-- What the hardware says about a fault, and the useless `esp` of `pusha`. -/
structure PgFault where
  va : ℕ
  err : ℕ
  oesp : ℕ

/-- The words of the `UTrapframe`. -/
def utf (f : PgFault) (c : Cpu) : List ℕ :=
  [f.va, f.err, c.edi, c.esi, c.ebp, f.oesp, c.ebx, c.edx, c.ecx, c.eax, c.eip, c.eflags, c.esp]

/-- The lowest address of the exception stack, which has one page. -/
abbrev UXSTACK : ℕ := UXSTACKTOP - PGSIZE

/-- `page_fault_handler` for an env with the upcall and an exception stack: `none` if the frame does
not fit. -/
def pageFault (g : Image) (f : PgFault) (s : User) : Option User :=
  let (va, len) := utfRange s.cpu.esp
  if UXSTACK ≤ va then
    let m := if len = UTF_SIZE then s.mem else s.mem.put32 (va + UTF_SIZE) 0
    some ⟨{ s.cpu with esp := va, eip := g.upcall }, m.put32s va (utf f s.cpu)⟩
  else none

/-! ### Runs -/

/-- What happens, in order. -/
inductive Ev
  | done
  /-- An instruction of the upcall. -/
  | step (rest : Ev)
  /-- An instruction of the handler: the registers after it, and what it writes. -/
  | own (c : Cpu) (w : List (ℕ × UInt8)) (rest : Ev)
  /-- The handler returns. -/
  | ret (rest : Ev)
  /-- A page fault, and what happens until it is served. -/
  | fault (f : PgFault) (inner rest : Ev)

def writes (m : Block) (w : List (ℕ × UInt8)) : Block := w.foldl (fun m x => update m x.1 x.2) m

def ownStep (c : Cpu) (w : List (ℕ × UInt8)) (s : User) : User := ⟨c, writes s.mem w⟩

def retStep (s : User) : User :=
  ⟨{ s.cpu with eip := s.mem.le32 s.cpu.esp, esp := (s.cpu.esp + 4) % 2 ^ 32 }, s.mem⟩

def run (g : Image) : Ev → User → Option User
  | .done, s => some s
  | .step r, s => (step g s).bind (run g r)
  | .own c w r, s => run g r (ownStep c w s)
  | .ret r, s => run g r (retStep s)
  | .fault f inner r, s => ((pageFault g f s).bind (run g inner)).bind (run g r)

/-- Where the events of a served fault are: in the program that faults, before the instruction `i`
of the upcall, or in the handler, which was entered with `esp`. -/
inductive Phase
  | user
  | code (i : ℕ)
  | hand (esp : ℕ)
  deriving DecidableEq

/-- After an instruction of the upcall; the one at 2 calls the handler. -/
def Phase.next (s : User) : Phase → Phase
  | .code 2 => .hand (sub4 s.cpu.esp)
  | .code i => .code (i + 1)
  | p => p

/-- `P` holds at each event of a run, at any depth. -/
def Each (g : Image) (P : Phase → Ev → User → Prop) (p : Phase) (ev : Ev) (s : User) : Prop :=
  P p ev s ∧ match ev with
    | .done => True
    | .step r => ∀ s', step g s = some s' → Each g P (p.next s) r s'
    | .own c w r => Each g P p r (ownStep c w s)
    | .ret r => Each g P (.code 3) r (retStep s)
    | .fault f inner r => ∀ s', pageFault g f s = some s' → Each g P (.code 0) inner s' ∧
        ∀ s'', run g inner s' = some s'' → Each g P p r s''

abbrev OnStack (esp : ℕ) : Prop := UXSTACK ≤ esp ∧ esp < UXSTACKTOP

/-- A program at privilege level 3 can get from the flags `old` to `new`. -/
def UserFlags (old new : ℕ) : Prop := iopl new = iopl old ∧ (iopl old = FL_IOPL_3 ∨ new &&& FL_IF = old &&& FL_IF)

/-- The events of served faults, as the programs make them. The exception stack does not overflow.
The handler leaves the stack above the `esp` it was entered with, and what it
writes elsewhere is data `D`; the word under the stack of a program that
faults is none. It returns, with that `esp`. -/
def Fits (g : Image) (D : ℕ → Prop) : Phase → Ev → User → Prop
  | .user, .done, _ => True
  | .code i, .done, _ => i = 17
  | .code i, .step _, s => i < 17 ∧ (i ≤ 2 → UXSTACK + 4 ≤ s.cpu.esp)
  | .hand e, .own c w _, s => c.Word ∧ UXSTACK ≤ c.esp ∧ c.esp ≤ e ∧ UserFlags s.cpu.eflags c.eflags ∧
      ∀ x ∈ w, D x.1 ∨ UXSTACK ≤ x.1 ∧ x.1 < e
  | .hand e, .ret _, s => s.cpu.esp = e
  | p, .fault f _ _, s => p ≠ .code 17 ∧ (pageFault g f s).isSome = true ∧
      (¬ OnStack s.cpu.esp → ∀ j < 4, ¬ D (s.cpu.esp - 4 + j))
  | _, _, _ => False

/-- No fault is taken on the trap-time stack in the return sequence, and the word under the stack of a program that
faults is memory below the exception stack, or inside it with the stack. -/
def Safe (p : Phase) (ev : Ev) (s : User) : Prop :=
  match ev with
  | .fault _ _ _ => (p ≠ .code 7 ∧ p ≠ .code 8 ∧ p ≠ .code 9) ∧ (OnStack s.cpu.esp ∨ 4 ≤ s.cpu.esp ∧ s.cpu.esp < UXSTACK)
  | _ => True

/-- A fault is a round trip: the registers are as they were, and so is the exception stack that was in use. -/
def Round (g : Image) (_ : Phase) (ev : Ev) (s : User) : Prop :=
  match ev with
  | .fault f inner _ => ∃ s', (pageFault g f s).bind (run g inner) = some s' ∧ s'.cpu = s.cpu ∧
      (OnStack s.cpu.esp → ∀ a, s.cpu.esp ≤ a → a < UXSTACKTOP → s'.mem a = s.mem a)
  | _ => True

/-! ### Deciding -/

instance (c : Cpu) : Decidable c.Word :=
  decidable_of_iff (c.edi < 2 ^ 32 ∧ c.esi < 2 ^ 32 ∧ c.ebp < 2 ^ 32 ∧ c.ebx < 2 ^ 32 ∧ c.edx < 2 ^ 32 ∧ c.ecx < 2 ^ 32 ∧
    c.eax < 2 ^ 32 ∧ c.esp < 2 ^ 32 ∧ c.eip < 2 ^ 32 ∧ c.eflags < 2 ^ 32)
    ⟨fun ⟨h1, h2, h3, h4, h5, h6, h7, h8, h9, h10⟩ => ⟨h1, h2, h3, h4, h5, h6, h7, h8, h9, h10⟩,
      fun h => ⟨h.edi, h.esi, h.ebp, h.ebx, h.edx, h.ecx, h.eax, h.esp, h.eip, h.eflags⟩⟩

instance (old new : ℕ) : Decidable (UserFlags old new) := inferInstanceAs (Decidable (_ ∧ _))

instance Fits.decidable (g : Image) (D : ℕ → Prop) [DecidablePred D] : ∀ p ev s, Decidable (Fits g D p ev s)
  | .user, .done, _ => isTrue trivial
  | .user, .step _, _ => isFalse id
  | .user, .own _ _ _, _ => isFalse id
  | .user, .ret _, _ => isFalse id
  | .user, .fault f _ _, s => inferInstanceAs (Decidable (_ ≠ _ ∧ (pageFault g f s).isSome = true ∧
      (¬ OnStack s.cpu.esp → ∀ j < 4, ¬ D (s.cpu.esp - 4 + j))))
  | .code i, .done, _ => inferInstanceAs (Decidable (i = 17))
  | .code i, .step _, s => inferInstanceAs (Decidable (i < 17 ∧ (i ≤ 2 → UXSTACK + 4 ≤ s.cpu.esp)))
  | .code _, .own _ _ _, _ => isFalse id
  | .code _, .ret _, _ => isFalse id
  | .code i, .fault f _ _, s => inferInstanceAs (Decidable (Phase.code i ≠ _ ∧ (pageFault g f s).isSome = true ∧
      (¬ OnStack s.cpu.esp → ∀ j < 4, ¬ D (s.cpu.esp - 4 + j))))
  | .hand _, .done, _ => isFalse id
  | .hand _, .step _, _ => isFalse id
  | .hand e, .own c w _, s => inferInstanceAs (Decidable (c.Word ∧ UXSTACK ≤ c.esp ∧ c.esp ≤ e ∧ UserFlags s.cpu.eflags c.eflags ∧
      ∀ x ∈ w, D x.1 ∨ UXSTACK ≤ x.1 ∧ x.1 < e))
  | .hand e, .ret _, s => inferInstanceAs (Decidable (s.cpu.esp = e))
  | .hand e, .fault f _ _, s => inferInstanceAs (Decidable (Phase.hand e ≠ _ ∧ (pageFault g f s).isSome = true ∧
      (¬ OnStack s.cpu.esp → ∀ j < 4, ¬ D (s.cpu.esp - 4 + j))))

instance Safe.decidable (p : Phase) : ∀ ev s, Decidable (Safe p ev s)
  | .fault _ _ _, s => inferInstanceAs (Decidable ((p ≠ .code 7 ∧ p ≠ .code 8 ∧ p ≠ .code 9) ∧
      (OnStack s.cpu.esp ∨ 4 ≤ s.cpu.esp ∧ s.cpu.esp < UXSTACK)))
  | .done, _ => isTrue trivial
  | .step _, _ => isTrue trivial
  | .own _ _ _, _ => isTrue trivial
  | .ret _, _ => isTrue trivial

def decideSome {α : Type} {Q : α → Prop} (hQ : ∀ a, Decidable (Q a)) : ∀ o : Option α, Decidable (∀ a, o = some a → Q a)
  | none => isTrue fun _ h => nomatch h
  | some a => decidable_of_iff (Q a) ⟨fun h _ he => Option.some.inj he ▸ h, fun h => h a rfl⟩

instance Each.decidable (g : Image) (P : Phase → Ev → User → Prop) [hP : ∀ p ev s, Decidable (P p ev s)] :
    ∀ ev p s, Decidable (Each g P p ev s)
  | .done, p, s => @instDecidableAnd _ _ (hP p .done s) (isTrue trivial)
  | .step r, p, s => @instDecidableAnd _ _ (hP ..) (decideSome (fun s' => Each.decidable g P r (p.next s) s') _)
  | .own c w r, p, s => @instDecidableAnd _ _ (hP ..) (Each.decidable g P r p (ownStep c w s))
  | .ret r, _, s => @instDecidableAnd _ _ (hP ..) (Each.decidable g P r (.code 3) (retStep s))
  | .fault _ inner r, p, _ => @instDecidableAnd _ _ (hP ..) (decideSome (fun s' =>
      @instDecidableAnd _ _ (Each.decidable g P inner (.code 0) s') (decideSome (fun s'' => Each.decidable g P r p s'') _)) _)

/-! ### Flags -/

theorem UserFlags.refl (fl : ℕ) : UserFlags fl fl := ⟨rfl, .inr rfl⟩

theorem UserFlags.trans {a b c : ℕ} (h : UserFlags a b) (h' : UserFlags b c) : UserFlags a c := by
  refine ⟨h'.1.trans h.1, ?_⟩
  rcases h.2 with h2 | h2
  · exact .inl h2
  · rcases h'.2 with h3 | h3
    · exact .inl (h.1.symm.trans h3)
    · exact .inr (h3.trans h2)

/-- Arithmetic leaves `IOPL` and `IF`. -/
theorem addFlags_user (fl a b : ℕ) : UserFlags fl (addFlags fl a b) := by
  have hbits : ∀ cf pf af zf sf vf, arithBits cf pf af zf sf vf &&& FL_IOPL_3 = 0 ∧ arithBits cf pf af zf sf vf &&& FL_IF = 0 := by
    decide
  have hand : ∀ mask, (2 ^ 32 - 1 - ARITH) &&& mask = mask → (∀ cf pf af zf sf vf, arithBits cf pf af zf sf vf &&& mask = 0) →
      addFlags fl a b &&& mask = fl &&& mask := fun mask hm hb => by
    unfold addFlags
    rw [Nat.and_or_distrib_right, hb, Nat.or_zero, Nat.and_assoc, hm]
  exact ⟨hand _ (by decide) fun _ _ _ _ _ _ => (hbits ..).1, .inr (hand _ (by decide) fun _ _ _ _ _ _ => (hbits ..).2)⟩

/-- The flags of the frame are those the program had, up to what it may change. -/
theorem popFlags_eq {fl v : ℕ} (hv : v < 2 ^ 32) (h : UserFlags v fl) : popFlags fl v = v := by
  have hmerge : ∀ mask, (2 ^ 32 - 1 - mask) ||| mask = 2 ^ 32 - 1 → fl &&& mask = v &&& mask →
      (v &&& (2 ^ 32 - 1 - mask)) ||| (fl &&& mask) = v := fun mask hm he => by
    rw [he, ← Nat.and_or_distrib_left, hm, Nat.and_two_pow_sub_one_eq_mod, Nat.mod_eq_of_lt hv]
  have hiopl : fl &&& FL_IOPL_3 = v &&& FL_IOPL_3 := h.1
  unfold popFlags
  dsimp only
  split_ifs with hc
  · exact hmerge _ (by decide) hiopl
  · refine hmerge _ (by decide) ?_
    rw [Nat.and_or_distrib_left, Nat.and_or_distrib_left, hiopl, h.2.resolve_left fun hv => hc (h.1.trans hv)]

theorem addFlags_lt (fl a b : ℕ) : addFlags fl a b < 2 ^ 32 := by
  have hbits : ∀ cf pf af zf sf vf, arithBits cf pf af zf sf vf < 2 ^ 32 := by decide
  exact Nat.or_lt_two_pow (Nat.and_lt_two_pow _ (by decide)) (hbits ..)

/-! ### The state at each instruction -/

def offset (i : ℕ) : ℕ := (pgfaultUpcall.getD i (42, 0, .ret)).1

/-- `esp` before the instruction `i`, for a fault of `c` with the frame at `F` and the word under its stack at `w`. -/
def espAt (c : Cpu) (F w i : ℕ) : ℕ :=
  [F, F - 4, F - 4, F - 4, F, F, F, c.esp, w, w, F, F, F + 8, F + 40, F + 44, F + 48, w].getD i c.esp

/-- The other registers. -/
structure RegsAt (t : Cpu) (F w i : ℕ) (c : Cpu) : Prop where
  eax : 5 ≤ i → i ≤ 9 → c.eax = F
  ebx : 6 ≤ i → i ≤ 7 → c.ebx = t.eip
  back : 9 ≤ i → i ≤ 10 → c.ebx = w
  all : 13 ≤ i → c.edi = t.edi ∧ c.esi = t.esi ∧ c.ebp = t.ebp ∧ c.ebx = t.ebx ∧ c.edx = t.edx ∧ c.ecx = t.ecx ∧ c.eax = t.eax
  eflags : 15 ≤ i → c.eflags = t.eflags

/-- What is left of the frame, and the word under the trap-time stack. -/
structure MemAt (t : Cpu) (F w i : ℕ) (m : Block) : Prop where
  regs : i ≤ 12 → m.le32 (F + 8) = t.edi ∧ m.le32 (F + 12) = t.esi ∧ m.le32 (F + 16) = t.ebp ∧ m.le32 (F + 24) = t.ebx ∧
    m.le32 (F + 28) = t.edx ∧ m.le32 (F + 32) = t.ecx ∧ m.le32 (F + 36) = t.eax
  eip : i ≤ 5 → m.le32 (F + 40) = t.eip
  eflags : i ≤ 14 → m.le32 (F + 44) = t.eflags
  esp : i ≤ 6 → m.le32 (F + 48) = t.esp
  back : 11 ≤ i → i ≤ 15 → m.le32 (F + 48) = w
  ret : 8 ≤ i → i ≤ 16 → m.le32 w = t.eip

/-- The bytes that serving a fault of `t` may change. -/
def Touched (D : ℕ → Prop) (t : Cpu) (a : ℕ) : Prop :=
  D a ∨ (UXSTACK ≤ a ∧ a < UXSTACKTOP ∧ (OnStack t.esp → a < t.esp)) ∨ (¬ OnStack t.esp ∧ a < t.esp)

/-- A fault of `t` with the frame at `F`: the word `w` under the stack is right above the frame, or
below the exception stack and not data. -/
structure Served (D : ℕ → Prop) (t : Cpu) (F w : ℕ) : Prop where
  word : t.Word
  under : w + 4 = t.esp
  room : UXSTACK ≤ F
  place : (OnStack t.esp ∧ w = F + 52) ∨ (¬ OnStack t.esp ∧ F + 52 = UXSTACKTOP ∧ t.esp < UXSTACK ∧ ∀ j < 4, ¬ D (w + j))

/-- Before the instruction `i`, in serving a fault of `t` with the frame at `F`. -/
structure At (g : Image) (D : ℕ → Prop) (t : User) (F w i : ℕ) (s : User) : Prop where
  eip : s.cpu.eip = if i = 17 then t.cpu.eip else g.upcall + offset i
  esp : s.cpu.esp = espAt t.cpu F w i
  word : s.cpu.Word
  flags : UserFlags t.cpu.eflags s.cpu.eflags
  regs : RegsAt t.cpu F w i s.cpu
  mem : MemAt t.cpu F w i s.mem
  kept : ∀ a, ¬ Touched D t.cpu a → s.mem a = t.mem a
  low : 0 < i → UXSTACK + 4 ≤ F

section
variable {g : Image} {D : ℕ → Prop} {t s s' : User} {F w i : ℕ}

theorem sub4_lt (n : ℕ) : sub4 n < 2 ^ 32 := Nat.mod_lt _ (by decide)

theorem sub4_of_le {n : ℕ} (h : 4 ≤ n) (h' : n < 2 ^ 32) : sub4 n = n - 4 := by
  unfold sub4
  omega

/-- The instruction at its address. -/
theorem step_at (hi : i < 17) (h : s.cpu.eip = g.upcall + offset i) :
    step g s = some (exec g (offset (i + 1) - offset i) s (pgfaultUpcall.getD i (42, 0, .ret)).2.2) := by
  unfold step
  rw [if_pos (by omega), h, Nat.add_sub_cancel_left]
  interval_cases i <;> rfl

/-- An instruction before the last one. -/
def Inner (i : ℕ) : Prop := i + 1 < 17 ∧ offset i ≤ offset (i + 1) ∧ offset (i + 1) ≤ 42

instance (i : ℕ) : Decidable (Inner i) := inferInstanceAs (Decidable (_ ∧ _))

/-- It goes on with the next one. -/
theorem At.eip_next {e : ℕ} (h : At g D t F w i s) (hi : Inner i) (he : e = s.cpu.eip + (offset (i + 1) - offset i)) :
    e = (if i + 1 = 17 then t.cpu.eip else g.upcall + offset (i + 1)) ∧ e < 2 ^ 32 := by
  obtain ⟨hi, hle, h42⟩ := hi
  have hU : UTOP < 2 ^ 32 := by decide
  have hlow := g.low
  rw [h.eip, if_neg (by omega)] at he
  rw [if_neg (by omega)]
  omega

/-- The words of the frame that are still in use stay. -/
theorem MemAt.move {m m' : Block} {j : ℕ} (h : MemAt t.cpu F w i m) (hij : i ≤ j)
    (hle : ∀ n ≤ 48, n ≤ 36 ∧ j ≤ 12 ∨ n = 40 ∧ j ≤ 5 ∨ n = 44 ∧ j ≤ 14 ∨ n = 48 ∧ j ≤ 6 → 8 ≤ n →
      m'.le32 (F + n) = m.le32 (F + n))
    (hback : 11 ≤ j → j ≤ 15 → m'.le32 (F + 48) = w) (hret : 8 ≤ j → j ≤ 16 → m'.le32 w = t.cpu.eip) :
    MemAt t.cpu F w j m' := by
  refine ⟨fun hj => ?_, fun hj => ?_, fun hj => ?_, fun hj => ?_, hback, hret⟩
  · have hregs : ∀ n ≤ 36, 8 ≤ n → m'.le32 (F + n) = m.le32 (F + n) := fun n hn => hle n (by omega) (.inl ⟨hn, hj⟩)
    rw [hregs 8, hregs 12, hregs 16, hregs 24, hregs 28, hregs 32, hregs 36]
    · exact h.regs (by omega)
    all_goals decide
  · exact (hle 40 (by omega) (by omega) (by omega)).trans (h.eip (by omega))
  · exact (hle 44 (by omega) (by omega) (by omega)).trans (h.eflags (by omega))
  · exact (hle 48 (by omega) (by omega) (by omega)).trans (h.esp (by omega))

/-- An instruction that does not write. -/
theorem At.quiet {c : Cpu} (h : At g D t F w i s) (hi : i ≠ 0 ∧ i ≠ 7 ∧ i ≠ 10)
    (heip : c.eip = if i + 1 = 17 then t.cpu.eip else g.upcall + offset (i + 1))
    (hesp : c.esp = espAt t.cpu F w (i + 1)) (hword : c.Word) (hflags : UserFlags t.cpu.eflags c.eflags)
    (hregs : RegsAt t.cpu F w (i + 1) c) : At g D t F w (i + 1) ⟨c, s.mem⟩ := by
  have hm := h.mem
  exact ⟨heip, hesp, hword, hflags, hregs, hm.move (by omega) (fun _ _ _ _ => rfl)
    (fun h1 h2 => hm.back (by omega) (by omega)) fun h1 h2 => hm.ret (by omega) (by omega), h.kept,
    fun _ => h.low (Nat.pos_of_ne_zero hi.1)⟩

theorem RegsAt.none {c : Cpu} (hi : i ≤ 4 ∨ i = 11 ∨ i = 12) : RegsAt t.cpu F w i c :=
  ⟨by omega, by omega, by omega, by omega, by omega⟩

/-- `movl` and the like: only a register that the frame brings back changes, or `esp`. -/
theorem At.quiet_regs {c : Cpu} (h : At g D t F w i s) (hi : (i ≠ 0 ∧ i ≠ 7 ∧ i ≠ 10) ∧ Inner i)
    (heip : c.eip = s.cpu.eip + (offset (i + 1) - offset i)) (hesp : c.esp = espAt t.cpu F w (i + 1))
    (hword : c.eip < 2 ^ 32 → c.Word) (hflags : UserFlags t.cpu.eflags c.eflags)
    (hregs : RegsAt t.cpu F w (i + 1) c) : At g D t F w (i + 1) ⟨c, s.mem⟩ := by
  obtain ⟨h1, h2⟩ := h.eip_next hi.2 heip
  exact h.quiet hi.1 h1 hesp (hword h2) hflags hregs

theorem Served.le_top (hv : Served D t.cpu F w) : F + 52 ≤ UXSTACKTOP := by
  have := hv.under
  rcases hv.place with ⟨h1, h2⟩ | ⟨-, h2, -⟩ <;> omega

/-- What is under the end of the frame may change. -/
theorem Served.touched_frame (hv : Served D t.cpu F w) {a : ℕ} (h1 : UXSTACK ≤ a) (h2 : a < F + 52) : Touched D t.cpu a := by
  have hu := hv.under
  have htop := hv.le_top
  refine .inr (.inl ⟨h1, by omega, fun hs => ?_⟩)
  rcases hv.place with ⟨-, h⟩ | ⟨h, -⟩
  · omega
  · exact absurd hs h

theorem Served.touched_word (hv : Served D t.cpu F w) {a : ℕ} (h1 : w ≤ a) (h2 : a < w + 4) : Touched D t.cpu a := by
  have hu := hv.under
  have hroom := hv.room
  rcases hv.place with ⟨h, h3⟩ | ⟨h, -⟩
  · exact .inr (.inl ⟨by omega, by omega, fun _ => by omega⟩)
  · exact .inr (.inr ⟨h, by omega⟩)

/-- A word of the frame is not the word under the stack. -/
theorem Served.apart (hv : Served D t.cpu F w) {a : ℕ} (h1 : F ≤ a) (h2 : a + 4 ≤ F + 52) : a + 4 ≤ w ∨ w + 4 ≤ a := by
  have hu := hv.under
  have hroom := hv.room
  rcases hv.place with ⟨-, h⟩ | ⟨-, -, h, -⟩ <;> omega

/-- An instruction that writes a word. -/
theorem At.write {c : Cpu} {a v : ℕ} (h : At g D t F w i s) (hi : Inner i)
    (heip : c.eip = s.cpu.eip + (offset (i + 1) - offset i))
    (hesp : c.esp = espAt t.cpu F w (i + 1)) (hword : c.eip < 2 ^ 32 → c.Word) (hflags : UserFlags t.cpu.eflags c.eflags)
    (hregs : RegsAt t.cpu F w (i + 1) c) (hmem : MemAt t.cpu F w (i + 1) (s.mem.put32 a v))
    (htouch : ∀ b, a ≤ b → b < a + 4 → Touched D t.cpu b) (hlow : UXSTACK + 4 ≤ F) :
    At g D t F w (i + 1) ⟨c, s.mem.put32 a v⟩ := by
  obtain ⟨h1, h2⟩ := h.eip_next hi heip
  refine ⟨h1, hesp, hword h2, hflags, hregs, hmem, fun b hb => ?_, fun _ => hlow⟩
  rw [← h.kept b hb]
  refine Block.put32_out ?_
  by_contra hc
  exact hb (htouch b (by omega) (by omega))

/-- The instructions but the call. -/
theorem At.instr (h : At g D t F w i s) (hv : Served D t.cpu F w) (hi : i < 17) (h2 : i ≠ 2) (h0 : i = 0 → UXSTACK + 4 ≤ F) :
    ∃ s', step g s = some s' ∧ At g D t F w (i + 1) s' := by
  have heip : s.cpu.eip = g.upcall + offset i := h.eip.trans (if_neg (by omega))
  refine ⟨_, step_at hi heip, ?_⟩
  have hesp := h.esp
  have hw := h.word
  have hflags := h.flags
  have hm := h.mem
  have hX : 4 ≤ UXSTACK ∧ UXSTACKTOP + 4 < 2 ^ 32 := by decide
  have hroom := hv.room
  have hF := hv.le_top
  have hadd : ∀ n ≤ 52, (F + n) % 2 ^ 32 = F + n := fun n hn => Nat.mod_eq_of_lt (by omega)
  interval_cases i
  · have hsub : sub4 s.cpu.esp = F - 4 := by
      rw [show s.cpu.esp = F from hesp]
      exact sub4_of_le (by omega) (by omega)
    have hx : exec g (offset (0 + 1) - offset 0) s (pgfaultUpcall.getD 0 (42, 0, .ret)).2.2 =
        ⟨{ s.cpu with eip := s.cpu.eip + 1, esp := sub4 s.cpu.esp }, s.mem.put32 (sub4 s.cpu.esp) s.cpu.esp⟩ := rfl
    have hlow := h0 rfl
    have hout : ∀ a, F ≤ a → (s.mem.put32 (F - 4) s.cpu.esp).le32 a = s.mem.le32 a := fun a ha =>
      Block.le32_put32_out (by omega)
    rw [hx, hsub]
    exact h.write (by decide) rfl rfl (fun he => { hw with esp := show F - 4 < 2 ^ 32 by omega, eip := he }) hflags (.none (by decide))
      (hm.move (by decide) (fun _ _ _ _ => hout _ (by omega)) (by omega) (by omega))
      (fun b h1 h2 => hv.touched_frame (by omega) (by omega)) hlow
  · exact h.quiet_regs (by decide) rfl hesp
      (fun he => { hw with eax := Block.le32_lt _ _, eip := he }) hflags (.none (by decide))
  · exact absurd rfl h2
  · have hesp' : (s.cpu.esp + 4) % 2 ^ 32 = F := by
      rw [show s.cpu.esp = F - 4 from hesp]
      omega
    exact h.quiet_regs (by decide) rfl hesp'
      (fun he => { hw with esp := Nat.mod_lt _ (by decide), eip := he, eflags := addFlags_lt .. })
      (hflags.trans (addFlags_user ..)) (.none (by decide))
  · exact h.quiet_regs (by decide) rfl hesp
      (fun he => { hw with eax := hw.esp, eip := he }) hflags
      ⟨fun _ _ => hesp, by omega, by omega, by omega, by omega⟩
  · have hebx : s.mem.le32 ((s.cpu.esp + 40) % 2 ^ 32) = t.cpu.eip := by
      rw [hesp, show espAt t.cpu F w 5 = F from rfl, hadd 40 (by decide)]
      exact hm.eip (by decide)
    exact h.quiet_regs (by decide) rfl hesp
      (fun he => { hw with ebx := Block.le32_lt _ _, eip := he }) hflags
      ⟨fun _ _ => h.regs.eax (by decide) (by decide), fun _ _ => hebx, by omega, by omega, by omega⟩
  · have hesp' : s.mem.le32 ((s.cpu.esp + 48) % 2 ^ 32) = t.cpu.esp := by
      rw [hesp, show espAt t.cpu F w 6 = F from rfl, hadd 48 (by decide)]
      exact hm.esp (by decide)
    exact h.quiet_regs (by decide) rfl hesp'
      (fun he => { hw with esp := Block.le32_lt _ _, eip := he }) hflags
      ⟨fun _ _ => h.regs.eax (by decide) (by decide), fun _ _ => h.regs.ebx (by decide) (by decide), by omega, by omega, by omega⟩
  · have hsub : sub4 s.cpu.esp = w := by
      have hu := hv.under
      rw [show s.cpu.esp = t.cpu.esp from hesp, sub4_of_le (by omega) hv.word.esp]
      omega
    have hx : exec g (offset (7 + 1) - offset 7) s (pgfaultUpcall.getD 7 (42, 0, .ret)).2.2 =
        ⟨{ s.cpu with eip := s.cpu.eip + 1, esp := sub4 s.cpu.esp }, s.mem.put32 (sub4 s.cpu.esp) s.cpu.ebx⟩ := rfl
    have hout : ∀ n ≤ 48, (s.mem.put32 w s.cpu.ebx).le32 (F + n) = s.mem.le32 (F + n) := fun n hn =>
      Block.le32_put32_out (hv.apart (by omega) (by omega))
    rw [hx, hsub]
    refine h.write (by decide) rfl rfl (fun he => { hw with esp := hsub ▸ sub4_lt _, eip := he }) hflags
      ⟨fun _ _ => h.regs.eax (by decide) (by decide), by omega, by omega, by omega, by omega⟩
      (hm.move (by decide) (fun n hn _ _ => hout n hn) (by omega) fun _ _ => ?_)
      (fun b h1 h2 => hv.touched_word h1 h2) (h.low (by decide))
    rw [Block.le32_put32, h.regs.ebx (by decide) (by decide), Nat.mod_eq_of_lt hv.word.eip]
  · exact h.quiet_regs (by decide) rfl hesp
      (fun he => { hw with ebx := hw.esp, eip := he }) hflags
      ⟨fun _ _ => h.regs.eax (by decide) (by decide), by omega, fun _ _ => hesp, by omega, by omega⟩
  · exact h.quiet_regs (by decide) rfl (h.regs.eax (by decide) (by decide))
      (fun he => { hw with esp := hw.eax, eip := he }) hflags
      ⟨by omega, by omega, fun _ _ => h.regs.back (by decide) (by decide), by omega, by omega⟩
  · have hadr : (s.cpu.esp + 48) % 2 ^ 32 = F + 48 := by
      rw [show s.cpu.esp = F from hesp]
      exact hadd 48 (by decide)
    have hx : exec g (offset (10 + 1) - offset 10) s (pgfaultUpcall.getD 10 (42, 0, .ret)).2.2 =
        ⟨{ s.cpu with eip := s.cpu.eip + 4 }, s.mem.put32 ((s.cpu.esp + 48) % 2 ^ 32) s.cpu.ebx⟩ := rfl
    have hout : ∀ n ≤ 44, (s.mem.put32 (F + 48) s.cpu.ebx).le32 (F + n) = s.mem.le32 (F + n) := fun n hn =>
      Block.le32_put32_out (by omega)
    have hebx : s.cpu.ebx = w := h.regs.back (by decide) (by decide)
    rw [hx, hadr]
    refine h.write (by decide) rfl hesp (fun he => { hw with eip := he }) hflags (.none (by decide))
      (hm.move (by decide) (fun n _ hn _ => hout n (by omega)) (fun _ _ => ?_) fun _ _ => ?_)
      (fun b h1 h2 => hv.touched_frame (by omega) (by omega)) (h.low (by decide))
    · rw [Block.le32_put32, Nat.mod_eq_of_lt hw.ebx, hebx]
    · rw [Block.le32_put32_out (hv.apart (by omega) (by omega)).symm]
      exact hm.ret (by decide) (by decide)
  · have hesp' : (s.cpu.esp + 8) % 2 ^ 32 = F + 8 := by
      rw [show s.cpu.esp = F from hesp]
      omega
    exact h.quiet_regs (by decide) rfl hesp'
      (fun he => { hw with esp := Nat.mod_lt _ (by decide), eip := he, eflags := addFlags_lt .. })
      (hflags.trans (addFlags_user ..)) (.none (by decide))
  · have hesp' : (s.cpu.esp + 32) % 2 ^ 32 = F + 40 := by
      rw [show s.cpu.esp = F + 8 from hesp]
      omega
    refine h.quiet_regs (by decide) rfl hesp'
      (fun he => ⟨Block.le32_lt _ _, Block.le32_lt _ _, Block.le32_lt _ _, Block.le32_lt _ _, Block.le32_lt _ _, Block.le32_lt _ _,
        Block.le32_lt _ _, Nat.mod_lt _ (by decide), he, hw.eflags⟩) hflags
      ⟨by omega, by omega, by omega, fun _ => ?_, by omega⟩
    show s.mem.le32 s.cpu.esp = _ ∧ s.mem.le32 (s.cpu.esp + 4) = _ ∧ s.mem.le32 (s.cpu.esp + 8) = _ ∧ s.mem.le32 (s.cpu.esp + 16) = _ ∧
      s.mem.le32 (s.cpu.esp + 20) = _ ∧ s.mem.le32 (s.cpu.esp + 24) = _ ∧ s.mem.le32 (s.cpu.esp + 28) = _
    rw [show s.cpu.esp = F + 8 from hesp]
    exact hm.regs (by decide)
  · have hesp' : (s.cpu.esp + 4) % 2 ^ 32 = F + 44 := by
      rw [show s.cpu.esp = F + 40 from hesp]
      omega
    exact h.quiet_regs (by decide) rfl hesp'
      (fun he => { hw with esp := Nat.mod_lt _ (by decide), eip := he, eflags := addFlags_lt .. })
      (hflags.trans (addFlags_user ..)) ⟨by omega, by omega, by omega, fun _ => h.regs.all (by decide), by omega⟩
  · have hesp' : (s.cpu.esp + 4) % 2 ^ 32 = F + 48 := by
      rw [show s.cpu.esp = F + 44 from hesp]
      omega
    have hpop : popFlags s.cpu.eflags (s.mem.le32 s.cpu.esp) = t.cpu.eflags := by
      rw [hesp, show s.mem.le32 (espAt t.cpu F w 14) = t.cpu.eflags from hm.eflags (by decide)]
      exact popFlags_eq hv.word.eflags hflags
    refine h.quiet_regs (by decide) rfl hesp'
      (fun he => { hw with esp := Nat.mod_lt _ (by decide), eip := he, eflags := ?_ }) ?_
      ⟨by omega, by omega, by omega, fun _ => h.regs.all (by decide), fun _ => hpop⟩
    · exact hpop ▸ hv.word.eflags
    · exact hpop ▸ UserFlags.refl _
  · have hesp' : s.mem.le32 ((s.cpu.esp + 0) % 2 ^ 32) = w := by
      rw [hesp, show espAt t.cpu F w 15 = F + 48 from rfl, Nat.add_zero, hadd 48 (by decide)]
      exact hm.back (by decide) (by decide)
    exact h.quiet_regs (by decide) rfl hesp'
      (fun he => { hw with esp := Block.le32_lt _ _, eip := he }) hflags
      ⟨by omega, by omega, by omega, fun _ => h.regs.all (by decide), fun _ => h.regs.eflags (by decide)⟩
  · have heip' : s.mem.le32 s.cpu.esp = t.cpu.eip := by
      rw [hesp]
      exact hm.ret (by decide) (by decide)
    have hesp' : (s.cpu.esp + 4) % 2 ^ 32 = t.cpu.esp := by
      rw [show s.cpu.esp = w from hesp, hv.under, Nat.mod_eq_of_lt hv.word.esp]
    exact h.quiet (by decide) heip' hesp'
      { hw with esp := Nat.mod_lt _ (by decide), eip := Block.le32_lt _ _ } hflags
      ⟨by omega, by omega, by omega, fun _ => h.regs.all (by decide), fun _ => h.regs.eflags (by decide)⟩

/-! ### The handler -/

/-- In the handler, which was entered with `e`. -/
structure InHandler (g : Image) (D : ℕ → Prop) (t : User) (F w e : ℕ) (s : User) : Prop where
  entry : e + 8 = F
  low : UXSTACK ≤ s.cpu.esp
  high : s.cpu.esp ≤ e
  word : s.cpu.Word
  flags : UserFlags t.cpu.eflags s.cpu.eflags
  ret : s.mem.le32 e = g.upcall + offset 3
  mem : MemAt t.cpu F w 3 s.mem
  kept : ∀ a, ¬ Touched D t.cpu a → s.mem a = t.mem a

/-- The words of the frame, when the frame is the same. -/
theorem MemAt.congr {m m' : Block} (h : MemAt t.cpu F w i m) (hi : i ≤ 3) (hm : ∀ a, F ≤ a → a < F + 52 → m' a = m a) :
    MemAt t.cpu F w 3 m' :=
  h.move hi (fun n hn _ _ => Block.le32_congr fun j hj => hm _ (by omega) (by omega)) (by omega) (by omega)

theorem At.call (h : At g D t F w 2 s) (hv : Served D t.cpu F w) (hlow : UXSTACK + 4 ≤ s.cpu.esp) :
    ∃ s', step g s = some s' ∧ InHandler g D t F w (sub4 s.cpu.esp) s' := by
  have hesp : s.cpu.esp = F - 4 := h.esp
  have heip : s.cpu.eip = g.upcall + offset 2 := h.eip
  have hX : 8 ≤ UXSTACK ∧ UXSTACKTOP + 4 < 2 ^ 32 ∧ UTOP < 2 ^ 32 := by decide
  have hF := hv.le_top
  have hroom := hv.room
  have hg := g.low
  have hsub : sub4 s.cpu.esp = F - 8 := by
    rw [sub4_of_le (by omega) h.word.esp]
    omega
  have hx : step g s = some ⟨{ s.cpu with esp := sub4 s.cpu.esp, eip := s.cpu.eax }, s.mem.put32 (sub4 s.cpu.esp) (s.cpu.eip + 2)⟩ :=
    step_at (by decide) heip
  have hout : ∀ a, F ≤ a → (s.mem.put32 (F - 8) (s.cpu.eip + 2)) a = s.mem a := fun a ha => Block.put32_out (by omega)
  refine ⟨_, hx, ?_⟩
  rw [hsub]
  refine ⟨by omega, show UXSTACK ≤ F - 8 by omega, le_refl (F - 8), { h.word with
    esp := show F - 8 < 2 ^ 32 by omega, eip := h.word.eax }, h.flags, ?_, ?_, fun a ha => ?_⟩
  · have h3 : offset 3 = offset 2 + 2 ∧ offset 3 ≤ 42 := by decide
    rw [Block.le32_put32, heip, h3.1]
    omega
  · exact h.mem.congr (by decide) fun a h1 _ => hout a h1
  · rw [← h.kept a ha]
    refine Block.put32_out ?_
    by_contra hc
    exact ha (hv.touched_frame (by omega) (by omega))

theorem writes_out {a : ℕ} : ∀ {ws : List (ℕ × UInt8)} {m : Block}, (∀ x ∈ ws, x.1 ≠ a) → writes m ws a = m a
  | [], _, _ => rfl
  | x :: ws, m, h => by
    have hrest : writes (update m x.1 x.2) ws a = update m x.1 x.2 a :=
      writes_out fun y hy => h y (.tail _ hy)
    exact hrest.trans (update_of_ne (fun hc => h x (.head _) hc.symm) ..)

/-- An instruction of the handler. -/
theorem InHandler.own {e : ℕ} {c : Cpu} {ws : List (ℕ × UInt8)} (h : InHandler g D t F w e s) (hv : Served D t.cpu F w)
    (hD : ∀ a, D a → ¬ OnStack a) (hc : c.Word) (h1 : UXSTACK ≤ c.esp) (h2 : c.esp ≤ e) (hf : UserFlags s.cpu.eflags c.eflags)
    (hw : ∀ x ∈ ws, D x.1 ∨ UXSTACK ≤ x.1 ∧ x.1 < e) : InHandler g D t F w e (ownStep c ws s) := by
  have he := h.entry
  have hF := hv.le_top
  have hlow := h.low
  have hhigh := h.high
  have hout : ∀ a, e ≤ a → a < F + 52 → writes s.mem ws a = s.mem a := fun a ha1 ha2 => writes_out fun x hx hxa => by
    rcases hw x hx with hd | hd
    · exact hD _ hd ⟨by omega, by omega⟩
    · omega
  refine ⟨he, h1, h2, hc, h.flags.trans hf, ?_, h.mem.congr le_rfl fun a ha1 ha2 => hout a (by omega) ha2, fun a ha => ?_⟩
  · exact (Block.le32_congr fun j hj => hout _ (by omega) (by omega)).trans h.ret
  · rw [← h.kept a ha]
    refine writes_out fun x hx hxa => ha ?_
    rcases hw x hx with hd | hd
    · exact .inl (hxa ▸ hd)
    · exact hv.touched_frame (by omega) (by omega)

/-- The handler returns. -/
theorem InHandler.back {e : ℕ} (h : InHandler g D t F w e s) (hv : Served D t.cpu F w) (he : s.cpu.esp = e) :
    At g D t F w 3 (retStep s) := by
  have hX : UXSTACKTOP + 4 < 2 ^ 32 ∧ UTOP < 2 ^ 32 ∧ 4 ≤ UXSTACK := by decide
  have hF := hv.le_top
  have hentry := h.entry
  have hlow := h.low
  refine ⟨by rw [← h.ret, ← he]; rfl, show (s.cpu.esp + 4) % 2 ^ 32 = F - 4 by omega, { h.word with
    eip := Block.le32_lt _ _, esp := Nat.mod_lt _ (by decide) }, h.flags, .none (by decide), h.mem, h.kept, fun _ => by omega⟩

/-! ### Nested faults -/

/-- The words that serving a fault of `s` leaves, when the stack pointer is on the exception stack. -/
theorem untouched_above (hD : ∀ a, D a → ¬ OnStack a) (hs : OnStack s.cpu.esp) {a : ℕ} (h1 : s.cpu.esp ≤ a) (h2 : a < UXSTACKTOP) :
    ¬ Touched D s.cpu a := by
  rintro (hc | ⟨-, -, hc⟩ | ⟨hc, -⟩)
  · exact hD a hc ⟨by omega, h2⟩
  · exact absurd (hc hs) (by omega)
  · exact hc hs

/-- Off the exception stack, too, what is at the stack pointer stays. -/
theorem untouched_off (_ : ¬ OnStack s.cpu.esp) {a : ℕ} (h1 : s.cpu.esp ≤ a) (h2 : a < UXSTACK) (hd : ¬ D a) :
    ¬ Touched D s.cpu a := by
  rintro (hc | ⟨hc, -⟩ | ⟨-, hc⟩)
  · exact hd hc
  · omega
  · omega

/-- Before the instructions that run on the exception stack, `esp` is in the frame or just under it. -/
theorem At.onStack (h : At g D t F w i s) (hv : Served D t.cpu F w) (hi : i < 16) (h7 : i ≠ 7) (h8 : i ≠ 8) (h9 : i ≠ 9) :
    OnStack s.cpu.esp ∧ s.cpu.esp ≤ F + 48 ∧ (i ≤ 11 → s.cpu.esp ≤ F) ∧ (i = 12 → s.cpu.esp = F + 8) ∧ (i = 13 → s.cpu.esp = F + 40) ∧
      (i = 14 → s.cpu.esp = F + 44) ∧ (i = 15 → s.cpu.esp = F + 48) := by
  have hroom := hv.room
  have htop := hv.le_top
  have hlow := h.low
  have hesp := h.esp
  unfold OnStack
  interval_cases i <;> simp only [espAt, List.getD_cons_succ, List.getD_cons_zero] at hesp <;> omega

/-- What a fault inside may change, the fault around it may. -/
theorem Touched.mono {a : ℕ} (h : Touched D s.cpu a) (hv : Served D t.cpu F w)
    (hs : OnStack s.cpu.esp ∧ s.cpu.esp ≤ F + 52 ∨ ¬ OnStack s.cpu.esp ∧ ¬ OnStack t.cpu.esp ∧ s.cpu.esp ≤ t.cpu.esp) :
    Touched D t.cpu a := by
  rcases h with h | ⟨h1, h2, h3⟩ | ⟨h1, h2⟩
  · exact .inl h
  · rcases hs with ⟨hs, hle⟩ | ⟨-, ht, -⟩
    · exact hv.touched_frame h1 (by have := h3 hs; omega)
    · exact .inr (.inl ⟨h1, h2, fun hc => absurd hc ht⟩)
  · rcases hs with ⟨hs, -⟩ | ⟨-, ht, hle⟩
    · exact absurd hs h1
    · exact .inr (.inr ⟨ht, by omega⟩)

/-- The word under the stack stays, when a fault inside the return sequence is served. -/
theorem Served.word_kept (hv : Served D t.cpu F w) (hD : ∀ a, D a → ¬ OnStack a)
    (hs : OnStack s.cpu.esp ∧ s.cpu.esp ≤ F + 52 ∨ s.cpu.esp = w) (hk : ∀ a, ¬ Touched D s.cpu a → s'.mem a = s.mem a) :
    s'.mem.le32 w = s.mem.le32 w := by
  have hu := hv.under
  have hroom := hv.room
  refine Block.le32_congr fun j hj => hk _ ?_
  rcases hv.place with ⟨hon, hw⟩ | ⟨hoff, -, hlt, hd⟩
  · refine untouched_above hD ?_ ?_ (by omega)
    · rcases hs with hs | hs
      · exact hs.1
      · exact ⟨by omega, by omega⟩
    · rcases hs with hs | hs <;> omega
  · rcases hs with ⟨hs, -⟩ | hs
    · rintro (hc | ⟨hc, -⟩ | ⟨hc, -⟩)
      · exact hd j hj hc
      · omega
      · exact hc hs
    · exact untouched_off (fun hc => by omega) (by omega) (by omega) (hd j hj)

/-- A fault before an instruction of the upcall is served. -/
theorem At.nested (h : At g D t F w i s) (hv : Served D t.cpu F w) (hD : ∀ a, D a → ¬ OnStack a) (hi : i ≤ 16)
    (h7 : i ≠ 7) (h8 : i ≠ 8) (h9 : i ≠ 9) (hcpu : s'.cpu = s.cpu) (hk : ∀ a, ¬ Touched D s.cpu a → s'.mem a = s.mem a) :
    At g D t F w i s' := by
  obtain ⟨c', m'⟩ := s'
  obtain rfl : c' = s.cpu := hcpu
  have hu := hv.under
  have htop := hv.le_top
  have hroom := hv.room
  have hm := h.mem
  have hkept : (OnStack s.cpu.esp ∧ s.cpu.esp ≤ F + 52 ∨ ¬ OnStack s.cpu.esp ∧ ¬ OnStack t.cpu.esp ∧ s.cpu.esp ≤ t.cpu.esp) →
      ∀ a, ¬ Touched D t.cpu a → m' a = t.mem a := fun hs a ha =>
    (hk a fun hc => ha (hc.mono hv hs)).trans (h.kept a ha)
  by_cases h16 : i = 16
  · -- only the word under the stack is in use
    subst h16
    have hesp : s.cpu.esp = w := h.esp
    refine ⟨h.eip, h.esp, h.word, h.flags, h.regs, hm.move le_rfl (by omega) (by omega) fun _ _ => ?_, hkept ?_, h.low⟩
    · exact (hv.word_kept hD (.inr hesp) hk).trans (hm.ret (by decide) (by decide))
    · rcases hv.place with ⟨hon, hw⟩ | ⟨hoff, -, hlt, -⟩
      · exact .inl ⟨⟨by omega, by omega⟩, by omega⟩
      · exact .inr ⟨fun hc => by omega, hoff, by omega⟩
  · obtain ⟨hon, h48, h11, h12, h13, h14, h15⟩ := h.onStack hv (by omega) h7 h8 h9
    have hle : ∀ n ≤ 48, s.cpu.esp ≤ F + n → m'.le32 (F + n) = s.mem.le32 (F + n) := fun n hn hesp =>
      Block.le32_congr fun j hj => hk _ (untouched_above hD hon (by omega) (by omega))
    refine ⟨h.eip, h.esp, h.word, h.flags, h.regs, hm.move le_rfl (fun n hn hl h8 => hle n hn (by omega)) (fun h1 h2 => ?_) fun h1 h2 => ?_,
      hkept (.inl ⟨hon, by omega⟩), h.low⟩
    · exact (hle 48 (by decide) (by omega)).trans (hm.back h1 h2)
    · exact (hv.word_kept hD (.inl ⟨hon, by omega⟩) hk).trans (hm.ret h1 h2)

/-- A fault in the handler is served. -/
theorem InHandler.nested {e : ℕ} (h : InHandler g D t F w e s) (hv : Served D t.cpu F w) (hD : ∀ a, D a → ¬ OnStack a)
    (hcpu : s'.cpu = s.cpu) (hk : ∀ a, ¬ Touched D s.cpu a → s'.mem a = s.mem a) : InHandler g D t F w e s' := by
  obtain ⟨c', m'⟩ := s'
  obtain rfl : c' = s.cpu := hcpu
  have htop := hv.le_top
  have hentry := h.entry
  have hlow := h.low
  have hhigh := h.high
  have hon : OnStack s.cpu.esp := ⟨hlow, by omega⟩
  have hout : ∀ a, e ≤ a → a < F + 52 → m' a = s.mem a := fun a h1 h2 => hk a (untouched_above hD hon (by omega) (by omega))
  refine ⟨hentry, hlow, hhigh, h.word, h.flags, ?_, h.mem.congr le_rfl fun a h1 h2 => hout a (by omega) h2, fun a ha => ?_⟩
  · exact (Block.le32_congr fun j hj => hout _ (by omega) (by omega)).trans h.ret
  · exact (hk a fun hc => ha (hc.mono hv (.inl ⟨hon, by omega⟩))).trans (h.kept a ha)

/-! ### Whole runs -/

/-- The kernel starts the upcall. -/
theorem pageFault_at {f : PgFault} (h : pageFault g f t = some s) (hword : t.cpu.Word)
    (hs : OnStack t.cpu.esp ∨ 4 ≤ t.cpu.esp ∧ t.cpu.esp < UXSTACK) (hd : ¬ OnStack t.cpu.esp → ∀ j < 4, ¬ D (t.cpu.esp - 4 + j)) :
    ∃ F w, Served D t.cpu F w ∧ At g D t F w 0 s := by
  have hX : UXSTACKTOP + 4 < 2 ^ 32 ∧ UXSTACK + 4096 = UXSTACKTOP ∧ UTOP < 2 ^ 32 ∧ 56 ≤ UXSTACK := by decide
  have hg := g.low
  have hlen : (utf f t.cpu).length = 13 := rfl
  have hsize : UTF_SIZE = 52 := rfl
  -- the frame, whatever is under it
  have hmem : ∀ (m : Block) (F w : ℕ), MemAt t.cpu F w 0 (m.put32s F (utf f t.cpu)) := fun m F w => by
    have hget : ∀ i (hi : i < 13), (m.put32s F (utf f t.cpu)).le32 (F + 4 * i) = (utf f t.cpu)[i] % 2 ^ 32 := fun i hi =>
      Block.le32_put32s hi
    refine ⟨fun _ => ⟨?_, ?_, ?_, ?_, ?_, ?_, ?_⟩, fun _ => ?_, fun _ => ?_, fun _ => ?_, by omega, by omega⟩
    · exact (hget 2 (by decide)).trans (Nat.mod_eq_of_lt hword.edi)
    · exact (hget 3 (by decide)).trans (Nat.mod_eq_of_lt hword.esi)
    · exact (hget 4 (by decide)).trans (Nat.mod_eq_of_lt hword.ebp)
    · exact (hget 6 (by decide)).trans (Nat.mod_eq_of_lt hword.ebx)
    · exact (hget 7 (by decide)).trans (Nat.mod_eq_of_lt hword.edx)
    · exact (hget 8 (by decide)).trans (Nat.mod_eq_of_lt hword.ecx)
    · exact (hget 9 (by decide)).trans (Nat.mod_eq_of_lt hword.eax)
    · exact (hget 10 (by decide)).trans (Nat.mod_eq_of_lt hword.eip)
    · exact (hget 11 (by decide)).trans (Nat.mod_eq_of_lt hword.eflags)
    · exact (hget 12 (by decide)).trans (Nat.mod_eq_of_lt hword.esp)
  unfold pageFault utfRange at h
  by_cases hon : OnStack t.cpu.esp
  · rw [if_pos hon] at h
    dsimp only at h
    have hroom : UXSTACK ≤ t.cpu.esp - (UTF_SIZE + 4) := by
      by_contra hc
      rw [if_neg hc] at h
      cases h
    rw [if_pos hroom, if_neg (by decide)] at h
    obtain rfl := Option.some.inj h
    have hv : Served D t.cpu (t.cpu.esp - (UTF_SIZE + 4)) (t.cpu.esp - 4) :=
      ⟨hword, by omega, hroom, .inl ⟨hon, by omega⟩⟩
    refine ⟨_, _, hv, ⟨rfl, rfl, { hword with esp := ?_, eip := ?_ }, UserFlags.refl _, .none (by decide), hmem _ _ _, fun a ha => ?_,
      by omega⟩⟩
    · show t.cpu.esp - (UTF_SIZE + 4) < 2 ^ 32
      omega
    · show g.upcall < 2 ^ 32
      omega
    · show (Block.put32s _ _ _) a = t.mem a
      have hout : a < t.cpu.esp - (UTF_SIZE + 4) ∨ t.cpu.esp - (UTF_SIZE + 4) + 52 ≤ a := by
        by_contra hc
        exact ha (hv.touched_frame (by omega) (by omega))
      rw [Block.put32s_out (by rw [hlen]; omega)]
      refine Block.put32_out ?_
      by_contra hc
      exact ha (hv.touched_word (by omega) (by omega))
  · rw [if_neg hon] at h
    dsimp only at h
    rw [if_pos rfl, if_pos (by omega)] at h
    obtain rfl := Option.some.inj h
    obtain ⟨h4, hlt⟩ := hs.resolve_left hon
    have hv : Served D t.cpu (UXSTACKTOP - UTF_SIZE) (t.cpu.esp - 4) :=
      ⟨hword, by omega, by omega, .inr ⟨hon, by omega, hlt, hd hon⟩⟩
    refine ⟨_, _, hv, ⟨rfl, rfl, { hword with esp := ?_, eip := ?_ }, UserFlags.refl _, .none (by decide), hmem _ _ _, fun a ha => ?_,
      by omega⟩⟩
    · show UXSTACKTOP - UTF_SIZE < 2 ^ 32
      decide
    · show g.upcall < 2 ^ 32
      omega
    · show (Block.put32s _ _ _) a = t.mem a
      refine Block.put32s_out ?_
      rw [hlen]
      by_contra hc
      exact ha (hv.touched_frame (by omega) (by omega))

/-- At the end the registers are the program's. -/
theorem At.done (h : At g D t F w 17 s) : s.cpu = t.cpu := by
  obtain ⟨h1, h2, h3, h4, h5, h6, h7⟩ := h.regs.all (by decide)
  exact Cpu.ext h1 h2 h3 h4 h5 h6 h7 h.esp h.eip (h.regs.eflags (by decide))

/-- In serving a fault of `t`. -/
def Serving (g : Image) (D : ℕ → Prop) (t : User) (F w : ℕ) : Phase → User → Prop
  | .user, _ => False
  | .code i, s => i ≤ 17 ∧ At g D t F w i s
  | .hand e, s => InHandler g D t F w e s

/-- The fault of `t` is served when the events are over. -/
def Returns (g : Image) (D : ℕ → Prop) (t : User) (ev : Ev) (s : User) : Prop :=
  ∃ s', run g ev s = some s' ∧ s'.cpu = t.cpu ∧ ∀ a, ¬ Touched D t.cpu a → s'.mem a = t.mem a

theorem Serving.word {p : Phase} (h : Serving g D t F w p s) : s.cpu.Word := by
  cases p with
  | user => exact h.elim
  | code i => exact h.2.word
  | hand e => exact InHandler.word h

/-- Serving goes on after a fault inside it. -/
theorem Serving.nested {p : Phase} (h : Serving g D t F w p s) (hv : Served D t.cpu F w) (hD : ∀ a, D a → ¬ OnStack a)
    (hi : p ≠ .code 17) (hp : p ≠ .code 7 ∧ p ≠ .code 8 ∧ p ≠ .code 9) (hcpu : s'.cpu = s.cpu)
    (hk : ∀ a, ¬ Touched D s.cpu a → s'.mem a = s.mem a) : Serving g D t F w p s' := by
  cases p with
  | user => exact h.elim
  | code i =>
    simp only [ne_eq, Phase.code.injEq] at hi hp
    have h17 := h.1
    exact ⟨h17, h.2.nested hv hD (by omega) hp.1 hp.2.1 hp.2.2 hcpu hk⟩
  | hand e => exact InHandler.nested h hv hD hcpu hk

theorem Phase.next_code (h : i ≠ 2) : (Phase.code i).next s = .code (i + 1) := by
  unfold Phase.next
  split
  · next hc => exact absurd (Phase.code.inj hc) h
  · next hc => rw [Phase.code.inj hc]
  · next hc => exact absurd rfl (hc i)

/-- An instruction of the upcall, and where it leads. -/
theorem Serving.step {p : Phase} {r : Ev} (h : Serving g D t F w p s) (hv : Served D t.cpu F w) (hf : Fits g D p (.step r) s) :
    ∃ s', step g s = some s' ∧ Serving g D t F w (p.next s) s' := by
  cases p with
  | user => exact h.elim
  | hand e => exact hf.elim
  | code i =>
    obtain ⟨hi, hlow⟩ := hf
    by_cases h2 : i = 2
    · subst h2
      exact h.2.call hv (hlow le_rfl)
    · obtain ⟨s', hs, hat⟩ := h.2.instr hv hi h2 fun h0 => by
        subst h0
        have hesp : s.cpu.esp = F := h.2.esp
        rw [← hesp]
        exact hlow (by decide)
      rw [Phase.next_code h2]
      exact ⟨s', hs, by omega, hat⟩

/-- Every run of the upcall, with all that nests in it. -/
theorem serve (hD : ∀ a, D a → ¬ OnStack a) : ∀ (ev : Ev) {t : User} {F w : ℕ} {p : Phase} {s : User}, Served D t.cpu F w →
    Serving g D t F w p s → Each g (Fits g D) p ev s → Each g Safe p ev s → Returns g D t ev s ∧ Each g (Round g) p ev s
  | .done, t, F, w, p, s, hv, hin, hf, hs => by
    cases p with
    | user => exact hin.elim
    | hand e => exact hf.1.elim
    | code i =>
      obtain rfl : i = 17 := hf.1
      exact ⟨⟨s, rfl, hin.2.done, hin.2.kept⟩, trivial, trivial⟩
  | .step r, t, F, w, p, s, hv, hin, hf, hs => by
    obtain ⟨s1, h1, hin1⟩ := hin.step hv hf.1
    obtain ⟨⟨s2, h2, hret⟩, hround⟩ := serve hD r hv hin1 (hf.2 s1 h1) (hs.2 s1 h1)
    refine ⟨⟨s2, ?_, hret⟩, trivial, fun s' h' => ?_⟩
    · show (step g s).bind (run g r) = some s2
      rw [h1]
      exact h2
    · rw [h1] at h'
      exact Option.some.inj h' ▸ hround
  | .own c ws r, t, F, w, p, s, hv, hin, hf, hs => by
    cases p with
    | user => exact hin.elim
    | code i => exact hf.1.elim
    | hand e =>
      obtain ⟨⟨hc, h1, h2, hfl, hw⟩, hf'⟩ := hf
      obtain ⟨hret, hround⟩ := serve hD r (p := .hand e) hv (InHandler.own hin hv hD hc h1 h2 hfl hw) hf' hs.2
      exact ⟨hret, trivial, hround⟩
  | .ret r, t, F, w, p, s, hv, hin, hf, hs => by
    cases p with
    | user => exact hin.elim
    | code i => exact hf.1.elim
    | hand e =>
      obtain ⟨hret, hround⟩ := serve hD r (p := .code 3) hv ⟨by decide, InHandler.back hin hv hf.1⟩ hf.2 hs.2
      exact ⟨hret, trivial, hround⟩
  | .fault f inner r, t, F, w, p, s, hv, hin, hf, hs => by
    have hfits : p ≠ .code 17 ∧ (pageFault g f s).isSome = true ∧ (¬ OnStack s.cpu.esp → ∀ j < 4, ¬ D (s.cpu.esp - 4 + j)) := by
      cases p <;> exact hf.1
    obtain ⟨h17, hsome, hd⟩ := hfits
    obtain ⟨⟨hp, hstack⟩, hs'⟩ := hs
    obtain ⟨s1, h1⟩ := Option.isSome_iff_exists.mp hsome
    obtain ⟨hf1, hf2⟩ := hf.2 s1 h1
    obtain ⟨hs1, hs2⟩ := hs' s1 h1
    obtain ⟨F', w', hv', hat⟩ := pageFault_at h1 hin.word hstack hd
    obtain ⟨⟨s2, h2, hcpu, hk⟩, hround1⟩ := serve hD inner (p := .code 0) hv' ⟨by decide, hat⟩ hf1 hs1
    obtain ⟨⟨s3, h3, hret⟩, hround2⟩ := serve hD r hv (hin.nested hv hD h17 hp hcpu hk) (hf2 s2 h2) (hs2 s2 h2)
    refine ⟨⟨s3, ?_, hret⟩, ⟨s2, ?_, hcpu, fun hon a ha1 ha2 => hk a (untouched_above hD hon ha1 ha2)⟩, fun s' h' => ?_⟩
    · show ((pageFault g f s).bind (run g inner)).bind (run g r) = some s3
      rw [h1, Option.bind_some, h2]
      exact h3
    · rw [h1]
      exact h2
    · obtain rfl : s1 = s' := Option.mem_unique h1 h'
      refine ⟨hround1, fun s'' h'' => ?_⟩
      obtain rfl : s2 = s'' := Option.mem_unique h2 h''
      exact hround2

end

/-- The registers of an env are those of its saved frame. -/
def Cpu.Saved (c : Cpu) (tf : Trapframe) : Prop :=
  tf.regs.edi = c.edi ∧ tf.regs.esi = c.esi ∧ tf.regs.ebp = c.ebp ∧ tf.regs.ebx = c.ebx ∧ tf.regs.edx = c.edx ∧ tf.regs.ecx = c.ecx ∧
    tf.regs.eax = c.eax ∧ tf.esp = c.esp ∧ tf.eip = c.eip ∧ tf.eflags = c.eflags

/-- The kernel kills an env that faults, or resumes it as `pageFault` says. -/
theorem pageFaultHandler_resumes {g : Image} {f : PgFault} {t s : User} (k : KernSt) (c : ℕ) (ht : t.cpu.Saved (k.envs c).tf)
    (hup : (k.envs c).upcall = g.upcall) (h : pageFault g f t = some s) :
    Run (pageFaultHandler c) k (fun _ k' => (k'.envs c).status = .free ∨ s.cpu.Saved (k'.envs c).tf) fun r _ => r.IsPanic := by
  have hdie : Run (envFree c) k (fun _ k' => (k'.envs c).status = .free ∨ s.cpu.Saved (k'.envs c).tf) fun r _ => r.IsPanic := by
    refine .post (envFree_slots c k) (fun _ k' ⟨_, hk⟩ => .inl ?_)
    rw [← KernSt.slots_envs, hk, Slots.drop_self]
  obtain ⟨h1, h2, h3, h4, h5, h6, h7, h8, h9, h10⟩ := ht
  have hs : s.cpu = { t.cpu with esp := (utfRange (k.envs c).tf.esp).1, eip := g.upcall } := by
    unfold pageFault at h
    dsimp only at h
    split at h
    · rw [h8, ← Option.some.inj h]
    · cases h
  refine pageFaultHandler_run hdie (.inr ?_)
  rw [show (k.setEnv c _).envs c = _ from update_self .., hs, hup]
  exact ⟨h1, h2, h3, h4, h5, h6, h7, rfl, rfl, h10⟩

/-- An image with the upcall at 0x800100. -/
def image : Image := ⟨0x800100, 0x802000, by decide⟩

/-- A program on its user stack; the handler is at 0x800200. -/
def program : User := ⟨⟨1, 2, 3, 4, 5, 6, 7, USTACKTOP - 64, 0x800400, 0x202⟩, Block.zero.put32 0x802000 0x800200⟩

def steps : ℕ → Ev → Ev
  | 0, r => r
  | n + 1, r => .step (steps n r)

/-- A fault is served without another one. -/
def plain : Ev := steps 3 (.ret (steps 14 .done))

/-- A write to a page that is copied on write. -/
def writeFault : PgFault := ⟨0xA0000000, 7, 0⟩

end Upcall
end Kern
end Jos
