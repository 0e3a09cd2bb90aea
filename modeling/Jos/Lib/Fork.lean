/-
# fork with copy-on-write

`fork` maps the pages of the parent into the child: a page with PTE_SHARE and
PTE_W as it is, any other writable page copy-on-write in both. The first write
to a copy-on-write page faults, and `pgfault` gives the env a copy of its own.

The model has the user pages from UTEXT to UTOP of all envs of a family: the
page tables with the bits of PTE_USER, the page directories, and the contents of
the frames. One iteration of the loop of `fork`, with its `duppage`, is a step;
so are a write with the fault that it may cause, and the end of `fork`. Between
two steps every other env may take its own, and the parent may write (it does:
its stack) while it is in `fork`. PFTEMP, where `pgfault` makes the copy, is
below UTEXT and is not modelled. A frame that is allocated is one that was never
used: what the kernel does with the frames given back is not the business of
this module.

What the pages are for is said by `Spec`: a page is its env's own, or one object
that all envs share that have it; `fork` copies the former and hands on the
latter.

* `private_of_run`: every env of the family reads what `Spec` says, and when
  `fork` returns the child has all the pages, if no frame is mapped both with and
  without PTE_SHARE and none twice that is writable without it.
* `aliased`: a page that shares its frame with a PTE_SHARE page is not private.
-/
import Mathlib.Tactic.Ring
import Jos.Base.Steps

namespace Jos
namespace Lib
namespace Fork

open Function

abbrev NPTENTRIES : ℕ := 1024
/-- The page numbers of UTEXT, UTOP and the exception stack. -/
abbrev UTEXT : ℕ := 2 * NPTENTRIES
abbrev UTOP : ℕ := 955 * NPTENTRIES
abbrev XSTACK : ℕ := UTOP - 1

abbrev PTE_P : ℕ := 0x001
abbrev PTE_W : ℕ := 0x002
abbrev PTE_U : ℕ := 0x004
abbrev PTE_SHARE : ℕ := 0x400
abbrev PTE_COW : ℕ := 0x800
abbrev PTE_USER : ℕ := 0xE00 ||| PTE_P ||| PTE_W ||| PTE_U

/-- The contents of a page. -/
abbrev Page := ℕ → UInt8

structure Pte where
  frame : ℕ
  perm : ℕ
  deriving DecidableEq, Repr

/-- Where an env is: not created, created by `parent`, which is in `fork`,
running, or in the loop of `fork` at page `addr`. -/
inductive Pc
  | unborn
  | embryo (parent : ℕ)
  | run
  | scan (child addr : ℕ)
  | dead
  deriving DecidableEq, Repr

/-- The family. -/
structure Sys where
  frame : ℕ → Page
  /-- The first frame that was never used. -/
  fresh : ℕ
  vpt : ℕ → ℕ → Option Pte
  vpd : ℕ → ℕ → Bool
  pc : ℕ → Pc

namespace Sys

variable (s : Sys)

/-- `page_insert` at page `v` of env `e`, with a page table if there is none. -/
def setPte (e v : ℕ) (p : Pte) : Sys :=
  { s with
    vpt := update s.vpt e (update (s.vpt e) v (some p))
    vpd := update s.vpd e (update (s.vpd e) (v / NPTENTRIES) true) }

/-- The env is destroyed, as after a panic. -/
def die (e : ℕ) : Sys :=
  { s with
    vpt := update s.vpt e fun _ => none
    vpd := update s.vpd e fun _ => false
    pc := update s.pc e .dead }

def setPc (e : ℕ) (p : Pc) : Sys := { s with pc := update s.pc e p }

/-- The kernel allocates a frame, the frame `fresh`, and it is filled. -/
def alloc (page : Page) : Sys :=
  { s with frame := update s.frame s.fresh page, fresh := s.fresh + 1 }

/-- What env `e` reads on page `v`. -/
def read (e v : ℕ) : Option Page := (s.vpt e v).map fun p => s.frame p.frame

end Sys

/-! ### The specification -/

/-- A page of an env: its own, which it may write or not, or a shared object. -/
inductive Cell
  | own (p : Page) (writable : Bool)
  | shared (o : ℕ)

/-- What the pages of the family are for. -/
structure Spec where
  cell : ℕ → ℕ → Option Cell
  obj : ℕ → Page

/-- The operations on them. -/
inductive Op
  | write (e v i : ℕ) (b : UInt8)
  | copy (e c v : ℕ)
  | zero (e v : ℕ)
  | clear (e : ℕ)

namespace Spec

def setCell (t : Spec) (e v : ℕ) (x : Option Cell) : Spec :=
  { t with cell := update t.cell e (update (t.cell e) v x) }

/-- A write changes the one page, or the object wherever it is; a copy of a page
is a page of its own, and a copy of a shared page the same object. -/
def act : Op → Spec → Spec
  | .write e v i b, t =>
    match t.cell e v with
    | some (.own p true) => t.setCell e v (some (.own (update p i b) true))
    | some (.shared o) => { t with obj := update t.obj o (update (t.obj o) i b) }
    | _ => t
  | .copy e c v, t => t.setCell c v (t.cell e v)
  | .zero e v, t => t.setCell e v (some (.own (fun _ => 0) true))
  | .clear e, t => { t with cell := update t.cell e fun _ => none }

/-- What env `e` reads on page `v`. -/
def read (t : Spec) (e v : ℕ) : Option Page :=
  (t.cell e v).map fun
    | .own p _ => p
    | .shared o => t.obj o

end Spec

/-! ### The code -/

/-- `sys_page_map`; without memory it fails if it needs a page table. -/
def sysPageMap (src srcva dst dstva perm : ℕ) (mem : Bool) (s : Sys) : Option Sys :=
  if perm &&& PTE_U = 0 ∨ perm &&& PTE_P = 0 ∨ perm ||| PTE_USER ≠ PTE_USER then none
  else
    match s.vpt src srcva with
    | none => none
    | some p =>
      if perm &&& PTE_W ≠ 0 ∧ p.perm &&& PTE_W = 0 then none
      else if mem || s.vpd dst (dstva / NPTENTRIES) then some (s.setPte dst dstva ⟨p.frame, perm⟩)
      else none

/-- `duppage` by env `e` for its child `c`; nothing is a panic. -/
def duppage (e c pn : ℕ) (mem : Bool) (s : Sys) : Option Sys :=
  match s.vpt e pn with
  | none => none
  | some pte =>
    if pte.perm &&& (PTE_SHARE ||| PTE_W) = PTE_SHARE ||| PTE_W then
      sysPageMap e pn c pn (pte.perm &&& PTE_USER) mem s
    else if pte.perm &&& (PTE_COW ||| PTE_W) ≠ 0 then
      (sysPageMap e pn c pn (PTE_COW ||| PTE_U ||| PTE_P) mem s).bind
        (sysPageMap e pn e pn (PTE_COW ||| PTE_U ||| PTE_P) mem)
    else if pte.perm &&& PTE_USER = PTE_U ||| PTE_P then
      sysPageMap e pn c pn (PTE_U ||| PTE_P) mem s
    else none

/-- A write of byte `b` at offset `i` of page `v`, with `pgfault` if the page is
copy-on-write. A write to another page is a panic of `pgfault`. -/
def write (e v i : ℕ) (b : UInt8) (mem : Bool) (s : Sys) : Sys × List Op :=
  match s.vpt e v with
  | none => (s.die e, [.clear e])
  | some p =>
    if p.perm &&& PTE_W ≠ 0 then
      ({ s with frame := update s.frame p.frame (update (s.frame p.frame) i b) }, [.write e v i b])
    else if p.perm &&& PTE_COW ≠ 0 ∧ mem = true then
      ((s.alloc (update (s.frame p.frame) i b)).setPte e v ⟨s.fresh, PTE_W ||| PTE_U ||| PTE_P⟩,
        [.write e v i b])
    else (s.die e, [.clear e])

/-- An iteration of the loop of `fork` at page `a`. -/
def scan (e c a : ℕ) (mem : Bool) (s : Sys) : Sys × List Op :=
  if a = XSTACK then (s.setPc e (.scan c (a + 1)), [])
  else if s.vpd e (a / NPTENTRIES) = false then (s.setPc e (.scan c (a + NPTENTRIES)), [])
  else
    match s.vpt e a with
    | none => (s.setPc e (.scan c (a + 1)), [])
    | some p =>
      if p.perm &&& (PTE_U ||| PTE_P) ≠ PTE_U ||| PTE_P then (s.setPc e (.scan c (a + 1)), [])
      else
        match duppage e c a mem s with
        | none => (s.die e, [.clear e])
        | some s' => (s'.setPc e (.scan c (a + 1)), [.copy e c a])

/-- The end of `fork`: the exception stack of the child, and it may run. -/
def finish (e c : ℕ) (mem : Bool) (s : Sys) : Sys × List Op :=
  if mem then
    ((((s.alloc fun _ => 0).setPte c XSTACK ⟨s.fresh, PTE_W ||| PTE_U ||| PTE_P⟩).setPc c .run).setPc e .run,
      [.zero c XSTACK])
  else (s.die e, [.clear e])

/-- An env writes, starts a `fork`, whose child is `c`, or goes on with it; the
kernel has memory for it or not. -/
inductive Ev
  | write (e v i : ℕ) (b : UInt8) (mem : Bool)
  | fork (e c : ℕ) (mem : Bool)
  | next (e : ℕ) (mem : Bool)

/-- The state after an event, and what it does to the pages. -/
def react : Ev → Sys → Sys × List Op
  | .write e v i b mem, s =>
    if UTEXT ≤ v ∧ v < UTOP then
      match s.pc e with
      | .run | .scan _ _ => write e v i b mem s
      | _ => (s, [])
    else (s, [])
  | .fork e c mem, s =>
    match s.pc e, s.pc c with
    | .run, .unborn | .run, .dead =>
      if mem then ((((s.die c).setPc c (.embryo e)).setPc e (.scan c UTEXT)), [.clear c])
      else (s.die e, [.clear e])
    | _, _ => (s, [])
  | .next e mem, s =>
    match s.pc e with
    | .scan c a => if a < UTOP then scan e c a mem s else finish e c mem s
    | _ => (s, [])

def step (e : Ev) (s : Sys) : Sys := (react e s).1

def ops (e : Ev) (s : Sys) : List Op := (react e s).2

/-! ### What the page tables keep -/

/-- The pages of a program: writable, writable and shared, copy-on-write, read-only. -/
def Allowed (perm : ℕ) : Prop :=
  perm = PTE_W ||| PTE_U ||| PTE_P ∨ perm = PTE_SHARE ||| PTE_W ||| PTE_U ||| PTE_P ∨
    perm = PTE_COW ||| PTE_U ||| PTE_P ∨ perm = PTE_U ||| PTE_P

/-- `duppage` hands the page on as it is. -/
abbrev Shared (perm : ℕ) : Prop := perm &&& (PTE_SHARE ||| PTE_W) = PTE_SHARE ||| PTE_W

/-- Two mappings of one frame: both shared, or neither writable. -/
def Peers (p q : ℕ) : Prop := (Shared p ∧ Shared q) ∨ (p &&& PTE_W = 0 ∧ q &&& PTE_W = 0)

theorem Peers.symm {p q : ℕ} (h : Peers p q) : Peers q p := h.imp And.symm And.symm

/-- A frame that is writable and not shared is mapped once. -/
structure Family (s : Sys) : Prop where
  perm : ∀ {e v p}, s.vpt e v = some p → Allowed p.perm
  used : ∀ {e v p}, s.vpt e v = some p → p.frame < s.fresh
  peers : ∀ {e v p e' v' p'}, s.vpt e v = some p → s.vpt e' v' = some p' → p.frame = p'.frame →
    (e = e' ∧ v = v') ∨ Peers p.perm p'.perm
  dir : ∀ {e v p}, s.vpt e v = some p → s.vpd e (v / NPTENTRIES) = true

/-- The page of the specification that a mapping stands for. -/
def Sys.cellOf (s : Sys) (p : Pte) : Cell :=
  if Shared p.perm then .shared p.frame else .own (s.frame p.frame) (decide (p.perm ≠ PTE_U ||| PTE_P))

/-- The family is what the specification says. -/
structure Agrees (s : Sys) (t : Spec) : Prop where
  cell : ∀ e v, t.cell e v = (s.vpt e v).map s.cellOf
  obj : ∀ {e v p}, s.vpt e v = some p → Shared p.perm → t.obj p.frame = s.frame p.frame

/-- The specification of a family as it is. -/
def Sys.view (s : Sys) : Spec := ⟨fun e v => (s.vpt e v).map s.cellOf, s.frame⟩

section

variable {s : Sys} {t : Spec} {e c v : ℕ} {p q : Pte}

theorem Agrees.view (s : Sys) : Agrees s s.view := ⟨fun _ _ => rfl, fun _ _ => rfl⟩

theorem Agrees.read (h : Agrees s t) (e v : ℕ) : s.read e v = t.read e v := by
  rw [Sys.read, Spec.read, h.cell e v]
  cases hp : s.vpt e v with
  | none => rfl
  | some p =>
    by_cases hs : Shared p.perm
    · simp only [Option.map_some, Sys.cellOf, if_pos hs, h.obj hp hs]
    · simp only [Option.map_some, Sys.cellOf, if_neg hs]

/-- A function of an env and a page, changed in one place. -/
theorem update_place {α : Type} (f : ℕ → ℕ → α) (e v : ℕ) (x : α) (e' v' : ℕ) :
    update f e (update (f e) v x) e' v' = if e' = e ∧ v' = v then x else f e' v' := by
  by_cases he : e' = e
  · subst he
    rw [update_self, update_apply]
    exact if_congr (by simp) rfl rfl
  · rw [update_of_ne he, if_neg fun hc => he hc.1]

theorem Sys.setPte_vpt (s : Sys) (e v : ℕ) (p : Pte) (e' v' : ℕ) :
    (s.setPte e v p).vpt e' v' = if e' = e ∧ v' = v then some p else s.vpt e' v' :=
  update_place s.vpt e v (some p) e' v'

theorem Sys.setPte_vpd (s : Sys) (e v : ℕ) (p : Pte) {e' x : ℕ} (h : s.vpd e' x = true) :
    (s.setPte e v p).vpd e' x = true := by
  refine (update_place s.vpd e (v / NPTENTRIES) true e' x).trans ?_
  rw [h, ite_self]

theorem Spec.setCell_cell (t : Spec) (e v : ℕ) (x : Option Cell) (e' v' : ℕ) :
    (t.setCell e v x).cell e' v' = if e' = e ∧ v' = v then x else t.cell e' v' :=
  update_place t.cell e v x e' v'

theorem Sys.setPte_vpd_self (s : Sys) (e v : ℕ) (p : Pte) : (s.setPte e v p).vpd e (v / NPTENTRIES) = true := by
  simp only [Sys.setPte, update_self]

theorem Sys.setPte_comm {v' : ℕ} (hne : c ≠ e) :
    (s.setPte c v p).setPte e v' q = (s.setPte e v' q).setPte c v p := by
  simp only [Sys.setPte, update_of_ne hne, update_of_ne hne.symm]
  rw [update_comm hne, update_comm hne]

/-- A mapping of a frame all of whose other mappings are its peers. -/
theorem Family.setPte (h : Family s) (hq : Allowed q.perm) (hf : q.frame < s.fresh)
    (hpeers : ∀ {e' v' p'}, s.vpt e' v' = some p' → p'.frame = q.frame → (e' = e ∧ v' = v) ∨ Peers p'.perm q.perm) :
    Family (s.setPte e v q) := by
  refine ⟨fun {e₁ v₁ p₁} h₁ => ?_, fun {e₁ v₁ p₁} h₁ => ?_, fun {e₁ v₁ p₁ e₂ v₂ p₂} h₁ h₂ hfr => ?_,
    fun {e₁ v₁ p₁} h₁ => ?_⟩
  all_goals rw [Sys.setPte_vpt] at h₁
  · split at h₁
    · cases h₁
      exact hq
    · exact h.perm h₁
  · split at h₁
    · cases h₁
      exact hf
    · exact h.used h₁
  · rw [Sys.setPte_vpt] at h₂
    split at h₁
    · next hc₁ =>
      cases h₁
      split at h₂
      · next hc₂ =>
        exact .inl ⟨hc₁.1.trans hc₂.1.symm, hc₁.2.trans hc₂.2.symm⟩
      · next hc₂ => exact .inr ((hpeers h₂ hfr.symm).resolve_left hc₂).symm
    · next hc₁ =>
      split at h₂
      · next hc₂ =>
        cases h₂
        exact .inr ((hpeers h₁ hfr).resolve_left hc₁)
      · exact h.peers h₁ h₂ hfr
  · split at h₁
    · next hc =>
      obtain ⟨rfl, rfl⟩ := hc
      exact s.setPte_vpd_self _ _ _
    · exact s.setPte_vpd _ _ _ (h.dir h₁)

/-- The specification of that mapping is put in the same place. -/
theorem Agrees.setPte (h : Agrees s t) (hobj : Shared q.perm → t.obj q.frame = s.frame q.frame) :
    Agrees (s.setPte e v q) (t.setCell e v (some (s.cellOf q))) := by
  refine ⟨fun e₁ v₁ => ?_, fun {e₁ v₁ p₁} h₁ hs => ?_⟩
  · rw [Sys.setPte_vpt, Spec.setCell_cell]
    split
    · rfl
    · exact h.cell e₁ v₁
  · rw [Sys.setPte_vpt] at h₁
    split at h₁
    · cases h₁
      exact hobj hs
    · exact h.obj h₁ hs

theorem Spec.setCell_self {x : Option Cell} (h : t.cell e v = x) : t.setCell e v x = t := by
  have hcell : (t.setCell e v x).cell = t.cell := by
    funext e' v'
    rw [Spec.setCell_cell]
    split
    · next hc => rw [hc.1, hc.2, h]
    · rfl
  show Spec.mk (t.setCell e v x).cell t.obj = t
  rw [hcell]

/-- A frame that was never used is in nobody's way. -/
theorem Family.alloc (h : Family s) (page : Page) : Family (s.alloc page) :=
  ⟨h.perm, fun hp => (h.used hp).trans (Nat.lt_succ_self _), h.peers, h.dir⟩

theorem Sys.alloc_frame (s : Sys) (page : Page) {f : ℕ} (hf : f < s.fresh) : (s.alloc page).frame f = s.frame f :=
  update_of_ne (Nat.ne_of_lt hf) _ _

theorem Agrees.alloc (h : Agrees s t) (hs : Family s) (page : Page) : Agrees (s.alloc page) t := by
  refine ⟨fun e v => ?_, fun {e v p} hp hsh => ?_⟩
  · rw [h.cell e v]
    show (s.vpt e v).map s.cellOf = (s.vpt e v).map (s.alloc page).cellOf
    cases hp : s.vpt e v with
    | none => rfl
    | some p => simp only [Option.map_some, Sys.cellOf, s.alloc_frame page (hs.used hp)]
  · rw [s.alloc_frame page (hs.used hp)]
    exact h.obj hp hsh

theorem Sys.die_vpt (s : Sys) (e e' v : ℕ) : (s.die e).vpt e' v = if e' = e then none else s.vpt e' v := by
  show update s.vpt e (fun _ => none) e' v = _
  rw [update_apply]
  split <;> rfl

theorem Sys.vpt_of_die {e e' : ℕ} (h : (s.die e).vpt e' v = some p) : e' ≠ e ∧ s.vpt e' v = some p := by
  rw [Sys.die_vpt] at h
  split at h
  · cases h
  · next hne => exact ⟨hne, h⟩

theorem Family.die (h : Family s) (e : ℕ) : Family (s.die e) := by
  refine ⟨fun hp => h.perm (Sys.vpt_of_die hp).2, fun hp => h.used (Sys.vpt_of_die hp).2,
    fun hp hp' => h.peers (Sys.vpt_of_die hp).2 (Sys.vpt_of_die hp').2, fun {e' v p} hp => ?_⟩
  obtain ⟨hne, hp⟩ := Sys.vpt_of_die hp
  show update s.vpd e (fun _ => false) e' _ = true
  rw [update_of_ne hne]
  exact h.dir hp

theorem Agrees.die (h : Agrees s t) (e : ℕ) : Agrees (s.die e) (Spec.act (.clear e) t) := by
  refine ⟨fun e' v => ?_, fun hp => h.obj (Sys.vpt_of_die hp).2⟩
  rw [Sys.die_vpt]
  show update t.cell e (fun _ => none) e' v = _
  rw [update_apply]
  split
  · rfl
  · exact h.cell e' v

theorem Family.setPc (h : Family s) (e : ℕ) (x : Pc) : Family (s.setPc e x) := ⟨h.perm, h.used, h.peers, h.dir⟩

theorem Agrees.setPc (h : Agrees s t) (e : ℕ) (x : Pc) : Agrees (s.setPc e x) t := ⟨h.cell, h.obj⟩

/-! ### Writes -/

/-- A write in place: another mapping of the frame is of the same shared page. -/
theorem Agrees.poke {i : ℕ} {b : UInt8} (h : Agrees s t) (hs : Family s) (hp : s.vpt e v = some p)
    (hw : p.perm &&& PTE_W ≠ 0) :
    Agrees { s with frame := update s.frame p.frame (update (s.frame p.frame) i b) }
      (Spec.act (.write e v i b) t) := by
  have hcell : t.cell e v = some (s.cellOf p) := by rw [h.cell, hp]; rfl
  have hro : p.perm ≠ PTE_U ||| PTE_P := by
    rintro hc
    exact hw (by rw [hc]; decide)
  by_cases hsh : Shared p.perm
  · -- the object is written, and who has the frame has the object
    rw [Sys.cellOf, if_pos hsh] at hcell
    simp only [Spec.act, hcell]
    have hothers : ∀ {e' v' p'}, s.vpt e' v' = some p' → p'.frame = p.frame → Shared p'.perm := by
      intro e' v' p' hp' hf
      rcases hs.peers hp' hp hf with ⟨rfl, rfl⟩ | hpe | hpe
      · exact (Option.mem_unique hp' hp) ▸ hsh
      · exact hpe.1
      · exact absurd hpe.2 hw
    refine ⟨fun e' v' => ?_, fun {e' v' p'} hp' hsh' => ?_⟩
    · dsimp only
      rw [h.cell e' v']
      cases hp' : s.vpt e' v' with
      | none => rfl
      | some p' =>
        simp only [Option.map_some, Sys.cellOf]
        split
        · rfl
        · next hns => rw [update_of_ne fun hf => hns (hothers hp' hf)]
    · dsimp only
      rw [update_apply, update_apply, h.obj hp hsh]
      split
      · rfl
      · exact h.obj hp' hsh'
  · rw [Sys.cellOf, if_neg hsh, decide_eq_true hro] at hcell
    simp only [Spec.act, hcell]
    have honly : ∀ {e' v' p'}, s.vpt e' v' = some p' → p'.frame = p.frame → e' = e ∧ v' = v := by
      intro e' v' p' hp' hf
      rcases hs.peers hp' hp hf with heq | hpe | hpe
      · exact heq
      · exact absurd hpe.2 hsh
      · exact absurd hpe.2 hw
    refine ⟨fun e' v' => ?_, fun {e' v' p'} hp' hsh' => ?_⟩
    · rw [Spec.setCell_cell]
      split
      · next hc =>
        obtain ⟨rfl, rfl⟩ := hc
        simp only [hp, Option.map_some, Sys.cellOf, if_neg hsh, decide_eq_true hro, update_self]
      · next hc =>
        rw [h.cell e' v']
        cases hp' : s.vpt e' v' with
        | none => rfl
        | some p' =>
          simp only [Option.map_some, Sys.cellOf]
          rw [update_of_ne fun hf => hc (honly hp' hf)]
    · have hne : p'.frame ≠ p.frame := fun hf => by
        obtain ⟨rfl, rfl⟩ := honly hp' hf
        exact hsh ((Option.mem_unique hp' hp) ▸ hsh')
      dsimp only
      rw [update_of_ne hne]
      exact h.obj hp' hsh'

/-- A frame that was never used becomes a writable page of an env. -/
theorem Family.fresh (h : Family s) (page : Page) :
    Family ((s.alloc page).setPte e v ⟨s.fresh, PTE_W ||| PTE_U ||| PTE_P⟩) :=
  (h.alloc page).setPte (.inl rfl) (Nat.lt_succ_self _) fun hp hf => absurd hf (Nat.ne_of_lt (h.used hp))

theorem Agrees.fresh (h : Agrees s t) (hs : Family s) (page : Page) :
    Agrees ((s.alloc page).setPte e v ⟨s.fresh, PTE_W ||| PTE_U ||| PTE_P⟩)
      (t.setCell e v (some (.own page true))) := by
  have hsh : ¬ Shared (PTE_W ||| PTE_U ||| PTE_P) := by decide
  have hnew : (s.alloc page).cellOf ⟨s.fresh, PTE_W ||| PTE_U ||| PTE_P⟩ = .own page true := by
    rw [Sys.cellOf, if_neg hsh, decide_eq_true (show PTE_W ||| PTE_U ||| PTE_P ≠ PTE_U ||| PTE_P by decide)]
    exact congrArg (Cell.own · true) (update_self ..)
  rw [← hnew]
  exact (h.alloc hs page).setPte fun hc => absurd hc hsh

/-- What a write leaves, whatever it meets. -/
theorem write_ok (hs : Family s) (h : Agrees s t) (e v i : ℕ) (b : UInt8) (mem : Bool) :
    Family (write e v i b mem s).1 ∧ Agrees (write e v i b mem s).1 (exec Spec.act (write e v i b mem s).2 t) := by
  rw [write]
  cases hp : s.vpt e v with
  | none => exact ⟨hs.die e, h.die e⟩
  | some p =>
    dsimp only
    by_cases hw : p.perm &&& PTE_W ≠ 0
    · rw [if_pos hw]
      exact ⟨⟨hs.perm, hs.used, hs.peers, hs.dir⟩, h.poke hs hp hw⟩
    rw [if_neg hw]
    by_cases hc : p.perm &&& PTE_COW ≠ 0 ∧ mem = true
    · rw [if_pos hc]
      have hro : p.perm ≠ PTE_U ||| PTE_P := fun hro => hc.1 (by rw [hro]; decide)
      have hsh : ¬ Shared p.perm := fun hsh => by
        rcases hs.perm hp with hq | hq | hq | hq <;> rw [hq] at hw hsh <;> revert hw hsh <;> decide
      have hcell : t.cell e v = some (.own (s.frame p.frame) true) := by
        rw [h.cell, hp, Option.map_some, Sys.cellOf, if_neg hsh, decide_eq_true hro]
      have hact : Spec.act (.write e v i b) t =
          t.setCell e v (some (.own (update (s.frame p.frame) i b) true)) := by
        simp only [Spec.act, hcell]
      refine ⟨hs.fresh _, ?_⟩
      show Agrees _ (Spec.act (.write e v i b) t)
      rw [hact]
      exact h.fresh hs _
    · rw [if_neg hc]
      exact ⟨hs.die e, h.die e⟩

/-! ### duppage -/

/-- The permissions that `duppage` leaves in both envs. -/
def dupPerm (perm : ℕ) : ℕ :=
  if Shared perm ∨ perm = PTE_U ||| PTE_P then perm else PTE_COW ||| PTE_U ||| PTE_P

def dupPte (p : Pte) : Pte := ⟨p.frame, dupPerm p.perm⟩

theorem Allowed.dup {perm : ℕ} (h : Allowed perm) : Allowed (dupPerm perm) ∧ Peers (dupPerm perm) (dupPerm perm) := by
  unfold Allowed Peers
  rcases h with rfl | rfl | rfl | rfl <;> decide

theorem Peers.dup {p q : ℕ} (h : Peers q p) : Peers q (dupPerm p) := by
  rw [dupPerm]
  split
  · exact h
  · next hp => exact h.elim (fun hs => absurd (.inl hs.2) hp) fun hw => .inr ⟨hw.1, by decide⟩

theorem Sys.cellOf_dup (s : Sys) (p : Pte) : s.cellOf (dupPte p) = s.cellOf p := by
  rw [dupPte, dupPerm]
  split
  · rfl
  · next hp =>
    rw [not_or] at hp
    rw [Sys.cellOf, if_neg (show ¬ Shared (PTE_COW ||| PTE_U ||| PTE_P) by decide), Sys.cellOf, if_neg hp.1,
      decide_eq_true hp.2, decide_eq_true (show PTE_COW ||| PTE_U ||| PTE_P ≠ PTE_U ||| PTE_P by decide)]

theorem Sys.setPte_eq_self (hp : s.vpt e v = some p) (hdir : s.vpd e (v / NPTENTRIES) = true) : s.setPte e v p = s := by
  rw [Sys.setPte, ← hp, ← hdir]
  simp only [update_eq_self]

/-- What `duppage` does: both envs have the page as `dupPte` says, unless there is no
memory for a page table of the child. -/
theorem duppage_eq (hp : s.vpt e v = some p) (hall : Allowed p.perm) (hdir : s.vpd e (v / NPTENTRIES) = true)
    (hne : c ≠ e) (mem : Bool) : duppage e c v mem s =
      if mem || s.vpd c (v / NPTENTRIES) then some ((s.setPte e v (dupPte p)).setPte c v (dupPte p)) else none := by
  have hmap : ∀ {q}, ¬ (q &&& PTE_U = 0 ∨ q &&& PTE_P = 0 ∨ q ||| PTE_USER ≠ PTE_USER) →
      ¬ (q &&& PTE_W ≠ 0 ∧ p.perm &&& PTE_W = 0) → sysPageMap e v c v q mem s =
        if mem || s.vpd c (v / NPTENTRIES) then some (s.setPte c v ⟨p.frame, q⟩) else none := by
    intro q hq hw
    rw [sysPageMap, if_neg hq, hp]
    dsimp only
    rw [if_neg hw]
  have hsame : dupPerm p.perm = p.perm → s.setPte c v p = (s.setPte e v (dupPte p)).setPte c v (dupPte p) := by
    intro hdup
    rw [dupPte, hdup, Sys.setPte_eq_self hp hdir]
  have hcow : dupPerm p.perm = PTE_COW ||| PTE_U ||| PTE_P →
      (sysPageMap e v c v (PTE_COW ||| PTE_U ||| PTE_P) mem s).bind (sysPageMap e v e v (PTE_COW ||| PTE_U ||| PTE_P) mem) =
        if mem || s.vpd c (v / NPTENTRIES) then some ((s.setPte e v (dupPte p)).setPte c v (dupPte p)) else none := by
    intro hdup
    rw [hmap (by decide) fun hc => hc.1 (by decide), dupPte, hdup]
    split
    · have hvpd := s.setPte_vpd c v ⟨p.frame, PTE_COW ||| PTE_U ||| PTE_P⟩ hdir
      rw [Option.bind_some, sysPageMap, if_neg (by decide), Sys.setPte_vpt, if_neg fun hc => hne hc.1.symm, hp]
      dsimp only
      rw [if_neg fun hc => hc.1 (by decide), hvpd, Bool.or_true, if_pos rfl, Sys.setPte_comm hne]
    · rfl
  rw [duppage, hp]
  dsimp only
  rcases hall with hq | hq | hq | hq <;> rw [hq] at hmap hsame hcow ⊢
  · rw [if_neg (by decide), if_pos (by decide), hcow (by decide)]
  · rw [if_pos (by decide), hmap (by decide) (by decide), ← hsame (by decide)]
    rw [show (PTE_SHARE ||| PTE_W ||| PTE_U ||| PTE_P) &&& PTE_USER = p.perm by rw [hq]; decide]
  · rw [if_neg (by decide), if_pos (by decide), hcow (by decide)]
  · rw [if_neg (by decide), if_neg (by decide), if_pos (by decide), hmap (by decide) (by decide), ← hsame (by decide),
      ← hq]

theorem duppage_ok (hs : Family s) (h : Agrees s t) (hp : s.vpt e v = some p) :
    Family ((s.setPte e v (dupPte p)).setPte c v (dupPte p)) ∧
      Agrees ((s.setPte e v (dupPte p)).setPte c v (dupPte p)) (Spec.act (.copy e c v) t) := by
  have hcell : t.cell e v = some (s.cellOf p) := by rw [h.cell, hp]; rfl
  obtain ⟨hall, hself⟩ := (hs.perm hp).dup
  have hused : (dupPte p).frame < s.fresh := show p.frame < s.fresh from hs.used hp
  have hobj : Shared (dupPerm p.perm) → t.obj p.frame = s.frame p.frame := fun hsh => by
    rw [dupPerm] at hsh
    split at hsh
    · exact h.obj hp hsh
    · cases hsh
  -- the other mappings of the frame are peers of what the page becomes
  have hpeers : ∀ {e' v' p'}, s.vpt e' v' = some p' → p'.frame = p.frame →
      (e' = e ∧ v' = v) ∨ Peers p'.perm (dupPerm p.perm) := fun hp' hf => (hs.peers hp' hp hf).imp_right Peers.dup
  have hs1 : Family (s.setPte e v (dupPte p)) := hs.setPte hall hused hpeers
  have h1 : Agrees (s.setPte e v (dupPte p)) t := by
    have h1 := h.setPte (e := e) (v := v) (q := dupPte p) hobj
    rwa [s.cellOf_dup, Spec.setCell_self hcell] at h1
  refine ⟨hs1.setPte hall hused fun {e' v' p'} hp' hf => ?_, ?_⟩
  · rw [Sys.setPte_vpt] at hp'
    split at hp'
    · cases hp'
      exact .inr hself
    · next hc => exact .inr ((hpeers hp' hf).resolve_left hc)
  · rw [Spec.act, hcell, ← s.cellOf_dup]
    exact h1.setPte (q := dupPte p) hobj

/-! ### The loop of fork -/

/-- An env in the loop of `fork` has its own child, has passed absent page tables
only as a whole, and has mapped into the child what it has passed. -/
structure Scans (s : Sys) : Prop where
  child : ∀ {e c a}, s.pc e = .scan c a → s.pc c = .embryo e
  table : ∀ {e c a}, s.pc e = .scan c a → a % NPTENTRIES ≠ 0 → s.vpd e (a / NPTENTRIES) = true
  copied : ∀ {e c a}, s.pc e = .scan c a → ∀ v, UTEXT ≤ v → v < a → v ≠ XSTACK →
    (s.vpt e v).isSome = true → (s.vpt c v).isSome = true

theorem Scans.child_ne {a : ℕ} (h : Scans s) (hpc : s.pc e = .scan c a) : c ≠ e := by
  rintro rfl
  cases hpc.symm.trans (h.child hpc)

/-- A new mapping, of a page that was mapped or in an env that is not in the loop. -/
theorem Scans.setPte (h : Scans s) (hp : (s.vpt e v).isSome = true ∨ ∀ c a, s.pc e ≠ .scan c a) :
    Scans (s.setPte e v q) := by
  refine ⟨h.child, fun hpc hal => s.setPte_vpd _ _ _ (h.table hpc hal), fun {e' c' a} hpc x hlo hhi hx hsome => ?_⟩
  replace hpc : s.pc e' = .scan c' a := hpc
  have hpar : (s.vpt e' x).isSome = true := by
    rw [Sys.setPte_vpt] at hsome
    split at hsome
    · next hc =>
      obtain ⟨rfl, rfl⟩ := hc
      exact hp.resolve_right fun hn => hn _ _ hpc
    · exact hsome
  rw [Sys.setPte_vpt]
  split
  · rfl
  · exact h.copied hpc x hlo hhi hx hpar

theorem Scans.alloc (h : Scans s) (page : Page) : Scans (s.alloc page) := ⟨h.child, h.table, h.copied⟩

theorem Sys.setPc_scan {e' a : ℕ} {x : Pc} (h : (s.setPc e x).pc e' = .scan c a) :
    (e' = e ∧ x = .scan c a) ∨ (e' ≠ e ∧ s.pc e' = .scan c a) := by
  replace h : update s.pc e x e' = .scan c a := h
  rw [update_apply] at h
  split at h
  · next he => exact .inl ⟨he, h⟩
  · next he => exact .inr ⟨he, h⟩

/-- An env that is nobody's child in the making comes to another place: if that is in
the loop, what it has passed is in its child. -/
theorem Scans.setPc (h : Scans s) {x : Pc} (hne : ∀ {e' c' a'}, s.pc e' = .scan c' a' → e' ≠ e → c' ≠ e)
    (hx : ∀ c a, x = .scan c a → c ≠ e ∧ s.pc c = .embryo e ∧ (a % NPTENTRIES ≠ 0 → s.vpd e (a / NPTENTRIES) = true) ∧
      ∀ v, UTEXT ≤ v → v < a → v ≠ XSTACK → (s.vpt e v).isSome = true → (s.vpt c v).isSome = true) :
    Scans (s.setPc e x) := by
  refine ⟨fun {e' c' a'} hq => ?_, fun {e' c' a'} hq => ?_, fun {e' c' a'} hq => ?_⟩
  all_goals rcases Sys.setPc_scan hq with ⟨rfl, rfl⟩ | ⟨he, hq⟩
  · obtain ⟨hc, hembryo, -⟩ := hx _ _ rfl
    exact (update_of_ne hc _ _).trans hembryo
  · exact (update_of_ne (hne hq he) _ _).trans (h.child hq)
  · exact (hx _ _ rfl).2.2.1
  · exact h.table hq
  · exact (hx _ _ rfl).2.2.2
  · exact h.copied hq

/-- An env that is not a child in the making dies. -/
theorem Scans.die (h : Scans s) (hne : ∀ x, s.pc e ≠ .embryo x) : Scans (s.die e) := by
  have hchild : ∀ {e' c a}, s.pc e' = .scan c a → c ≠ e := fun hpc hc => hne _ (hc ▸ h.child hpc)
  have hdead := h.setPc (e := e) (x := .dead) (fun hpc _ => hchild hpc) (by simp)
  refine ⟨hdead.child, fun {e' c a} hpc hal => ?_, fun {e' c a} hpc v hlo hhi hv hsome => ?_⟩
  all_goals obtain ⟨he, hpc⟩ := (Sys.setPc_scan hpc).resolve_left fun hc => nomatch hc.2
  · show update s.vpd e (fun _ => false) e' _ = true
    rw [update_of_ne he]
    exact h.table hpc hal
  · rw [Sys.die_vpt, if_neg he] at hsome
    rw [Sys.die_vpt, if_neg (hchild hpc)]
    exact h.copied hpc v hlo hhi hv hsome

/-- The env goes on to page `b`. -/
theorem Scans.go (h : Scans s) {a b : ℕ} (hpc : s.pc e = .scan c a)
    (htab : b % NPTENTRIES ≠ 0 → s.vpd e (b / NPTENTRIES) = true)
    (hpass : ∀ v, a ≤ v → v < b → v ≠ XSTACK → (s.vpt e v).isSome = true → (s.vpt c v).isSome = true) :
    Scans (s.setPc e (.scan c b)) := by
  refine h.setPc (fun hq _ hc => absurd (hpc.symm.trans (hc ▸ h.child hq)) (by simp)) fun c' a' hx => ?_
  cases hx
  refine ⟨h.child_ne hpc, h.child hpc, htab, fun v hlo hhi hv hsome => ?_⟩
  rcases Nat.lt_or_ge v a with hlt | hge
  · exact h.copied hpc v hlo hlt hv hsome
  · exact hpass v hge hhi hv hsome

/-- The pages are as the specification says, and the forks in progress are in order. -/
structure Rel (s : Sys) (t : Spec) : Prop where
  family : Family s
  scans : Scans s
  agrees : Agrees s t

theorem Rel.die (h : Rel s t) (hpc : ∀ x, s.pc e ≠ .embryo x) : Rel (s.die e) (exec Spec.act [.clear e] t) :=
  ⟨h.family.die e, h.scans.die hpc, h.agrees.die e⟩

theorem Rel.write {i : ℕ} {b : UInt8} {mem : Bool} (h : Rel s t) (hpc : ∀ x, s.pc e ≠ .embryo x) :
    Rel (write e v i b mem s).1 (exec Spec.act (Fork.write e v i b mem s).2 t) := by
  obtain ⟨hf, ha⟩ := write_ok h.family h.agrees e v i b mem
  refine ⟨hf, ?_, ha⟩
  rw [Fork.write]
  cases hp : s.vpt e v with
  | none => exact h.scans.die hpc
  | some p =>
    dsimp only
    split
    · exact ⟨h.scans.child, h.scans.table, h.scans.copied⟩
    split
    · exact (h.scans.alloc _).setPte (.inl (show (s.vpt e v).isSome = true by rw [hp]; rfl))
    · exact h.scans.die hpc

/-- What an iteration does: it passes pages that the parent does not have, or calls
`duppage` for one that it has. -/
theorem scan_cases {a : ℕ} (hperm : ∀ {v p}, s.vpt e v = some p → Allowed p.perm)
    (hdir : ∀ {v p}, s.vpt e v = some p → s.vpd e (v / NPTENTRIES) = true)
    (htab : a % NPTENTRIES ≠ 0 → s.vpd e (a / NPTENTRIES) = true) (mem : Bool) :
    (∃ b, a < b ∧ (b % NPTENTRIES ≠ 0 → s.vpd e (b / NPTENTRIES) = true) ∧
      (∀ v, a ≤ v → v < b → v ≠ XSTACK → s.vpt e v = none) ∧ scan e c a mem s = (s.setPc e (.scan c b), [])) ∨
    ∃ p, s.vpt e a = some p ∧ a ≠ XSTACK ∧ ((a + 1) % NPTENTRIES ≠ 0 → s.vpd e ((a + 1) / NPTENTRIES) = true) ∧
      scan e c a mem s =
        match duppage e c a mem s with
        | none => (s.die e, [.clear e])
        | some s' => (s'.setPc e (.scan c (a + 1)), [.copy e c a]) := by
  rw [scan]
  by_cases hx : a = XSTACK
  · rw [if_pos hx]
    exact .inl ⟨a + 1, Nat.lt_succ_self a, fun hal => absurd (by rw [hx]; decide) hal,
      fun v hlo hhi hv => absurd (by omega) hv, rfl⟩
  rw [if_neg hx]
  by_cases habs : s.vpd e (a / NPTENTRIES) = false
  · -- a page table that is absent is passed from its first page on
    have hal : a % NPTENTRIES = 0 := by
      by_contra hal
      cases habs.symm.trans (htab hal)
    rw [if_pos habs]
    refine .inl ⟨a + NPTENTRIES, Nat.lt_add_of_pos_right (by decide), fun hne => absurd ?_ hne,
      fun v hlo hhi _ => ?_, rfl⟩
    · rw [Nat.add_mod_right]
      exact hal
    · have hsame : v / NPTENTRIES = a / NPTENTRIES := by
        replace hal : a % 1024 = 0 := hal
        replace hhi : v < a + 1024 := hhi
        show v / 1024 = a / 1024
        omega
      cases hp : s.vpt e v with
      | none => rfl
      | some p => cases habs.symm.trans (hsame ▸ hdir hp)
  rw [if_neg habs]
  have hnext : (a + 1) % NPTENTRIES ≠ 0 → s.vpd e ((a + 1) / NPTENTRIES) = true := by
    intro hal
    have hsame : (a + 1) / NPTENTRIES = a / NPTENTRIES := by
      replace hal : (a + 1) % 1024 ≠ 0 := hal
      show (a + 1) / 1024 = a / 1024
      omega
    rw [hsame]
    exact Bool.not_eq_false _ ▸ habs
  cases hp : s.vpt e a with
  | none =>
    refine .inl ⟨a + 1, Nat.lt_succ_self a, hnext, fun v hlo hhi _ => ?_, rfl⟩
    obtain rfl : v = a := by omega
    exact hp
  | some p =>
    dsimp only
    rw [if_neg (by rcases hperm hp with hq | hq | hq | hq <;> rw [hq] <;> decide)]
    exact .inr ⟨p, rfl, hx, hnext, rfl⟩

theorem Rel.scan {a : ℕ} {mem : Bool} (h : Rel s t) (hpc : s.pc e = .scan c a) :
    Rel (scan e c a mem s).1 (exec Spec.act (Fork.scan e c a mem s).2 t) := by
  have hne := h.scans.child_ne hpc
  rcases scan_cases h.family.perm h.family.dir (h.scans.table hpc) mem with
    ⟨b, -, htab, hnone, hscan⟩ | ⟨p, hp, -, htab, hscan⟩
  · rw [hscan]
    refine ⟨h.family.setPc _ _, h.scans.go hpc htab fun v hlo hhi hv hsome => ?_, h.agrees.setPc _ _⟩
    rw [hnone v hlo hhi hv] at hsome
    cases hsome
  · rw [hscan, duppage_eq hp (h.family.perm hp) (h.family.dir hp) hne]
    by_cases hm : (mem || s.vpd c (a / NPTENTRIES)) = true
    · rw [if_pos hm]
      obtain ⟨hf, ha⟩ := duppage_ok (c := c) h.family h.agrees hp
      have hself : (s.vpt e a).isSome = true := by rw [hp]; rfl
      -- the parent has the page, and the child is not in the loop
      have hsc : Scans ((s.setPte e a (dupPte p)).setPte c a (dupPte p)) :=
        (h.scans.setPte (.inl hself)).setPte
          (.inr fun c' a' hc => nomatch ((h.scans.child hpc).symm.trans hc))
      refine ⟨hf.setPc _ _, hsc.go hpc (fun hal => Sys.setPte_vpd _ _ _ _ (s.setPte_vpd _ _ _ (htab hal)))
        fun v hlo hhi _ _ => ?_, ha.setPc _ _⟩
      obtain rfl : v = a := by omega
      rw [Sys.setPte_vpt, if_pos ⟨rfl, rfl⟩]
      rfl
    · rw [if_neg hm]
      exact h.die fun x hx => nomatch (hpc.symm.trans hx)

theorem Sys.setPc_comm {x y : Pc} (hne : c ≠ e) : (s.setPc c x).setPc e y = (s.setPc e y).setPc c x := by
  simp only [Sys.setPc]
  rw [update_comm hne]

theorem Rel.finish {a : ℕ} {mem : Bool} (h : Rel s t) (hpc : s.pc e = .scan c a) :
    Rel (finish e c mem s).1 (exec Spec.act (Fork.finish e c mem s).2 t) := by
  have hne := h.scans.child_ne hpc
  have hchild := h.scans.child hpc
  rw [Fork.finish]
  by_cases hmem : mem = true
  · rw [if_pos hmem, Sys.setPc_comm hne]
    refine ⟨((h.family.fresh _).setPc _ _).setPc _ _, ?_, ((h.agrees.fresh h.family _).setPc _ _).setPc _ _⟩
    have hsc : Scans ((s.alloc fun _ => 0).setPte c XSTACK ⟨s.fresh, PTE_W ||| PTE_U ||| PTE_P⟩) :=
      (h.scans.alloc _).setPte (.inr fun c' a' hc => nomatch (hchild.symm.trans hc))
    refine (hsc.setPc (fun {e' c' a'} hq _ hc => ?_) (by simp)).setPc (fun {e' c' a'} hq _ hc => ?_) (by simp)
    · cases hpc.symm.trans (hc ▸ h.scans.child hq)
    · obtain ⟨he, hq⟩ := (Sys.setPc_scan hq).resolve_left fun hc => nomatch hc.2
      exact he (Pc.embryo.inj (hchild.symm.trans (hc ▸ h.scans.child hq))).symm
  · rw [if_neg hmem]
    exact h.die fun x hx => nomatch (hpc.symm.trans hx)

theorem Rel.fork (h : Rel s t) (hpc : s.pc e = .run) (hc : s.pc c = .unborn ∨ s.pc c = .dead) :
    Rel (((s.die c).setPc c (.embryo e)).setPc e (.scan c UTEXT)) (exec Spec.act [.clear c] t) := by
  have hne : c ≠ e := by
    rintro rfl
    rcases hc with hc | hc <;> cases hpc.symm.trans hc
  have hnot : ∀ x, s.pc c ≠ .embryo x := fun x hx => by
    rcases hc with hc | hc <;> cases hc.symm.trans hx
  have hdie := h.die hnot
  have hembryo : Scans ((s.die c).setPc c (.embryo e)) := by
    refine hdie.scans.setPc (fun hq _ hcc => ?_) (by simp)
    cases (update_self ..).symm.trans (hcc ▸ hdie.scans.child hq)
  have hrun : ((s.die c).setPc c (.embryo e)).pc e = .run :=
    (update_of_ne hne.symm _ _).trans ((update_of_ne hne.symm _ _).trans hpc)
  refine ⟨(hdie.family.setPc _ _).setPc _ _, hembryo.setPc (fun hq _ hcc => ?_) fun c' a' hx => ?_,
    (hdie.agrees.setPc _ _).setPc _ _⟩
  · cases hrun.symm.trans (hcc ▸ hembryo.child hq)
  · cases hx
    exact ⟨hne, update_self .., fun hal => absurd (by decide) hal,
      fun v hlo hhi => absurd hlo (Nat.not_le_of_lt hhi)⟩

theorem Rel.step (h : Rel s t) (x : Ev) : Rel (step x s) (exec Spec.act (ops x s) t) := by
  rw [Fork.step, ops]
  cases x with
  | write e v i b mem =>
    rw [react]
    split
    · cases hpc : s.pc e with
      | run => exact h.write fun x hx => nomatch (hpc.symm.trans hx)
      | scan c a => exact h.write fun x hx => nomatch (hpc.symm.trans hx)
      | _ => exact h
    · exact h
  | fork e c mem =>
    rw [react]
    cases hpc : s.pc e with
    | run =>
      have hdie := h.die (e := e) fun x hx => nomatch (hpc.symm.trans hx)
      cases hc : s.pc c with
      | unborn =>
        cases mem with
        | true => exact h.fork hpc (.inl hc)
        | false => exact hdie
      | dead =>
        cases mem with
        | true => exact h.fork hpc (.inr hc)
        | false => exact hdie
      | _ => exact h
    | _ => exact h
  | next e mem =>
    rw [react]
    cases hpc : s.pc e with
    | scan c a =>
      dsimp only
      split
      · exact h.scan hpc
      · exact h.finish hpc
    | _ => exact h

/-! ### Runs -/

/-- No env is in `fork` yet. -/
def Calm (s : Sys) : Prop := ∀ e, s.pc e = .run ∨ s.pc e = .unborn

theorem Calm.scans (h : Calm s) : Scans s := by
  have hno : ∀ e c a, s.pc e ≠ .scan c a := fun e c a hpc => by
    rcases h e with he | he <;> cases he.symm.trans hpc
  exact ⟨fun hpc => absurd hpc (hno _ _ _), fun hpc => absurd hpc (hno _ _ _), fun hpc => absurd hpc (hno _ _ _)⟩

/-- When `fork` returns, the child has the pages of the parent and an exception
stack of its own. -/
structure Complete (e c : ℕ) (s : Sys) : Prop where
  parent : s.pc e = .run
  child : s.pc c = .run
  pages : ∀ v, UTEXT ≤ v → v < UTOP → v ≠ XSTACK → (s.vpt e v).isSome = true → (s.vpt c v).isSome = true
  stack : ∃ f, s.vpt c XSTACK = some ⟨f, PTE_W ||| PTE_U ||| PTE_P⟩ ∧
    ∀ e' v' p, s.vpt e' v' = some p → p.frame = f → e' = c ∧ v' = XSTACK

theorem Rel.complete {a : ℕ} (h : Rel s t) (hpc : s.pc e = .scan c a) (ha : UTOP ≤ a) :
    Complete e c (Fork.step (.next e true) s) := by
  have hne := h.scans.child_ne hpc
  have hstep : Fork.step (.next e true) s =
      (((s.alloc fun _ => 0).setPte c XSTACK ⟨s.fresh, PTE_W ||| PTE_U ||| PTE_P⟩).setPc c .run).setPc e .run := by
    rw [Fork.step, react, hpc]
    dsimp only
    rw [if_neg (Nat.not_lt_of_le ha), Fork.finish, if_pos rfl]
  have hvpt : ∀ e' v', (Fork.step (.next e true) s).vpt e' v' =
      if e' = c ∧ v' = XSTACK then some ⟨s.fresh, PTE_W ||| PTE_U ||| PTE_P⟩ else s.vpt e' v' := by
    intro e' v'
    rw [hstep]
    exact Sys.setPte_vpt (s.alloc fun _ => 0) c XSTACK _ e' v'
  refine ⟨?_, ?_, fun v hlo hhi hv hsome => ?_, s.fresh, ?_, fun e' v' p hp hf => ?_⟩
  · rw [hstep]
    exact update_self ..
  · rw [hstep]
    exact (update_of_ne hne _ _).trans (update_self ..)
  · rw [hvpt, if_neg fun hc => hv hc.2] at hsome
    rw [hvpt, if_neg fun hc => hv hc.2]
    exact h.scans.copied hpc v hlo (hhi.trans_le ha) hv hsome
  · rw [hvpt, if_pos ⟨rfl, rfl⟩]
  · rw [hvpt] at hp
    split at hp
    · next hc => exact hc
    · exact absurd hf (Nat.ne_of_lt (h.family.used hp))

end

/-- A parent with the page `p` at UTEXT, the page `q` above it, and an exception stack. -/
def parent (p q : Pte) : Sys where
  frame _ _ := 0
  fresh := 3
  vpt e v :=
    if e = 0 then
      if v = UTEXT then some p else if v = UTEXT + 1 then some q
      else if v = XSTACK then some ⟨2, PTE_W ||| PTE_U ||| PTE_P⟩ else none
    else none
  vpd e x := decide (e = 0) && (decide (x = UTEXT / NPTENTRIES) || decide (x = XSTACK / NPTENTRIES))
  pc e := if e = 0 then .run else .unborn

theorem parent_vpt {p q : Pte} {e v : ℕ} {r : Pte} (h : (parent p q).vpt e v = some r) :
    e = 0 ∧ (v = UTEXT ∧ r = p ∨ v = UTEXT + 1 ∧ r = q ∨ v = XSTACK ∧ r = ⟨2, PTE_W ||| PTE_U ||| PTE_P⟩) := by
  simp only [parent] at h
  split at h
  · next he =>
    refine ⟨he, ?_⟩
    split at h
    · next hv => exact .inl ⟨hv, (Option.some.inj h).symm⟩
    split at h
    · next hv => exact .inr (.inl ⟨hv, (Option.some.inj h).symm⟩)
    split at h
    · next hv => exact .inr (.inr ⟨hv, (Option.some.inj h).symm⟩)
    · cases h
  · cases h

theorem parent_calm (p q : Pte) : Calm (parent p q) := fun e => by
  simp only [parent]
  split
  · exact .inl rfl
  · exact .inr rfl

theorem parent_dir {p q r : Pte} {e v : ℕ} (h : (parent p q).vpt e v = some r) :
    (parent p q).vpd e (v / NPTENTRIES) = true := by
  obtain ⟨rfl, ⟨rfl, -⟩ | ⟨rfl, -⟩ | ⟨rfl, -⟩⟩ := parent_vpt h <;> rfl

theorem parent_perm {p q r : Pte} {e v : ℕ} (hp : Allowed p.perm) (hq : Allowed q.perm)
    (h : (parent p q).vpt e v = some r) : Allowed r.perm := by
  obtain ⟨-, ⟨-, rfl⟩ | ⟨-, rfl⟩ | ⟨-, rfl⟩⟩ := parent_vpt h
  · exact hp
  · exact hq
  · exact .inl rfl

theorem parent_family {p q : Pte} (hp : Allowed p.perm) (hq : Allowed q.perm) (hpf : p.frame < 2) (hqf : q.frame < 2)
    (hne : p.frame ≠ q.frame) : Family (parent p q) := by
  refine ⟨parent_perm hp hq, fun {e v r} h => ?_, fun {e v r e' v' r'} h h' hf => .inl ?_, parent_dir⟩
  · obtain ⟨-, ⟨-, rfl⟩ | ⟨-, rfl⟩ | ⟨-, rfl⟩⟩ := parent_vpt h
    · exact hpf.trans (Nat.lt_succ_self 2)
    · exact hqf.trans (Nat.lt_succ_self 2)
    · exact Nat.lt_succ_self 2
  · obtain ⟨he, h⟩ := parent_vpt h
    obtain ⟨he', h'⟩ := parent_vpt h'
    refine ⟨he.trans he'.symm, ?_⟩
    rcases h with ⟨rfl, rfl⟩ | ⟨rfl, rfl⟩ | ⟨rfl, rfl⟩ <;> rcases h' with ⟨rfl, rfl⟩ | ⟨rfl, rfl⟩ | ⟨rfl, rfl⟩
    all_goals first
      | rfl
      | exact absurd hf (by first | exact hne | exact hne.symm | (dsimp only; omega))

section

variable {s s₀ : Sys} {e c v a : ℕ} {p : Pte}

/-- The loop of `fork` at page `a`: what is below is in the child as `duppage` leaves it. -/
structure Passed (s₀ : Sys) (e c a : ℕ) (s : Sys) : Prop where
  pc : s.pc = update s₀.pc e (.scan c a)
  frame : s.frame = s₀.frame
  fresh : s.fresh = s₀.fresh
  vpd : s.vpd e = s₀.vpd e
  table : a % NPTENTRIES ≠ 0 → s₀.vpd e (a / NPTENTRIES) = true
  vpt : ∀ e' v, s.vpt e' v =
    if (e' = e ∨ e' = c) ∧ UTEXT ≤ v ∧ v < a ∧ v ≠ XSTACK then (s₀.vpt e v).map dupPte else s₀.vpt e' v

/-- The loop goes on to page `b`, and the pages between are passed. -/
theorem Passed.extend {b : ℕ} {s' : Sys} (h : Passed s₀ e c a s) (hlo : UTEXT ≤ a) (hab : a ≤ b)
    (hpc : s'.pc = update s.pc e (.scan c b)) (hframe : s'.frame = s.frame) (hfresh : s'.fresh = s.fresh)
    (hvpd : s'.vpd e = s.vpd e) (htab : b % NPTENTRIES ≠ 0 → s₀.vpd e (b / NPTENTRIES) = true)
    (hvpt : ∀ e' v, s'.vpt e' v =
      if (e' = e ∨ e' = c) ∧ a ≤ v ∧ v < b ∧ v ≠ XSTACK then (s₀.vpt e v).map dupPte else s.vpt e' v) :
    Passed s₀ e c b s' := by
  refine ⟨by rw [hpc, h.pc, update_idem], hframe.trans h.frame, hfresh.trans h.fresh, hvpd.trans h.vpd,
    htab, fun e' v => ?_⟩
  rw [hvpt, h.vpt]
  by_cases hnew : (e' = e ∨ e' = c) ∧ a ≤ v ∧ v < b ∧ v ≠ XSTACK
  · rw [if_pos hnew, if_pos ⟨hnew.1, by omega, hnew.2.2.1, hnew.2.2.2⟩]
  · rw [if_neg hnew]
    refine if_congr (and_congr_right fun he => ?_) rfl rfl
    constructor
    · exact fun hv => ⟨hv.1, by omega, hv.2.2⟩
    · exact fun hv => ⟨hv.1, by_contra fun hge => hnew ⟨he, by omega, hv.2.1, hv.2.2⟩, hv.2.2⟩

/-- What the loop needs of the parent, and of a child that has nothing yet. -/
structure Parent (s : Sys) (e c : ℕ) : Prop where
  perm : ∀ {v p}, s.vpt e v = some p → Allowed p.perm
  dir : ∀ {v p}, s.vpt e v = some p → s.vpd e (v / NPTENTRIES) = true
  child : ∀ v, s.vpt c v = none
  ne : c ≠ e

theorem Passed.next (h : Passed s₀ e c a s) (hpar : Parent s₀ e c) (hlo : UTEXT ≤ a) (ha : a < UTOP) :
    ∃ b, a < b ∧ Passed s₀ e c b (step (.next e true) s) := by
  have hstep : step (.next e true) s = (scan e c a true s).1 := by
    rw [step, react, h.pc, update_self]
    dsimp only
    rw [if_pos ha]
  have hcur : ∀ {v}, a ≤ v → ∀ e', s.vpt e' v = s₀.vpt e' v := fun hv e' => by rw [h.vpt, if_neg (by omega)]
  have hold : ∀ {v p}, s.vpt e v = some p → ∃ q, s₀.vpt e v = some q ∧ (p = q ∨ p = dupPte q) := by
    intro v p hp
    rw [h.vpt] at hp
    split at hp
    · obtain ⟨q, hq, rfl⟩ := Option.map_eq_some_iff.mp hp
      exact ⟨q, hq, .inr rfl⟩
    · exact ⟨p, hp, .inl rfl⟩
  have hperm : ∀ {v p}, s.vpt e v = some p → Allowed p.perm := fun hp => by
    obtain ⟨q, hq, rfl | rfl⟩ := hold hp
    · exact hpar.perm hq
    · exact (hpar.perm hq).dup.1
  have hdir : ∀ {v p}, s.vpt e v = some p → s.vpd e (v / NPTENTRIES) = true := fun hp => by
    obtain ⟨q, hq, -⟩ := hold hp
    rw [h.vpd]
    exact hpar.dir hq
  rw [hstep]
  rcases scan_cases (c := c) hperm hdir (by rw [h.vpd]; exact h.table) true with
    ⟨b, hab, htab, hnone, hscan⟩ | ⟨p, hp, hx, htab, hscan⟩
  · rw [hscan]
    refine ⟨b, hab, h.extend hlo hab.le rfl rfl rfl rfl (h.vpd ▸ htab) fun e' v => ?_⟩
    show s.vpt e' v = _
    split
    · next hv =>
      have hv0 := hnone v hv.2.1 hv.2.2.1 hv.2.2.2
      rw [← hcur hv.2.1 e, hv0]
      rcases hv.1 with rfl | rfl
      · exact hv0
      · exact (hcur hv.2.1 _).trans (hpar.child v)
    · rfl
  · have hvpd : ((s.setPte e a (dupPte p)).setPte c a (dupPte p)).vpd e = s.vpd e := by
      refine (update_of_ne hpar.ne.symm _ _).trans ((update_self ..).trans ?_)
      rw [← hdir hp, update_eq_self]
    rw [hscan, duppage_eq hp (hperm hp) (hdir hp) hpar.ne, if_pos (Bool.true_or _)]
    refine ⟨a + 1, Nat.lt_succ_self a, h.extend hlo (Nat.le_succ a) rfl rfl rfl hvpd (h.vpd ▸ htab) fun e' v => ?_⟩
    show ((s.setPte e a (dupPte p)).setPte c a (dupPte p)).vpt e' v = _
    rw [Sys.setPte_vpt, Sys.setPte_vpt]
    by_cases hv : v = a
    · rw [hv, ← hcur le_rfl e, hp]
      by_cases hc : e' = c
      · rw [if_pos ⟨hc, rfl⟩, if_pos ⟨Or.inr hc, le_rfl, Nat.lt_succ_self a, hx⟩]
        rfl
      · rw [if_neg fun h => hc h.1]
        exact if_congr (by simp [hc, hx]) rfl rfl
    · rw [if_neg fun h => hv h.2, if_neg fun h => hv h.2, if_neg fun hc => hv (by omega)]

/-- **With memory, the loop of fork ends**, whatever the parent has mapped. -/
theorem Passed.run (hpar : Parent s₀ e c) : ∀ (d : ℕ) {a : ℕ} {s : Sys}, UTOP - a ≤ d → UTEXT ≤ a → Passed s₀ e c a s →
    ∃ k b, UTOP ≤ b ∧ Passed s₀ e c b (exec step (List.replicate k (.next e true)) s)
  | 0, a, s, hd, _, h => ⟨0, a, by omega, h⟩
  | d + 1, a, s, hd, hlo, h => by
    by_cases ha : a < UTOP
    · obtain ⟨b, hb, h'⟩ := h.next hpar hlo ha
      obtain ⟨k, b', hend, hk⟩ := Passed.run hpar d (by omega) (by omega) h'
      exact ⟨k + 1, b', hend, hk⟩
    · exact ⟨0, a, Nat.le_of_not_lt ha, h⟩

/-- The family after a fork that nothing interrupts: parent and child have the
pages of the parent as `duppage` leaves them. -/
structure Forked (s : Sys) (e c : ℕ) (s' : Sys) : Prop where
  parent : s'.pc e = .run
  child : s'.pc c = .run
  frame : ∀ f < s.fresh, s'.frame f = s.frame f
  pages : ∀ v, UTEXT ≤ v → v < UTOP → v ≠ XSTACK → ∀ e', e' = e ∨ e' = c → s'.vpt e' v = (s.vpt e v).map dupPte

theorem exists_fork (hperm : ∀ {v p}, s.vpt e v = some p → Allowed p.perm)
    (hdir : ∀ {v p}, s.vpt e v = some p → s.vpd e (v / NPTENTRIES) = true) (hpc : s.pc e = .run)
    (hc : s.pc c = .unborn) :
    ∃ k, Forked s e c (exec step (.fork e c true :: List.replicate k (.next e true)) s) := by
  have hne : c ≠ e := by
    rintro rfl
    cases hpc.symm.trans hc
  have hfork : step (.fork e c true) s = ((s.die c).setPc c (.embryo e)).setPc e (.scan c UTEXT) := by
    rw [step, react, hpc, hc]
    rfl
  set s₀ := ((s.die c).setPc c (.embryo e)).setPc e (.scan c UTEXT) with hs₀
  have hvpt₀ : ∀ v, s₀.vpt e v = s.vpt e v := fun v => by
    show (s.die c).vpt e v = _
    rw [Sys.die_vpt, if_neg hne.symm]
  have hvpd₀ : s₀.vpd e = s.vpd e := update_of_ne hne.symm _ _
  have hpar : Parent s₀ e c := by
    refine ⟨fun hp => hperm ((hvpt₀ _).symm.trans hp), fun hp => ?_, fun v => ?_, hne⟩
    · rw [hvpd₀]
      exact hdir ((hvpt₀ _).symm.trans hp)
    · show (s.die c).vpt c v = none
      rw [Sys.die_vpt, if_pos rfl]
  have hfirst : Passed s₀ e c UTEXT s₀ := by
    refine ⟨?_, rfl, rfl, rfl, fun hal => absurd (by decide) hal, fun e' v => (if_neg (by omega)).symm⟩
    show update _ e _ = update (update _ e _) e _
    rw [update_idem]
  obtain ⟨k, b, hb, h⟩ := Passed.run hpar (UTOP - UTEXT) le_rfl le_rfl hfirst
  refine ⟨k + 1, ?_⟩
  have hrun : exec step (.fork e c true :: List.replicate (k + 1) (.next e true)) s =
      step (.next e true) (exec step (List.replicate k (.next e true)) s₀) := by
    rw [exec, hfork, List.replicate_succ', exec_append]
    rfl
  rw [hrun]
  generalize exec step (List.replicate k (.next e true)) s₀ = s₁ at h
  have hscan : s₁.pc e = .scan c b := by rw [h.pc, update_self]
  have hend : step (.next e true) s₁ =
      (((s₁.alloc fun _ => 0).setPte c XSTACK ⟨s₁.fresh, PTE_W ||| PTE_U ||| PTE_P⟩).setPc c .run).setPc e .run := by
    rw [step, react, hscan]
    dsimp only
    rw [if_neg (Nat.not_lt_of_le hb), finish, if_pos rfl]
  rw [hend]
  refine ⟨update_self .., (update_of_ne hne _ _).trans (update_self ..), fun f hf => ?_,
    fun v hlo hhi hv e' he => ?_⟩
  · have hf₁ : f < s₁.fresh := h.fresh ▸ hf
    show (s₁.alloc _).frame f = _
    rw [s₁.alloc_frame _ hf₁, h.frame]
    rfl
  · have hvpt : ((((s₁.alloc fun _ => 0).setPte c XSTACK ⟨s₁.fresh, PTE_W ||| PTE_U ||| PTE_P⟩).setPc c .run).setPc
        e .run).vpt e' v = s₁.vpt e' v :=
      (Sys.setPte_vpt (s₁.alloc fun _ => 0) c XSTACK _ e' v).trans (if_neg fun hc => hv hc.2)
    rw [hvpt, h.vpt, if_pos ⟨he, hlo, hhi.trans_le hb, hv⟩, hvpt₀]

end

end Fork
end Lib
end Jos
