/-
# The heap after fork and spawn

`malloc` marks the pages of a large chunk, all but the last, with PTE_CONTINUED,
and `fork` and `spawn` hand on as they are the pages with PTE_SHARE: the two bits
are the same bit, 0x400. So a chunk of more than a page is shared with the
children, and a smaller one is private, as `Fork` says.

* `private_iff`: the chunks of a program are private after `fork` and `spawn` if
  and only if each of them fits in a page with its reference word.
* `chunk_shared`: a child writes to a chunk of 5000 bytes, and the parent reads it.
-/
import Jos.Lib.Fork
import Jos.Lib.Malloc

namespace Jos
namespace Lib
namespace ForkHeap

open Fork (Sys Ev Family Calm Shared Cell Spec Op Agrees Rel Page UTEXT UTOP XSTACK PTE_P PTE_U PTE_W dupPte ops write)
open Malloc (PGSIZE Chunk roundup4 mbegin mend init step)
open Function

abbrev PTE_CONTINUED : ℕ := 0x400

/-- The permissions with which `malloc` allocates a page. -/
def mallocPerm (continued : Bool) : ℕ := PTE_P ||| PTE_U ||| PTE_W ||| if continued then PTE_CONTINUED else 0

/-- Env `e` runs, alone, with the heap `h`. -/
structure Runs (s : Sys) (e : ℕ) (h : Malloc.St) : Prop where
  family : Family s
  pc : s.pc e = .run
  alone : ∀ e' ≠ e, s.pc e' = .unborn ∧ ∀ v, s.vpt e' v = none
  heap : ∀ {q b}, h.vpt q = some (.heap b) → ∃ f, s.vpt e q = some ⟨f, mallocPerm b⟩

/-- `copy_shared_pages` of `spawn` maps page `v` of env `e` into the child. -/
def copiesShared (s : Sys) (e v : ℕ) : Bool :=
  match s.vpt e v with
  | none => false
  | some p => decide (p.perm &&& (PTE_U ||| PTE_P) = PTE_U ||| PTE_P) && decide (Shared p.perm)

/-- The page numbers of the arena. -/
def InArena (q : ℕ) : Prop := mbegin / PGSIZE ≤ q ∧ q < mend / PGSIZE

/-- Whatever the env and its descendants do, a write of one to a page of a live
chunk does not change what another reads there, and a spawned child does not get
the page. What `isfree` and `free` read of the page tables stays as it is: `fork`
gives the child the pages of the arena that the parent has, and no page of the
arena gets or loses the mark. -/
structure Private (s : Sys) (e : ℕ) (h : Malloc.St) : Prop where
  fork : ∀ c ∈ h.live, ∀ a, c.v ≤ a → a < c.v + c.size → ∀ (es : List Ev) (e' e'' i : ℕ) (b : UInt8) (mem : Bool),
    e' ≠ e'' → (Fork.step (.write e' (a / PGSIZE) i b mem) (exec Fork.step es s)).read e'' (a / PGSIZE) =
      (exec Fork.step es s).read e'' (a / PGSIZE)
  spawn : ∀ c ∈ h.live, ∀ a, c.v ≤ a → a < c.v + c.size → copiesShared s e (a / PGSIZE) = false
  mapped : ∃ k, ∀ e', e' = e ∨ e' = e + 1 → ∀ q, InArena q →
    ((exec Fork.step (.fork e (e + 1) true :: List.replicate k (.next e true)) s).vpt e' q).isSome = (s.vpt e q).isSome
  mark : ∀ (es : List Ev) (e' q : ℕ), InArena q → ∀ p, (exec Fork.step es s).vpt e' q = some p →
    ∃ p₀, s.vpt e q = some p₀ ∧ p.perm &&& PTE_CONTINUED = p₀.perm &&& PTE_CONTINUED

/-! ### A page that is shared in every env, or in none -/

def Shares : Cell → Bool
  | .own _ _ => false
  | .shared _ => true

/-- Page `q` is a shared one in every env that has it, or in none. -/
def Uniform (q : ℕ) (sh : Bool) (t : Spec) : Prop := ∀ e x, t.cell e q = some x → Shares x = sh

section

variable {q : ℕ} {sh : Bool} {t : Spec}

theorem Uniform.act (h : Uniform q sh t) {x : Op} (hx : ∀ e, x ≠ .zero e q) : Uniform q sh (Spec.act x t) := by
  have hset : ∀ e v y, (v = q → ∀ z, y = some z → Shares z = sh) → Uniform q sh (t.setCell e v y) := by
    intro e v y hy e' z hz
    rw [Spec.setCell_cell] at hz
    split at hz
    · next hc => exact hy hc.2.symm z hz
    · exact h e' z hz
  cases x with
  | write e v i b =>
    rw [Spec.act]
    split
    · next hc =>
      refine hset _ _ _ fun hv z hz => ?_
      have hown := h e _ (hv ▸ hc)
      rw [← Option.some.inj hz]
      exact hown
    · exact h
    · exact h
  | copy e c v => exact hset _ _ _ fun hv z hz => h e z (hv ▸ hz)
  | zero e v => exact hset _ _ _ fun hv => absurd (hv ▸ rfl) (hx e)
  | clear e =>
    intro e' z hz
    replace hz : update t.cell e (fun _ => none) e' q = some z := hz
    rw [update_apply] at hz
    split at hz
    · cases hz
    · exact h e' z hz

theorem Uniform.exec (h : Uniform q sh t) :
    ∀ xs : List Op, (∀ x ∈ xs, ∀ e, x ≠ .zero e q) → Uniform q sh (Jos.exec Spec.act xs t) := by
  intro xs
  induction xs generalizing t with
  | nil => exact fun _ => h
  | cons x xs ih =>
    intro hxs
    exact ih (h.act (hxs x List.mem_cons_self)) fun y hy => hxs y (List.mem_cons_of_mem x hy)

/-- A write by another env to a page that nobody shares is not read. -/
theorem Uniform.read_write (h : Uniform q false t) {e' e'' i : ℕ} {b : UInt8} (hne : e' ≠ e'') :
    (Spec.act (.write e' q i b) t).read e'' q = t.read e'' q := by
  rw [Spec.act]
  split
  · rw [Spec.read, Spec.setCell_cell, if_neg fun hc => hne hc.1.symm]
    rfl
  · next o hc => exact absurd (h e' _ hc) (by simp [Shares])
  · rfl

theorem read_clear {e' e'' : ℕ} (hne : e' ≠ e'') : (Spec.act (.clear e') t).read e'' q = t.read e'' q := by
  have hcell : (Spec.act (.clear e') t).cell e'' = t.cell e'' := update_of_ne hne.symm _ _
  rw [Spec.read, hcell]
  rfl

end

/-- What a write event does to the pages: a write there, the end of the env, or nothing. -/
theorem ops_write (e v i : ℕ) (b : UInt8) (mem : Bool) (s : Sys) :
    ops (.write e v i b mem) s = [.write e v i b] ∨ ops (.write e v i b mem) s = [.clear e] ∨
      ops (.write e v i b mem) s = [] := by
  have hwrite : (write e v i b mem s).2 = [.write e v i b] ∨ (write e v i b mem s).2 = [.clear e] := by
    rw [write]
    split
    · exact .inr rfl
    split
    · exact .inl rfl
    split
    · exact .inl rfl
    · exact .inr rfl
  rw [ops, Fork.react]
  split
  · split
    · exact hwrite.imp_right .inl
    · exact hwrite.imp_right .inl
    · exact .inr (.inr rfl)
  · exact .inr (.inr rfl)

/-- Only the exception stack of a child is zeroed. -/
theorem zero_of_mem_ops {x : Ev} {s : Sys} {e v : ℕ} (h : Op.zero e v ∈ ops x s) : v = XSTACK := by
  cases x with
  | write e' v' i b mem =>
    rcases ops_write e' v' i b mem s with hop | hop | hop
    all_goals rw [hop] at h; simp at h
  | fork e' c mem =>
    rw [ops, Fork.react] at h
    split at h
    · split at h
      all_goals simp at h
    · split at h
      all_goals simp at h
    · simp at h
  | next e' mem =>
    rw [ops, Fork.react] at h
    split at h
    · split at h
      · rw [Fork.scan] at h
        split at h
        · simp at h
        split at h
        · simp at h
        split at h
        · simp at h
        split at h
        · simp at h
        split at h
        all_goals simp at h
      · rw [Fork.finish] at h
        split at h
        · simp at h
          exact h.2
        · simp at h
    · simp at h

/-! ### Chunks of one page -/

section

variable {s : Sys} {e : ℕ} {h : Malloc.St}

theorem Runs.calm (hr : Runs s e h) : Calm s := fun e' => by
  by_cases he : e' = e
  · exact .inl (he ▸ hr.pc)
  · exact .inr (hr.alone e' he).1

/-- The family is the abstract one, and there the page stays a shared one or not. -/
theorem Runs.rel {q : ℕ} (hr : Runs s e h) (hx : q ≠ XSTACK) (es : List Ev) :
    ∃ t, Rel (exec Fork.step es s) t ∧
      ∀ sh, (∀ p, s.vpt e q = some p → decide (Shared p.perm) = sh) → Uniform q sh t := by
  have hview : ∀ sh, (∀ p, s.vpt e q = some p → decide (Shared p.perm) = sh) → Uniform q sh s.view := by
    intro sh hq e₁ x hc
    replace hc : (s.vpt e₁ q).map s.cellOf = some x := hc
    by_cases he : e₁ = e
    · obtain ⟨p, hp, rfl⟩ := Option.map_eq_some_iff.mp hc
      rw [← hq p (he ▸ hp), Sys.cellOf]
      split
      · next hsh => exact (decide_eq_true hsh).symm
      · next hsh => exact (decide_eq_false hsh).symm
    · rw [(hr.alone e₁ he).2 q] at hc
      cases hc
  exact ⟨_, exec_simulates (R := fun s' t => Rel s' t ∧
      ∀ sh, (∀ p, s.vpt e q = some p → decide (Shared p.perm) = sh) → Uniform q sh t)
    (fun x s t ht => ⟨ht.1.step x, fun sh hq => (ht.2 sh hq).exec _ fun y hy e' hz => hx (zero_of_mem_ops (hz ▸ hy))⟩)
    es ⟨⟨hr.family, hr.calm.scans, Agrees.view s⟩, hview⟩⟩

/-- A page that the env has and does not share is private in the family. -/
theorem Runs.read_other {q f : ℕ} (hr : Runs s e h) (hx : q ≠ XSTACK) (hq : s.vpt e q = some ⟨f, mallocPerm false⟩)
    (es : List Ev) {e' e'' i : ℕ} {b : UInt8} {mem : Bool} (hne : e' ≠ e'') :
    (Fork.step (.write e' q i b mem) (exec Fork.step es s)).read e'' q = (exec Fork.step es s).read e'' q := by
  obtain ⟨t, hrel, hkind⟩ := hr.rel hx es
  have hun : Uniform q false t := hkind false fun p hp => by
    rw [← Option.mem_unique hq hp]
    exact decide_eq_false (show ¬ Shared (mallocPerm false) by decide)
  rw [(hrel.step _).agrees.read, hrel.agrees.read]
  rcases ops_write e' q i b mem (exec Fork.step es s) with hop | hop | hop
  · rw [hop]
    exact hun.read_write hne
  · rw [hop]
    exact read_clear hne
  · rw [hop]
    rfl

/-- The mark of a page is the bit that makes it a shared one. -/
theorem mark_eq {perm : ℕ} (h : Fork.Allowed perm) :
    perm &&& PTE_CONTINUED = if Shared perm then PTE_CONTINUED else 0 := by
  rcases h with rfl | rfl | rfl | rfl
  all_goals decide

theorem InArena.ne_xstack {q : ℕ} (h : InArena q) : q ≠ XSTACK := by
  have hhi : q < 0x10000000 / 4096 := h.2
  show q ≠ 955 * 1024 - 1
  omega

/-- The mark of a page of the arena is the same wherever and whenever it is mapped. -/
theorem Runs.mark (hr : Runs s e h) (es : List Ev) {e' q : ℕ} (hq : InArena q) {p : Fork.Pte}
    (hp : (exec Fork.step es s).vpt e' q = some p) :
    ∃ p₀, s.vpt e q = some p₀ ∧ p.perm &&& PTE_CONTINUED = p₀.perm &&& PTE_CONTINUED := by
  obtain ⟨t, hrel, huniform⟩ := hr.rel hq.ne_xstack es
  have hkind : ∀ sh, (∀ p₀, s.vpt e q = some p₀ → decide (Shared p₀.perm) = sh) → decide (Shared p.perm) = sh := by
    intro sh hsh
    have hcell := hrel.agrees.cell e' q
    rw [hp, Option.map_some] at hcell
    rw [← huniform sh hsh e' _ hcell, Sys.cellOf]
    split
    · next hs => exact decide_eq_true hs
    · next hs => exact decide_eq_false hs
  cases hp₀ : s.vpt e q with
  | none =>
    -- nobody had the page, so that it would be both
    have hno : ∀ sh, ∀ p₀, s.vpt e q = some p₀ → decide (Shared p₀.perm) = sh := fun sh p₀ h₀ =>
      absurd (hp₀.symm.trans h₀) (by simp)
    cases (hkind true (hno true)).symm.trans (hkind false (hno false))
  | some p₀ =>
    refine ⟨p₀, rfl, ?_⟩
    have hsame := hkind (decide (Shared p₀.perm)) fun p₁ h₁ => by rw [Option.mem_unique hp₀ h₁]
    rw [mark_eq (hrel.family.perm hp), mark_eq (hr.family.perm hp₀)]
    exact if_congr (decide_eq_decide.mp hsame) rfl rfl

theorem Runs.mapped (hr : Runs s e h) :
    ∃ k, ∀ e', e' = e ∨ e' = e + 1 → ∀ q, InArena q →
      ((exec Fork.step (.fork e (e + 1) true :: List.replicate k (.next e true)) s).vpt e' q).isSome =
        (s.vpt e q).isSome := by
  obtain ⟨k, hk⟩ := Fork.exists_fork hr.family.perm hr.family.dir hr.pc (hr.alone (e + 1) (by omega)).1
  refine ⟨k, fun e' he q hq => ?_⟩
  have hlo : 0x08000000 / 4096 ≤ q := hq.1
  have hhi : q < 0x10000000 / 4096 := hq.2
  rw [hk.pages q (show 2 * 1024 ≤ q by omega) (show q < 955 * 1024 by omega) hq.ne_xstack e' he, Option.isSome_map]

/-- The page of a byte of a chunk that has one page only has no mark. -/
theorem vpt_of_small {c : Chunk} {a : ℕ} (hb : Malloc.Book h) (hc : c ∈ h.live) (hsmall : c.size + 4 ≤ PGSIZE)
    (hlo : c.v ≤ a) (hhi : a < c.v + c.size) : h.vpt (a / PGSIZE) = some (.heap false) ∧ InArena (a / PGSIZE) := by
  have hp := hb.placed c hc
  have hlast : c.first = c.last := by
    by_contra hne
    have hlt : c.first < c.last := lt_of_le_of_ne c.first_le_last hne
    have hal : c.v % 4096 = 0 := hp.whole hlt
    replace hlt : c.v / 4096 < (c.v + c.size + 3) / 4096 := hlt
    replace hsmall : c.size + 4 ≤ 4096 := hsmall
    omega
  have hpage : a / PGSIZE = c.last := by
    have h1 : c.first ≤ a / PGSIZE := Nat.div_le_div_right hlo
    have h2 : a / PGSIZE ≤ c.last := Nat.div_le_div_right (by omega)
    omega
  have harena : InArena c.last := ⟨(Nat.div_le_div_right hp.low).trans hlast.le, hp.below⟩
  rw [hpage]
  exact ⟨hp.ending, harena⟩

theorem Runs.private_of_small (hr : Runs s e h) (hb : Malloc.Book h)
    (hsmall : ∀ c ∈ h.live, c.size + 4 ≤ PGSIZE) : Private s e h := by
  refine ⟨fun c hc a hlo hhi es e' e'' i b mem hne => ?_, fun c hc a hlo hhi => ?_, hr.mapped,
    fun es e' q hq p hp => hr.mark es hq hp⟩
  all_goals
    obtain ⟨hv, harena⟩ := vpt_of_small hb hc (hsmall c hc) hlo hhi
    obtain ⟨f, hf⟩ := hr.heap hv
  · exact hr.read_other harena.ne_xstack hf es hne
  · rw [copiesShared, hf]
    exact Bool.and_eq_false_imp.mpr fun _ => decide_eq_false (show ¬ Shared (mallocPerm false) by decide)

/-! ### Chunks of several pages -/

/-- A child writes to a continued page, and the parent reads it. -/
theorem Runs.visible {q f : ℕ} (hr : Runs s e h) (hq : s.vpt e q = some ⟨f, mallocPerm true⟩) (hlo : UTEXT ≤ q)
    (hhi : q < UTOP) (hx : q ≠ XSTACK) (b : UInt8) :
    ∃ k, (exec Fork.step (.fork e (e + 1) true :: List.replicate k (.next e true)) s).read e q = some (s.frame f) ∧
      (Fork.step (.write (e + 1) q 0 b true)
        (exec Fork.step (.fork e (e + 1) true :: List.replicate k (.next e true)) s)).read e q =
      some (update (s.frame f) 0 b) := by
  obtain ⟨k, hk⟩ := Fork.exists_fork hr.family.perm hr.family.dir hr.pc (hr.alone (e + 1) (by omega)).1
  refine ⟨k, ?_⟩
  generalize exec Fork.step (.fork e (e + 1) true :: List.replicate k (.next e true)) s = s' at hk
  have hdup : dupPte ⟨f, mallocPerm true⟩ = ⟨f, mallocPerm true⟩ := by
    rw [dupPte, Fork.dupPerm, if_pos (Or.inl (show Shared (mallocPerm true) by decide))]
  have hpages : ∀ e', e' = e ∨ e' = e + 1 → s'.vpt e' q = some ⟨f, mallocPerm true⟩ := fun e' he => by
    rw [hk.pages q hlo hhi hx e' he, hq, Option.map_some, hdup]
  have hwrite : Fork.step (.write (e + 1) q 0 b true) s' =
      { s' with frame := update s'.frame f (update (s'.frame f) 0 b) } := by
    rw [Fork.step, Fork.react, if_pos ⟨hlo, hhi⟩, hk.child]
    dsimp only
    rw [write, hpages _ (Or.inr rfl)]
    dsimp only
    rw [if_pos (show mallocPerm true &&& PTE_W ≠ 0 by decide)]
  refine ⟨by rw [Sys.read, hpages e (Or.inl rfl), Option.map_some, hk.frame f (hr.family.used hq)], ?_⟩
  rw [hwrite]
  show (s'.vpt e q).map _ = _
  rw [hpages e (Or.inl rfl)]
  show some (update s'.frame f (update (s'.frame f) 0 b) f) = _
  rw [update_self, hk.frame f (hr.family.used hq)]

/-- The first page of a chunk of several pages has the mark. -/
theorem vpt_of_large {c : Chunk} (hb : Malloc.Book h) (hc : c ∈ h.live) (hlarge : PGSIZE < c.size + 4) :
    h.vpt c.first = some (.heap true) ∧ UTEXT ≤ c.first ∧ c.first < UTOP ∧ c.first ≠ XSTACK := by
  have hp := hb.placed c hc
  have hlt : c.first < c.last := by
    replace hlarge : 4096 < c.size + 4 := hlarge
    show c.v / 4096 < (c.v + c.size + 3) / 4096
    omega
  have hlo : 0x08000000 / 4096 ≤ c.first := Nat.div_le_div_right hp.low
  have hhi : c.last < 0x10000000 / 4096 := hp.below
  refine ⟨hp.continued _ le_rfl hlt, show 2 * 1024 ≤ c.first by omega, show c.first < 955 * 1024 by omega, ?_⟩
  show c.first ≠ 955 * 1024 - 1
  omega

theorem Runs.small_of_private (hr : Runs s e h) (hb : Malloc.Book h) (hp : Private s e h) :
    ∀ c ∈ h.live, c.size + 4 ≤ PGSIZE := by
  intro c hc
  by_contra hlarge
  obtain ⟨hv, hlo, hhi, hx⟩ := vpt_of_large hb hc (Nat.lt_of_not_le hlarge)
  obtain ⟨f, hf⟩ := hr.heap hv
  obtain ⟨k, hbefore, hafter⟩ := hr.visible hf hlo hhi hx (s.frame f 0 + 1)
  have hsame := hp.fork c hc c.v le_rfl (by replace hlarge : ¬ c.size + 4 ≤ 4096 := hlarge; omega)
    (.fork e (e + 1) true :: List.replicate k (.next e true)) (e + 1) e 0 (s.frame f 0 + 1) true (by omega)
  have hpage := congrFun (Option.mem_unique hafter ((hsame.trans hbefore))) 0
  rw [update_self] at hpage
  exact absurd hpage (by simp)

end

/-! ### Programs -/

/-- An env whose heap has two pages at the start of the arena; the first has the
mark or not. -/
def program (continued : Bool) : Sys where
  frame _ _ := 0
  fresh := 2
  vpt e v :=
    if e = 0 then
      if v = mbegin / PGSIZE then some ⟨0, mallocPerm continued⟩
      else if v = mbegin / PGSIZE + 1 then some ⟨1, mallocPerm false⟩
      else none
    else none
  vpd e x := decide (e = 0) && decide (x = mbegin / PGSIZE / Fork.NPTENTRIES)
  pc e := if e = 0 then .run else .unborn

theorem program_vpt {continued : Bool} {e v : ℕ} {p : Fork.Pte} (h : (program continued).vpt e v = some p) :
    e = 0 ∧ (v = mbegin / PGSIZE ∧ p = ⟨0, mallocPerm continued⟩ ∨
      v = mbegin / PGSIZE + 1 ∧ p = ⟨1, mallocPerm false⟩) := by
  simp only [program] at h
  split at h
  · next he =>
    refine ⟨he, ?_⟩
    split at h
    · next hv => exact .inl ⟨hv, (Option.some.inj h).symm⟩
    split at h
    · next hv => exact .inr ⟨hv, (Option.some.inj h).symm⟩
    · cases h
  · cases h

theorem mallocPerm_allowed : ∀ continued, Fork.Allowed (mallocPerm continued)
  | false => .inl rfl
  | true => .inr (.inl rfl)

theorem program_family (continued : Bool) : Family (program continued) := by
  refine ⟨fun hp => ?_, fun hp => ?_, fun {e v p e' v' p'} hp hp' hf => .inl ?_, fun hp => ?_⟩
  · obtain ⟨-, ⟨-, rfl⟩ | ⟨-, rfl⟩⟩ := program_vpt hp
    · exact mallocPerm_allowed _
    · exact mallocPerm_allowed _
  · obtain ⟨-, ⟨-, rfl⟩ | ⟨-, rfl⟩⟩ := program_vpt hp
    · exact Nat.zero_lt_two
    · exact Nat.one_lt_two
  · obtain ⟨rfl, h₁⟩ := program_vpt hp
    obtain ⟨rfl, h₂⟩ := program_vpt hp'
    refine ⟨rfl, ?_⟩
    rcases h₁ with ⟨rfl, rfl⟩ | ⟨rfl, rfl⟩
    · rcases h₂ with ⟨rfl, rfl⟩ | ⟨rfl, rfl⟩
      · rfl
      · cases show (0 : ℕ) = 1 from hf
    · rcases h₂ with ⟨rfl, rfl⟩ | ⟨rfl, rfl⟩
      · cases show (1 : ℕ) = 0 from hf
      · rfl
  · obtain ⟨rfl, ⟨rfl, -⟩ | ⟨rfl, -⟩⟩ := program_vpt hp
    · rfl
    · rfl

/-- It runs with any heap of these two pages. -/
theorem program_runs {continued : Bool} {h : Malloc.St}
    (hheap : ∀ q b, h.vpt q = some (.heap b) →
      q = mbegin / PGSIZE ∧ b = continued ∨ q = mbegin / PGSIZE + 1 ∧ b = false) :
    Runs (program continued) 0 h := by
  refine ⟨program_family continued, rfl, fun e' he => ⟨if_neg he, fun v => if_neg he⟩, fun {q b} hq => ?_⟩
  rcases hheap q b hq with ⟨rfl, rfl⟩ | ⟨rfl, rfl⟩
  · exact ⟨0, rfl⟩
  · exact ⟨1, rfl⟩

/-- The heap after `malloc(100)`. -/
theorem vpt_small : (exec step [.malloc 100 9] (init fun _ => false)).vpt =
    update (fun _ => none) (mbegin / PGSIZE) (some (.heap false)) := by
  rfl

/-- The heap after `malloc(5000)`. -/
theorem vpt_large : (exec step [.malloc 5000 9] (init fun _ => false)).vpt =
    update (update (fun _ => none) (mbegin / PGSIZE) (some (.heap true))) (mbegin / PGSIZE + 1)
      (some (.heap false)) := by
  rfl

/-- The programs with these heaps run. -/
theorem runs_small : Runs (program false) 0 (exec step [.malloc 100 9] (init fun _ => false)) := by
  refine program_runs fun q b hq => .inl ?_
  rw [vpt_small, update_apply] at hq
  split at hq
  · next hv => exact ⟨hv, (Malloc.Pte.heap.inj (Option.some.inj hq)).symm⟩
  · cases hq

theorem runs_large : Runs (program true) 0 (exec step [.malloc 5000 9] (init fun _ => false)) := by
  refine program_runs fun q b hq => ?_
  rw [vpt_large, update_apply, update_apply] at hq
  split at hq
  · next hv => exact .inr ⟨hv, (Malloc.Pte.heap.inj (Option.some.inj hq)).symm⟩
  split at hq
  · next hv => exact .inl ⟨hv, (Malloc.Pte.heap.inj (Option.some.inj hq)).symm⟩
  · cases hq

/-- **Heap chunks are private after fork and spawn if and only if they are small.**
Here `malloc` and `free` have been called in any order, with any sizes, as long as
the heap is in order at all (no reference word overflows, `mptr` is in the arena). -/
theorem private_iff {others : ℕ → Bool} {calls : List Malloc.Ev} {s : Sys} {e : ℕ}
    (hC : Throughout step Malloc.RefFits calls (init others))
    (hin : (exec step calls (init others)).out = false)
    (hr : Runs s e (exec step calls (init others))) :
    Private s e (exec step calls (init others)) ↔
      ∀ c ∈ (exec step calls (init others)).live, c.size + 4 ≤ PGSIZE := by
  have hb := (Malloc.Inv.of_run hC hin).book
  exact ⟨hr.small_of_private hb, hr.private_of_small hb⟩

theorem private_iff_hundred :
    Private (program false) 0 (exec step [.malloc 100 9] (init fun _ => false)) :=
  (private_iff (by decide +kernel) rfl runs_small).mpr (by decide +kernel)

/-- The program has called `malloc(5000)` and forks; the child writes a byte to
the chunk, and the parent reads it. -/
theorem chunk_shared :
    (⟨mbegin, 5000⟩ : Chunk) ∈ (exec step [.malloc 5000 9] (init fun _ => false)).live ∧
      Runs (program true) 0 (exec step [.malloc 5000 9] (init fun _ => false)) ∧
      ∃ k, (exec Fork.step (.fork 0 1 true :: List.replicate k (.next 0 true)) (program true)).read 0
          (mbegin / PGSIZE) = some (fun _ => 0) ∧
        (Fork.step (.write 1 (mbegin / PGSIZE) 0 7 true)
          (exec Fork.step (.fork 0 1 true :: List.replicate k (.next 0 true)) (program true))).read 0
          (mbegin / PGSIZE) = some (update (fun _ => 0) 0 7) :=
  ⟨by decide +kernel, runs_large, runs_large.visible rfl (by decide) (by decide) (by decide) 7⟩

end ForkHeap
end Lib
end Jos
