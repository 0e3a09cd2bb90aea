/-
# What each page is used for

Every page has a role: it is reserved at boot, free, a page directory, a page
table, or given out for envs to map. `Typed k role l` says that the entries of
the directories and tables agree with the roles, that the free list is `l`, and
that `pp_ref` counts the references to a page modulo 2 ^ 16.

The boot directory and the directories of the envs are treated alike: their
owner is `none` or `some e`, and `Entry o i` are the entries that point to page
tables of their own.

Key definitions: `KernSt.target`, `KernSt.mapCount`, `KernSt.isTable`, `Role`,
`Typed`.
Key theorems: one for each way a page changes its role.
-/
import Jos.Kern.Env
import Mathlib.Algebra.BigOperators.Group.Finset.Piecewise
import Mathlib.Algebra.Order.BigOperators.Group.Finset

namespace Jos
namespace Kern

open Fs (NENV PGSIZE)
open Function

/-! ### Mappings and their number -/

/-- The pages below `UTOP`. -/
abbrev NUPAGES : ℕ := UTOP / PGSIZE

namespace KernSt

/-- The page directory of the kernel or of a live env. -/
def dirOf (k : KernSt) : Option ℕ → Option ℕ
  | none => some k.bootPgdir
  | some e => if e < NENV ∧ (k.envs e).status ≠ .free then (k.envs e).pgdir else none

/-- The entry that maps page `v` of env `e`. -/
def pteAt (k : KernSt) (e v : ℕ) : Option Pte :=
  match k.dirOf (some e) with
  | none => none
  | some d =>
    if (k.word d (v / NPTENTRIES)).present then
      let pte := k.word (k.word d (v / NPTENTRIES)).ppn (v % NPTENTRIES)
      if pte.present then some pte else none
    else none

/-- The page that is mapped at page `v` of env `e`. -/
def target (k : KernSt) (e v : ℕ) : Option ℕ := (k.pteAt e v).map Pte.ppn

/-- The mappings of page `p` below `UTOP` in env `e`. -/
def envMaps (k : KernSt) (e p : ℕ) : ℕ := ((Finset.range NUPAGES).filter fun v => k.target e v = some p).card

def mapCount (k : KernSt) (p : ℕ) : ℕ := ∑ e ∈ Finset.range NENV, k.envMaps e p

/-- `p` is a page directory, or a page directory points to it. -/
def isTable (k : KernSt) (p : ℕ) : Bool :=
  (none :: (List.range NENV).map some).any fun o => (k.dirOf o).any fun d =>
    d == p || (List.range NPTENTRIES).any fun i => (k.word d i).present && (k.word d i).ppn == p

/-- A page that `page_alloc` may hand out. -/
def managed (k : KernSt) (p : ℕ) : Bool := p < k.npage && !reserved k.freemem p

variable {k k' : KernSt} {e v p d : ℕ}

theorem dirOf_some : k.dirOf (some e) = some d ↔ e < NENV ∧ (k.envs e).status ≠ .free ∧ (k.envs e).pgdir = some d := by
  unfold dirOf
  dsimp only
  split_ifs with h
  · exact ⟨fun hd => ⟨h.1, h.2, hd⟩, fun hd => hd.2.2⟩
  · exact ⟨fun hd => absurd hd (by simp), fun hd => absurd ⟨hd.1, hd.2.1⟩ h⟩

/-- The entry at an address whose directory has a table for it. -/
theorem pteAt_of_table (hd : k.dirOf (some e) = some d) (hp : (k.word d (v / NPTENTRIES)).present = true) :
    k.pteAt e v = if (k.word (k.word d (v / NPTENTRIES)).ppn (v % NPTENTRIES)).present = true then
      some (k.word (k.word d (v / NPTENTRIES)).ppn (v % NPTENTRIES)) else none := by
  unfold pteAt
  rw [hd]
  dsimp only
  rw [if_pos hp]

theorem pteAt_dir {pte : Pte} (h : k.pteAt e v = some pte) : ∃ d, k.dirOf (some e) = some d := by
  unfold pteAt at h
  cases hd : k.dirOf (some e) with
  | none => simp [hd] at h
  | some d => exact ⟨d, rfl⟩

theorem target_eq_some : k.target e v = some p ↔ ∃ pte, k.pteAt e v = some pte ∧ pte.ppn = p := by
  unfold target
  rw [Option.map_eq_some_iff]

theorem target_of_pteAt (h : k'.pteAt e v = k.pteAt e v) : k'.target e v = k.target e v := by
  unfold target
  rw [h]

theorem isTable_iff : k.isTable p = true ↔ ∃ o d, k.dirOf o = some d ∧
    (d = p ∨ ∃ i < NPTENTRIES, (k.word d i).present = true ∧ (k.word d i).ppn = p) := by
  unfold isTable
  rw [List.any_eq_true]
  constructor
  · rintro ⟨o, -, ho⟩
    cases hd : k.dirOf o with
    | none => simp [hd] at ho
    | some d =>
      rw [hd] at ho
      exact ⟨o, d, hd, by simpa using ho⟩
  · rintro ⟨o, d, hd, hp⟩
    refine ⟨o, ?_, ?_⟩
    · cases o with
      | none => exact .head _
      | some e => exact List.mem_cons_of_mem _ (List.mem_map_of_mem (List.mem_range.mpr (dirOf_some.mp hd).1))
    · rw [hd]
      simpa using hp

/-- The envs have the same mappings. -/
def SameMaps (k k' : KernSt) : Prop := ∀ e, ∀ v < NUPAGES, k'.pteAt e v = k.pteAt e v

theorem envMaps_congr (h : ∀ v < NUPAGES, k'.pteAt e v = k.pteAt e v) : k'.envMaps e p = k.envMaps e p := by
  unfold envMaps
  exact congrArg Finset.card (Finset.filter_congr fun v hv => by rw [target_of_pteAt (h v (Finset.mem_range.mp hv))])

theorem mapCount_congr (h : k.SameMaps k') : k'.mapCount p = k.mapCount p :=
  Finset.sum_congr rfl fun e _ => envMaps_congr (h e)

theorem mapCount_eq_zero (h : ∀ e, ∀ v < NUPAGES, k.target e v ≠ some p) : k.mapCount p = 0 :=
  Finset.sum_eq_zero fun e _ => Finset.card_eq_zero.mpr
    (Finset.filter_eq_empty_iff.mpr fun v hv => h e v (Finset.mem_range.mp hv))

theorem target_ne_of_mapCount (h : k.mapCount p = 0) : ∀ e, ∀ v < NUPAGES, k.target e v ≠ some p := by
  intro e v hv ht
  have he : e ∈ Finset.range NENV := by
    obtain ⟨pte, hpte, -⟩ := target_eq_some.mp ht
    obtain ⟨d, hd⟩ := pteAt_dir hpte
    exact Finset.mem_range.mpr (dirOf_some.mp hd).1
  have hz := Finset.sum_eq_zero_iff.mp h e he
  have hv' : v ∈ (Finset.range NUPAGES).filter fun v => k.target e v = some p :=
    Finset.mem_filter.mpr ⟨Finset.mem_range.mpr hv, ht⟩
  rw [Finset.card_eq_zero.mp hz] at hv'
  exact absurd hv' (Finset.notMem_empty v)

end KernSt

/-- A function changed in one place, and how often it takes a value. -/
theorem card_filter_of_agree {s : Finset ℕ} {f g : ℕ → Option ℕ} {a : ℕ} (ha : a ∈ s)
    (h : ∀ x ∈ s, x ≠ a → g x = f x) (b : ℕ) :
    (s.filter fun x => g x = some b).card + (if f a = some b then 1 else 0) =
      (s.filter fun x => f x = some b).card + (if g a = some b then 1 else 0) := by
  rw [Finset.card_filter, Finset.card_filter, ← Finset.add_sum_erase s _ ha, ← Finset.add_sum_erase s _ ha]
  have hsum : (∑ x ∈ s.erase a, if g x = some b then 1 else 0) = ∑ x ∈ s.erase a, if f x = some b then 1 else 0 :=
    Finset.sum_congr rfl fun x hx => by
      rw [h x (Finset.mem_of_mem_erase hx) (Finset.ne_of_mem_erase hx)]
  omega

namespace KernSt

/-- One mapping changed. -/
theorem mapCount_of_agree {k k' : KernSt} {e v : ℕ} (he : e < NENV) (hv : v < NUPAGES)
    (h : ∀ e', ∀ v' < NUPAGES, ¬ (e' = e ∧ v' = v) → k'.pteAt e' v' = k.pteAt e' v') (p : ℕ) :
    k'.mapCount p + (if k.target e v = some p then 1 else 0) =
      k.mapCount p + (if k'.target e v = some p then 1 else 0) := by
  have he' := Finset.mem_range.mpr he
  unfold mapCount
  rw [← Finset.add_sum_erase _ _ he', ← Finset.add_sum_erase _ _ he']
  have hsum : ∑ x ∈ (Finset.range NENV).erase e, k'.envMaps x p = ∑ x ∈ (Finset.range NENV).erase e, k.envMaps x p :=
    Finset.sum_congr rfl fun x hx => envMaps_congr fun v' hv' =>
      h x v' hv' fun hc => Finset.ne_of_mem_erase hx hc.1
  have hone := card_filter_of_agree (f := k.target e) (g := k'.target e) (Finset.mem_range.mpr hv)
    (fun x hx hne => target_of_pteAt (h e x (Finset.mem_range.mp hx) fun hc => hne hc.2)) p
  unfold envMaps at hsum ⊢
  omega

end KernSt

/-! ### Roles -/

inductive Role
  | reserved | free | user
  | dir (o : Option ℕ)
  | table (o : Option ℕ) (i : ℕ)

/-- The entries of a directory of `o` that point to page tables of its own. -/
def Entry : Option ℕ → ℕ → Prop
  | some _, i => i < pdx UTOP
  | none, i => pdx UTOP ≤ i ∧ i < NPTENTRIES ∧ i ≠ pdx VPT ∧ i ≠ pdx UVPT

/-- The references to page `p` in role `r`. -/
def refsOf (k : KernSt) (p : ℕ) : Role → ℕ
  | .user => k.mapCount p
  | .table _ _ => 1
  | .dir (some _) => 1
  | _ => 0

/-- The directories and tables agree with the roles. -/
structure Shape (k : KernSt) (role : ℕ → Role) : Prop where
  dir : ∀ o d, role d = .dir o ↔ k.dirOf o = some d
  table : ∀ o i p, role p = .table o i ↔
    Entry o i ∧ ∃ d, k.dirOf o = some d ∧ (k.word d i).present = true ∧ (k.word d i).ppn = p
  other : ∀ o d i, k.dirOf o = some d → ¬ Entry o i → i < NPTENTRIES → (k.word d i).present = true →
    (k.word d i).ppn = d ∨ ∃ i', role (k.word d i).ppn = .table none i'
  pde : ∀ o d i, k.dirOf o = some d → Entry o i → (k.word d i).present = true → (k.word d i).writable = true
  user : ∀ e, ∀ v < NUPAGES, ∀ pte, k.pteAt e v = some pte → role pte.ppn = .user
  live : ∀ e, (k.envs e).pgdir ≠ none ↔ e < NENV ∧ (k.envs e).status ≠ .free
  envs : ∃ l, k.envFree.Holds l ∧ ∀ e, e ∈ l ↔ e < NENV ∧ (k.envs e).status = .free

/-- And so do the free list, which is `l`, and the reference counts. -/
structure Typed (k : KernSt) (role : ℕ → Role) (l : List ℕ) : Prop extends Shape k role where
  queue : k.freeList.Holds l
  free : ∀ p, p ∈ l ↔ role p = .free
  managed : ∀ p, k.managed p = false ↔ role p = .reserved ∨ role p = .dir none
  refs : ∀ p, k.ref p = refsOf k p (role p) % 2 ^ 16

section
variable {k k' : KernSt} {role : ℕ → Role} {l : List ℕ} {o : Option ℕ} {e v p t d i j : ℕ} {pte : Pte} {r x : Role}

theorem update_eq_iff (h1 : role p ≠ x) (h2 : r ≠ x) {q : ℕ} : update role p r q = x ↔ role q = x := by
  by_cases hq : q = p
  · subst hq
    rw [update_self]
    exact ⟨fun h => absurd h h2, fun h => absurd h h1⟩
  · rw [update_of_ne hq]

theorem setWord_ne {q : ℕ} (h : q ≠ p) : (k.setWord p i pte).word q = k.word q := update_of_ne h ..

theorem setWord_word : (k.setWord p i pte).word p = update (k.word p) i pte := update_self ..

theorem setWord_self : (k.setWord p i pte).word p i = pte := by
  rw [setWord_word, update_self]

theorem setWord_self_ne (h : j ≠ i) : (k.setWord p i pte).word p j = k.word p j := by
  rw [setWord_word, update_of_ne h]

theorem entry_of_lt (h : v < NUPAGES) : Entry (some e) (v / NPTENTRIES) := by
  show v / NPTENTRIES < pdx UTOP
  have : pdx UTOP = 955 := by decide
  have hN : NUPAGES = 955 * 1024 := by decide
  simp only [NPTENTRIES]
  omega

theorem refsOf_congr (h : k.SameMaps k') : refsOf k' p r = refsOf k p r := by
  cases r with
  | user => exact KernSt.mapCount_congr h
  | dir o => cases o <;> rfl
  | _ => rfl

namespace Shape

variable (h : Shape k role)
include h

theorem user_of_target (hv : v < NUPAGES) (ht : k.target e v = some p) : role p = .user := by
  obtain ⟨pte, hpte, rfl⟩ := KernSt.target_eq_some.mp ht
  exact h.user e v hv pte hpte

theorem dirOf_eq (e : ℕ) : k.dirOf (some e) = (k.envs e).pgdir := by
  unfold KernSt.dirOf
  dsimp only
  split_ifs with hc
  · rfl
  · by_contra hne
    exact hc ((h.live e).mp fun hn => hne hn.symm)

theorem dir_of (hd : k.dirOf o = some d) : role d = .dir o := (h.dir o d).mpr hd

theorem table_of (hd : k.dirOf o = some d) (hi : Entry o i) (hp : (k.word d i).present = true) :
    role (k.word d i).ppn = .table o i := (h.table o i _).mpr ⟨hi, d, hd, hp, rfl⟩

/-- A mapping depends on an entry of the directory and on the table the entry points to. -/
theorem pteAt_eq (hdir : k'.dirOf (some e) = k.dirOf (some e))
    (hent : ∀ d, k.dirOf (some e) = some d → k'.word d (v / NPTENTRIES) = k.word d (v / NPTENTRIES))
    (htab : ∀ t, role t = .table (some e) (v / NPTENTRIES) → k'.word t = k.word t) (hv : v < NUPAGES) :
    k'.pteAt e v = k.pteAt e v := by
  unfold KernSt.pteAt
  rw [hdir]
  cases hd : k.dirOf (some e) with
  | none => rfl
  | some d =>
    dsimp only
    rw [hent d hd]
    by_cases hp : (k.word d (v / NPTENTRIES)).present = true
    · rw [htab _ (h.table_of hd (entry_of_lt hv) hp)]
    · rw [if_neg hp, if_neg hp]

omit h in
theorem dirOf_congr (henv : k'.envs = k.envs) : k'.dirOf (some e) = k.dirOf (some e) := by
  unfold KernSt.dirOf
  rw [henv]

omit h in
theorem dirOf_same (henv : k'.envs = k.envs) (hboot : k'.bootPgdir = k.bootPgdir) (o : Option ℕ) :
    k'.dirOf o = k.dirOf o := by
  unfold KernSt.dirOf
  rw [henv, hboot]

/-- Only the directories and tables matter. -/
theorem pteAt_congr (henv : k'.envs = k.envs)
    (hdir : ∀ p o, role p = .dir o → k'.word p = k.word p)
    (htab : ∀ p o i, role p = .table o i → k'.word p = k.word p) (hv : v < NUPAGES) :
    k'.pteAt e v = k.pteAt e v :=
  h.pteAt_eq (dirOf_congr henv) (fun d hd => by rw [hdir d _ (h.dir_of hd)]) (fun t => htab t _ _) hv

omit h in
/-- The entry at `i` of the directory of `o` agrees with the roles. -/
def EntryOk (k : KernSt) (role : ℕ → Role) (o : Option ℕ) (i : ℕ) : Prop :=
  (∀ p, role p = .table o i ↔
    Entry o i ∧ ∃ d, k.dirOf o = some d ∧ (k.word d i).present = true ∧ (k.word d i).ppn = p) ∧
  ∀ d, k.dirOf o = some d → (k.word d i).present = true → (Entry o i → (k.word d i).writable = true) ∧
    (¬ Entry o i → i < NPTENTRIES → (k.word d i).ppn = d ∨ ∃ i', role (k.word d i).ppn = .table none i')

omit h in
/-- A shape, entry by entry. -/
theorem of_entries (hdir : ∀ o d, role d = .dir o ↔ k.dirOf o = some d) (hent : ∀ o i, EntryOk k role o i)
    (huser : ∀ e, ∀ v < NUPAGES, ∀ pte, k.pteAt e v = some pte → role pte.ppn = .user)
    (hlive : ∀ e, (k.envs e).pgdir ≠ none ↔ e < NENV ∧ (k.envs e).status ≠ .free)
    (henvs : ∃ l, k.envFree.Holds l ∧ ∀ e, e ∈ l ↔ e < NENV ∧ (k.envs e).status = .free) : Shape k role :=
  ⟨hdir, fun o i => (hent o i).1, fun o d i hd hi hlt hp => ((hent o i).2 d hd hp).2 hi hlt,
    fun o d i hd hi hp => ((hent o i).2 d hd hp).1 hi, huser, hlive, henvs⟩

/-- An entry that is as before, in a directory that is. -/
theorem entry_congr {role' : ℕ → Role} (hd : k'.dirOf o = k.dirOf o)
    (hw : ∀ d, k.dirOf o = some d → k'.word d i = k.word d i) (ht : ∀ p, role' p = .table o i ↔ role p = .table o i)
    (hnone : ∀ p i, role p = .table none i → role' p = .table none i) : EntryOk k' role' o i := by
  refine ⟨fun p => ?_, fun d hd' hp => ?_⟩
  · rw [ht, h.table, hd]
    refine and_congr_right fun _ => exists_congr fun d => and_congr_right fun hd => ?_
    rw [hw d hd]
  · rw [hd] at hd'
    rw [hw d hd'] at hp ⊢
    exact ⟨fun hi => h.pde o d i hd' hi hp, fun hi hlt =>
      (h.other o d i hd' hi hlt hp).imp_right fun ⟨i', hq⟩ => ⟨i', hnone _ _ hq⟩⟩

theorem congr (henv : k'.envs = k.envs) (hboot : k'.bootPgdir = k.bootPgdir)
    (hfree : k'.envFree = k.envFree) (hdir : ∀ p o, role p = .dir o → k'.word p = k.word p)
    (htab : ∀ p o i, role p = .table o i → k'.word p = k.word p) : Shape k' role := by
  have hd' := dirOf_same henv hboot
  refine of_entries (fun o d => by rw [hd', h.dir]) (fun o i => ?_) (fun e v hv p ht => ?_) ?_ ?_
  · exact h.entry_congr (hd' o) (fun d hd => by rw [hdir d o (h.dir_of hd)]) (fun _ => .rfl) fun _ _ => id
  · rw [h.pteAt_congr henv hdir htab hv] at ht
    exact h.user e v hv p ht
  · rw [henv]
    exact h.live
  · rw [henv, hfree]
    exact h.envs

/-- A page that is not mapped is given out or taken back. -/
theorem recast (hp : role p = .free ∨ role p = .user) (hr : r = .free ∨ r = .user)
    (hm : r = .free → ∀ e, ∀ v < NUPAGES, k.target e v ≠ some p) : Shape k (update role p r) := by
  have hrole : ∀ {x q}, x ≠ .free → x ≠ .user → (update role p r q = x ↔ role q = x) := fun h1 h2 =>
    update_eq_iff (by rcases hp with hp | hp <;> rw [hp] <;> exact Ne.symm ‹_›)
      (by rcases hr with hr | hr <;> rw [hr] <;> exact Ne.symm ‹_›)
  have ht : ∀ {o i q}, update role p r q = .table o i ↔ role q = .table o i := hrole (by simp) (by simp)
  refine of_entries (fun o d => (hrole (by simp) (by simp)).trans (h.dir o d)) (fun o i => ?_) (fun e v hv q hq => ?_)
    h.live h.envs
  · exact h.entry_congr rfl (fun _ _ => rfl) (fun _ => ht) fun _ _ => ht.mpr
  · by_cases hqp : q.ppn = p
    · rw [hqp, update_self]
      exact hr.resolve_left fun hf => hm hf e v hv (KernSt.target_eq_some.mpr ⟨q, hq, hqp⟩)
    · rw [update_of_ne hqp]
      exact h.user e v hv q hq

/-! ### Entries of tables -/

/-- An entry of the table of `o` at `i` is written. -/
theorem pteAt_setWord (ht : role t = .table o i) (hj : j < NPTENTRIES) (hv : v < NUPAGES) :
    (k.setWord t j pte).pteAt e v =
      if o = some e ∧ v = i * NPTENTRIES + j then (if pte.present then some pte else none) else k.pteAt e v := by
  have hdir : ∀ d, k.dirOf (some e) = some d → (k.setWord t j pte).word d = k.word d := fun d hd =>
    setWord_ne fun he => by
      have := h.dir_of hd
      rw [he, ht] at this
      cases this
  have hmod : v = i * NPTENTRIES + j ↔ v / NPTENTRIES = i ∧ v % NPTENTRIES = j := by
    simp only [NPTENTRIES] at hj ⊢
    omega
  by_cases hoi : o = some e ∧ v / NPTENTRIES = i
  · obtain ⟨rfl, rfl⟩ := hoi
    obtain ⟨-, d, hd, hpd, hpt⟩ := (h.table _ _ t).mp ht
    rw [KernSt.pteAt_of_table (show (k.setWord t j pte).dirOf (some e) = some d from hd) (by rw [hdir d hd]; exact hpd),
      KernSt.pteAt_of_table hd hpd, hdir d hd, hpt]
    by_cases hjj : v % NPTENTRIES = j
    · have hc : some e = some e ∧ v = v / NPTENTRIES * NPTENTRIES + j := ⟨rfl, hmod.mpr ⟨rfl, hjj⟩⟩
      rw [if_pos hc, hjj, setWord_self]
    · have hc : ¬ (some e = some e ∧ v = v / NPTENTRIES * NPTENTRIES + j) := fun hc => hjj (hmod.mp hc.2).2
      rw [if_neg hc, setWord_self_ne hjj]
  · rw [if_neg fun hc => hoi ⟨hc.1, (hmod.mp hc.2).1⟩]
    refine h.pteAt_eq rfl (fun d hd => congrFun (hdir d hd) _) (fun t' ht' => setWord_ne fun he => ?_) hv
    obtain ⟨rfl, rfl⟩ := Role.table.inj (ht.symm.trans (he ▸ ht'))
    exact hoi ⟨rfl, rfl⟩

theorem setPte (ht : role t = .table o i) (hj : j < NPTENTRIES)
    (hp : o ≠ none → pte.present = true → role pte.ppn = .user) : Shape (k.setWord t j pte) role := by
  refine of_entries h.dir (fun o' i' => ?_) (fun e v hv q hq => ?_) h.live h.envs
  · refine h.entry_congr rfl (fun d hd => congrFun (setWord_ne fun he => ?_) i') (fun _ => .rfl) fun _ _ => id
    have := h.dir_of hd
    rw [he, ht] at this
    cases this
  · rw [h.pteAt_setWord ht hj hv] at hq
    split_ifs at hq with hc hpp
    · obtain rfl := Option.some.inj hq
      exact hp (by rw [hc.1]; simp) hpp
    · exact h.user e v hv q hq

/-! ### Tables -/

/-- A directory is not another directory's page, and no table. -/
theorem ne_of_user (hp : role p = .user) (hd : k.dirOf o = some d) : d ≠ p := fun he => by
  have := h.dir_of hd
  rw [he, hp] at this
  cases this

theorem dir_inj {o' : Option ℕ} (hd : k.dirOf o = some d) (hd' : k.dirOf o' = some d) : o = o' :=
  Role.dir.inj ((h.dir_of hd).symm.trans (h.dir_of hd'))

omit h

/-- All entries of directories but one are as before. -/
theorem entry_eq (h : Shape k role) (hd : k.dirOf o = some d)
    (hw : ∀ o' d', k.dirOf o' = some d' → d' ≠ d → k'.word d' = k.word d') (hwd : ∀ i', i' ≠ i → k'.word d i' = k.word d i')
    {o' : Option ℕ} {d' i' : ℕ} (hd' : k.dirOf o' = some d') (hne : ¬ (o' = o ∧ i' = i)) :
    k'.word d' i' = k.word d' i' := by
  by_cases hdd : d' = d
  · subst hdd
    exact hwd i' fun hi => hne ⟨h.dir_inj hd' hd, hi⟩
  · exact congrFun (hw o' d' hd' hdd) i'

section
variable (h : Shape k role) (hp : role p = .user) (hd : k.dirOf o = some d) (hn : (k.word d i).present = false)
  (hw : ∀ q, q ≠ p → q ≠ d → k'.word q = k.word q) (hwd : ∀ i', i' ≠ i → k'.word d i' = k.word d i')
include h hp hd hw hwd hn

/-- A cleared page becomes a table: no address has another mapping. -/
theorem pteAt_newTable (henv : k'.envs = k.envs) (hz : ∀ j, (k'.word p j).present = false) (hkd : (k'.word d i).ppn = p)
    (hv : v < NUPAGES) : k'.pteAt e v = k.pteAt e v := by
  by_cases hoi : some e = o ∧ v / NPTENTRIES = i
  · obtain ⟨rfl, rfl⟩ := hoi
    unfold KernSt.pteAt
    rw [dirOf_congr henv, hd]
    dsimp only
    rw [hkd, hn, hz]
    simp
  · have hdirs : ∀ o' d', k.dirOf o' = some d' → d' ≠ d → k'.word d' = k.word d' := fun _ d' hd' =>
      hw d' (h.ne_of_user hp hd')
    refine h.pteAt_eq (dirOf_congr henv) (fun d' hd' => h.entry_eq hd hdirs hwd hd' hoi) (fun t ht => ?_) hv
    refine hw t (fun he => ?_) fun he => ?_
    · rw [he, hp] at ht
      cases ht
    · rw [he, h.dir_of hd] at ht
      cases ht

theorem newTable (henv : k'.envs = k.envs) (hboot : k'.bootPgdir = k.bootPgdir) (hfree : k'.envFree = k.envFree)
    (hz : ∀ j, (k'.word p j).present = false) (hkd : (k'.word d i).ppn = p) (hkp : (k'.word d i).present = true)
    (hkw : (k'.word d i).writable = true) (hi : Entry o i) (hm : ∀ e, ∀ v < NUPAGES, k.target e v ≠ some p) :
    Shape k' (update role p (.table o i)) := by
  have hdir := dirOf_same henv hboot
  have hdirs : ∀ o' d', k.dirOf o' = some d' → d' ≠ d → k'.word d' = k.word d' := fun _ d' hd' =>
    hw d' (h.ne_of_user hp hd')
  refine of_entries (fun o' d' => ?_) (fun o' i' => ?_) (fun e v hv q hq => ?_) ?_ ?_
  · rw [hdir, ← h.dir]
    exact update_eq_iff (by rw [hp]; simp) (by simp)
  · by_cases hoi : o' = o ∧ i' = i
    · obtain ⟨rfl, rfl⟩ := hoi
      refine ⟨fun q => ⟨fun hq => ?_, fun ⟨_, d', hd', _, hpq⟩ => ?_⟩, fun d' hd' _ => ?_⟩
      · by_cases hqp : q = p
        · exact ⟨hi, d, (hdir o').trans hd, hkp, hkd.trans hqp.symm⟩
        · rw [update_of_ne hqp, h.table] at hq
          obtain ⟨-, d', hd', hpr, -⟩ := hq
          rw [← Option.mem_unique hd hd', hn] at hpr
          cases hpr
      · rw [← hpq, ← Option.mem_unique hd ((hdir o').symm.trans hd'), hkd, update_self]
      · rw [← Option.mem_unique hd ((hdir o').symm.trans hd')]
        exact ⟨fun _ => hkw, fun hc => absurd hi hc⟩
    · refine h.entry_congr (hdir o') (fun d' hd' => h.entry_eq hd hdirs hwd hd' hoi)
        (fun q => update_eq_iff (by rw [hp]; simp) fun hc => hoi ?_) fun q i' hq => ?_
      · obtain ⟨rfl, rfl⟩ := Role.table.inj hc
        exact ⟨rfl, rfl⟩
      · rw [update_of_ne fun he => ?_, hq]
        rw [he, hp] at hq
        cases hq
  · rw [h.pteAt_newTable hp hd hn hw hwd henv hz hkd hv] at hq
    rw [update_of_ne fun he => hm e v hv (KernSt.target_eq_some.mpr ⟨q, hq, he⟩)]
    exact h.user e v hv q hq
  · rw [henv]
    exact h.live
  · rw [henv, hfree]
    exact h.envs

end

section
variable (h : Shape k role) (hp : role p = .table (some e) i) (hd : k.dirOf (some e) = some d)
  (hw : ∀ q, q ≠ d → k'.word q = k.word q) (hwd : ∀ i', i' ≠ i → k'.word d i' = k.word d i')
  (hkd : (k'.word d i).present = false) (hm : ∀ v < NUPAGES, v / NPTENTRIES = i → k.pteAt e v = none)
include h hd hw hwd hkd hm

/-- A table without mappings is taken out of its directory. -/
theorem pteAt_delTable (henv : k'.envs = k.envs) {e' : ℕ} (hv : v < NUPAGES) : k'.pteAt e' v = k.pteAt e' v := by
  by_cases hoi : some e' = some e ∧ v / NPTENTRIES = i
  · obtain ⟨he, hvi⟩ := hoi
    obtain rfl := Option.some.inj he
    rw [hm v hv hvi]
    unfold KernSt.pteAt
    rw [dirOf_congr henv, hd]
    dsimp only
    rw [hvi, hkd]
    rfl
  · refine h.pteAt_eq (dirOf_congr henv) (fun d' hd' => h.entry_eq hd (fun _ d' _ => hw d') hwd hd' hoi) (fun t ht => ?_) hv
    refine hw t fun he => ?_
    rw [he, h.dir_of hd] at ht
    cases ht

include hp

theorem delTable (henv : k'.envs = k.envs) (hboot : k'.bootPgdir = k.bootPgdir) (hfree : k'.envFree = k.envFree) :
    Shape k' (update role p .user) := by
  have hdir := dirOf_same henv hboot
  -- `p` was the table at `i` of `e` and nothing else
  have hold : ∀ {o' i' q}, ¬ (o' = some e ∧ i' = i) → (update role p .user q = .table o' i' ↔ role q = .table o' i') :=
    fun hne => update_eq_iff (by rw [hp]; exact fun hc => hne ⟨(Role.table.inj hc).1.symm, (Role.table.inj hc).2.symm⟩) (by simp)
  refine of_entries (fun o' d' => ?_) (fun o' i' => ?_) (fun e' v hv q hq => ?_) ?_ ?_
  · rw [hdir, ← h.dir]
    exact update_eq_iff (by rw [hp]; simp) (by simp)
  · by_cases hoi : o' = some e ∧ i' = i
    · obtain ⟨rfl, rfl⟩ := hoi
      have hgone : ∀ {d'}, k'.dirOf (some e) = some d' → (k'.word d' i').present ≠ true := fun hd' => by
        rw [← Option.mem_unique hd ((hdir _).symm.trans hd'), hkd]
        simp
      refine ⟨fun q => ⟨fun hq => ?_, fun ⟨_, d', hd', hpr, _⟩ => absurd hpr (hgone hd')⟩,
        fun d' hd' hpr => absurd hpr (hgone hd')⟩
      by_cases hqp : q = p
      · rw [hqp, update_self] at hq
        cases hq
      · rw [update_of_ne hqp] at hq
        obtain ⟨-, d', hd', -, hpq⟩ := (h.table _ _ _).mp hq
        obtain ⟨-, d'', hd'', -, hpp⟩ := (h.table _ _ _).mp hp
        obtain rfl := Option.mem_unique hd' hd''
        exact absurd (hpq.symm.trans hpp) hqp
    · exact h.entry_congr (hdir o') (fun d' hd' => h.entry_eq hd (fun _ d' _ => hw d') hwd hd' hoi) (fun q => hold hoi)
        fun q i'' hq => (hold (by simp)).mpr hq
  · rw [h.pteAt_delTable hd hw hwd hkd hm henv hv] at hq
    by_cases hqp : q.ppn = p
    · rw [hqp, update_self]
    · rw [update_of_ne hqp]
      exact h.user e' v hv q hq
  · rw [henv]
    exact h.live
  · rw [henv, hfree]
    exact h.envs

end

/-! ### Directories -/

theorem dirOf_ne (hboot : k'.bootPgdir = k.bootPgdir) (hne : ∀ e', e' ≠ e → k'.envs e' = k.envs e') (ho : o ≠ some e) :
    k'.dirOf o = k.dirOf o := by
  cases o with
  | none => exact congrArg some hboot
  | some e' =>
    unfold KernSt.dirOf
    dsimp only
    rw [hne e' fun he => ho (by rw [he])]

/-- The mappings of the other envs. -/
theorem pteAt_ne (h : Shape k role) (hp : role p = .user ∨ role p = .dir (some e)) (hboot : k'.bootPgdir = k.bootPgdir)
    (hne : ∀ e', e' ≠ e → k'.envs e' = k.envs e') (hw : ∀ q, q ≠ p → k'.word q = k.word q) {e' : ℕ} (he : e' ≠ e)
    (hv : v < NUPAGES) : k'.pteAt e' v = k.pteAt e' v := by
  refine h.pteAt_eq (dirOf_ne hboot hne fun hc => he (Option.some.inj hc)) (fun d hd => ?_) (fun t ht => hw t fun hc => ?_) hv
  · rw [hw d fun hc => ?_]
    have hrole := h.dir_of hd
    rw [hc] at hrole
    rcases hp with hp | hp <;> rw [hp] at hrole <;> cases hrole
    exact he rfl
  · rw [hc] at ht
    rcases hp with hp | hp <;> rw [hp] at ht <;> cases ht

theorem pteAt_eq_none_of_dirOf (hd : k.dirOf (some e) = none) : k.pteAt e v = none := by
  unfold KernSt.pteAt
  rw [hd]

theorem pteAt_eq_none_of_entry (hd : k.dirOf (some e) = some d) (hn : (k.word d (v / NPTENTRIES)).present = false) :
    k.pteAt e v = none := by
  unfold KernSt.pteAt
  rw [hd]
  dsimp only
  rw [hn]
  rfl

theorem dirOf_of_free (hfree : (k.envs e).status = .free) : k.dirOf (some e) = none := by
  unfold KernSt.dirOf
  exact if_neg fun hc => hc.2 hfree

/-- A new directory maps nothing below `UTOP`. -/
theorem newPgdir_lt (hi : i < pdx UTOP) : (newPgdir k p i).present = false := by
  have h1 : pdx UTOP = 955 := by decide
  have h2 : pdx VPT = 959 := by decide
  have h3 : pdx UVPT = 957 := by decide
  rw [newPgdir, if_neg (by omega), if_neg (by omega), if_neg (by omega)]
  rfl

section
variable (h : Shape k role) (hp : role p = .user) (he : e < NENV) (hfree : (k.envs e).status = .free)
  (hboot : k'.bootPgdir = k.bootPgdir) (hne : ∀ e', e' ≠ e → k'.envs e' = k.envs e')
  (hlive : (k'.envs e).status ≠ .free) (hdir : (k'.envs e).pgdir = some p)
  (hw : ∀ q, q ≠ p → k'.word q = k.word q) (hwp : k'.word p = newPgdir k p)
include h hp he hfree hboot hne hlive hdir hw hwp

theorem pteAt_newDir {e' : ℕ} (hv : v < NUPAGES) : k'.pteAt e' v = k.pteAt e' v := by
  by_cases hee : e' = e
  · subst hee
    rw [pteAt_eq_none_of_entry (KernSt.dirOf_some.mpr ⟨he, hlive, hdir⟩), pteAt_eq_none_of_dirOf (dirOf_of_free hfree)]
    rw [hwp]
    exact newPgdir_lt (entry_of_lt (e := 0) hv)
  · exact h.pteAt_ne (.inl hp) hboot hne hw hee hv

theorem newDir (hm : ∀ e, ∀ v < NUPAGES, k.target e v ≠ some p)
    (henvs : ∃ l, k'.envFree.Holds l ∧ ∀ e, e ∈ l ↔ e < NENV ∧ (k'.envs e).status = .free) :
    Shape k' (update role p (.dir (some e))) := by
  have hno := dirOf_of_free hfree
  have hnew : k'.dirOf (some e) = some p := KernSt.dirOf_some.mpr ⟨he, hlive, hdir⟩
  have hsame : ∀ {o'}, o' ≠ some e → k'.dirOf o' = k.dirOf o' := fun ho => dirOf_ne hboot hne ho
  have htab : ∀ {o' i' q}, update role p (.dir (some e)) q = .table o' i' ↔ role q = .table o' i' :=
    update_eq_iff (by rw [hp]; simp) (by simp)
  refine of_entries (fun o' d' => ?_) (fun o' i' => ?_) (fun e' v hv q hq => ?_) (fun e' => ?_) henvs
  · by_cases ho : o' = some e
    · subst ho
      rw [hnew]
      refine ⟨fun hd => ?_, fun hd => ?_⟩
      · by_cases hdp : d' = p
        · rw [hdp]
        · rw [update_of_ne hdp, h.dir, hno] at hd
          cases hd
      · rw [← Option.some.inj hd, update_self]
    · rw [hsame ho, ← h.dir]
      exact update_eq_iff (by rw [hp]; simp) fun hc => ho (Role.dir.inj hc).symm
  · by_cases ho : o' = some e
    · subst ho
      refine ⟨fun q => ⟨fun hq => ?_, fun ⟨hi, d', hd', hpr, _⟩ => ?_⟩, fun d' hd' hpr => ?_⟩
      · obtain ⟨-, d', hd', -⟩ := (h.table _ _ _).mp (htab.mp hq)
        rw [hno] at hd'
        cases hd'
      · rw [← Option.mem_unique hnew hd', hwp, newPgdir_lt hi] at hpr
        cases hpr
      · obtain rfl := Option.mem_unique hnew hd'
        rw [hwp] at hpr ⊢
        refine ⟨fun hi => absurd hpr (by rw [newPgdir_lt hi]; simp), fun hi hlt => ?_⟩
        simp only [htab]
        have hge : pdx UTOP ≤ i' := Nat.le_of_not_lt hi
        unfold newPgdir at hpr ⊢
        split_ifs at hpr ⊢ with hV hU
        · exact .inl rfl
        · exact .inl rfl
        · exact .inr ⟨i', h.table_of (o := none) rfl ⟨hge, hlt, hV, hU⟩ hpr⟩
    · exact h.entry_congr (hsame ho) (fun d' hd' => congrFun (hw d' (h.ne_of_user hp hd')) i') (fun _ => htab)
        fun _ _ => htab.mpr
  · rw [h.pteAt_newDir hp he hfree hboot hne hlive hdir hw hwp hv] at hq
    rw [update_of_ne fun hc => hm e' v hv (KernSt.target_eq_some.mpr ⟨q, hq, hc⟩)]
    exact h.user e' v hv q hq
  · by_cases hee : e' = e
    · rw [hee, hdir]
      exact ⟨fun _ => ⟨he, hlive⟩, fun _ => by simp⟩
    · rw [hne e' hee]
      exact h.live e'

end

section
variable (h : Shape k role) (hd : k.dirOf (some e) = some d) (hboot : k'.bootPgdir = k.bootPgdir)
  (hne : ∀ e', e' ≠ e → k'.envs e' = k.envs e') (hfree : (k'.envs e).status = .free) (hw : k'.word = k.word)
  (hn : ∀ i < pdx UTOP, (k.word d i).present = false)
include h hd hboot hne hfree hw hn

theorem pteAt_delDir {e' : ℕ} (hv : v < NUPAGES) : k'.pteAt e' v = k.pteAt e' v := by
  by_cases hee : e' = e
  · subst hee
    rw [pteAt_eq_none_of_entry hd (hn _ (entry_of_lt (e := 0) hv)), pteAt_eq_none_of_dirOf (dirOf_of_free hfree)]
  · exact h.pteAt_ne (.inr (h.dir_of hd)) hboot hne (fun q _ => congrFun hw q) hee hv

theorem delDir (hpg : (k'.envs e).pgdir = none) (henvs : ∃ l, k'.envFree.Holds l ∧ ∀ e, e ∈ l ↔ e < NENV ∧ (k'.envs e).status = .free) :
    Shape k' (update role d .user) := by
  have hp := h.dir_of hd
  have hno := dirOf_of_free hfree
  have hsame : ∀ {o'}, o' ≠ some e → k'.dirOf o' = k.dirOf o' := fun ho => dirOf_ne hboot hne ho
  have htab : ∀ {o' i' q}, update role d .user q = .table o' i' ↔ role q = .table o' i' :=
    update_eq_iff (by rw [hp]; simp) (by simp)
  refine of_entries (fun o' d' => ?_) (fun o' i' => ?_) (fun e' v hv q hq => ?_) (fun e' => ?_) henvs
  · by_cases ho : o' = some e
    · subst ho
      rw [hno]
      refine ⟨fun hd' => ?_, fun hd' => nomatch hd'⟩
      by_cases hdp : d' = d
      · rw [hdp, update_self] at hd'
        cases hd'
      · rw [update_of_ne hdp, h.dir] at hd'
        exact absurd (Option.mem_unique hd' hd) hdp
    · rw [hsame ho, ← h.dir]
      exact update_eq_iff (by rw [hp]; exact fun hc => ho (Role.dir.inj hc).symm) (by simp)
  · by_cases ho : o' = some e
    · subst ho
      refine ⟨fun q => ⟨fun hq => ?_, fun ⟨_, d', hd', _⟩ => ?_⟩, fun d' hd' => ?_⟩
      · obtain ⟨hi, d', hd', hpr, -⟩ := (h.table _ _ _).mp (htab.mp hq)
        rw [← Option.mem_unique hd hd', hn i' hi] at hpr
        cases hpr
      all_goals
        rw [hno] at hd'
        cases hd'
    · exact h.entry_congr (hsame ho) (fun d' _ => by rw [hw]) (fun _ => htab) fun _ _ => htab.mpr
  · rw [h.pteAt_delDir hd hboot hne hfree hw hn hv] at hq
    have hu := h.user e' v hv q hq
    rw [update_of_ne fun hc => by rw [hc, hp] at hu; cases hu]
    exact hu
  · by_cases hee : e' = e
    · rw [hee, hpg]
      exact ⟨fun hc => absurd rfl hc, fun hc => absurd hfree hc.2⟩
    · rw [hne e' hee]
      exact h.live e'

end

end Shape
end

end Kern
end Jos
