/-
# The kernel at the end of its boot

`i386_vm_init` maps the kernel's own memory and `env_create` makes the first
envs. When they are done the roles of the pages are right, no page is mapped
often, and the table of envs is sound: the state every run starts in. A machine
that has a few hundred pages left gets there.

Key definitions: `Machine`, `Machine.Boots`.
Key theorems: `kernReset_typed`, `i386VmInit_typed`, `envCreate_typed`,
`boot_typed`.
-/
import Jos.Kern.Calls

namespace Jos
namespace Kern

open Fs (NENV PGSIZE)
open Function
open KernSt (dirOf_some managed mapCount_congr pteAt slots_envs slots_free target)

/-- The memory of a machine, where `boot_alloc` puts what the kernel needs, and
what the memory holds. The boot directory is in the memory after the kernel. -/
structure Machine where
  npage : ℕ
  freemem : ℕ
  bootPgdir : ℕ
  mem : ℕ → ℕ → Pte
  boot : BootMem
  low : EXTPHYSMEM / PGSIZE ≤ bootPgdir
  alloc : bootPgdir ≤ freemem
  high : freemem < npage
  /-- What the kernel maps from `KERNBASE` on. -/
  fits : npage ≤ 2 ^ 16

def Machine.reset (m : Machine) : KernSt := kernReset m.npage m.freemem m.bootPgdir m.mem

/-- The segments of a program are below `UTOP`. -/
def Program.Fits (prog : Program) : Prop := ∀ g ∈ prog.segs, (g.1 + g.2) * PGSIZE ≤ UTOP

/-- `k` is a state of the machine at the end of its boot, with some programs. -/
def Machine.Boots (m : Machine) (progs : List Program) (k : KernSt) : Prop :=
  (∀ prog ∈ progs, prog.Fits) ∧ Kern.boot m.boot progs m.reset = .ok () k

section
variable {k k' : KernSt} {role role' : ℕ → Role} {l l' : List ℕ} {e p d i j va : ℕ} {m : Machine} {pte : Pte}

/-! ### After `page_init` -/

/-- The pages `page_init` puts on the list. -/
def pageList (freemem : ℕ) : ℕ → List ℕ
  | 0 => []
  | n + 1 => if reserved freemem n then pageList freemem n else n :: pageList freemem n

theorem mem_pageList {freemem : ℕ} : ∀ {n p : ℕ}, p ∈ pageList freemem n ↔ p < n ∧ reserved freemem p = false
  | 0, p => by simp [pageList]
  | n + 1, p => by
    unfold pageList
    split
    next h =>
      rw [mem_pageList]
      refine ⟨fun hp => ⟨Nat.lt_succ_of_lt hp.1, hp.2⟩, fun hp => ⟨?_, hp.2⟩⟩
      refine Nat.lt_of_le_of_ne (Nat.lt_succ_iff.mp hp.1) fun hc => ?_
      rw [hc, h] at hp
      cases hp.2
    next h =>
      rw [List.mem_cons, mem_pageList]
      constructor
      · rintro (rfl | hp)
        · exact ⟨Nat.lt_succ_self p, by simpa using h⟩
        · exact ⟨Nat.lt_succ_of_lt hp.1, hp.2⟩
      · rintro ⟨hlt, hr⟩
        exact (Nat.lt_succ_iff_lt_or_eq.mp hlt).elim (fun h => .inr ⟨h, hr⟩) .inl

theorem pageInit_holds (freemem : ℕ) : ∀ n, (pageInit freemem n).Holds (pageList freemem n)
  | 0 => Queue.holds_empty
  | n + 1 => by
    unfold pageInit pageList
    split
    · exact pageInit_holds freemem n
    · exact (pageInit_holds freemem n).insertHead fun hc => Nat.lt_irrefl n (mem_pageList.mp hc).1

/-- The pages below the I/O hole but the first, and those after the kernel, are on the list. -/
theorem pageList_length {freemem : ℕ} (hf : EXTPHYSMEM / PGSIZE ≤ freemem) (n : ℕ) :
    n - (freemem + 1) + min n 160 ≤ (pageList freemem n).length + 1 := by
  have hext : EXTPHYSMEM / PGSIZE = 256 := by decide
  have hio : IOPHYSMEM / PGSIZE = 160 := by decide
  induction n with
  | zero => simp
  | succ n ih =>
    unfold pageList
    split
    next h =>
      unfold reserved at h
      simp only [hext, hio, Bool.or_eq_true, Bool.and_eq_true, beq_iff_eq, decide_eq_true_eq] at h hf
      omega
    next h =>
      rw [List.length_cons]
      omega

/-- The roles when only the boot directory is there. -/
def Machine.roles (m : Machine) (p : ℕ) : Role :=
  if p = m.bootPgdir then .dir none else if m.reset.managed p then .free else .reserved

theorem Machine.fresh (m : Machine) : m.reset.Fresh := by
  unfold Machine.reset
  exact kernReset_fresh ..

theorem Machine.not_managed (m : Machine) : m.reset.managed m.bootPgdir = false := by
  have h : reserved m.freemem m.bootPgdir = true := by
    unfold reserved
    have h1 := m.low
    have h2 := m.alloc
    simp [h1, h2]
  unfold managed
  rw [show m.reset.freemem = m.freemem from rfl, h]
  simp

theorem Machine.dirOf_reset (m : Machine) (o : Option ℕ) : m.reset.dirOf o = if o = none then some m.bootPgdir else none := by
  cases o with
  | none => rfl
  | some e => exact if_neg fun hc => hc.2 rfl

/-- The entries of the boot directory. -/
theorem Machine.word_reset (m : Machine) (i : ℕ) : m.reset.word m.bootPgdir i =
    if i = pdx VPT then ⟨m.bootPgdir, PTE_W ||| PTE_P⟩ else if i = pdx UVPT then ⟨m.bootPgdir, PTE_U ||| PTE_P⟩ else .zero :=
  congrFun (update_self m.bootPgdir _ m.mem) i

theorem reset_typed (m : Machine) : Typed m.reset m.roles (pageList m.freemem m.npage) := by
  have hnone : ∀ e v, m.reset.pteAt e v = none := fun e v => by
    unfold pteAt
    rw [m.dirOf_reset]
    rfl
  have hcount : ∀ p, m.reset.mapCount p = 0 := fun p => KernSt.mapCount_eq_zero fun e v _ ht => by
    unfold target at ht
    rw [hnone] at ht
    cases ht
  have hsound := m.fresh.sound
  refine ⟨⟨fun o d => ?_, fun o i p => ?_, fun o d i hd hi hlt hp => ?_, fun o d i hd hi hp => ?_,
    fun e v _ pte hp => ?_, hsound.live, ?_⟩,
    pageInit_holds m.freemem m.npage, fun p => ?_, fun p => ?_, fun p => ?_⟩
  · -- directories
    rw [m.dirOf_reset]
    unfold Machine.roles
    cases o with
    | none =>
      rw [if_pos rfl]
      by_cases hd : d = m.bootPgdir
      · rw [if_pos hd, hd]
        exact ⟨fun _ => rfl, fun _ => rfl⟩
      · rw [if_neg hd]
        refine ⟨fun h => ?_, fun h => absurd (Option.some.inj h).symm hd⟩
        split_ifs at h
    | some e =>
      rw [if_neg (Option.some_ne_none e)]
      refine ⟨fun h => ?_, fun h => by cases h⟩
      split_ifs at h
      cases h
  · -- no tables
    have hno : m.roles p ≠ .table o i := by
      unfold Machine.roles
      split_ifs <;> simp
    refine ⟨fun h => absurd h hno, ?_⟩
    rintro ⟨hi, d, hd, hp, -⟩
    rw [m.dirOf_reset] at hd
    split_ifs at hd with ho
    subst ho
    cases hd
    rw [m.word_reset, if_neg hi.2.2.1, if_neg hi.2.2.2] at hp
    cases hp
  · rw [m.dirOf_reset] at hd
    split_ifs at hd with ho
    cases hd
    rw [m.word_reset] at hp ⊢
    split_ifs at hp ⊢
    · exact .inl rfl
    · exact .inl rfl
    · cases hp
  · rw [m.dirOf_reset] at hd
    split_ifs at hd with ho
    subst ho
    cases hd
    rw [m.word_reset, if_neg hi.2.2.1, if_neg hi.2.2.2] at hp
    cases hp
  · rw [hnone] at hp
    cases hp
  · have hq := hsound.queue
    rw [slots_free, slots_envs] at hq
    exact hq
  · rw [mem_pageList]
    unfold Machine.roles
    have hm := m.not_managed
    split_ifs with h1 h2
    · subst h1
      unfold managed at hm
      simp only [Bool.and_eq_false_iff, decide_eq_false_iff_not, Bool.not_eq_false'] at hm
      refine ⟨fun h => ?_, fun h => by cases h⟩
      rcases hm with hm | hm
      · exact absurd h.1 hm
      · cases hm.symm.trans h.2
    · unfold managed at h2
      simp only [Bool.and_eq_true, decide_eq_true_eq, Bool.not_eq_true'] at h2
      exact ⟨fun _ => rfl, fun _ => h2⟩
    · unfold managed at h2
      simp only [Bool.and_eq_true, decide_eq_true_eq, Bool.not_eq_true'] at h2
      exact ⟨fun h => absurd h h2, fun h => by cases h⟩
  · unfold Machine.roles
    split_ifs with h1 h2
    · rw [h1, m.not_managed]
      simp
    · simp [h2]
    · simp [h2]
  · have : refsOf m.reset p (m.roles p) = 0 := by
      unfold Machine.roles
      split_ifs <;> rfl
    rw [this]
    rfl

/-! ### The kernel's own mappings -/

/-- The entries of the boot directory that have no table yet. -/
def KernSt.absent (k : KernSt) : Finset ℕ :=
  (Finset.range NPTENTRIES).filter fun i =>
    (pdx UTOP ≤ i ∧ i ≠ pdx VPT ∧ i ≠ pdx UVPT) ∧ (k.word k.bootPgdir i).present = false

theorem mem_absent : i ∈ k.absent ↔ Entry none i ∧ (k.word k.bootPgdir i).present = false := by
  unfold KernSt.absent
  rw [Finset.mem_filter, Finset.mem_range]
  show _ ↔ (pdx UTOP ≤ i ∧ i < NPTENTRIES ∧ i ≠ pdx VPT ∧ i ≠ pdx UVPT) ∧ _
  tauto

theorem card_absent_le (k : KernSt) : k.absent.card ≤ 67 := by
  have h : k.absent ⊆ ((Finset.range NPTENTRIES).filter fun i => pdx UTOP ≤ i ∧ i ≠ pdx VPT ∧ i ≠ pdx UVPT) :=
    fun i hi => by
      unfold KernSt.absent at hi
      obtain ⟨h1, h2, -⟩ := Finset.mem_filter.mp hi
      exact Finset.mem_filter.mpr ⟨h1, h2⟩
  exact (Finset.card_le_card h).trans (by decide +kernel)

/-- An entry is absent if no page is its table. -/
theorem Typed.mem_absent_iff (h : Typed k role l) : i ∈ k.absent ↔ Entry none i ∧ ∀ t, role t ≠ .table none i := by
  rw [mem_absent]
  refine and_congr_right fun hi => ⟨fun hp t ht => ?_, fun hno => ?_⟩
  · obtain ⟨-, d, hd, hp', -⟩ := (h.table none i t).mp ht
    cases hd
    rw [hp] at hp'
    cases hp'
  · rw [← Bool.not_eq_true]
    exact fun hp => hno _ (h.table_of (o := none) rfl hi hp)

/-- What is left of the free list when tables are made for the boot directory. -/
structure Booting (k : KernSt) (l : List ℕ) (k' : KernSt) (role' : ℕ → Role) (l' : List ℕ) : Prop where
  typed : Typed k' role' l'
  same : Same k k'
  pteAt : ∀ e, ∀ v < NUPAGES, k'.pteAt e v = k.pteAt e v
  room : l.length + k'.absent.card = l'.length + k.absent.card

theorem Booting.refl (h : Typed k role l) : Booting k l k role l := ⟨h, .refl k, fun _ _ _ => rfl, rfl⟩

theorem Booting.trans {k'' : KernSt} {role'' : ℕ → Role} {l'' : List ℕ} (h : Booting k l k' role' l')
    (h' : Booting k' l' k'' role'' l'') : Booting k l k'' role'' l'' :=
  ⟨h'.typed, h.same.trans h'.same, fun e v hv => (h'.pteAt e v hv).trans (h.pteAt e v hv), by have := h.room; have := h'.room; omega⟩

theorem bootWalk_typed (h : Typed k role l) (hi : Entry none (pdx va)) (hl : k.absent.card ≤ l.length) :
    Run (pgdirWalk k.bootPgdir va true) k
      (fun r k' => ∃ t role' l', r = some (t, ptx va) ∧ role' t = .table none (pdx va) ∧ Booting k l k' role' l')
      fun _ _ => False := by
  refine (pgdirWalk_typed h (o := none) rfl hi true).post ?_
  rintro r k' (⟨rfl, rfl, hp, hnil⟩ | ⟨rfl, rfl, hp⟩ | ⟨t, l', -, rfl, rfl, hp, hsame, ht, -, hpte, -⟩)
  · have hmem : pdx va ∈ k'.absent := mem_absent.mpr ⟨hi, hp⟩
    have := Finset.card_pos.mpr ⟨_, hmem⟩
    rw [hnil rfl, List.length_nil] at hl
    omega
  · exact ⟨_, role, l, rfl, h.table_of (o := none) rfl hi hp, Booting.refl h⟩
  · have hfree : role t = .free := (h.free t).mp List.mem_cons_self
    have hmem : pdx va ∈ k.absent := mem_absent.mpr ⟨hi, hp⟩
    have herase : k'.absent = k.absent.erase (pdx va) := by
      ext i
      rw [Finset.mem_erase, ht.mem_absent_iff, h.mem_absent_iff]
      constructor
      · rintro ⟨hi', hno⟩
        refine ⟨fun hc => hno t (by rw [update_self, hc]), hi', fun q hq => hno q ?_⟩
        rw [update_of_ne fun hc => by rw [hc, hfree] at hq; cases hq]
        exact hq
      · rintro ⟨hne, hi', hno⟩
        refine ⟨hi', fun q hq => ?_⟩
        by_cases hqt : q = t
        · rw [hqt, update_self] at hq
          exact hne (Role.table.inj hq).2.symm
        · rw [update_of_ne hqt] at hq
          exact hno q hq
    refine ⟨t, _, l', rfl, update_self .., ht, hsame, hpte, ?_⟩
    rw [herase, Finset.card_erase_of_mem hmem, List.length_cons]
    have := Finset.card_pos.mpr ⟨_, hmem⟩
    omega

/-- The entries of a table of the kernel map nothing below `UTOP`. -/
theorem Typed.setBootPte (h : Typed k role l) {t : ℕ} (ht : role t = .table none i) (hj : j < NPTENTRIES) (pte : Pte) :
    Booting k l (k.setWord t j pte) role l := by
  have hp : k.SameMaps (k.setWord t j pte) := fun e v hv => by
    rw [h.pteAt_setWord ht hj hv, if_neg fun hc => by cases hc.1]
  have htab : k.bootPgdir ≠ t := fun hc => by
    have hd : role k.bootPgdir = .dir none := h.dir_of rfl
    rw [hc, ht] at hd
    cases hd
  refine ⟨h.setPte ht hj (fun hc => absurd rfl hc) fun x => ?_, ⟨rfl, rfl, rfl, rfl, rfl⟩, hp, ?_⟩
  · rw [refsOf_congr hp]
    exact h.refs x
  · have : (k.setWord t j pte).absent = k.absent := by
      unfold KernSt.absent
      rw [show (k.setWord t j pte).bootPgdir = k.bootPgdir from rfl, setWord_ne htab]
    rw [this]

theorem bootMapLoop_typed {perm n la pa : ℕ} (h : Typed k role l) (hi : ∀ m < n, Entry none (pdx (la + m * PGSIZE)))
    (hl : k.absent.card ≤ l.length) :
    Run (bootMapLoop perm n la pa) k (fun _ k' => ∃ role' l', Booting k l k' role' l') fun _ _ => False := by
  induction n generalizing la pa k role l with
  | zero => exact .pure ⟨role, l, Booting.refl h⟩
  | succ n ih =>
    unfold bootMapLoop
    have h0 : Entry none (pdx la) := by
      have := hi 0 (Nat.succ_pos n)
      rwa [Nat.zero_mul, Nat.add_zero] at this
    refine .getBind (.bind (bootWalk_typed h h0 hl) ?_)
    rintro _ k1 ⟨t, role1, l1, rfl, ht, hb1⟩
    have hb2 := hb1.trans (hb1.typed.setBootPte ht (ptx_lt la) (Pte.of (pa / PGSIZE) perm))
    refine .modifyBind (.post (ih hb2.typed (fun m hm => ?_) ?_) ?_)
    · have := hi (m + 1) (Nat.succ_lt_succ hm)
      rwa [show la + (m + 1) * PGSIZE = la + PGSIZE + m * PGSIZE by rw [Nat.succ_mul]; omega] at this
    · have := hb2.room
      omega
    · rintro _ k' ⟨role', l', hb'⟩
      exact ⟨role', l', hb2.trans hb'⟩

/-- The segments are above `UTOP`, and not where the directories map themselves. -/
theorem vmSegments_entry {npage : ℕ} (hn : npage ≤ 2 ^ 16) (b : BootMem) :
    ∀ g ∈ vmSegments npage b, ∀ m < g.n, Entry none (pdx (g.la + m * PGSIZE)) := by
  intro g hg m hm
  have h1 : pdx UTOP = 955 := by decide
  have h2 : pdx VPT = 959 := by decide
  have h3 : pdx UVPT = 957 := by decide
  show pdx UTOP ≤ _ ∧ _ < NPTENTRIES ∧ _ ≠ pdx VPT ∧ _ ≠ pdx UVPT
  rw [h1, h2, h3]
  simp only [vmSegments, List.mem_cons, List.not_mem_nil, or_false] at hg
  rcases hg with rfl | rfl | rfl | rfl <;>
    simp only [pagesOf, pdx, PTSIZE, PGSIZE, NPTENTRIES, UENVS, UPAGES, UVPT, ULIM, KSTACKTOP, VPT, KERNBASE, KSTKSIZE, NENV] at hm ⊢ <;>
    omega

theorem i386VmInit_typed (h : Typed k role l) (hn : k.npage ≤ 2 ^ 16) (hl : k.absent.card ≤ l.length) (b : BootMem) :
    Run (i386VmInit b) k (fun _ k' => ∃ role' l', Booting k l k' role' l') fun _ _ => False := by
  have hsegs : ∀ gs : List Segment, (∀ g ∈ gs, ∀ m < g.n, Entry none (pdx (g.la + m * PGSIZE))) → ∀ {k role l}, Typed k role l →
      k.absent.card ≤ l.length → Run (gs.forM bootMapSegment) k (fun _ k' => ∃ role' l', Booting k l k' role' l') fun _ _ => False := by
    intro gs
    induction gs with
    | nil => exact fun _ {k role l} h _ => .pure ⟨role, l, Booting.refl h⟩
    | cons g gs ih =>
      intro hg k role l h hl
      show Run (bootMapSegment g >>= fun _ => gs.forM bootMapSegment) k _ _
      refine .bind (bootMapLoop_typed h (hg g List.mem_cons_self) hl) ?_
      rintro _ k1 ⟨role1, l1, hb1⟩
      refine .post (ih (fun g' hg' => hg g' (List.mem_cons_of_mem g hg')) hb1.typed (by have := hb1.room; omega)) ?_
      rintro _ k' ⟨role', l', hb'⟩
      exact ⟨role', l', hb1.trans hb'⟩
  exact .getBind (hsegs _ (vmSegments_entry hn b) h hl)

/-! ### The first envs -/

/-- A page that was not mapped is mapped once. -/
theorem Inserted.bounded {perm : ℕ} {r : Bool} (h : Inserted e va p perm r k role l k' role' l') (hb : Bounded k) (he : e < NENV)
    (hva : va < UTOP) (hp : k.mapCount p = 0) : Bounded k' := fun q => by
  have hagree := @KernSt.mapCount_of_agree k k' e _ he (vpn_lt hva) (fun e' v hv hn => by
    rw [h.pteAt e' v hv, if_neg fun hc => hn hc.2]) q
  have hq := hb q
  by_cases hqp : q = p
  · rw [hqp] at hagree ⊢
    split_ifs at hagree <;> omega
  · cases r with
    | false => rw [h.failed rfl]; exact hq
    | true =>
      have hno : k'.target e (va / PGSIZE) ≠ some q := fun hc => by
        obtain ⟨pte, h1, h2⟩ := KernSt.target_eq_some.mp hc
        rw [h.pteAt e _ (vpn_lt hva), if_pos ⟨rfl, rfl, rfl⟩] at h1
        exact hqp (by rw [← h2, ← Option.some.inj h1])
      rw [if_neg hno] at hagree
      split_ifs at hagree <;> omega

theorem segmentAlloc_typed {n va : ℕ} (h : Typed k role l) (hb : Bounded k) (hd : k.dirOf (some e) = some d)
    (hva : va + n * PGSIZE ≤ UTOP) :
    Run (segmentAlloc e n va) k
      (fun _ k' => ∃ role' l', Typed k' role' l' ∧ Bounded k' ∧ Same k k' ∧ l.length ≤ l'.length + 2 * n)
      fun f _ => f.IsPanic ∧ l.length < 2 * n := by
  induction n generalizing va k role l with
  | zero => exact .pure ⟨role, l, h, hb, .refl k, le_rfl⟩
  | succ n ih =>
    have hva' : va + PGSIZE + n * PGSIZE ≤ UTOP := by
      rw [Nat.succ_mul] at hva
      omega
    have hlt : va < UTOP := by
      have : 0 < PGSIZE := by decide
      omega
    unfold segmentAlloc
    refine .step (pageAlloc_typed h) (fun _ _ h => h.elim) ?_
    rintro _ k1 (⟨rfl, rfl, rfl⟩ | ⟨p, l1, rfl, rfl, hsame, hw, h1⟩)
    · exact .throw ⟨⟨_, rfl⟩, by simp⟩
    have hfree : role p = .free := (h.free p).mp List.mem_cons_self
    have hpte : k.SameMaps k1 := fun e' v hv =>
      h.pteAt_congr hsame.envs (fun q _ _ => congrFun hw q) (fun q _ _ _ => congrFun hw q) hv
    have hb1 : Bounded k1 := fun q => by
      rw [mapCount_congr hpte]
      exact hb q
    have hp0 : k1.mapCount p = 0 := by
      rw [mapCount_congr hpte]
      exact h.mapCount_eq_zero (by rw [hfree]; simp)
    have hd1 : k1.dirOf (some e) = some d := by rw [hsame.dirOf]; exact hd
    have hpg : (k1.envs e).pgdir = some d := (dirOf_some.mp hd1).2.2
    have hu : update role p .user p = .user := update_self ..
    refine run_pgdirOf hpg (.step (pageInsert_typed h1 hd1 hlt hu (by decide) fun q _ => hb1 q) (fun _ _ h => h.elim) ?_)
    rintro r k2 ⟨role2, l2, hi⟩
    cases r with
    | false =>
      obtain rfl := (hi.full.mp rfl).1
      rw [if_neg (by simp)]
      exact .throw ⟨⟨_, rfl⟩, by rw [List.length_singleton]; omega⟩
    | true =>
      rw [if_pos rfl]
      have hb2 := hi.bounded hb1 (dirOf_some.mp hd).1 hlt hp0
      have hroom := hi.room
      refine .mono (ih hi.typed hb2 (by rw [hi.same.dirOf]; exact hd1) hva') ?_ ?_
      · rintro _ k' ⟨role', l', ht', hb', hs', hr'⟩
        refine ⟨role', l', ht', hb', hsame.trans (hi.same.trans hs'), ?_⟩
        rw [List.length_cons]
        omega
      · rintro f k' ⟨hf, hlt'⟩
        rw [List.length_cons]
        exact ⟨hf, by omega⟩

/-- More pages than `load_icode` takes: each page may need a table. -/
def Program.need (prog : Program) : ℕ := 2 * ((prog.segs.map Prod.snd).sum + 1)

theorem loadIcode_typed {prog : Program} (h : Typed k role l) (hb : Bounded k) (hd : k.dirOf (some e) = some d) (hf : prog.Fits) :
    Run (loadIcode e prog) k (fun _ k' => ∃ role' l', Typed k' role' l' ∧ Bounded k' ∧ l.length ≤ l'.length + prog.need ∧
        k'.npage = k.npage)
      fun f _ => f.IsPanic ∧ l.length < prog.need := by
  have hsegs : ∀ segs : List (ℕ × ℕ), (∀ g ∈ segs, (g.1 + g.2) * PGSIZE ≤ UTOP) → ∀ {k role l}, Typed k role l → Bounded k →
      k.dirOf (some e) = some d → Run (segs.forM fun g => segmentAlloc e g.2 (g.1 * PGSIZE)) k
        (fun _ k' => ∃ role' l', Typed k' role' l' ∧ Bounded k' ∧ Same k k' ∧ l.length ≤ l'.length + 2 * (segs.map Prod.snd).sum)
        fun f _ => f.IsPanic ∧ l.length < 2 * (segs.map Prod.snd).sum := by
    intro segs
    induction segs with
    | nil => exact fun _ {k role l} h hb _ => .pure ⟨role, l, h, hb, .refl k, le_rfl⟩
    | cons g segs ih =>
      intro hg k role l h hb hd
      show Run (segmentAlloc e g.2 (g.1 * PGSIZE) >>= fun _ => segs.forM fun g => segmentAlloc e g.2 (g.1 * PGSIZE)) k _ _
      rw [List.map_cons, List.sum_cons]
      have hfit : g.1 * PGSIZE + g.2 * PGSIZE ≤ UTOP := by
        rw [← Nat.add_mul]
        exact hg g List.mem_cons_self
      refine .step (segmentAlloc_typed h hb hd hfit) (fun f k' hf => ⟨hf.1, by omega⟩) ?_
      rintro _ k1 ⟨role1, l1, h1, hb1, hs1, hr1⟩
      refine .mono (ih (fun g' hg' => hg g' (List.mem_cons_of_mem g hg')) h1 hb1 (by rw [hs1.dirOf]; exact hd)) ?_ ?_
      · rintro _ k' ⟨role', l', h', hb', hs', hr'⟩
        exact ⟨role', l', h', hb', hs1.trans hs', by omega⟩
      · rintro f k' ⟨hf, hr⟩
        exact ⟨hf, by omega⟩
  unfold loadIcode Program.need
  refine .step (hsegs prog.segs hf h hb hd) (fun f k' hf => ⟨hf.1, by omega⟩) ?_
  rintro _ k1 ⟨role1, l1, h1, hb1, hs1, hr1⟩
  obtain ⟨h2, hp2⟩ := h1.setEnv (e := e) (w := { k1.envs e with tf := { (k1.envs e).tf with eip := prog.entry } }) rfl .rfl
  have hb2 : Bounded (k1.setEnv e { k1.envs e with tf := { (k1.envs e).tf with eip := prog.entry } }) := fun q => by
    rw [mapCount_congr hp2]
    exact hb1 q
  have hd2 : (k1.setEnv e { k1.envs e with tf := { (k1.envs e).tf with eip := prog.entry } }).dirOf (some e) = some d := by
    rw [h2.dirOf_eq, congrArg Env.pgdir setEnv_self]
    exact (h1.dirOf_eq e).symm.trans (by rw [hs1.dirOf]; exact hd)
  refine .modifyBind (.mono (segmentAlloc_typed h2 hb2 hd2 (by decide)) ?_ ?_)
  · rintro _ k' ⟨role', l', h', hb', hs', hr'⟩
    exact ⟨role', l', h', hb', by omega, hs'.npage.trans hs1.npage⟩
  · rintro f k' ⟨hf, hr⟩
    exact ⟨hf, by omega⟩

theorem envCreate_typed {prog : Program} (h : Typed k role l) (hb : Bounded k) (hf : prog.Fits) :
    Run (envCreate prog) k (fun _ k' => ∃ role' l', Typed k' role' l' ∧ Bounded k' ∧ l.length ≤ l'.length + (prog.need + 1) ∧
        k'.npage = k.npage)
      fun f _ => f.IsPanic ∧ (l.length < prog.need + 1 ∨ k.envFree.first = none) := by
  unfold envCreate
  refine .step (envAlloc_typed h 0) nofun ?_
  rintro _ k1 (⟨er, rfl, rfl, hno⟩ | ⟨e, role1, l1, rfl, h1, hc, hlen⟩)
  · refine .throw ⟨⟨_, rfl⟩, hno.imp_left fun hl => ?_⟩
    rw [hl]
    exact Nat.succ_pos _
  · have hb1 : Bounded k1 := fun q => by
      rw [mapCount_congr hc.pteAt]
      exact hb q
    have hlive : (k1.envs e).pgdir ≠ none := (h1.live e).mpr ⟨hc.lt, by rw [hc.runnable]; simp⟩
    obtain ⟨d, hd⟩ := Option.ne_none_iff_exists'.mp hlive
    refine .mono (loadIcode_typed h1 hb1 ((h1.dirOf_eq e).trans hd) hf) ?_ ?_
    · rintro _ k' ⟨role', l', h', hb', hr', hn'⟩
      exact ⟨role', l', h', hb', by omega, hn'.trans hc.npage⟩
    · rintro f k' ⟨hf, hr⟩
      exact ⟨hf, .inl (by omega)⟩

/-! ### The end of the boot -/

theorem Typed.sound (h : Typed k role l) : k.slots.Sound := by
  refine ⟨?_, h.live⟩
  rw [slots_free, slots_envs]
  exact h.envs

theorem bootMapLoop_calm (perm : ℕ) : ∀ n la pa, Calm (bootMapLoop perm n la pa)
  | 0, _, _ => .pure _
  | n + 1, la, pa => by
    unfold bootMapLoop
    refine .getBind fun k => .bind (pgdirWalk_calm _ la true) fun r => ?_
    cases r with
    | none => exact .throw (Fault.isPanic_panic _)
    | some _ => exact .bind (.modify fun _ => rfl) fun _ => bootMapLoop_calm perm n _ _

theorem i386VmInit_calm (b : BootMem) : Calm (i386VmInit b) := by
  have hsegs : ∀ gs : List Segment, Calm (gs.forM bootMapSegment) := by
    intro gs
    induction gs with
    | nil => exact .pure _
    | cons g gs ih => exact .bind (bootMapLoop_calm g.perm g.n g.la g.pa) fun _ => ih
  exact .getBind fun _ => hsegs _

/-- The env of a program that the kernel starts in slot `e`. -/
def firstEnv (e d : ℕ) (prog : Program) : Env :=
  ⟨{ initFrame e with eip := prog.entry }, 4096 + e, 0, .runnable, some d, 0, false, 0, 0, 0, 0, 0⟩

/-- The table when the programs `progs` are started. -/
structure Started (progs : List Program) (k : KernSt) : Prop where
  queue : k.envFree.Holds (List.range' progs.length (NENV - progs.length))
  envs : ∀ e (h : e < progs.length), ∃ d, k.envs e = firstEnv e d progs[e]
  rest : ∀ e, progs.length ≤ e → k.envs e = ⟨noFrame, 0, 0, .free, none, 0, false, 0, 0, 0, 0, 0⟩

theorem KernSt.Fresh.started (h : k.Fresh) : Started [] k := by
  refine ⟨?_, fun e he => absurd he (Nat.not_lt_zero e), fun e _ => h.envs e⟩
  rw [h.queue, List.length_nil, Nat.sub_zero, ← List.range_eq_range']
  exact holds_foldr _ List.nodup_range

/-- One program more. -/
theorem Started.create {progs : List Program} {prog : Program} {T : Slots} (h : Started progs k) (hT : T = k'.slots)
    {p : ℕ} {q : Queue} (hf : k.envFree.first = some e) (hq : k.envFree.remove e = some q)
    (hk : T = ⟨update k.envs e { k.slots.born e p 0 with tf := { initFrame e with eip := prog.entry } }, q⟩) :
    Started (progs ++ [prog]) k' := by
  have hlen : (progs ++ [prog]).length = progs.length + 1 := by simp
  have hqueue := h.queue
  have hlt : progs.length < NENV := by
    rw [hqueue.first] at hf
    by_contra hc
    rw [show NENV - progs.length = 0 by omega] at hf
    cases hf
  obtain ⟨n, hn⟩ : ∃ n, NENV - progs.length = n + 1 := ⟨NENV - progs.length - 1, by omega⟩
  rw [hn, List.range'_succ] at hqueue
  obtain rfl : progs.length = e := by
    rw [hqueue.first] at hf
    exact Option.some.inj hf
  obtain ⟨q', hq', hrest⟩ := hqueue.remove
  obtain rfl : q' = q := Option.mem_unique hq' hq
  have henvs : k'.envs = update k.envs progs.length _ := congrArg Slots.envs (hT.symm.trans hk)
  have hold := h.rest progs.length le_rfl
  refine ⟨?_, fun e he => ?_, fun e he => ?_⟩
  · rw [show k'.envFree = q' from congrArg Slots.free (hT.symm.trans hk), hlen, show NENV - (progs.length + 1) = n by omega]
    exact hrest
  · rw [henvs]
    by_cases hee : e = progs.length
    · subst hee
      refine ⟨p, ?_⟩
      rw [update_self]
      unfold Slots.born firstEnv
      rw [slots_envs, hold]
      simp only [List.getElem_append_right, le_refl, Nat.sub_self, List.getElem_cons_zero]
      congr 1
    · rw [hlen] at he
      obtain ⟨d, hd⟩ := h.envs e (by omega)
      refine ⟨d, ?_⟩
      rw [update_of_ne hee, hd, List.getElem_append_left]
  · rw [hlen] at he
    rw [henvs, update_of_ne (by omega)]
    exact h.rest e (by omega)

/-- The pages that `env_create` may take for all of `progs`. -/
def needs (progs : List Program) : ℕ := (progs.map fun prog => prog.need + 1).sum

/-- The programs are started one after the other. -/
theorem envCreates_typed (progs : List Program) : ∀ {done : List Program} {k : KernSt} {role : ℕ → Role} {l : List ℕ},
    Typed k role l → Bounded k → Started done k → (∀ prog ∈ progs, prog.Fits) →
    Run (progs.forM envCreate) k
      (fun _ k' => ∃ role' l', Typed k' role' l' ∧ Bounded k' ∧ Started (done ++ progs) k' ∧
        l.length ≤ l'.length + needs progs ∧ k'.npage = k.npage)
      fun f _ => f.IsPanic ∧ (l.length < needs progs ∨ NENV < (done ++ progs).length) := by
  induction progs with
  | nil =>
    intro done k role l h hb hs _
    exact .pure ⟨role, l, h, hb, by rw [List.append_nil]; exact hs, Nat.le_add_right .., rfl⟩
  | cons prog progs ih =>
    intro done k role l h hb hs hf
    show Run (envCreate prog >>= fun _ => progs.forM envCreate) k _ _
    have hneeds : needs (prog :: progs) = prog.need + 1 + needs progs := by simp [needs]
    have happ : done ++ prog :: progs = (done ++ [prog]) ++ progs := by simp
    have hboth := (envCreate_typed h hb (hf prog List.mem_cons_self)).and (envCreate_slots prog k)
    rw [hneeds, happ]
    refine .step hboth ?_ ?_
    · rintro f k' ⟨⟨hp, hc⟩, -⟩
      refine ⟨hp, ?_⟩
      rcases hc with hc | hc
      · exact .inl (by omega)
      · right
        rw [hs.queue.first] at hc
        have : NENV - done.length = 0 := by
          cases hn : NENV - done.length with
          | zero => rfl
          | succ n =>
            rw [hn, List.range'_succ] at hc
            cases hc
        simp only [List.length_append, List.length_singleton]
        omega
    · rintro _ k1 ⟨⟨role1, l1, h1, hb1, hr1, hn1⟩, e, p, q, hfst, hrem, hk1⟩
      have hs1 := hs.create rfl hfst hrem hk1
      refine .mono (ih h1 hb1 hs1 fun prog' hp => hf prog' (List.mem_cons_of_mem prog hp)) ?_ ?_
      · rintro _ k' ⟨role', l', h', hb', hs', hr', hn'⟩
        exact ⟨role', l', h', hb', hs', by omega, hn'.trans hn1⟩
      · rintro f k' ⟨hp, hc⟩
        exact ⟨hp, hc.imp_left fun hc => by omega⟩

theorem Started.dst {progs : List Program} (h : Started progs k) : k.Dst := fun e => by
  by_cases he : e < progs.length
  · obtain ⟨d, hd⟩ := h.envs e he
    rw [hd]
    show 0 < UTOP
    decide
  · rw [h.rest e (by omega)]
    decide

theorem mapCount_reset (m : Machine) (p : ℕ) : m.reset.mapCount p = 0 := KernSt.mapCount_eq_zero fun e v _ ht => by
  unfold target pteAt at ht
  rw [m.dirOf_reset] at ht
  cases ht

/-- The whole boot. It runs out of memory or of envs, or it returns. -/
theorem boot_run (m : Machine) (progs : List Program) (hf : ∀ prog ∈ progs, prog.Fits) :
    Run (Kern.boot m.boot progs) m.reset
      (fun _ k' => ∃ role l, Typed k' role l ∧ Bounded k' ∧ Started progs k' ∧
        m.npage - m.freemem + 91 ≤ l.length + needs progs ∧ k'.npage = m.npage)
      fun f _ => f.IsPanic ∧ (m.npage - m.freemem + 91 < needs progs ∨ NENV < progs.length) := by
  have hlen : m.npage - m.freemem + 158 ≤ (pageList m.freemem m.npage).length := by
    have h1 := pageList_length (m.low.trans m.alloc) m.npage
    have h2 : 256 ≤ m.freemem := m.low.trans m.alloc
    have h3 := m.high
    omega
  have habs := card_absent_le m.reset
  unfold Kern.boot
  have hvm := (i386VmInit_typed (reset_typed m) m.fits (by omega) m.boot).and (i386VmInit_calm m.boot m.reset)
  refine .step hvm (fun _ _ h => h.1.elim) ?_
  rintro _ k1 ⟨⟨role1, l1, hb⟩, hslots⟩
  have hroom := hb.room
  have hb1 : Bounded k1 := fun q => by
    rw [mapCount_congr hb.pteAt, mapCount_reset]
    decide
  have hfresh : k1.Fresh := by
    refine ⟨?_, fun e => ?_⟩
    · rw [← slots_free, hslots, slots_free, m.fresh.queue]
    · rw [← slots_envs, hslots, slots_envs, m.fresh.envs]
  refine .mono (envCreates_typed progs hb.typed hb1 hfresh.started hf) ?_ ?_
  · rintro _ k' ⟨role', l', h', hb', hs', hr', hn'⟩
    exact ⟨role', l', h', hb', hs', by omega, hn'.trans hb.same.npage⟩
  · rintro f k' ⟨hp, hc⟩
    exact ⟨hp, hc.imp_left fun hc => by omega⟩

/-- The state at the end of the boot is one in which the roles are right. -/
theorem boot_typed {progs : List Program} (h : m.Boots progs k) :
    ∃ role l, Typed k role l ∧ Bounded k ∧ k.Dst := by
  obtain ⟨role, l, ht, hb, hs, -⟩ := (boot_run m progs h.1).of_ok h.2
  exact ⟨role, l, ht, hb, hs.dst⟩

/-- A machine with enough memory boots. -/
theorem exists_boots (m : Machine) (progs : List Program) (hf : ∀ prog ∈ progs, prog.Fits) (hn : progs.length ≤ NENV)
    (hneeds : needs progs ≤ m.npage - m.freemem + 91) :
    ∃ k role l, m.Boots progs k ∧ Typed k role l ∧ Bounded k ∧ Started progs k ∧
      m.npage - m.freemem + 91 ≤ l.length + needs progs ∧ k.npage = m.npage := by
  have h := boot_run m progs hf
  cases hx : Kern.boot m.boot progs m.reset with
  | ok u k =>
    obtain ⟨role, l, ht, hb, hs, hr, hn'⟩ := h.of_ok hx
    exact ⟨k, role, l, ⟨hf, hx⟩, ht, hb, hs, hr, hn'⟩
  | error f k =>
    obtain ⟨-, hc⟩ := h.of_error hx
    omega

end

end Kern
end Jos
