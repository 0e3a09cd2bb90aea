/-
# The calls on memory

`sys_page_alloc`, `sys_page_map` and `sys_page_unmap` change nothing when they
return an error: the page that `sys_page_alloc` has taken goes back to the front of
the free list. `page_alloc` clears `pp_ref`, so this needs that no page on the free list
is counted, which the 16 bits of `pp_ref` do not always grant.

`sys_page_alloc` clears the new page through the mapping it has just made, with
`CR0_WP` set: without `PTE_W` the kernel faults.

`sys_ipc_recv` stores 0 for "no page", and 0 is an address.

Key definitions: `Call.memory`, `Zeroed`, `Transfers`.
Key theorems: `atomic_of_run`, `zeroed_iff`, `transfers_iff`.
-/
import Jos.Kern.Authority
import Mathlib.Order.Interval.Finset.Nat

namespace Jos
namespace Kern

open Fs (NENV PGSIZE envx nextEnvid)

/-! ### Errors -/

/-- The calls that map and unmap pages. -/
def Call.memory : Call → Bool
  | .pageAlloc .. | .pageMap .. | .pageUnmap .. => true
  | _ => false

section
variable {k k' : KernSt} {role role' : ℕ → Role} {l l' le : List ℕ} {c e n p : ℕ} {s : Call} {er : Err} {tf tf' : Trapframe}

/-- The counts are those of before. -/
theorem Restored.ref (h : Restored k role l k') (hk : Typed k role l) : k'.ref = k.ref := by
  funext x
  rw [h.1.refs x, hk.refs x, refsOf_congr (h.pteAt hk.toShape)]

theorem sysPageMap_fails (h : Typed k role l) (srcenvid srcva dstenvid dstva perm : ℕ) :
    Run (sysPageMap c srcenvid srcva dstenvid dstva perm) k (fun _ _ => True)
      fun f k' => f.IsPanic ∨ Restored k role l k' := by
  have hsame : Restored k role l k := ⟨h, .refl k, rfl⟩
  unfold sysPageMap
  split
  · exact .throw (.inr hsame)
  split
  · exact .throw (.inr hsame)
  refine run_lookupEnv (fun _ => .inr hsame) fun src _ => run_lookupEnv (fun _ => .inr hsame) fun dst _ => ?_
  refine .step (sharePage_slots src srcva dst dstva perm k) ?_ fun _ _ _ => .pure trivial
  rintro f k' (hf | ⟨-, rfl⟩)
  · exact .inl hf
  · exact .inr hsame

theorem sysPageUnmap_fails (h : Typed k role l) (envid va : ℕ) :
    Run (sysPageUnmap c envid va) k (fun _ _ => True) fun f k' => f.IsPanic ∨ Restored k role l k' := by
  have hsame : Restored k role l k := ⟨h, .refl k, rfl⟩
  unfold sysPageUnmap
  split
  · exact .throw (.inr hsame)
  refine run_lookupEnv (fun _ => .inr hsame) fun e _ => ?_
  refine .step (pgdirOf_run e k) (fun _ _ => .inl) fun d k1 _ => ?_
  exact .step (pageRemove_calm d va k1) (fun _ _ => .inl) fun _ _ _ => .pure trivial

/-- A call on memory that fails. -/
theorem Typed.restored (h : Typed k role l) (hb : Bounded k) (hc : k.Live c)
    (hs : s.memory = true) (hk : syscall c s k = .error (.err er) k') : Restored k role l k' := by
  have herr : ¬ (Fault.err er).IsPanic := fun ⟨_, hp⟩ => nomatch hp
  cases s with
  | pageAlloc envid va perm =>
    have hrun := sysPageAlloc_typed h envid va perm (fun e he => (h.live e).mpr (envid2env_live he hc)) fun e q _ _ => hb q
    rcases hrun.of_error hk with ⟨hp, -⟩ | ⟨-, hr, -⟩
    · cases hp
    · exact hr
  | pageMap srcenvid srcva dstenvid dstva perm =>
    exact ((sysPageMap_fails h srcenvid srcva dstenvid dstva perm).of_error hk).resolve_left herr
  | pageUnmap envid va => exact ((sysPageUnmap_fails h envid va).of_error hk).resolve_left herr
  | _ => cases hs

end

/-- The pages of a machine of 4 MB that are not reserved. -/
def lowPages : Finset ℕ := Finset.range 160 ∪ Finset.Ico 256 1024

theorem card_lowPages : lowPages.card ≤ 928 := (Finset.card_union_le _ _).trans (by simp)

section
variable {k k' : KernSt} {role role' : ℕ → Role} {l l' le : List ℕ} {c d e n p va : ℕ} {tf tf' : Trapframe}

theorem Typed.mem_lowPages (h : Typed k role l) (hn : k.npage = 1024) (h1 : role p ≠ .reserved) (h2 : role p ≠ .dir none) :
    p ∈ lowPages := by
  have hm : k.managed p = true := by
    rw [← Bool.not_eq_false, h.managed p]
    exact fun hc => hc.elim h1 h2
  unfold KernSt.managed reserved at hm
  simp only [hn, IOPHYSMEM, EXTPHYSMEM, PGSIZE, Bool.and_eq_true, decide_eq_true_eq, Bool.not_eq_true', Bool.or_eq_false_iff,
    Bool.and_eq_false_iff, decide_eq_false_iff_not] at hm
  rw [lowPages, Finset.mem_union, Finset.mem_range, Finset.mem_Ico]
  omega

theorem Typed.length_le (h : Typed k role l) (hn : k.npage = 1024) : l.length ≤ 928 := by
  rw [← List.toFinset_card_of_nodup h.queue.2]
  refine (Finset.card_le_card fun p hp => ?_).trans card_lowPages
  have hfree := (h.free p).mp (List.mem_toFinset.mp hp)
  exact h.mem_lowPages hn (by rw [hfree]; simp) (by rw [hfree]; simp)

/-- There are more entries in a directory than pages for tables. -/
theorem Typed.exists_hole (h : Typed k role l) (hn : k.npage = 1024) (e : ℕ) :
    ∃ i < pdx UTOP, ∀ t, role t ≠ .table (some e) i := by
  by_contra hc
  push Not at hc
  choose! f hf using hc
  have hinj : Set.InjOn f (Finset.range (pdx UTOP)) := fun i hi j hj hij => by
    have hi' := hf i (Finset.mem_range.mp hi)
    rw [hij, hf j (Finset.mem_range.mp hj)] at hi'
    exact (Role.table.inj hi').2.symm
  have hcard := Finset.card_le_card_of_injOn (s := Finset.range (pdx UTOP)) (t := lowPages) f (fun i hi => by
    have hi' := hf i (Finset.mem_range.mp hi)
    exact h.mem_lowPages hn (by rw [hi']; simp) (by rw [hi']; simp)) hinj
  have h1 := card_lowPages
  have h2 : pdx UTOP = 955 := by decide
  rw [Finset.card_range, h2] at hcard
  omega

/-- The parent forks until there is no page left. -/
theorem Crowd.fill {m : ℕ} (h : Crowd n p tf k role l) (hm : l.length = m) (hq : k.envFree.Holds le) (hle : l.length ≤ le.length)
    (hu : userFrame tf tf' = true) :
    ∃ as k' tf role', krun as k = .ok () k' ∧ Crowd n p tf k' role' [] ∧ userFrame tf tf' = true ∧ k'.npage = k.npage := by
  induction m generalizing k role l le tf with
  | zero =>
    rw [List.length_eq_zero_iff] at hm
    exact ⟨[], k, tf, role, krun_nil k, hm ▸ h, hu, rfl⟩
  | succ m ih =>
    match le, hq, hle with
    | [], _, hle => exact absurd hle (by simp [hm])
    | e :: le, hq, hle =>
    obtain ⟨le', hq', hmem⟩ := h.typed.envs
    have hfree : (k.envs e).status = .free := ((hmem e).mp (hq'.unique hq ▸ .head _)).2
    have h0 : 0 ≠ e := fun hc => by rw [← hc, h.family.runs] at hfree; cases hfree
    have h2 : 2 ≠ e := fun hc => by rw [← hc, h.family.status] at hfree; cases hfree
    obtain ⟨k1, d, q, role1, l1, hcall, hq1, hslots, ht1, hlen, hn1, hpte⟩ :=
      exofork_ok (c := 0) h.typed (fun hc => by simp [hc] at hm) hq h0
    obtain ⟨id, hid⟩ : ∃ id, nextEnvid (k.envs e).id e = id := ⟨_, rfl⟩
    rw [hid] at hcall
    have henvs : ∀ e', e' ≠ e → k1.envs e' = k.envs e' := fun e' he' => by
      rw [← KernSt.slots_envs, hslots]
      exact Function.update_of_ne he' ..
    have hfam : Family k1 .notRunnable false :=
      h.family.congr ⟨(k.envs 0).tf, by rw [henvs 0 h0]⟩ ⟨(k.envs 2).tf, by rw [henvs 2 h2]⟩
    have hstep := kstep_call (by decide) h.family.runs hcall
    obtain ⟨ht2, hpte2⟩ := ht1.finish 0 (some id)
    have hc2 : Crowd n p ((k1.finish 0 (some id)).envs 0).tf _ role1 l1 :=
      ⟨hfam.finish 0 _, ht2, rfl, fun v hv => by rw [hpte2 2 v hv, hpte 2 v hv, h.maps v hv],
        by rw [KernSt.mapCount_congr hpte2, KernSt.mapCount_congr hpte, h.count]⟩
    have hu2 : userFrame ((k1.finish 0 (some id)).envs 0).tf tf' = true := by
      rw [show (k1.finish 0 (some id)).envs 0 = _ from setEnv_self, henvs 0 h0, h.frame]
      exact hu
    have hq2 : (k1.finish 0 (some id)).envFree.Holds le := by
      rw [show (k1.finish 0 _).envFree = k1.slots.free from rfl, hslots]
      exact hq1
    obtain ⟨as, k', tf₁, role', hr, hc', hu', hn'⟩ := ih hc2 (by omega) hq2 (by rw [List.length_cons] at hle; omega) hu2
    exact ⟨_, k', tf₁, role', krun_cons.mpr ⟨_, hstep, hr⟩, hc', hu', hn'.trans hn1⟩

/-- An interrupt of the parent, with another frame. -/
theorem Crowd.irq (h : Crowd n p tf k role l) (hu : userFrame tf tf' = true) :
    kstep (.trap 0 tf' .irq) k = .ok () (k.save 0 tf') ∧ Crowd n p tf' (k.save 0 tf') role l := by
  obtain ⟨ht, hp⟩ := h.typed.save 0 tf'
  refine ⟨(kstep_trap ⟨by decide, h.family.runs, h.frame ▸ hu⟩).mpr rfl,
    h.family.congr ⟨tf', k.save_self 0 tf'⟩ ⟨(k.envs 2).tf, k.save_ne tf' (by decide)⟩, ht, congrArg Env.tf (k.save_self 0 tf'),
    fun v hv => by rw [hp 2 v hv, h.maps v hv], by rw [KernSt.mapCount_congr hp, h.count]⟩

/-- The only free page is taken, there is none for the table, and the page goes back with its count cleared. -/
theorem Torn.pageAlloc_fails {r : ℕ} (h : Torn n r p tf k role) (hl : k.freeList.Holds [p]) (hva : vaOk va = true)
    (hno : ∀ t, role t ≠ .table (some 2) (pdx va)) :
    ∃ k', syscall 0 (.pageAlloc 4098 va 7) k = .error (.err .noMem) k' ∧ k'.ref p = 0 := by
  obtain ⟨d, hd⟩ := Option.ne_none_iff_exists'.mp ((h.shape.live 2).mpr ⟨by decide, by rw [h.family.status]; simp⟩)
  have hp : (k.word d (pdx va)).present = false := by
    rw [← Bool.not_eq_true, ← h.shape.table_iff ((h.shape.dirOf_eq 2).trans hd) (entry_va (vaOk_lt hva))]
    exact not_exists.mpr hno
  have hrun : Run (sysPageAlloc 0 4098 va 7) k (fun _ _ => False) fun f k' => f = .err .noMem ∧ k'.ref p = 0 := by
    unfold sysPageAlloc
    rw [hva, if_neg (by simp), if_neg (by decide)]
    refine run_lookup (h.family.lookup (by simp) true) ?_
    refine .bind ((pageAlloc_run hl).mono (fun _ _ h => h) fun _ _ h => h.elim) ?_
    rintro _ _ (⟨-, -, hc⟩ | ⟨_, _, q, rfl, hp', hq, rfl⟩)
    · cases hc
    cases hp'
    refine run_pgdirOf hd (.bind ((pageInsert_noMem (k := { k with freeList := q, ref := _ }) hp hq).mono (fun _ _ h => h) fun _ _ h => h.elim) ?_)
    rintro _ _ ⟨rfl, rfl⟩
    rw [if_neg (by simp)]
    exact .modifyBind (.throw ⟨rfl, Function.update_self ..⟩)
  cases hx : sysPageAlloc 0 4098 va 7 k with
  | ok r k' => exact (hrun.of_ok hx).elim
  | error f k' =>
    obtain ⟨rfl, href⟩ := hrun.of_error hx
    exact ⟨k', hx, href⟩

end

/-- The call stops at no page fault, and if it returns 0, the page at `va` is mapped with `perm` and cleared, no other page
changes but the page directory and the page table of the mapping, and no other mapping. -/
def Zeroed (c envid va perm : ℕ) (k : KernSt) : Prop :=
  (∀ k', syscall c (.pageAlloc envid va perm) k ≠ .error (.panic .pageFault) k') ∧
  ∀ k', syscall c (.pageAlloc envid va perm) k = .ok (some 0) k' → ∃ e p d, envid2env k c envid true = some e ∧
    (k.envs e).pgdir = some d ∧ k'.pteAt e (va / PGSIZE) = some ⟨p, perm⟩ ∧ (∀ i, k'.word p i = .zero) ∧
    (∀ q, q ≠ p → q ≠ d → q ≠ (k'.word d (pdx va)).ppn → k'.word q = k.word q) ∧
    ∀ e', ∀ v < NUPAGES, ¬ (e' = e ∧ v = va / PGSIZE) → k'.pteAt e' v = k.pteAt e' v

section
variable {k k' : KernSt} {role role' : ℕ → Role} {l l' : List ℕ} {c e envid p va perm : ℕ}

/-- `PTE_P` is one of the bits. -/
theorem permOk_or (h : permOk perm = true) : perm ||| PTE_P = perm := by
  unfold permOk at h
  simp only [Bool.and_eq_true, bne_iff_ne, PTE_P, Nat.and_one_is_mod] at h
  refine Nat.eq_of_testBit_eq fun i => ?_
  rw [Nat.testBit_or]
  cases i with
  | zero =>
    rw [Nat.testBit_zero, Nat.testBit_zero]
    simp only [Nat.one_mod, decide_true, Bool.or_true]
    exact (decide_eq_true (by omega)).symm
  | succ i => simp [PTE_P, Nat.testBit_succ]

theorem Allocated.zeroed (h : Allocated e va p perm k role l k' role' l') (hk : Typed k role l) (hva : vaOk va = true)
    (hperm : permOk perm = true) : ∃ d, (k.envs e).pgdir = some d ∧ k'.pteAt e (va / PGSIZE) = some ⟨p, perm⟩ ∧
    (∀ i, k'.word p i = .zero) ∧ (∀ q, q ≠ p → q ≠ d → q ≠ (k'.word d (pdx va)).ppn → k'.word q = k.word q) ∧
    ∀ e', ∀ v < NUPAGES, ¬ (e' = e ∧ v = va / PGSIZE) → k'.pteAt e' v = k.pteAt e' v := by
  have hp : k'.pteAt e (va / PGSIZE) = some ⟨p, perm⟩ := by
    rw [h.pteAt e _ (vpn_lt (vaOk_lt hva)), if_pos ⟨rfl, rfl⟩, permOk_or hperm]
  obtain ⟨d, hd⟩ := KernSt.pteAt_dir hp
  have hd0 : k.dirOf (some e) = some d := h.same.dirOf.symm.trans hd
  refine ⟨d, (hk.dirOf_eq e).symm.trans hd0, hp, h.zero, fun q hqp hqd hqt => h.words q hqp (fun hc => ?_) fun hc => ?_,
    fun e' v hv hn => by rw [h.pteAt e' v hv, if_neg hn]⟩
  · exact hqd (Option.some.inj (((hk.dir _ _).mp hc).symm.trans hd0))
  · obtain ⟨-, d', hd', -, hq⟩ := (h.typed.table _ _ _).mp hc
    obtain rfl := Option.mem_unique hd hd'
    exact hqt hq.symm

section
variable (h : Typed k role l) (hb : Bounded k) (hc : k.Live c) (hva : vaOk va = true)
  (hperm : permOk perm = true)
include h hb hc hva hperm

/-- Without `PTE_W` the kernel faults when it clears the page. -/
theorem Typed.faults (hw : perm &&& PTE_W = 0) (he : envid2env k c envid true = some e) (hen : k.Enough e va) :
    ∃ k', syscall c (.pageAlloc envid va perm) k = .error (.panic .pageFault) k' := by
  have hrun := sysPageAlloc_typed h envid va perm (fun e he => (h.live e).mpr (envid2env_live he hc)) fun e q _ _ => hb q
  cases hx : sysPageAlloc c envid va perm k with
  | ok r k' => exact absurd hw (hrun.of_ok hx).2.1
  | error f k' =>
    rcases hrun.of_error hx with ⟨rfl, -⟩ | ⟨-, -, hf⟩
    · exact ⟨k', hx⟩
    · exact absurd hen (hf hva hperm e he)

theorem Typed.zeroed : Zeroed c envid va perm k ↔
    perm &&& PTE_W ≠ 0 ∨ ∀ e, envid2env k c envid true = some e → ¬ k.Enough e va := by
  have hrun := sysPageAlloc_typed h envid va perm (fun e he => (h.live e).mpr (envid2env_live he hc)) fun e q _ _ => hb q
  constructor
  · rintro ⟨hno, -⟩
    by_contra hcon
    push Not at hcon
    obtain ⟨hw, e, he, hen⟩ := hcon
    obtain ⟨k', hk'⟩ := h.faults hb hc hva hperm hw he hen
    exact hno k' hk'
  · intro hok
    refine ⟨fun k' hx => ?_, fun k' hx => ?_⟩
    · rcases hrun.of_error hx with ⟨-, hw, e, he, hen⟩ | ⟨⟨er, hf⟩, -⟩
      · exact hok.elim (fun hne => hne hw) fun hno => hno e he hen
      · cases hf
    · obtain ⟨-, -, e, p, role', l', he, ha⟩ := hrun.of_ok hx
      obtain ⟨d, hcl⟩ := ha.zeroed h hva hperm
      exact ⟨e, p, d, he, hcl⟩

end

end

/-- `sys_page_alloc` with a legal permission, after any run of calls and other traps from the end of the boot in which no page
has 2 ^ 16 mappings when a trap happens: it clears the page, and does not fault, exactly if the
permission has `PTE_W` or the call fails before: the env is not one the caller may change, or there are too few pages. -/
theorem zeroed_iff {m : Machine} {progs : List Program} {k₀ k : KernSt} {as : List KAct} {c envid va perm : ℕ} {tf : Trapframe}
    (h₀ : m.Boots progs k₀) (ha : Along (fun k a => Bounded k ∧ ∃ c tf t, a = .trap c tf t) as k₀)
    (hr : krun as k₀ = .ok () k) (hb : Bounded k) (hc : c < NENV) (hrun : (k.envs c).status = .runnable)
    (hva : vaOk va = true) (hperm : permOk perm = true) : Zeroed c envid va perm (k.save c tf) ↔
      perm &&& PTE_W ≠ 0 ∨ ∀ e, envid2env (k.save c tf) c envid true = some e → ¬ (k.save c tf).Enough e va := by
  obtain ⟨⟨role, l, ht⟩, -⟩ := h₀.ok_of_traps ha hr
  exact (ht.save c tf).1.zeroed (hb.save ht tf) ((KernSt.live_of_runnable hc hrun).save tf) hva hperm

/-- The first env allocates a page for itself. -/
theorem zeroed_writable : ∃ k₀, smallMemory.Boots [onePage, onePage] k₀ ∧
    Zeroed 0 0 0xA00000 (PTE_P ||| PTE_U ||| PTE_W) (k₀.save 0 (k₀.envs 0).tf) := by
  obtain ⟨k₀, -, -, hb, -, hbd, hs, -⟩ := exists_booted
  exact ⟨k₀, hb, (zeroed_iff hb (by trivial) (krun_nil k₀) hbd (by decide) (hs.status (by decide)).1 (by decide)
    (by decide)).mpr (.inl (by decide))⟩

/-- The first env allocates a page that it may only read: the kernel faults. -/
theorem read_only_faults : ∃ k₀ k', smallMemory.Boots [onePage, onePage] k₀ ∧ (k₀.envs 0).status = .runnable ∧
    syscall 0 (.pageAlloc 0 0xA00000 (PTE_P ||| PTE_U)) k₀ = .error (.panic .pageFault) k' := by
  obtain ⟨k₀, role, l, hb, ht, hbd, hs, hl, -⟩ := exists_booted
  obtain ⟨hst, -⟩ := hs.status (e := 0) (by decide)
  have henough : k₀.Enough 0 0xA00000 := by
    match l, ht.queue, hl with
    | p :: q :: l, hq, _ => exact ⟨p, q :: l, hq, by simp⟩
  obtain ⟨k', hk'⟩ := ht.faults hbd (KernSt.live_of_runnable (by decide) hst) (by decide) (by decide)
    (show (PTE_P ||| PTE_U) &&& PTE_W = 0 by decide) (show envid2env k₀ 0 0 true = some 0 from rfl) henough
  exact ⟨k₀, k', hb, hst, hk'⟩

/-! ### Pages in messages -/

/-- Env `c` sends the page at `srcva`, if it has one there that it may send with `perm`, to env `e`, which receives at
`dstva`, if that is below `UTOP`. -/
structure Transfers (c e srcva perm dstva : ℕ) (k k' : KernSt) : Prop where
  mapped : ∀ pte, srcva < UTOP → Sendable c srcva perm k pte → dstva < UTOP → (k'.envs e).perm = perm ∧
    k'.pteAt e (dstva / PGSIZE) = some ⟨pte.ppn, perm⟩
  perm : (k'.envs e).perm ≠ 0 ↔ (srcva < UTOP ∧ ∃ pte, Sendable c srcva perm k pte) ∧ dstva < UTOP
  none : UTOP ≤ srcva ∨ UTOP ≤ dstva → ∀ e', ∀ v < NUPAGES, k'.pteAt e' v = k.pteAt e' v
  others : ∀ e', ∀ v < NUPAGES, ¬ (e' = e ∧ v = dstva / PGSIZE) → k'.pteAt e' v = k.pteAt e' v

section
variable {k k' : KernSt} {role : ℕ → Role} {l : List ℕ} {c e srcva perm dstva : ℕ} {tf : Trapframe}

theorem recv_dstva (hg : k.CanTrap c tf)
    (hd : dstva < UTOP → dstva % PGSIZE = 0) (hk : kstep (.trap c tf (.syscall (.ipcRecv dstva))) k = .ok () k') :
    (k'.envs c).dstva = if dstva < UTOP then dstva else 0 := by
  have htrap : dispatchCall c (.ipcRecv dstva) (k.save c tf) = .ok () k' := (kstep_trap hg).mp hk
  rw [dispatchCall_eq (recv_ok hd)] at htrap
  obtain rfl := (EStateM.Result.ok.inj htrap).2
  exact congrArg Env.dstva setEnv_self

/-- The address stays until the next receive that does not fail. -/
theorem dstva_of_run {as : List KAct} (h : k.slots.Sound)
    (ha : ∀ tf d, .trap e tf (.syscall (.ipcRecv d)) ∈ as → d < UTOP ∧ d % PGSIZE ≠ 0) (hr : krun as k = .ok () k') :
    (k'.envs e).dstva = (k.envs e).dstva := by
  induction as generalizing k with
  | nil =>
    obtain rfl := (EStateM.Result.ok.inj hr).2
    rfl
  | cons a as ih =>
    obtain ⟨k1, h1, hr1⟩ := krun_cons.mp hr
    have hacted := h.step h1
    rw [ih (h.acted hacted) (fun tf d hm => ha tf d (List.mem_cons_of_mem a hm)) hr1]
    rcases hacted.dstva e with hsame | ⟨tf, d, rfl, hal, -⟩
    · exact hsame
    · obtain ⟨hlt, hne⟩ := ha tf d List.mem_cons_self
      exact absurd (hal hlt) hne

/-- What the message does, in terms of what was asked for. -/
theorem Posted.transfers (h : Posted c e srcva perm k k') (hd : (k.envs e).dstva = if dstva < UTOP then dstva else 0)
    (hperm : srcva < UTOP → permOk perm = true) : Transfers c e srcva perm dstva k k' ↔
      ¬ (dstva = 0 ∧ srcva < UTOP ∧ ∃ pte, Sendable c srcva perm k pte) := by
  unfold Posted at h
  rw [hd] at h
  by_cases hsent : srcva < UTOP ∧ (if dstva < UTOP then dstva else 0) ≠ 0
  · rw [if_pos hsent] at h
    obtain ⟨hs, hne⟩ := hsent
    obtain ⟨hpe, pte, hsend, hmap⟩ := h
    have hlt : dstva < UTOP := by
      by_contra hge
      exact hne (if_neg hge)
    rw [if_pos hlt] at hne hmap
    have hp0 : perm ≠ 0 := fun hc => by
      rw [hc] at hperm
      cases hperm hs
    refine iff_of_true ⟨fun pte' _ hsend' _ => ⟨hpe, ?_⟩, iff_of_true (by rw [hpe]; exact hp0) ⟨⟨hs, pte, hsend⟩, hlt⟩,
      fun hno => ?_, fun e' v hv hn => by rw [hmap e' v hv, if_neg hn]⟩ fun hc => hne hc.1
    · rw [hmap e _ (vpn_lt hlt), if_pos ⟨rfl, rfl⟩, permOk_or (hperm hs),
        Option.mem_unique hsend.1 hsend'.1]
    · omega
  · rw [if_neg hsent] at h
    have hzero : dstva < UTOP → srcva < UTOP → dstva = 0 := fun hlt hs => by
      by_contra hne
      exact hsent ⟨hs, by rw [if_pos hlt]; exact hne⟩
    constructor
    · rintro ht ⟨rfl, hs, hsend⟩
      exact ht.perm.mpr ⟨⟨hs, hsend⟩, by decide⟩ h.1
    · intro hno
      have hnone : ∀ {pte}, srcva < UTOP → Sendable c srcva perm k pte → ¬ dstva < UTOP := fun hs hsend hlt =>
        hno ⟨hzero hlt hs, hs, _, hsend⟩
      exact ⟨fun pte hs hsend hlt => absurd hlt (hnone hs hsend),
        iff_of_false (fun hc => hc h.1) fun ⟨⟨hs, _, hsend⟩, hlt⟩ => hnone hs hsend hlt, fun _ => h.2,
        fun e' v hv _ => h.2 e' v hv⟩

end

/-- An env receives. -/
theorem Typed.recv {k : KernSt} {role : ℕ → Role} {l : List ℕ} {c dstva : ℕ} (h : Typed k role l) (hc : c < NENV)
    (hr : (k.envs c).status = .runnable) (hd : dstva < UTOP → dstva % PGSIZE = 0) :
    ∃ k', kstep (callOf k c (.ipcRecv dstva)) k = .ok () k' ∧ Typed k' role l ∧
      (∀ e, ∀ v < NUPAGES, k'.pteAt e v = k.pteAt e v) ∧ (∀ e, e ≠ c → k'.envs e = k.envs e) ∧ k'.envs c = { k.envs c with
        dstva := if dstva < UTOP then dstva else 0, recving := true, status := .notRunnable } := by
  obtain ⟨ht, hp⟩ := h.setEnv (e := c) (w := { k.envs c with
    dstva := if dstva < UTOP then dstva else 0, recving := true, status := .notRunnable }) (by rfl) (by rw [hr]; simp)
  exact ⟨_, kstep_call hc hr (recv_ok hd), ht, hp, fun e he => setEnv_ne he, setEnv_self⟩

end Kern
end Jos
