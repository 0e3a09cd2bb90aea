/-
# Pages are used for one thing at a time

After any run of the kernel in which no page has 2 ^ 16 mappings when a call
starts, every page has a role: the free list has no page that is mapped or is a page
table, envs map no page table, and `pp_ref` counts the references to a page.

`pp_ref` has 16 bits, and nothing stops an env from mapping one page more often
than that. After 2 ^ 16 + 1 mappings it is 1, so one unmapping frees the page while
it is mapped 2 ^ 16 times.

Key definitions: `KernSt.Ok`, `Fair`, `Crowd`.
Key theorems: `KernSt.Ok.run`, `isolated_of_run`, `counted_of_run`.
-/
import Jos.Kern.Lookup

namespace Jos
namespace Kern

open Fs (NENV PGSIZE)
open Function

/-! ### Every action keeps the roles -/

/-- The pages have roles, and the addresses envs receive at are below `UTOP`. -/
def KernSt.Ok (k : KernSt) : Prop := (∃ role l, Typed k role l) ∧ k.Dst

/-- `page_alloc` has handed the page out, and it is no page table. -/
def KernSt.InUse (k : KernSt) (p : ℕ) : Prop :=
  k.managed p = true ∧ k.isTable p = false ∧ ∀ l, k.freeList.Holds l → p ∉ l

/-- What the callers of the kernel's functions see to: the address is below `UTOP`,
the permissions fit, the page is in use, the program is below the stack. -/
def Fair (k : KernSt) : KAct → Prop
  | .pgdirWalk _ va _ => va < UTOP
  | .pageInsert _ pp va perm => va < UTOP ∧ perm < PGSIZE ∧ k.InUse pp
  | .pageRemove _ va => va < UTOP
  | .envCreate prog => prog.Fits
  | _ => True

section
variable {k k' : KernSt} {role role' : ℕ → Role} {l l' : List ℕ} {a : KAct} {as : List KAct} {e p v : ℕ}

theorem Shape.isTable_iff (h : Shape k role) :
    k.isTable p = true ↔ (∃ o, role p = .dir o) ∨ ∃ o i, role p = .table o i := by
  rw [KernSt.isTable_iff]
  constructor
  · rintro ⟨o, d, hd, rfl | ⟨i, hi, hp, rfl⟩⟩
    · exact .inl ⟨o, h.dir_of hd⟩
    · by_cases he : Entry o i
      · exact .inr ⟨o, i, h.table_of hd he hp⟩
      · rcases h.other o d i hd he hi hp with hself | ⟨i', ht⟩
        · rw [hself]
          exact .inl ⟨o, h.dir_of hd⟩
        · exact .inr ⟨none, i', ht⟩
  · rintro (⟨o, ho⟩ | ⟨o, i, ht⟩)
    · exact ⟨o, p, (h.dir o p).mp ho, .inl rfl⟩
    · obtain ⟨hi, d, hd, hp, hpp⟩ := (h.table o i p).mp ht
      refine ⟨o, d, hd, .inr ⟨i, ?_, hp, hpp⟩⟩
      cases o with
      | none => exact hi.2.1
      | some e => exact lt_of_lt_of_le hi (by decide)

/-- A page in use is one for envs to map. -/
theorem Typed.user_of_inUse (h : Typed k role l) (hp : k.InUse p) : role p = .user := by
  obtain ⟨hm, ht, hl⟩ := hp
  cases hr : role p with
  | user => rfl
  | reserved =>
    rw [(h.managed p).mpr (Or.inl hr)] at hm
    cases hm
  | free => exact absurd ((h.free p).mpr hr) (hl l h.queue)
  | dir o =>
    rw [h.isTable_iff.mpr (Or.inl ⟨o, hr⟩)] at ht
    cases ht
  | table o i =>
    rw [h.isTable_iff.mpr (Or.inr ⟨o, i, hr⟩)] at ht
    cases ht

theorem kstep_typed (h : Typed k role l) (hb : Bounded k) (hd : k.Dst) (hf : Fair k a) :
    Run (kstep a) k (fun _ k' => ∃ role' l', Typed k' role' l') fun f _ => f.IsPanic := by
  cases a with
  | trap c tf t =>
    refine .getBind ?_
    dsimp only
    split
    next hg =>
      refine (trap_maps h hb hd (KernSt.live_of_runnable hg.1 hg.2.1) tf t).post ?_
      rintro _ k' ⟨e, V, role', l', ht, -, -⟩
      exact ⟨role', l', ht⟩
    next => exact .pure ⟨role, l, h⟩
  | pgdirWalk e va create =>
    refine .bind (pgdirOf_typed h e) fun d k1 ⟨hk, hde⟩ => ?_
    subst hk
    refine .step (pgdirWalk_typed h hde (entry_va hf) create) nofun ?_
    rintro _ k2 (⟨-, rfl, -, -⟩ | ⟨-, rfl, -⟩ | ⟨t, l', -, -, rfl, -, -, hty, -⟩)
    · exact .pure ⟨role, l, h⟩
    · exact .pure ⟨role, l, h⟩
    · exact .pure ⟨_, l', hty⟩
  | pageInsert e pp va perm =>
    obtain ⟨hva, hperm, hp⟩ := hf
    refine .bind (pgdirOf_typed h e) fun d k1 ⟨hk, hde⟩ => ?_
    subst hk
    refine .bind (.mono (pageInsert_typed h hde hva (h.user_of_inUse hp) hperm fun q _ => hb q) (fun _ _ h => h)
      nofun) ?_
    rintro _ k2 ⟨role', l', hi⟩
    exact .pure ⟨role', l', hi.typed⟩
  | pageRemove e va =>
    refine .bind (pgdirOf_typed h e) fun d k1 ⟨hk, hde⟩ => ?_
    subst hk
    refine (pageRemove_typed h hde hf fun q _ => hb q).mono ?_ nofun
    rintro _ k2 ⟨role', l', hr⟩
    exact ⟨role', l', hr.typed⟩
  | envAlloc parent =>
    refine .step (envAlloc_typed h parent) nofun ?_
    rintro _ k1 (⟨er, rfl, rfl, -⟩ | ⟨e, role', l', rfl, ht, -, -⟩)
    · exact .pure ⟨role, l, h⟩
    · exact .pure ⟨role', l', ht⟩
  | envFree e =>
    refine .post (envFree_freed h hb) ?_
    rintro _ k' ⟨role', l', ht, -⟩
    exact ⟨role', l', ht⟩
  | envCreate prog =>
    refine (envCreate_typed h hb hf).mono ?_ fun _ _ h => h.1
    rintro _ k' ⟨role', l', ht, -⟩
    exact ⟨role', l', ht⟩

/-- An action in a state in which no page has 2 ^ 16 mappings. -/
theorem KernSt.Ok.step (h : k.Ok) (hb : Bounded k) (hf : Fair k a) (hk : kstep a k = .ok () k') : k'.Ok := by
  obtain ⟨⟨role, l, ht⟩, hd⟩ := h
  exact ⟨(kstep_typed ht hb hd hf).of_ok hk, hd.acted (ht.sound.step hk)⟩

theorem KernSt.Ok.run (h : k.Ok) (ha : Along (fun k a => Bounded k ∧ Fair k a) as k) (hr : krun as k = .ok () k') : k'.Ok :=
  krun_induction (I := KernSt.Ok) (fun _ _ _ hk hp hs => hk.step hp.1 hp.2 hs) h ha hr

end

/-- The state after the boot has roles. -/
theorem Machine.Boots.ok {m : Machine} {progs : List Program} {k : KernSt} (h : m.Boots progs k) : k.Ok := by
  obtain ⟨role, l, ht, -, hd⟩ := boot_typed h
  exact ⟨⟨role, l, ht⟩, hd⟩

/-- And so has the state after a run of traps. -/
theorem Machine.Boots.ok_of_traps {m : Machine} {progs : List Program} {k₀ k : KernSt} {as : List KAct} (h₀ : m.Boots progs k₀)
    (ha : Along (fun k a => Bounded k ∧ ∃ c tf t, a = .trap c tf t) as k₀) (hr : krun as k₀ = .ok () k) : k.Ok :=
  h₀.ok.run (ha.mono fun _ _ ⟨hb, _, _, _, ht⟩ => ⟨hb, ht ▸ trivial⟩) hr

/-! ### A page that is mapped too often -/

/-- The parent maps the page at address 0 of the child at its page `v` too. -/
def share (tf : Trapframe) (v : ℕ) : KAct := .trap 0 tf (.syscall (.pageMap 4098 0 4098 (v * PGSIZE) 7))

/-- The first `n` pages of the child are one page `p`, which is mapped nowhere else. -/
structure Crowd (n p : ℕ) (tf : Trapframe) (k : KernSt) (role : ℕ → Role) (l : List ℕ) : Prop where
  family : Family k .notRunnable false
  typed : Typed k role l
  frame : (k.envs 0).tf = tf
  maps : ∀ v < NUPAGES, k.pteAt 2 v = if v < n then some ⟨p, 7 ||| PTE_P⟩ else none
  count : k.mapCount p = n

/-- And there is room for more. -/
structure Growing (n p : ℕ) (tf : Trapframe) (k : KernSt) (role : ℕ → Role) (l : List ℕ) : Prop extends Crowd n p tf k role l where
  room : 690 ≤ l.length + (n + 1023) / 1024
  npage : k.npage = 1024
  slots : k.envFree.Holds (List.range' 3 1021)

section
variable {k k' k1 : KernSt} {role role' : ℕ → Role} {l l' : List ℕ} {n p e v va perm : ℕ} {tf : Trapframe} {st : Status} {rcv : Bool}

theorem setEax_same (h : tf.regs.eax = v) : { tf with regs := { tf.regs with eax := v } } = tf := by
  subst h
  rfl

theorem Family.of_slots (h : Family k st rcv) (hs : k'.slots = k.slots) : Family k' st rcv := by
  have he : k'.envs = k.envs := congrArg Slots.envs hs
  exact h.congr ⟨(k.envs 0).tf, by rw [he]⟩ ⟨(k.envs 2).tf, by rw [he]⟩

/-- The env in slot 0 gets 0 for an answer, as it did before. -/
theorem finish_frame (hf : (k.envs 0).tf = tf) (hs : k1.slots = k.slots) (heax : tf.regs.eax = 0) :
    ((k1.finish 0 (some 0)).envs 0).tf = tf := by
  have he : k1.envs = k.envs := congrArg Slots.envs hs
  rw [show (k1.finish 0 (some 0)).envs 0 = _ from setEnv_self, he, hf]
  exact setEax_same heax

/-- A mapping at a place where there was none. -/
theorem KernSt.mapCount_mapped (h : ∀ e', ∀ v < NUPAGES, k'.pteAt e' v =
      if e' = e ∧ v = va / PGSIZE then some ⟨p, perm ||| PTE_P⟩ else k.pteAt e' v) (he : e < NENV) (hva : va < UTOP)
    (hn : k.pteAt e (va / PGSIZE) = none) : k'.mapCount p = k.mapCount p + 1 := by
  have hc := @KernSt.mapCount_of_agree k k' e _ he (vpn_lt hva)
    (fun e' v' hv' hne => by rw [h e' v' hv', if_neg hne]) p
  have h1 : k.target e (va / PGSIZE) = none := by rw [KernSt.target, hn]; rfl
  have h2 : k'.target e (va / PGSIZE) = some p := by
    rw [KernSt.target, h e _ (vpn_lt hva), if_pos ⟨rfl, rfl⟩]
    rfl
  rw [h1, h2] at hc
  simpa using hc

theorem Shape.table_of_pteAt {pte : Pte} (h : Shape k role) (hv : v < NUPAGES) (hp : k.pteAt e v = some pte) :
    ∃ t, role t = .table (some e) (v / NPTENTRIES) := by
  obtain ⟨d, hd⟩ := KernSt.pteAt_dir hp
  cases hpde : (k.word d (v / NPTENTRIES)).present with
  | false =>
    rw [Shape.pteAt_eq_none_of_entry hd hpde] at hp
    cases hp
  | true => exact ⟨_, h.table_of hd (entry_of_lt hv) hpde⟩

theorem Growing.share (h : Growing n p tf k role l) (heax : tf.regs.eax = 0) (h0 : 0 < n) (hn : n ≤ 70000) :
    ∃ k' role' l', kstep (Kern.share tf n) k = .ok () k' ∧ Growing (n + 1) p tf k' role' l' := by
  have hN : NUPAGES = 977920 := by decide
  have hP : PGSIZE = 4096 := by decide
  have hU : UTOP = 4005560320 := by decide
  have hva : n * PGSIZE < UTOP := by
    rw [hP, hU]
    omega
  have hdiv : n * PGSIZE / PGSIZE = n := Nat.mul_div_cancel n (by decide)
  have hok : vaOk (n * PGSIZE) = true := by
    unfold vaOk
    rw [Nat.mul_mod_left]
    simpa using hva
  have hlook := h.family.lookup (by simp) true
  have hnone : k.pteAt 2 (n * PGSIZE / PGSIZE) = none := by
    rw [hdiv, h.maps n (by omega), if_neg (lt_irrefl n)]
  have h0p : k.pteAt 2 (0 / PGSIZE) = some ⟨p, 7 ||| PTE_P⟩ := by
    rw [Nat.zero_div, h.maps 0 (by omega), if_pos h0]
  have hdir : (k.envs 2).pgdir ≠ none := (h.typed.live 2).mpr ⟨by decide, by rw [h.family.status]; simp⟩
  have hl : l ≠ [] := fun hc => by
    have := h.room
    rw [hc, List.length_nil] at this
    omega
  obtain ⟨k1, role', l', hcall, hm⟩ := pageMap_ok 0 (n * PGSIZE) 7 h.typed hl hlook hlook hdir (by decide) hok (by decide) h0p
    (fun _ => writable_or p 7) fun q hq => by
      rw [KernSt.target, hnone] at hq
      cases hq
  have hstep : kstep (Kern.share tf n) k = .ok () (k1.finish 0 (some 0)) := by
    have := kstep_call (by decide) h.family.runs hcall
    rw [callOf, h.frame] at this
    exact this
  obtain ⟨ht', hpte'⟩ := hm.typed.finish 0 (some 0)
  refine ⟨_, role', l', hstep, ⟨(h.family.of_slots hm.same.slots).finish 0 _, ht', finish_frame h.frame hm.same.slots heax,
    fun v hv => ?_, ?_⟩, ?_, hm.same.npage.trans h.npage, hm.same.envFree ▸ h.slots⟩
  · rw [hpte' 2 v hv, hm.pteAt 2 v hv, hdiv, h.maps v hv]
    by_cases hvn : v = n
    · rw [if_pos ⟨rfl, hvn⟩, if_pos (by omega)]
    · rw [if_neg fun hc => hvn hc.2]
      by_cases hlt : v < n
      · rw [if_pos hlt, if_pos (by omega)]
      · rw [if_neg hlt, if_neg (by omega)]
  · rw [KernSt.mapCount_congr hpte', KernSt.mapCount_mapped hm.pteAt (by decide) hva hnone, h.count]
  · have hroom := h.room
    by_cases hmod : n % 1024 = 0
    · have := hm.room
      omega
    · -- the table of the page before is there
      have htab : ∃ t, role t = .table (some 2) (pdx (n * PGSIZE)) := by
        obtain ⟨t, ht⟩ := h.typed.table_of_pteAt (e := 2) (v := n - 1) (by omega) ((h.maps (n - 1) (by omega)).trans (if_pos (by omega)))
        refine ⟨t, ht.trans ?_⟩
        rw [pdx_eq hva, hdiv, show (n - 1) / NPTENTRIES = n / NPTENTRIES by simp only [NPTENTRIES]; omega]
      have := hm.spares htab
      omega

theorem Growing.grow (h : Growing 1 p tf k role l) (heax : tf.regs.eax = 0) :
    ∀ j ≤ 69999, ∃ k' role' l', krun ((List.range' 1 j).map (Kern.share tf)) k = .ok () k' ∧ Growing (1 + j) p tf k' role' l'
  | 0, _ => ⟨k, role, l, krun_nil k, h⟩
  | j + 1, hj => by
    obtain ⟨k1, role1, l1, hr1, h1⟩ := h.grow heax j (by omega)
    obtain ⟨k2, role2, l2, hs, h2⟩ := h1.share heax (by omega) (by omega)
    refine ⟨k2, role2, l2, ?_, h2⟩
    rw [List.range'_1_concat, List.map_append]
    exact krun_append hr1 (krun_cons.mpr ⟨k2, hs, krun_nil k2⟩)

/-- `sys_page_unmap` of a page whose count is 1 frees it, whatever maps it. -/
theorem pageUnmap_one {c envid : ℕ} {pte : Pte} (h : Typed k role l) (he : envid2env k c envid true = some e)
    (hva : vaOk va = true) (hp : k.pteAt e (va / PGSIZE) = some pte) (href : k.ref pte.ppn = 1) :
    ∃ t, role t = .table (some e) (pdx va) ∧ syscall c (.pageUnmap envid va) k = .ok (some 0)
      (({ k.setRef pte.ppn 0 with freeList := k.freeList.insertHead pte.ppn } : KernSt).setWord t (ptx va) .zero) := by
  obtain ⟨d, hd⟩ := KernSt.pteAt_dir hp
  refine Run.use (x := sysPageUnmap c envid va) (s := k) fun R hR => ?_
  unfold sysPageUnmap
  rw [hva, if_neg (by simp)]
  refine run_lookup he (run_pgdirOf (KernSt.dirOf_some.mp hd).2.2 ?_)
  unfold pageRemove
  simp only [bind_assoc]
  refine .bind (pageLookup_typed h hd (vaOk_lt hva)) ?_
  rintro _ k1 ⟨rfl, ⟨-, hnone⟩ | ⟨t, rfl, hpte, ht⟩⟩
  · rw [hp] at hnone
    cases hnone
  · rw [hp] at hpte
    obtain rfl := Option.some.inj hpte
    dsimp only
    simp only [bind_assoc]
    refine .getBind ?_
    rw [href, if_neg (by decide)]
    unfold pageDecref pageFree
    simp only [bind_assoc]
    refine .modifyBind (.getBind ?_)
    rw [href]
    rw [show (k1.setRef (k1.word t (ptx va)).ppn ((1 + (2 ^ 16 - 1)) % 2 ^ 16)).ref (k1.word t (ptx va)).ppn = 0 from
      update_self .., if_pos rfl]
    exact .modifyBind (.modifyBind (.pure fun hx => ⟨t, ht, hR hx⟩))

/-- The page `p` has `n` mappings and the count `r`, which need not agree. -/
structure Torn (n r p : ℕ) (tf : Trapframe) (k : KernSt) (role : ℕ → Role) : Prop where
  family : Family k .notRunnable false
  shape : Shape k role
  user : role p = .user
  sized : ∀ q, role q ≠ .reserved → role q ≠ .dir none → q < k.npage
  managed : k.managed p = true
  frame : (k.envs 0).tf = tf
  count : k.mapCount p = n
  ref : k.ref p = r

theorem Crowd.torn (h : Crowd n p tf k role l) (h0 : 0 < n) : Torn n (n % 2 ^ 16) p tf k role := by
  have hu : role p = .user := h.typed.user 2 0 (by decide) _ ((h.maps 0 (by decide)).trans (if_pos h0))
  refine ⟨h.family, h.typed.toShape, hu, fun q h1 h2 => h.typed.lt_npage h1 h2, ?_, h.frame, h.count, ?_⟩
  · rw [← Bool.not_eq_false, h.typed.managed p, hu]
    simp
  · rw [h.typed.refs p, hu, refsOf, h.count]

/-- An entry is written, and the count and the free list become others. -/
theorem Torn.write {m r r' t i j : ℕ} {pte : Pte} (h : Torn n r p tf k role) (ht : role t = .table (some e) i) (hj : j < NPTENTRIES)
    (hp : pte.present = true → pte.ppn = p) (hm : m + (if k.target e (i * NPTENTRIES + j) = some p then 1 else 0) =
      n + if pte.present = true then 1 else 0) (q : Queue) (f : ℕ → ℕ) (hf : f p = r') :
    Torn m r' p tf { k.setWord t j pte with freeList := q, ref := f } role := by
  have hs : Shape (k.setWord t j pte) role := h.shape.setPte ht hj fun _ hpr => hp hpr ▸ h.user
  refine ⟨h.family.of_slots rfl, hs.congr rfl rfl rfl (fun _ _ _ => rfl) fun _ _ _ _ => rfl, h.user, h.sized, h.managed,
    h.frame, ?_, hf⟩
  have hc := h.shape.refsOf_setPte pte ht hj (fun hpr => hp hpr ▸ h.user) p
  rw [h.user] at hc
  have h1 : (k.setWord t j pte).mapCount p + _ = k.mapCount p + _ := hc
  rw [h.count] at h1
  simp only [and_iff_left_of_imp hp] at h1
  show (k.setWord t j pte).mapCount p = m
  omega

theorem Torn.finish {r : ℕ} (h : Torn n r p tf k role) (heax : tf.regs.eax = 0) : Torn n r p tf (k.finish 0 (some 0)) role ∧
    k.SameMaps (k.finish 0 (some 0)) := by
  obtain ⟨hs, hp⟩ := h.shape.setEnv (e := 0) (w := { k.envs 0 with
    tf := { (k.envs 0).tf with regs := { (k.envs 0).tf.regs with eax := 0 } } }) rfl .rfl
  exact ⟨⟨h.family.finish 0 _, hs, h.user, h.sized, h.managed, finish_frame h.frame rfl heax,
    (KernSt.mapCount_congr hp).trans h.count, h.ref⟩, hp⟩

/-- A call of the parent that returns 0. -/
theorem Torn.call {m r r' : ℕ} {s : Call} (h : Torn n r p tf k role) (hcall : syscall 0 s k = .ok (some 0) k1)
    (h1 : Torn m r' p tf k1 role) (heax : tf.regs.eax = 0) :
    ∃ k', kstep (.trap 0 tf (.syscall s)) k = .ok () k' ∧ Torn m r' p tf k' role ∧ k'.freeList = k1.freeList ∧
      k1.SameMaps k' := by
  obtain ⟨hfin, hp⟩ := h1.finish heax
  refine ⟨_, ?_, hfin, rfl, hp⟩
  have := kstep_call (by decide) h.family.runs hcall
  rw [callOf, h.frame] at this
  exact this

/-- A page with 2 ^ 16 + 1 mappings is freed when one is removed. -/
theorem Crowd.unmap (h : Crowd 65537 p tf k role l) (heax : tf.regs.eax = 0) :
    ∃ k', kstep (.trap 0 tf (.syscall (.pageUnmap 4098 0))) k = .ok () k' ∧ Torn 65536 0 p tf k' role ∧
      k'.freeList.Holds (p :: l) ∧
      ∀ v < NUPAGES, k'.pteAt 2 v = if 0 < v ∧ v < 65537 then some ⟨p, 7 ||| PTE_P⟩ else none := by
  have h0p : k.pteAt 2 (0 / PGSIZE) = some ⟨p, 7 ||| PTE_P⟩ := by
    rw [Nat.zero_div, h.maps 0 (by decide), if_pos (by decide)]
  have htorn := h.torn (by decide)
  obtain ⟨t, ht, hcall⟩ := pageUnmap_one h.typed (h.family.lookup (by simp) true) (by decide) h0p htorn.ref
  have htar : k.target 2 (pdx 0 * NPTENTRIES + ptx 0) = some p := KernSt.target_eq_some.mpr ⟨_, h0p, rfl⟩
  have hpl : p ∉ l := fun hc => by
    have := (h.typed.free p).mp hc
    rw [htorn.user] at this
    cases this
  have hw : Torn 65536 0 p tf { k.setWord t (ptx 0) .zero with
      freeList := k.freeList.insertHead p, ref := update k.ref p 0 } role :=
    htorn.write ht (by decide) (by simp) (by rw [htar]; simp) _ _ (update_self ..)
  obtain ⟨k', hk', htorn', hfl, hpte⟩ := htorn.call hcall hw heax
  refine ⟨k', hk', htorn', ?_, fun v hv => ?_⟩
  · rw [hfl]
    exact h.typed.queue.insertHead hpl
  · have hset : (k.setWord t (ptx 0) .zero).pteAt 2 v = _ := h.typed.pteAt_setWord ht (by decide) hv
    refine ((hpte 2 v hv).trans hset).trans ?_
    rw [show pdx 0 * NPTENTRIES + ptx 0 = 0 by decide, h.maps v hv]
    by_cases h0 : v = 0
    · simp [h0]
    · simp [h0, Nat.pos_of_ne_zero h0]

/-- The entry at an address of the child whose table is there. -/
theorem Torn.place {r t : ℕ} (h : Torn n r p tf k role) (hva : va < UTOP) (ht : role t = .table (some 2) (pdx va)) :
    ∃ d, (k.envs 2).pgdir = some d ∧ (k.word d (pdx va)).present = true ∧ (k.word d (pdx va)).ppn = t ∧ t < k.npage ∧
      k.pteAt 2 (va / PGSIZE) = if (k.word t (ptx va)).present then some (k.word t (ptx va)) else none := by
  obtain ⟨-, d, hd, hp, rfl⟩ := (h.shape.table _ _ _).mp ht
  exact ⟨d, (KernSt.dirOf_some.mp hd).2.2, hp, rfl, h.sized _ (by rw [ht]; simp) (by rw [ht]; simp), pteAt_va hd hva hp⟩

/-- `page_insert` of the page at an address of the child that has a table and no mapping. -/
theorem Torn.insert {r t : ℕ} (h : Torn n r p tf k role) (hva : va < UTOP) (ht : role t = .table (some 2) (pdx va))
    (hn : k.pteAt 2 (va / PGSIZE) = none) (hperm : perm < PGSIZE) :
    ∃ d, (k.envs 2).pgdir = some d ∧ Run (pageInsert d p va perm) k
      (fun b k' => b = true ∧ Torn (n + 1) ((r + 1) % 2 ^ 16) p tf k' role ∧ k'.freeList = k.freeList ∧
        ∀ v < NUPAGES, k'.pteAt 2 v = if v = va / PGSIZE then some ⟨p, perm ||| PTE_P⟩ else k.pteAt 2 v) fun _ _ => False := by
  obtain ⟨d, hd, hpd, rfl, hlt, hpte⟩ := h.place hva ht
  have hnp : (k.word (k.word d (pdx va)).ppn (ptx va)).present = false := by
    rw [hn] at hpte
    split at hpte
    · cases hpte
    next hc => simpa using hc
  have htar : k.target 2 (pdx va * NPTENTRIES + ptx va) = none := by
    rw [vpn_eq hva, KernSt.target, hn]
    rfl
  refine ⟨d, hd, ?_⟩
  unfold pageInsert
  refine .step (pgdirWalk_present hpd true) (fun _ _ h => absurd h.2 (by omega)) ?_
  rintro _ k1 ⟨⟨rfl, rfl⟩, -⟩
  dsimp only
  refine .getBind ?_
  rw [hnp, if_neg (by simp)]
  unfold linkPage
  rw [Pte.of_eq hperm]
  refine .modifyBind (.modifyBind (.pure ⟨rfl, ?_, rfl, fun v hv => ?_⟩))
  · exact h.write ht (ptx_lt va) (fun _ => rfl) (by rw [htar, Pte.or_present]; simp) _ _
      ((update_self ..).trans (by rw [← h.ref]; rfl))
  · have hset : (k1.setWord (k1.word d (pdx va)).ppn (ptx va) ⟨p, perm ||| PTE_P⟩).pteAt 2 v = _ :=
      h.shape.pteAt_setWord ht (ptx_lt va) hv
    rw [vpn_eq hva, Pte.or_present] at hset
    simp only [true_and, if_true] at hset
    exact hset

/-- `page_lookup` finds the page where it is mapped. -/
theorem Torn.lookup {r d : ℕ} {pte : Pte} (h : Torn n r p tf k role) (hva : va < UTOP) (hd : k.dirOf (some e) = some d)
    (hp : k.pteAt e (va / PGSIZE) = some pte) :
    Run (pageLookup d va) k (fun r k' => k' = k ∧ ∃ t, r = some (pte.ppn, t, ptx va) ∧ k.word t (ptx va) = pte)
      fun _ _ => False := by
  obtain ⟨hpd, hword, hpres⟩ := pteAt_words hd hva hp
  have ht := h.shape.table_of hd (entry_va hva) hpd
  have hu := h.shape.user e _ (vpn_lt hva) _ hp
  have htlt := h.sized _ (by rw [ht]; simp) (by rw [ht]; simp)
  have hplt := h.sized _ (by rw [hu]; simp) (by rw [hu]; simp)
  have hentry : k.entry d va = pte := hword
  refine (pageLookup_spec hpd).mono ?_ ?_
  · rintro x k' ⟨rfl, -, hx⟩
    rw [hentry, if_pos hpres] at hx
    exact ⟨rfl, _, hx.1, hword⟩
  · rintro f _ ⟨-, hc | hc⟩
    · omega
    · rw [hentry] at hc
      omega

/-- The parent maps the page of the child at `srcva` at `va` too. -/
theorem Torn.pageMap {r t srcva : ℕ} (h : Torn n r p tf k role) (heax : tf.regs.eax = 0) (hva : vaOk va = true)
    (hsva : vaOk srcva = true) (ht : role t = .table (some 2) (pdx va)) (hn : k.pteAt 2 (va / PGSIZE) = none)
    (hp : k.pteAt 2 (srcva / PGSIZE) = some ⟨p, 7 ||| PTE_P⟩) :
    ∃ k', kstep (.trap 0 tf (.syscall (.pageMap 4098 srcva 4098 va 7))) k = .ok () k' ∧
      Torn (n + 1) ((r + 1) % 2 ^ 16) p tf k' role ∧ k'.freeList = k.freeList ∧
      ∀ v < NUPAGES, k'.pteAt 2 v = if v = va / PGSIZE then some ⟨p, 7 ||| PTE_P⟩ else k.pteAt 2 v := by
  obtain ⟨ds, hds⟩ := KernSt.pteAt_dir hp
  obtain ⟨d, hd, hins⟩ := h.insert (vaOk_lt hva) ht hn (show 7 < PGSIZE by decide)
  have hlook := h.family.lookup (by simp) true
  refine Run.use (x := sysPageMap 0 4098 srcva 4098 va 7) (s := k) fun R hR => ?_
  unfold sysPageMap
  rw [hsva, hva, if_neg (by simp), if_neg (by decide)]
  refine run_lookup hlook (run_lookup hlook ?_)
  unfold sharePage
  simp only [bind_assoc]
  refine run_pgdirOf (KernSt.dirOf_some.mp hds).2.2 (.bind (h.lookup (vaOk_lt hsva) hds hp) ?_)
  rintro _ k1 ⟨rfl, u, rfl, hu⟩
  dsimp only
  simp only [bind_assoc]
  refine .getBind ?_
  rw [hu, writable_or p 7, if_neg (by decide)]
  simp only [bind_assoc]
  refine run_pgdirOf hd (.bind hins ?_)
  rintro _ k2 ⟨rfl, htorn, hfl, hpte⟩
  refine .pure fun hx => ?_
  obtain ⟨k', hk', htorn', hfl', hpte'⟩ := h.call (s := .pageMap 4098 srcva 4098 va 7) (hR hx) htorn heax
  exact ⟨k', hk', htorn', hfl'.trans hfl, fun v hv => (hpte' 2 v hv).trans (hpte v hv)⟩

theorem Torn.zeroPage {r : ℕ} (h : Torn n r p tf k role) : Torn n r p tf (k.zeroPage p) role := by
  have hw : ∀ {q}, role q ≠ .user → (k.zeroPage p).word q = k.word q := fun hq =>
    update_of_ne (fun hc => hq (by rw [hc]; exact h.user)) ..
  have hdir : ∀ q o, role q = .dir o → (k.zeroPage p).word q = k.word q := fun q o hq => hw (by rw [hq]; simp)
  have htab : ∀ q o i, role q = .table o i → (k.zeroPage p).word q = k.word q := fun q o i hq => hw (by rw [hq]; simp)
  have hpte : k.SameMaps (k.zeroPage p) := fun _ _ hv =>
    h.shape.pteAt_congr rfl hdir htab hv
  exact ⟨h.family.of_slots rfl, h.shape.congr rfl rfl rfl hdir htab, h.user, h.sized, h.managed, h.frame,
    (KernSt.mapCount_congr hpte).trans h.count, h.ref⟩

/-- The parent gives the child a new page, and gets the one that is mapped. -/
theorem Torn.pageAlloc {r t : ℕ} (h : Torn n r p tf k role) (heax : tf.regs.eax = 0) (hl : k.freeList.Holds (p :: l))
    (hva : vaOk va = true) (ht : role t = .table (some 2) (pdx va)) (hn : k.pteAt 2 (va / PGSIZE) = none) :
    ∃ k', kstep (.trap 0 tf (.syscall (.pageAlloc 4098 va 7))) k = .ok () k' ∧ Torn (n + 1) 1 p tf k' role := by
  have hrun : Run (sysPageAlloc 0 4098 va 7) k (fun b k' => b = some 0 ∧ Torn (n + 1) 1 p tf k' role) fun _ _ => False := by
    unfold sysPageAlloc
    rw [hva, if_neg (by simp), if_neg (by decide)]
    refine run_lookup (h.family.lookup (by simp) true) (.bind (pageAlloc_run hl) ?_)
    rintro _ _ (⟨-, -, hc⟩ | ⟨_, _, q, rfl, hp, -, rfl⟩)
    · cases hc
    cases hp
    have h0 : Torn n 0 p tf { k with freeList := q, ref := update k.ref p 0 } role :=
      ⟨h.family.of_slots rfl, h.shape.congr rfl rfl rfl (fun _ _ _ => rfl) fun _ _ _ _ => rfl, h.user, h.sized, h.managed,
        h.frame, h.count, update_self ..⟩
    obtain ⟨d, hd, hins⟩ := h0.insert (vaOk_lt hva) ht hn (show 7 < PGSIZE by decide)
    refine run_pgdirOf hd (.bind hins ?_)
    rintro _ k2 ⟨rfl, hk2, -, -⟩
    rw [if_pos rfl, if_neg (by decide)]
    exact .modifyBind (.pure ⟨rfl, hk2.zeroPage⟩)
  obtain ⟨x, k1, hx, rfl, htorn⟩ := hrun.exists_ok
  obtain ⟨k', hk', htorn', -⟩ := h.call (s := .pageAlloc 4098 va 7) hx htorn heax
  exact ⟨k', hk', htorn'⟩

/-- The child has one page. -/
theorem exists_crowd : ∃ k₀ k₁ k p tf role l, smallMemory.Boots [onePage, onePage] k₀ ∧
    kstep (callOf k₀ 0 .exofork) k₀ = .ok () k₁ ∧ kstep (callOf k₁ 0 (.pageAlloc 4098 0 7)) k₁ = .ok () k ∧
    tf.regs.eax = 0 ∧ Growing 1 p tf k role l := by
  obtain ⟨k₀, k₁, role, l, hb, -, h1, hf, ht, hlen, hpte, hn, hq⟩ := exists_family
  have hdir : (k₁.envs 2).pgdir ≠ none := (ht.live 2).mpr ⟨by decide, by rw [hf.status]; simp⟩
  have hnone : k₁.pteAt 2 (0 / PGSIZE) = none := hpte _ (by decide)
  obtain ⟨k, p, role', l', hcall, hm⟩ := pageAlloc_ok 0 7 ht (by omega) (hf.lookup (by simp) true) hdir (by decide)
    (by decide) (by decide) fun q hq => by
      rw [KernSt.target, hnone] at hq
      cases hq
  have hfree : role p ≠ .user := by
    rw [hm.free]
    simp
  obtain ⟨ht', hpte'⟩ := hm.typed.finish 0 (some 0)
  refine ⟨k₀, k₁, _, p, ((k.finish 0 (some 0)).envs 0).tf, role', l', hb, h1, kstep_call (by decide) hf.runs hcall, ?_,
    ⟨(hf.of_slots hm.same.slots).finish 0 _, ht', rfl, fun v hv => ?_, ?_⟩, ?_, hm.same.npage.trans hn, hm.same.envFree ▸ hq⟩
  · rw [show (k.finish 0 (some 0)).envs 0 = _ from setEnv_self]
  · rw [hpte' 2 v hv, hm.pteAt 2 v hv, Nat.zero_div, hpte v hv]
    by_cases h0 : v = 0
    · rw [if_pos ⟨rfl, h0⟩, if_pos (by omega)]
    · rw [if_neg fun hc => h0 hc.2, if_neg (by omega)]
  · rw [KernSt.mapCount_congr hpte', KernSt.mapCount_mapped hm.pteAt (by decide) (by decide) hnone, ht.mapCount_eq_zero hfree]
  · have := hm.room
    omega

end

/-! ### Isolation -/

section
variable {k k' : KernSt} {role role' : ℕ → Role} {l l' : List ℕ} {e p v : ℕ}

theorem Shape.isTable_false (h : Shape k role) (hp : role p = .user ∨ role p = .free) : k.isTable p = false := by
  rw [← Bool.not_eq_true, h.isTable_iff]
  rintro (⟨o, ho⟩ | ⟨o, i, ho⟩) <;> rcases hp with hp | hp <;> rw [hp] at ho <;> cases ho

theorem Typed.not_mapped (h : Typed k role l) (hp : role p ≠ .user) : ∀ e, ∀ v < NUPAGES, k.target e v ≠ some p :=
  fun _ _ hv ht => hp (h.user_of_target hv ht)

theorem Typed.isolated (h : Typed k role l) :
    (∃ l, k.freeList.Holds l ∧ l.Nodup ∧ ∀ p ∈ l, (∀ e, ∀ v < NUPAGES, k.target e v ≠ some p) ∧ k.isTable p = false) ∧
    ∀ p, k.isTable p = true ∨ k.managed p = false → ∀ e, ∀ v < NUPAGES, k.target e v ≠ some p := by
  refine ⟨⟨l, h.queue, h.queue.2, fun p hp => ?_⟩, fun p hp => h.not_mapped fun hu => ?_⟩
  · have hf := (h.free p).mp hp
    exact ⟨h.not_mapped (by rw [hf]; simp), h.isTable_false (.inr hf)⟩
  · rcases hp with hp | hp
    · rw [h.isTable_false (Or.inl hu)] at hp
      cases hp
    · rcases (h.managed p).mp hp with hr | hr <;> rw [hu] at hr <;> cases hr

end

/-- After any run of calls and other traps from the end of the boot in which no page has
2 ^ 16 mappings when a trap happens: the free list has every page once, and no page of
it is mapped or is a page table or directory; and envs map no page table or directory and
no page that the boot has taken. -/
theorem isolated_of_run {m : Machine} {progs : List Program} {k₀ k : KernSt} {as : List KAct} (h₀ : m.Boots progs k₀)
    (ha : Along (fun k a => Bounded k ∧ ∃ c tf t, a = .trap c tf t) as k₀) (hr : krun as k₀ = .ok () k) :
    (∃ l, k.freeList.Holds l ∧ l.Nodup ∧ ∀ p ∈ l, (∀ e, ∀ v < NUPAGES, k.target e v ≠ some p) ∧ k.isTable p = false) ∧
    ∀ p, k.isTable p = true ∨ k.managed p = false → ∀ e, ∀ v < NUPAGES, k.target e v ≠ some p := by
  obtain ⟨⟨role, l, ht⟩, -⟩ := h₀.ok_of_traps ha hr
  exact ht.isolated

/-- The child of an env, which has no memory. -/
theorem isolated_fork : ∃ k₀ k tf, smallMemory.Boots [onePage, onePage] k₀ ∧
    krun [.trap 0 tf (.syscall .exofork)] k₀ = .ok () k ∧
    ∀ p, k.isTable p = true ∨ k.managed p = false → ∀ e, ∀ v < NUPAGES, k.target e v ≠ some p := by
  obtain ⟨k₀, k1, -, -, hb, -, h1, -⟩ := exists_family
  have hrun : krun [callOf k₀ 0 .exofork] k₀ = .ok () k1 := krun_cons.mpr ⟨k1, h1, krun_nil k1⟩
  obtain ⟨-, -, -, hbd, -⟩ := boot_typed hb
  have ha : Along (fun k a => Bounded k ∧ ∃ c tf t, a = .trap c tf t) [callOf k₀ 0 .exofork] k₀ :=
    Along.cons ⟨hbd, _, _, _, rfl⟩ h1 trivial
  exact ⟨k₀, k1, _, hb, hrun, (isolated_of_run hb ha hrun).2⟩

/-- A parent maps a page at 2 ^ 16 + 1 addresses of its child and removes one of the
mappings: the page is on the free list, and mapped. -/
theorem free_while_mapped : ∃ k₀ k p tf₁ tf₂ tf, smallMemory.Boots [onePage, onePage] k₀ ∧
    krun ([.trap 0 tf₁ (.syscall .exofork), .trap 0 tf₂ (.syscall (.pageAlloc 4098 0 7))] ++
      (List.range' 1 65536).map (share tf) ++ [.trap 0 tf (.syscall (.pageUnmap 4098 0))]) k₀ = .ok () k ∧
    (∃ l, k.freeList.Holds l ∧ p ∈ l) ∧ k.target 2 1 = some p := by
  obtain ⟨k₀, k1, k2, p, tf, role, l, hb, h1, h2, heax, hc⟩ := exists_crowd
  obtain ⟨k3, role3, l3, h3, hc3⟩ := hc.grow heax 65536 (by decide)
  obtain ⟨k4, h4, -, hl, hm⟩ := hc3.unmap heax
  refine ⟨k₀, k4, p, _, _, tf, hb, krun_append (krun_append (krun_cons.mpr ⟨k1, h1, krun_cons.mpr ⟨k2, h2, krun_nil k2⟩⟩) h3)
    (krun_cons.mpr ⟨k4, h4, krun_nil k4⟩), ⟨_, hl, .head _⟩, ?_⟩
  rw [KernSt.target, hm 1 (by decide)]
  rfl

/-! ### Counts -/

section
variable {k k' : KernSt} {role role' : ℕ → Role} {l l' : List ℕ} {e p va perm : ℕ}

theorem Typed.counted (h : Typed k role l) (hm : k.managed p = true) :
    k.ref p % 2 ^ 16 = (k.mapCount p + if k.isTable p then 1 else 0) % 2 ^ 16 := by
  have hres : ¬ (role p = .reserved ∨ role p = .dir none) := fun hc => by
    rw [(h.managed p).mpr hc] at hm
    cases hm
  have htab : role p ≠ .user → ((∃ o, role p = .dir o) ∨ ∃ o i, role p = .table o i) →
      (k.mapCount p + if k.isTable p then 1 else 0) = 1 := fun hu ht => by
    rw [h.isTable_iff.mpr ht, h.mapCount_eq_zero hu]
    rfl
  rw [h.refs p, Nat.mod_mod]
  cases hr : role p with
  | reserved => exact absurd (.inl hr) hres
  | free =>
    rw [h.isTable_false (Or.inr hr), h.mapCount_eq_zero (by rw [hr]; simp)]
    rfl
  | user => rw [h.isTable_false (Or.inl hr), refsOf, if_neg (by simp), Nat.add_zero]
  | dir o =>
    cases o with
    | none => exact absurd (.inr hr) hres
    | some e => rw [htab (by rw [hr]; simp) (.inl ⟨_, hr⟩), refsOf]
  | table o i => rw [htab (by rw [hr]; simp) (.inr ⟨_, _, hr⟩), refsOf]

/-- `page_insert` of the page that is at the address. -/
theorem pageInsert_again {d : ℕ} (hd : k.dirOf (some e) = some d) (hva : va < UTOP) (hp : k.target e (va / PGSIZE) = some p) :
    Run (pageInsert d p va perm) k (fun _ k' => k'.ref = k.ref) fun f _ => f.IsPanic := by
  obtain ⟨pte, hpte, rfl⟩ := KernSt.target_eq_some.mp hp
  obtain ⟨hpd, hword, hpres⟩ := pteAt_words hd hva hpte
  unfold pageInsert
  refine .step (pgdirWalk_present hpd true) (fun _ _ h => h.1) ?_
  rintro _ k1 ⟨⟨rfl, rfl⟩, -⟩
  dsimp only
  refine .getBind ?_
  rw [hword, hpres, if_pos rfl]
  refine .step (pa2page_spec _ _) (fun _ _ h => h.1) ?_
  rintro _ k2 ⟨⟨rfl, rfl⟩, -⟩
  rw [if_pos rfl]
  exact .modifyBind (.pure rfl)

/-- The mappings of an env that is freed are those that are gone. -/
theorem Freed.mapCount (h : Freed e k role k' role') (he : e < NENV) : k.mapCount p = k'.mapCount p + k.envMaps e p := by
  have he' := Finset.mem_range.mpr he
  have hnone : k'.envMaps e p = 0 := Finset.card_eq_zero.mpr (Finset.filter_eq_empty_iff.mpr fun v hv hc => by
    rw [KernSt.target, h.pteAt e v (Finset.mem_range.mp hv), if_pos rfl] at hc
    cases hc)
  have hrest : ∑ x ∈ (Finset.range NENV).erase e, k'.envMaps x p = ∑ x ∈ (Finset.range NENV).erase e, k.envMaps x p :=
    Finset.sum_congr rfl fun x hx => KernSt.envMaps_congr fun v hv => by
      rw [h.pteAt x v hv, if_neg (Finset.ne_of_mem_erase hx)]
  unfold KernSt.mapCount
  rw [← Finset.add_sum_erase _ _ he', ← Finset.add_sum_erase _ _ he', hnone, hrest]
  omega

/-- No page becomes a page table when an env is freed. -/
theorem Freed.isTable (h : Freed e k role k' role') (hs : Shape k role) (hp : k'.isTable p = true) : k.isTable p = true := by
  obtain ⟨o, d, hd, hdp⟩ := KernSt.isTable_iff.mp hp
  have ho : o ≠ some e := fun hc => by
    rw [hc] at hd
    exact (KernSt.dirOf_some.mp hd).2.1 h.free
  have hd' : k.dirOf o = some d := by
    cases o with
    | none => exact (congrArg some h.boot).symm.trans hd
    | some e' =>
      obtain ⟨h1, h2, h3⟩ := KernSt.dirOf_some.mp hd
      rw [h.others e' fun hc => ho (congrArg some hc)] at h2 h3
      exact KernSt.dirOf_some.mpr ⟨h1, h2, h3⟩
  refine KernSt.isTable_iff.mpr ⟨o, d, hd', ?_⟩
  rw [h.frame d o ho (Or.inl (hs.dir_of hd'))] at hdp
  exact hdp

end

/-- After any run of calls and of `page_insert`, `page_remove`, `pgdir_walk`, `env_alloc`, `env_free` and
`env_create` in which no page has 2 ^ 16 mappings when one of them starts: `pp_ref` is the number of mappings
and one for a page table or directory, modulo 2 ^ 16; to insert a page where it is leaves `pp_ref`; and `env_free` lowers it
by the number of the mappings, and by one for the page tables and the directory of the env. -/
theorem counted_of_run {m : Machine} {progs : List Program} {k₀ k : KernSt} {as : List KAct} (h₀ : m.Boots progs k₀)
    (ha : Along (fun k a => Bounded k ∧ Fair k a) as k₀) (hr : krun as k₀ = .ok () k) :
    (∀ p, k.managed p = true → k.ref p % 2 ^ 16 = (k.mapCount p + if k.isTable p then 1 else 0) % 2 ^ 16) ∧
    (∀ e p va perm k', va < UTOP → k.target e (va / PGSIZE) = some p → kstep (.pageInsert e p va perm) k = .ok () k' →
      k'.ref = k.ref) ∧
    (Bounded k → ∀ e k', kstep (.envFree e) k = .ok () k' → ∀ p, k.managed p = true →
      (k'.ref p + k.envMaps e p + if k.isTable p && !k'.isTable p then 1 else 0) % 2 ^ 16 = k.ref p % 2 ^ 16) := by
  obtain ⟨⟨role, l, ht⟩, -⟩ := h₀.ok.run ha hr
  refine ⟨fun p hp => ht.counted hp, fun e p va perm k' hva hp hk => ?_, fun hb e k' hk p hp => ?_⟩
  · have hrun : Run (kstep (.pageInsert e p va perm)) k (fun _ k' => k'.ref = k.ref) fun f _ => f.IsPanic := by
      refine .bind (pgdirOf_typed ht e) fun d k1 ⟨hk1, hd⟩ => ?_
      subst hk1
      exact .bind (pageInsert_again hd hva hp) fun _ _ hk2 => .pure hk2
    exact hrun.of_ok hk
  · obtain ⟨d, hd⟩ : ∃ d, k.dirOf (some e) = some d := by
      have hrun : Run (envFree e) k (fun _ _ => ∃ d, k.dirOf (some e) = some d) fun _ _ => True := by
        unfold envFree
        refine .step (pgdirOf_typed ht e) (fun _ _ _ => trivial) fun d k1 ⟨_, hd⟩ => ?_
        exact (Run.any _ _).mono (fun _ _ _ => ⟨d, hd⟩) fun _ _ _ => trivial
      exact hrun.of_ok hk
    obtain ⟨role', l', ht', hf⟩ := (envFree_typed ht hb hd).of_ok hk
    have hm : k'.managed p = true := by
      unfold KernSt.managed
      rw [hf.npage, hf.freemem]
      exact hp
    have h1 := ht.counted hp
    have h2 := ht'.counted hm
    have h3 := hf.mapCount (p := p) (KernSt.dirOf_some.mp hd).1
    have h4 : (if k'.isTable p then 1 else 0) + (if k.isTable p && !k'.isTable p then 1 else 0) =
        if k.isTable p then 1 else 0 := by
      cases hp' : k'.isTable p with
      | true => rw [hf.isTable ht.toShape hp']; rfl
      | false => rw [Bool.not_false, Bool.and_true, if_neg (by simp), Nat.zero_add]
    omega

/-- The counts after a fork. -/
theorem counted_fork : ∃ k₀ k tf, smallMemory.Boots [onePage, onePage] k₀ ∧
    krun [.trap 0 tf (.syscall .exofork)] k₀ = .ok () k ∧
    ∀ p, k.managed p = true → k.ref p % 2 ^ 16 = (k.mapCount p + if k.isTable p then 1 else 0) % 2 ^ 16 := by
  obtain ⟨k₀, k1, -, -, hb, -, h1, -⟩ := exists_family
  have hrun : krun [callOf k₀ 0 .exofork] k₀ = .ok () k1 := krun_cons.mpr ⟨k1, h1, krun_nil k1⟩
  obtain ⟨-, -, -, hbd, -⟩ := boot_typed hb
  have ha : Along (fun k a => Bounded k ∧ Fair k a) [callOf k₀ 0 .exofork] k₀ := Along.cons ⟨hbd, trivial⟩ h1 trivial
  exact ⟨k₀, k1, _, hb, hrun, (counted_of_run hb ha hrun).1⟩

/-- The page is on the free list and mapped 2 ^ 16 times; it is mapped once more, and then
`page_alloc` hands it out and starts its count again. -/
theorem count_lost : ∃ k₀ k p tf₁ tf₂ tf, smallMemory.Boots [onePage, onePage] k₀ ∧
    krun ([.trap 0 tf₁ (.syscall .exofork), .trap 0 tf₂ (.syscall (.pageAlloc 4098 0 7))] ++
      (List.range' 1 65536).map (share tf) ++ [.trap 0 tf (.syscall (.pageUnmap 4098 0)),
        .trap 0 tf (.syscall (.pageMap 4098 PGSIZE 4098 0 7)), .trap 0 tf (.syscall (.pageAlloc 4098 (65537 * PGSIZE) 7))])
      k₀ = .ok () k ∧
    k.managed p = true ∧ k.ref p = 1 ∧ k.mapCount p = 65538 ∧ k.isTable p = false := by
  obtain ⟨k₀, k1, k2, p, tf, role, l, hb, h1, h2, heax, hc⟩ := exists_crowd
  obtain ⟨k3, role3, l3, h3, hc3⟩ := hc.grow heax 65536 (by decide)
  obtain ⟨k4, h4, ht4, hl, hm⟩ := hc3.unmap heax
  have hm1 : k4.pteAt 2 1 = some ⟨p, 7 ||| PTE_P⟩ := (hm 1 (by decide)).trans (if_pos (by decide))
  obtain ⟨t, ht⟩ := ht4.shape.table_of_pteAt (by decide) hm1
  obtain ⟨t', ht'⟩ := ht4.shape.table_of_pteAt (by decide) ((hm 65536 (by decide)).trans (if_pos (by decide)))
  obtain ⟨k5, h5, ht5, hl5, hm5⟩ := ht4.pageMap heax (show vaOk 0 = true by decide) (show vaOk PGSIZE = true by decide) ht
    ((hm 0 (by decide)).trans (if_neg (by decide))) hm1
  have hlast : k5.pteAt 2 (65537 * PGSIZE / PGSIZE) = none := by
    rw [show 65537 * PGSIZE / PGSIZE = 65537 by decide, hm5 65537 (by decide), if_neg (by decide), hm 65537 (by decide),
      if_neg (by decide)]
  obtain ⟨k6, h6, ht6⟩ := ht5.pageAlloc heax (by rw [hl5]; exact hl) (show vaOk (65537 * PGSIZE) = true by decide) ht'
    hlast
  refine ⟨k₀, k6, p, _, _, tf, hb, krun_append (krun_append (krun_cons.mpr ⟨k1, h1, krun_cons.mpr ⟨k2, h2, krun_nil k2⟩⟩) h3)
    (krun_cons.mpr ⟨k4, h4, krun_cons.mpr ⟨k5, h5, krun_cons.mpr ⟨k6, h6, krun_nil k6⟩⟩⟩), ht6.managed, ht6.ref, ht6.count,
    ht6.shape.isTable_false (.inl ht6.user)⟩

end Kern
end Jos
