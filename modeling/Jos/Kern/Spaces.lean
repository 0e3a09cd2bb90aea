/-
# Address spaces come and go

`env_alloc` makes a page directory for a new env, and `env_free` takes all
mappings, tables and the directory of an env back. On a state in which the
roles are right both leave one, and the mappings of the other envs stay.

Key theorems: `envAlloc_typed`, `envFree_typed`.
-/
import Jos.Kern.Pages

namespace Jos
namespace Kern

open Fs (NENV PGSIZE)
open Function

section
variable {k k' : KernSt} {role role' : ℕ → Role} {l l' : List ℕ} {o : Option ℕ} {e v p t d i j va perm : ℕ} {pte : Pte}

/-- No page has 2 ^ 16 mappings. -/
def Bounded (k : KernSt) : Prop := ∀ p, k.mapCount p < 2 ^ 16

theorem KernSt.mapCount_le (h : ∀ e, ∀ v < NUPAGES, k'.target e v = some p → k.target e v = some p) :
    k'.mapCount p ≤ k.mapCount p :=
  Finset.sum_le_sum fun e _ => Finset.card_le_card fun v hv => by
    obtain ⟨hv, ht⟩ := Finset.mem_filter.mp hv
    exact Finset.mem_filter.mpr ⟨hv, h e v (Finset.mem_range.mp hv) ht⟩

theorem Bounded.of_target (hb : Bounded k) (h : ∀ e p, ∀ v < NUPAGES, k'.target e v = some p → k.target e v = some p) :
    Bounded k' := fun p => (KernSt.mapCount_le fun e v hv => h e p v hv).trans_lt (hb p)

theorem setEnv_self {w : Env} : (k.setEnv e w).envs e = w := update_self ..

theorem setEnv_ne {w : Env} {e' : ℕ} (h : e' ≠ e) : (k.setEnv e w).envs e' = k.envs e' := update_of_ne h ..

/-! ### Envs that change in other ways -/

/-- An env's fields but its directory, and whether it is free, do not matter. -/
theorem Shape.setEnv (h : Shape k role) {w : Env} (hdir : w.pgdir = (k.envs e).pgdir)
    (hfree : w.status = .free ↔ (k.envs e).status = .free) : Shape (k.setEnv e w) role ∧
      k.SameMaps (k.setEnv e w) := by
  have hpg : ∀ e', ((k.setEnv e w).envs e').pgdir = (k.envs e').pgdir := fun e' => by
    show (update k.envs e w e').pgdir = _
    by_cases he : e' = e
    · rw [he, update_self, hdir]
    · rw [update_of_ne he]
  have hst : ∀ e', ((k.setEnv e w).envs e').status = .free ↔ (k.envs e').status = .free := fun e' => by
    show (update k.envs e w e').status = _ ↔ _
    by_cases he : e' = e
    · rw [he, update_self, hfree]
    · rw [update_of_ne he]
  have hd : ∀ o, (k.setEnv e w).dirOf o = k.dirOf o := fun o => by
    cases o with
    | none => rfl
    | some e' =>
      unfold KernSt.dirOf
      simp only [ne_eq, hst, hpg]
  have htar : k.SameMaps (k.setEnv e w) := fun e' v _ => by
    unfold KernSt.pteAt
    rw [hd]
    rfl
  refine ⟨⟨fun o d => by rw [hd, h.dir], fun o i p => by simp only [hd]; exact h.table o i p,
    fun o d i hdo => h.other o d i (by rw [← hd]; exact hdo), fun o d i hdo => h.pde o d i (by rw [← hd]; exact hdo),
    fun e' v hv p ht => h.user e' v hv p (by rw [← htar e' v hv, ht]), fun e' => ?_, ?_⟩, htar⟩
  · simp only [hpg, ne_eq, hst]
    exact h.live e'
  · obtain ⟨l, hl, hm⟩ := h.envs
    exact ⟨l, hl, fun e' => by rw [hm, hst]⟩

theorem Typed.setEnv (h : Typed k role l) {w : Env} (hdir : w.pgdir = (k.envs e).pgdir)
    (hfree : w.status = .free ↔ (k.envs e).status = .free) : Typed (k.setEnv e w) role l ∧
      k.SameMaps (k.setEnv e w) := by
  obtain ⟨hs, htar⟩ := h.toShape.setEnv hdir hfree
  refine ⟨⟨hs, h.queue, h.free, h.managed, fun x => ?_⟩, htar⟩
  rw [refsOf_congr htar]
  exact h.refs x

/-- What is written to a page that envs map does not matter. -/
theorem Typed.zeroPage (h : Typed k role l) (hp : role p = .user) : Typed (k.zeroPage p) role l ∧
    k.SameMaps (k.zeroPage p) := by
  have hne : ∀ {q}, role q ≠ .user → (k.zeroPage p).word q = k.word q := fun hq =>
    update_of_ne (fun hc => hq (by rw [hc, hp])) ..
  have hdir : ∀ q o, role q = .dir o → (k.zeroPage p).word q = k.word q := fun q o hq => hne (by rw [hq]; simp)
  have htab : ∀ q o i, role q = .table o i → (k.zeroPage p).word q = k.word q := fun q o i hq => hne (by rw [hq]; simp)
  have htar : k.SameMaps (k.zeroPage p) := fun e' v hv =>
    h.pteAt_congr rfl hdir htab hv
  refine ⟨⟨h.toShape.congr rfl rfl rfl hdir htab, h.queue, h.free, h.managed, fun x => ?_⟩, htar⟩
  rw [refsOf_congr htar]
  exact h.refs x

/-! ### New envs -/

/-- The env in a slot is a new one, whose directory maps nothing. -/
structure Created (e : ℕ) (k : KernSt) (role : ℕ → Role) (k' : KernSt) (role' : ℕ → Role) : Prop where
  lt : e < NENV
  free : (k.envs e).status = .free
  runnable : (k'.envs e).status = .runnable
  dstva : (k'.envs e).dstva = (k.envs e).dstva
  others : ∀ e', e' ≠ e → k'.envs e' = k.envs e'
  boot : k'.bootPgdir = k.bootPgdir
  npage : k'.npage = k.npage
  freemem : k'.freemem = k.freemem
  pteAt : ∀ e', ∀ v < NUPAGES, k'.pteAt e' v = k.pteAt e' v
  words : ∀ q, role q ≠ .free → k'.word q = k.word q
  kept : ∀ q, role q ≠ .free → role' q = role q

theorem Typed.newDir (h : Typed k role l) (hp : role p = .user) (hm : k.mapCount p = 0) (he : e < NENV)
    (hfree : (k.envs e).status = .free) (hlive : (k'.envs e).status ≠ .free) (hdir : (k'.envs e).pgdir = some p)
    (hne : ∀ e', e' ≠ e → k'.envs e' = k.envs e') (hboot : k'.bootPgdir = k.bootPgdir) (hn : k'.npage = k.npage)
    (hf : k'.freemem = k.freemem) (hl : k'.freeList = k.freeList) (href : k'.ref = update k.ref p 1)
    (hw : k'.word = update k.word p (newPgdir k p)) {le : List ℕ} (hq : k'.envFree.Holds le)
    (hle : ∀ e', e' ∈ e :: le ↔ e' < NENV ∧ (k.envs e').status = .free) (hnd : e ∉ le) :
    Typed k' (update role p (.dir (some e))) l ∧ k.SameMaps k' := by
  have hwo : ∀ x, x ≠ p → k'.word x = k.word x := fun x hx => by rw [hw, update_of_ne hx]
  have hwp : k'.word p = newPgdir k p := by rw [hw, update_self]
  have htar : k.SameMaps k' := fun e' v hv =>
    h.pteAt_newDir hp he hfree hboot hne hlive hdir hwo hwp hv
  refine ⟨h.retype (by rw [hp]; trivial) trivial ?_ hl hn hf htar href, htar⟩
  refine h.toShape.newDir hp he hfree hboot hne hlive hdir hwo hwp (KernSt.target_ne_of_mapCount hm) ⟨le, hq, fun e' => ?_⟩
  by_cases hee : e' = e
  · rw [hee]
    exact ⟨fun hc => absurd hc hnd, fun hc => absurd hc.2 hlive⟩
  · rw [hne e' hee, ← hle, List.mem_cons, or_iff_right hee]

/-- `env_alloc` creates an env, or fails and changes nothing. -/
theorem envAlloc_typed (h : Typed k role l) (parent : ℕ) :
    Run (envAlloc parent) k
      (fun r k' => (∃ er, r = .error er ∧ k' = k ∧ (l = [] ∨ k.envFree.first = none)) ∨ ∃ e role' l', r = .ok e ∧ Typed k' role' l' ∧ Created e k role k' role' ∧
        l.length = l'.length + 1)
      fun _ _ => False := by
  unfold envAlloc
  refine .getBind ?_
  obtain ⟨le, hq, hle⟩ := h.envs
  rw [hq.first]
  cases le with
  | nil => exact .pure (.inl ⟨_, rfl, rfl, .inr rfl⟩)
  | cons e le =>
    obtain ⟨helt, hfree⟩ := (hle e).mp List.mem_cons_self
    have hnd := (List.nodup_cons.mp hq.2).1
    obtain ⟨q, hrem, hq'⟩ := hq.remove
    dsimp only [List.head?_cons]
    unfold envSetupVm
    simp only [bind_assoc]
    refine .bind (pageAlloc_typed h) fun r k1 hr => ?_
    rcases hr with ⟨rfl, rfl, hnil⟩ | ⟨p, l', rfl, rfl, hsame, hw, hty⟩
    · exact .pure (.inl ⟨_, rfl, rfl, .inl hnil⟩)
    · have hup : update role p .user p = .user := update_self ..
      have hpf := (h.free p).mp List.mem_cons_self
      have htar1 : k.SameMaps k1 := fun e' v hv =>
        h.pteAt_congr hsame.envs (fun x _ _ => congrFun hw x) (fun x _ _ _ => congrFun hw x) hv
      have hm : k1.mapCount p = 0 := by
        rw [KernSt.mapCount_congr htar1]
        exact h.mapCount_eq_zero (by rw [hpf]; simp)
      dsimp only
      simp only [bind_assoc, pure_bind, if_true]
      refine .bind (kaddr_run (hty.lt_npage (by rw [hup]; simp) (by rw [hup]; simp))) fun _ k2 hk2 => ?_
      subst hk2
      refine .modifyBind (.modifyBind (.modifyBind (.modifyBind (.getBind ?_))))
      have hrem2 : k2.envFree.remove e = some q := by
        rw [hsame.envFree]
        exact hrem
      split
      · next hnone => cases hrem2.symm.trans hnone
      next q2 hq2 =>
      obtain rfl : q = q2 := Option.mem_unique hrem2 hq2
      have hfin : ∀ kf : KernSt, (kf.envs e).status = .runnable → (kf.envs e).pgdir = some p →
          (kf.envs e).dstva = (k2.envs e).dstva →
          (∀ e', e' ≠ e → kf.envs e' = k2.envs e') → kf.bootPgdir = k2.bootPgdir → kf.npage = k2.npage →
          kf.freemem = k2.freemem → kf.freeList = k2.freeList → kf.ref = update k2.ref p 1 →
          kf.word = update k2.word p (newPgdir k2 p) → kf.envFree = q →
          ∃ e₀ role' l₀, (Except.ok e : Except Err ℕ) = .ok e₀ ∧ Typed kf role' l₀ ∧ Created e₀ k role kf role' ∧
            (p :: l').length = l₀.length + 1 := by
        intro kf hst hdir hdst hne hb hn hf hl href hwf hqf
        have hsf : (k2.envs e).status = .free := by
          rw [hsame.envs]
          exact hfree
        obtain ⟨hty', htar'⟩ := hty.newDir hup hm helt hsf (by rw [hst]; simp) hdir hne hb hn hf hl href hwf
          (by rw [hqf]; exact hq') (by rw [hsame.envs]; exact hle) hnd
        refine ⟨e, _, l', rfl, hty', ⟨helt, hfree, hst, by rw [hdst, hsame.envs], fun e' he' => ?_, hb.trans hsame.boot, hn.trans hsame.npage,
          hf.trans hsame.freemem, fun e' v hv => (htar' e' v hv).trans (htar1 e' v hv), fun q hq => ?_, fun q hq => ?_⟩, rfl⟩
        · rw [hne e' he', hsame.envs]
        · rw [hwf, update_of_ne fun hc => hq (by rw [hc, hpf]), hw]
        · have hqp : q ≠ p := fun hc => hq (by rw [hc, hpf])
          rw [update_of_ne hqp, update_of_ne hqp]
      refine .setBind (.pure (.inr (hfin _ ?_ ?_ ?_ (fun e' he' => ?_) rfl rfl rfl rfl rfl rfl rfl)))
      · exact congrArg Env.status setEnv_self
      · exact (congrArg Env.pgdir setEnv_self).trans (congrArg Env.pgdir setEnv_self)
      · refine (congrArg Env.dstva setEnv_self).trans ?_
        show ((k2.setEnv e _).envs e).dstva = _
        rw [setEnv_self]
      · show update (update _ e _) e _ e' = _
        rw [update_of_ne he', update_of_ne he']

/-! ### Teardown -/

/-- The mappings of `e` below page `m` and the tables below entry `n` are gone. -/
structure Cleared (e m n : ℕ) (k : KernSt) (role : ℕ → Role) (k' : KernSt) (role' : ℕ → Role) (l' : List ℕ) : Prop where
  typed : Typed k' role' l'
  same : Same k k'
  kept : ∀ q, role q ≠ .user → (∀ i, role q ≠ .table (some e) i) → role' q = role q
  stay : ∀ q i, n ≤ i → role q = .table (some e) i → role' q = .table (some e) i
  gone : ∀ q i, role' q = .table (some e) i → n ≤ i
  freed : ∀ q i, i < n → role q = .table (some e) i → role' q = .free
  pteAt : ∀ e', ∀ v < NUPAGES, k'.pteAt e' v = if e' = e ∧ v < m then none else k.pteAt e' v
  frame : Frame (some e) k role k'

theorem Cleared.bounded {m n : ℕ} (h : Cleared e m n k role k' role' l') (hb : Bounded k) : Bounded k' :=
  hb.of_target fun e' p v hv ht => by
    obtain ⟨pte, ht, hp⟩ := KernSt.target_eq_some.mp ht
    rw [h.pteAt e' v hv] at ht
    split_ifs at ht
    exact KernSt.target_eq_some.mpr ⟨pte, ht, hp⟩

/-- The directories and tables of the others keep their roles. -/
theorem Cleared.keeps {m n q : ℕ} (h : Cleared e m n k role k' role' l') (ho : o ≠ some e)
    (hq : role q = .dir o ∨ ∃ i, role q = .table o i) : role' q = .dir o ∨ ∃ i, role' q = .table o i := by
  have hk : role' q = role q := h.kept q (by rcases hq with hq | ⟨i, hq⟩ <;> rw [hq] <;> simp) fun i hi => by
    rcases hq with hq | ⟨i', hq⟩ <;> rw [hq] at hi <;> cases hi
    exact ho rfl
  rw [hk]
  exact hq

theorem Typed.table_inj (h : Typed k role l) {q : ℕ} (hp : role p = .table o i) (hq : role q = .table o i) : p = q := by
  obtain ⟨-, d, hd, -, hp⟩ := (h.table _ _ _).mp hp
  obtain ⟨-, d', hd', -, hq⟩ := (h.table _ _ _).mp hq
  obtain rfl := Option.mem_unique hd hd'
  exact hp.symm.trans hq

theorem pgaddr_lt (hi : i < pdx UTOP) (hj : j < NPTENTRIES) : pgaddr i j < UTOP ∧ pgaddr i j / PGSIZE = i * NPTENTRIES + j := by
  have h1 : pdx UTOP = 955 := by decide
  simp only [pgaddr, PTSIZE, PGSIZE, NPTENTRIES, UTOP, UENVS, UPAGES, UVPT, ULIM, KSTACKTOP, VPT, KERNBASE] at *
  omega

/-- The mapping at an entry of a table. -/
theorem Typed.pteAt_entry (h : Typed k role l) (ht : role t = .table (some e) i) (hj : j < NPTENTRIES) :
    k.pteAt e (i * NPTENTRIES + j) = if (k.word t j).present = true then some (k.word t j) else none := by
  obtain ⟨-, d, hd, hp, rfl⟩ := (h.table _ _ _).mp ht
  have h1 : (i * NPTENTRIES + j) / NPTENTRIES = i := by
    simp only [NPTENTRIES] at hj ⊢
    omega
  have h2 : (i * NPTENTRIES + j) % NPTENTRIES = j := by
    simp only [NPTENTRIES] at hj ⊢
    omega
  rw [KernSt.pteAt_of_table hd (by rw [h1]; exact hp), h1, h2]

/-- One turn of the inner loop. -/
theorem freeEntry_cleared (hb : Bounded k) (hd : k.dirOf (some e) = some d) (hi : i < pdx UTOP) (hj : j < NPTENTRIES)
    (h : Cleared e (i * NPTENTRIES + j) i k role k' role' l') (ht : role' t = .table (some e) i) :
    Run (do if ((← get).word t j).present then pageRemove d (pgaddr i j)) k'
      (fun _ k'' => ∃ role'' l'', Cleared e (i * NPTENTRIES + j + 1) i k role k'' role'' l'' ∧ role'' t = .table (some e) i)
      fun _ _ => False := by
  have hent := h.typed.pteAt_entry ht hj
  have hv := entry_lt (e := e) hi hj
  obtain ⟨hva, hvpn⟩ := pgaddr_lt hi hj
  -- page `i * NPTENTRIES + j` is the next one
  have hnext : ∀ {e' v}, (e' = e ∧ v < i * NPTENTRIES + j + 1) ↔ (e' = e ∧ v = i * NPTENTRIES + j) ∨ (e' = e ∧ v < i * NPTENTRIES + j) := by
    intro e' v
    omega
  refine .getBind ?_
  by_cases hp : (k'.word t j).present = true
  · rw [if_pos hp]
    refine (pageRemove_typed h.typed (by rw [h.same.dirOf]; exact hd) hva fun q _ => h.bounded hb q).mono ?_ fun _ _ hc => hc
    rintro _ k'' ⟨role'', l'', hr⟩
    have htab : ∀ q i', role'' q = .table (some e) i' → role' q = .table (some e) i' := fun q i' hq => by
      by_cases hu : role' q = .user
      · rcases hr.users q hu with hc | hc <;> rw [hc] at hq <;> cases hq
      · rw [← hr.kept q hu, hq]
    refine ⟨role'', l'', ⟨hr.typed, h.same.trans hr.same, fun q h1 h2 => ?_, fun q i' hi' hq => ?_,
      fun q i' hq => h.gone q i' (htab q i' hq), fun q i' hi' hq => ?_, fun e' v hv' => ?_, fun q o ho hq => ?_⟩, ?_⟩
    · have hk := h.kept q h1 h2
      rw [hr.kept q (by rw [hk]; exact h1), hk]
    · have hk := h.stay q i' hi' hq
      rw [hr.kept q (by rw [hk]; simp), hk]
    · have hk := h.freed q i' hi' hq
      rw [hr.kept q (by rw [hk]; simp), hk]
    · rw [hr.pteAt e' v hv', hvpn, h.pteAt e' v hv']
      simp only [hnext]
      split_ifs <;> first | rfl | tauto
    · rw [← h.frame q o ho hq]
      exact hr.frame q o ho (h.keeps ho hq)
    · rw [hr.kept t (by rw [ht]; simp), ht]
  · rw [if_neg hp]
    rw [if_neg hp] at hent
    refine .pure ⟨role', l', ⟨h.typed, h.same, h.kept, h.stay, h.gone, h.freed, fun e' v hv' => ?_, h.frame⟩, ht⟩
    simp only [hnext]
    by_cases hc : e' = e ∧ v = i * NPTENTRIES + j
    · rw [if_pos (Or.inl hc), hc.1, hc.2, hent]
    · rw [h.pteAt e' v hv']
      simp [hc]

theorem freeEntries_cleared (hb : Bounded k) (hd : k.dirOf (some e) = some d) (hi : i < pdx UTOP)
    (h : Cleared e (i * NPTENTRIES) i k role k' role' l') (ht : role' t = .table (some e) i) :
    Run (freeEntries d i t) k'
      (fun _ k'' => ∃ role'' l'', Cleared e ((i + 1) * NPTENTRIES) i k role k'' role'' l'' ∧ role'' t = .table (some e) i)
      fun _ _ => False := by
  unfold freeEntries
  refine (Run.forUpTo (I := fun j k'' => ∃ role'' l'', Cleared e (i * NPTENTRIES + j) i k role k'' role'' l'' ∧
    role'' t = .table (some e) i) ⟨role', l', by rw [Nat.add_zero]; exact h, ht⟩ NPTENTRIES fun j hj k'' ⟨role'', l'', h', ht'⟩ =>
      (freeEntry_cleared hb hd hi hj h' ht').mono (fun _ _ hk => by rw [← Nat.add_assoc]; exact hk) fun _ _ hc => hc).mono
      (fun _ k'' hk => ?_) fun _ _ hc => hc
  rw [Nat.succ_mul]
  exact hk

/-- The only reference to a page goes. -/
theorem pageDecref_one (h : k.ref p = 1) :
    Run (pageDecref p) k (fun _ k' => k' = { k.setRef p 0 with freeList := k.freeList.insertHead p }) fun _ _ => False := by
  unfold pageDecref
  refine .modifyBind (.getBind ?_)
  rw [h, show (k.setRef p ((1 + (2 ^ 16 - 1)) % 2 ^ 16)).ref p = 0 from update_self .., if_pos rfl]
  exact .modify rfl

/-- One turn of the outer loop. -/
theorem freeTable_cleared (hb : Bounded k) (hd : k.dirOf (some e) = some d) (hi : i < pdx UTOP)
    (h : Cleared e (i * NPTENTRIES) i k role k' role' l') :
    Run (freeTable d i) k' (fun _ k'' => ∃ role'' l'', Cleared e ((i + 1) * NPTENTRIES) (i + 1) k role k'' role'' l'')
      fun _ _ => False := by
  have hd' : k'.dirOf (some e) = some d := by rw [h.same.dirOf]; exact hd
  unfold freeTable
  refine .getBind ?_
  by_cases hp : (k'.word d i).present = true
  · have ht := h.typed.table_of hd' hi hp
    rw [if_pos hp]
    refine .bind (kaddr_run (h.typed.lt_npage (by rw [ht]; simp) (by rw [ht]; simp))) fun _ k1 hk1 => ?_
    subst hk1
    refine .bind (freeEntries_cleared hb hd hi h ht) fun _ k2 ⟨role2, l2, h2, ht2⟩ => ?_
    have hd2 : k2.dirOf (some e) = some d := by rw [h2.same.dirOf]; exact hd
    obtain ⟨hdel, htar⟩ := h2.typed.delTable ht2 hd2 fun v hv hvi => by
      have hlt : v < (i + 1) * NPTENTRIES := by
        simp only [NPTENTRIES] at hvi ⊢
        omega
      rw [h2.pteAt e v hv, if_pos ⟨rfl, hlt⟩]
    have hut : update role2 (k1.word d i).ppn .user (k1.word d i).ppn = .user := update_self ..
    have hrel := hdel.release hut (by
      rw [KernSt.mapCount_congr htar]
      exact h2.typed.mapCount_eq_zero (by rw [ht2]; simp))
    rw [update_idem] at hrel
    have href : k2.ref (k1.word d i).ppn = 1 := by
      rw [h2.typed.refs, ht2]
      rfl
    refine .modifyBind ?_
    refine .bind (pa2page_run (h2.typed.lt_npage (by rw [ht2]; simp) (by rw [ht2]; simp))) fun r k3 hr => ?_
    obtain ⟨rfl, rfl⟩ := hr
    refine .mono (pageDecref_one (by exact href)) ?_ fun _ _ hc => hc
    rintro _ k4 rfl
    refine ⟨_, _, hrel, h2.same.trans ⟨rfl, rfl, rfl, rfl, rfl⟩, fun q h3 h4 => ?_, fun q i' hi' hq => ?_, fun q i' hq => ?_,
      fun q i' hi' hq => ?_, fun e' v hv => ?_, fun q o ho hq => ?_⟩
    · have hk := h2.kept q h3 h4
      rw [update_of_ne fun hc => h4 i (by rw [← hk, hc, ht2]), hk]
    · have hk := h2.stay q i' (Nat.le_of_succ_le hi') hq
      rw [update_of_ne, hk]
      intro hc
      rw [hc, ht2] at hk
      have := (Role.table.inj hk).2
      omega
    · by_cases hq1 : q = (k1.word d i).ppn
      · rw [hq1, update_self] at hq
        cases hq
      · rw [update_of_ne hq1] at hq
        have hle := h2.gone q i' hq
        refine Nat.lt_of_le_of_ne hle fun hii => hq1 ?_
        subst hii
        exact h2.typed.table_inj hq ht2
    · by_cases hii : i' = i
      · subst hii
        rw [h2.typed.table_inj (h2.stay q i' le_rfl hq) ht2, update_self]
      · have hk := h2.freed q i' (by omega) hq
        rw [update_of_ne fun hc => by rw [hc, ht2] at hk; cases hk]
        exact hk
    · exact (htar e' v hv).trans (h2.pteAt e' v hv)
    · rw [← h2.frame q o ho hq]
      have hqd : q ≠ d := fun hc => by
        have hdir := h.typed.dir_of hd'
        rcases h.keeps ho hq with hq | ⟨i, hq⟩ <;> rw [hc, hdir] at hq <;> cases hq
        exact ho rfl
      exact setWord_ne hqd
  · rw [if_neg hp]
    have hpf : (k'.word d i).present = false := by simpa using hp
    have hno : ∀ q, role' q ≠ .table (some e) i := fun q hq => by
      obtain ⟨-, d1, hd1, hp1, -⟩ := (h.typed.table _ _ _).mp hq
      obtain rfl := Option.mem_unique hd' hd1
      rw [hpf] at hp1
      cases hp1
    refine .pure ⟨role', l', h.typed, h.same, h.kept, fun q i' hi' => h.stay q i' (Nat.le_of_succ_le hi'),
      fun q i' hq => Nat.lt_of_le_of_ne (h.gone q i' hq) fun hc => hno q (hc ▸ hq), fun q i' hi' hq => ?_, fun e' v hv => ?_, h.frame⟩
    · refine h.freed q i' (Nat.lt_of_le_of_ne (Nat.lt_succ_iff.mp hi') fun hc => hno q ?_) hq
      exact hc ▸ h.stay q i' hc.ge hq
    · by_cases hc : e' = e ∧ v / NPTENTRIES = i
      · have hlt : v < (i + 1) * NPTENTRIES := by
          have := hc.2
          simp only [NPTENTRIES] at this ⊢
          omega
        rw [if_pos ⟨hc.1, hlt⟩, hc.1]
        exact Shape.pteAt_eq_none_of_entry hd' (by rw [hc.2]; exact hpf)
      · have hiff : (e' = e ∧ v < (i + 1) * NPTENTRIES) ↔ (e' = e ∧ v < i * NPTENTRIES) := by
          simp only [NPTENTRIES] at hc ⊢
          omega
        rw [h.pteAt e' v hv]
        simp only [hiff]

/-- Nothing of the env in slot `e` is left, and all else is. -/
structure Freed (e : ℕ) (k : KernSt) (role : ℕ → Role) (k' : KernSt) (role' : ℕ → Role) : Prop where
  free : (k'.envs e).status = .free
  dstva : (k'.envs e).dstva = (k.envs e).dstva
  others : ∀ e', e' ≠ e → k'.envs e' = k.envs e'
  boot : k'.bootPgdir = k.bootPgdir
  npage : k'.npage = k.npage
  freemem : k'.freemem = k.freemem
  kept : ∀ q, role q ≠ .user → (∀ i, role q ≠ .table (some e) i) → role q ≠ .dir (some e) → role' q = role q
  own : ∀ q, role q = .dir (some e) ∨ (∃ i, role q = .table (some e) i) → role' q = .free
  pteAt : ∀ e', ∀ v < NUPAGES, k'.pteAt e' v = if e' = e then none else k.pteAt e' v
  frame : Frame (some e) k role k'

theorem Typed.delDir (h : Typed k role l) (hd : k.dirOf (some e) = some d)
    (hn : ∀ i < pdx UTOP, (k.word d i).present = false) (hfree : (k'.envs e).status = .free)
    (hne : ∀ e', e' ≠ e → k'.envs e' = k.envs e') (hboot : k'.bootPgdir = k.bootPgdir) (hnp : k'.npage = k.npage)
    (hf : k'.freemem = k.freemem) (hl : k'.freeList = k.freeList) (href : k'.ref = update k.ref d 0)
    (hpg : (k'.envs e).pgdir = none)
    (hw : k'.word = k.word) (hq : k'.envFree = k.envFree.insertHead e) :
    Typed k' (update role d .user) l ∧ k.SameMaps k' := by
  have htar : k.SameMaps k' := fun e' v hv =>
    h.pteAt_delDir hd hboot hne hfree hw hn hv
  have hrole := h.dir_of hd
  refine ⟨h.retype (by rw [hrole]; trivial) trivial ?_ hl hnp hf htar ?_, htar⟩
  · obtain ⟨le, hle, hm⟩ := h.envs
    obtain ⟨helt, hlive, -⟩ := KernSt.dirOf_some.mp hd
    have hnot : e ∉ le := fun hc => hlive ((hm e).mp hc).2
    refine h.toShape.delDir hd hboot hne hfree hw hn hpg ⟨e :: le, by rw [hq]; exact hle.insertHead hnot, fun e' => ?_⟩
    by_cases hee : e' = e
    · rw [hee]
      exact ⟨fun _ => ⟨helt, hfree⟩, fun _ => .head _⟩
    · rw [hne e' hee, List.mem_cons, or_iff_right hee, hm]
  · rw [href]
    show _ = update k.ref d (k.mapCount d % 2 ^ 16)
    rw [h.mapCount_eq_zero (by rw [hrole]; simp), Nat.zero_mod]

/-- `env_free` of a live env. -/
theorem envFree_typed (h : Typed k role l) (hb : Bounded k) (hd : k.dirOf (some e) = some d) :
    Run (envFree e) k (fun _ k' => ∃ role' l', Typed k' role' l' ∧ Freed e k role k' role') fun _ _ => False := by
  obtain ⟨helt, hlive, hpg⟩ := KernSt.dirOf_some.mp hd
  unfold envFree pgdirOf
  simp only [bind_assoc]
  refine .getBind ?_
  rw [hpg]
  dsimp only
  rw [pure_bind]
  have h0 : Cleared e (0 * NPTENTRIES) 0 k role k role l := ⟨h, .refl k, fun _ _ _ => rfl, fun _ _ _ hq => hq,
    fun _ _ _ => Nat.zero_le _, fun _ _ hc => absurd hc (Nat.not_lt_zero _), fun e' v _ => by simp, Frame.refl⟩
  refine .bind (.forUpTo (I := fun i k1 => ∃ role1 l1, Cleared e (i * NPTENTRIES) i k role k1 role1 l1) ⟨role, l, h0⟩
    (pdx UTOP) fun i hi k1 ⟨role1, l1, h1⟩ => freeTable_cleared hb hd hi h1) fun _ k1 ⟨role1, l1, h1⟩ => ?_
  have hd1 : k1.dirOf (some e) = some d := by rw [h1.same.dirOf]; exact hd
  have hrole := h1.typed.dir_of hd1
  have hn : ∀ i < pdx UTOP, (k1.word d i).present = false := fun i hi => by
    rw [← Bool.not_eq_true]
    exact fun hp => absurd (h1.gone _ i (h1.typed.table_of hd1 hi hp)) (Nat.not_le.mpr hi)
  have href : k1.ref d = 1 := by
    rw [h1.typed.refs, hrole]
    rfl
  have hnone : ∀ v < NUPAGES, k1.pteAt e v = none := fun v hv =>
    Shape.pteAt_eq_none_of_entry hd1 (hn _ (entry_of_lt (e := 0) hv))
  -- the directory and the slot of the env
  have hfin : ∀ k2 : KernSt, (k2.envs e).status = .free → (k2.envs e).dstva = (k1.envs e).dstva → (∀ e', e' ≠ e → k2.envs e' = k1.envs e') →
      k2.bootPgdir = k1.bootPgdir → k2.npage = k1.npage → k2.freemem = k1.freemem → k2.freeList = k1.freeList →
      k2.ref = update k1.ref d 0 → (k2.envs e).pgdir = none → k2.word = k1.word → k2.envFree = k1.envFree.insertHead e →
      ∃ role' l', Typed { k2 with freeList := k2.freeList.insertHead d } role' l' ∧
        Freed e k role { k2 with freeList := k2.freeList.insertHead d } role' := by
    intro k2 hf hdst hne hbo hnp hfm hl hr hpg hw hq
    obtain ⟨hty, htar⟩ := h1.typed.delDir hd1 hn hf hne hbo hnp hfm hl hr hpg hw hq
    have hud : update role1 d .user d = .user := update_self ..
    have hrel := hty.release hud (by
      rw [KernSt.mapCount_congr htar]
      exact h1.typed.mapCount_eq_zero (by rw [hrole]; simp))
    rw [update_idem] at hrel
    refine ⟨_, _, hrel, hf, hdst.trans (by rw [h1.same.envs]), fun e' he' => (hne e' he').trans (congrFun h1.same.envs e'), hbo.trans h1.same.boot,
      hnp.trans h1.same.npage, hfm.trans h1.same.freemem, fun q h2 h3 h4 => ?_, fun q hq => ?_, fun e' v hv => ?_, fun q o ho hq => ?_⟩
    · have hk := h1.kept q h2 h3
      rw [update_of_ne fun hc => h4 (by rw [← hk, hc, hrole]), hk]
    · rcases hq with hq | ⟨i, hq⟩
      · have hqd : q = d := by
          obtain hq' := (h.dir _ _).mp hq
          exact Option.mem_unique hq' hd
        rw [hqd, update_self]
      · have hk := h1.freed q i ((h.table _ _ _).mp hq).1 hq
        rw [update_of_ne fun hc => by rw [hc, hrole] at hk; cases hk]
        exact hk
    · show k2.pteAt e' v = _
      rw [htar e' v hv]
      by_cases hee : e' = e
      · rw [if_pos hee, hee, hnone v hv]
      · rw [if_neg hee, h1.pteAt e' v hv, if_neg fun hc => hee hc.1]
    · rw [← h1.frame q o ho hq, ← hw]
  refine .modifyBind ?_
  refine .bind (pa2page_run (h1.typed.lt_npage (by rw [hrole]; simp) (by rw [hrole]; simp))) fun r k2 hr => ?_
  obtain ⟨rfl, rfl⟩ := hr
  refine .bind (pageDecref_one (by exact href)) fun _ k3 hk3 => ?_
  subst hk3
  refine .modify ?_
  refine hfin { k1 with envs := _, ref := _, envFree := _ } ?_ ?_ (fun e' he' => ?_) rfl rfl rfl rfl rfl ?_ rfl rfl
  · exact congrArg Env.status setEnv_self
  · refine (congrArg Env.dstva setEnv_self).trans ?_
    show ((k1.setEnv e _).envs e).dstva = _
    rw [setEnv_self]
  · exact (setEnv_ne he').trans (setEnv_ne he')
  · refine (congrArg Env.pgdir setEnv_self).trans ?_
    show ((k1.setEnv e _).envs e).pgdir = _
    rw [setEnv_self]

end

end Kern
end Jos
