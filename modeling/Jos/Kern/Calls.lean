/-
# What a trap does to the mappings

A call changes the mappings of one env: the caller, a child, or a receiver at the
address it receives at. `Maps c s k role k'` says so, with the roles that are
right after the call, the directories and tables of the others untouched, and
where each new mapping comes from: a page that was free, or one that some env had
mapped, with no more write permission. It needs that no page has 2 ^ 16 mappings.

Key definitions: `Effect`, `Reach`, `Maps`.
Key theorems: `syscall_maps`, `trap_maps`.
-/
import Jos.Kern.Slots
import Jos.Kern.Spaces

namespace Jos
namespace Kern

open Fs (NENV PGSIZE envx)
open Function
open Slots (all_drop all_set all_update)

/-- Where a new mapping comes from. -/
def Source (k : KernSt) (role : ℕ → Role) (pte : Pte) : Prop :=
  role pte.ppn = .free ∨ ∃ e v pte', v < NUPAGES ∧ k.pteAt e v = some pte' ∧ pte'.ppn = pte.ppn ∧
    (pte.writable = true → pte'.writable = true)

/-- Only the mappings of env `e` at the pages in `V` change. -/
structure Effect (e : ℕ) (V : ℕ → Prop) (k : KernSt) (role : ℕ → Role) (k' : KernSt) : Prop where
  frame : Frame (some e) k role k'
  pteAt : ∀ e', ∀ v < NUPAGES, ¬ (e' = e ∧ V v) → k'.pteAt e' v = k.pteAt e' v
  source : ∀ v < NUPAGES, ∀ pte, k'.pteAt e v = some pte → k.pteAt e v = some pte ∨ Source k role pte

/-- The env in slot `c` may change the env in slot `e`. -/
def Owns (k : KernSt) (c e : ℕ) : Prop := e = c ∨ (k.envs e).parent = (k.envs c).id

/-- A call `s` of the env in slot `c` may change the mappings of `e` at `V`. -/
def Reach (c : ℕ) (k : KernSt) (s : Call) (e : ℕ) (V : ℕ → Prop) : Prop :=
  Owns k c e ∨ ∃ envid value srcva perm, s = .ipcTrySend envid value srcva perm ∧ envid2env k c envid false = some e ∧
    (k.envs e).recving = true ∧ ∀ v, V v → v = (k.envs e).dstva / PGSIZE

/-- What a call does to the mappings. -/
def Maps (c : ℕ) (s : Call) (k : KernSt) (role : ℕ → Role) (k' : KernSt) : Prop :=
  ∃ e V role' l', Typed k' role' l' ∧ Effect e V k role k' ∧ Reach c k s e V

section
variable {k k' k'' : KernSt} {role role' : ℕ → Role} {l l' : List ℕ} {V : ℕ → Prop} {c e e' v p d va perm : ℕ} {pte : Pte} {s : Call}

/-! ### Effects -/

/-- No mapping changes, and no directory or table. -/
theorem Effect.quiet (e : ℕ) (V : ℕ → Prop) (hw : ∀ q o, role q = .dir o ∨ (∃ i, role q = .table o i) → k'.word q = k.word q)
    (hp : k.SameMaps k') : Effect e V k role k' :=
  ⟨fun q o _ hq => hw q o hq, fun e' v hv _ => hp e' v hv, fun v hv pte h => .inl (by rw [← hp e v hv, h])⟩

theorem Effect.refl (e : ℕ) (V : ℕ → Prop) (k : KernSt) (role : ℕ → Role) : Effect e V k role k :=
  Effect.quiet e V (fun _ _ _ => rfl) fun _ _ _ => rfl

/-- An effect on top of a change that is none. -/
theorem Effect.before (h : Effect e V k' role' k'')
    (hr : ∀ q o, role q = .dir o ∨ (∃ i, role q = .table o i) → role' q = role q ∧ k'.word q = k.word q)
    (hp : k.SameMaps k') (hf : ∀ q, role' q = .free → role q = .free) :
    Effect e V k role k'' := by
  refine ⟨fun q o ho hq => ?_, fun e' v hv hn => ?_, fun v hv pte hpte => ?_⟩
  · obtain ⟨h1, h2⟩ := hr q o hq
    rw [h.frame q o ho (by rw [h1]; exact hq), h2]
  · rw [h.pteAt e' v hv hn, hp e' v hv]
  · rw [← hp e v hv]
    refine (h.source v hv pte hpte).imp_right fun hs => ?_
    rcases hs with hs | ⟨e₀, v₀, pte₀, h1, h2, h3⟩
    · exact .inl (hf _ hs)
    · exact .inr ⟨e₀, v₀, pte₀, h1, (hp e₀ v₀ h1).symm.trans h2, h3⟩

/-- A change that is none on top of an effect. -/
theorem Effect.after (h : Effect e V k role k')
    (hw : ∀ q o, role q = .dir o ∨ (∃ i, role q = .table o i) → k''.word q = k'.word q)
    (hp : k'.SameMaps k'') : Effect e V k role k'' := by
  refine ⟨fun q o ho hq => ?_, fun e' v hv hn => ?_, fun v hv pte hpte => ?_⟩
  · rw [hw q o hq, h.frame q o ho hq]
  · rw [hp e' v hv, h.pteAt e' v hv hn]
  · exact h.source v hv pte (by rw [← hp e v hv, hpte])

theorem Inserted.effect {r : Bool} (h : Inserted e va p perm r k role l k' role' l') (hk : Shape k role)
    (hs : Source k role ⟨p, perm ||| PTE_P⟩) : Effect e (fun v => v = va / PGSIZE) k role k' := by
  refine ⟨h.frame hk, fun e' v hv hn => ?_, fun v hv pte hpte => ?_⟩
  · rw [h.pteAt e' v hv, if_neg fun hc => hn hc.2]
  · rw [h.pteAt e v hv] at hpte
    split_ifs at hpte with hc
    · exact .inr (Option.some.inj hpte ▸ hs)
    · exact .inl hpte

theorem Removed.effect (h : Removed e va k role l k' role' l') : Effect e (fun v => v = va / PGSIZE) k role k' := by
  refine ⟨h.frame, fun e' v hv hn => ?_, fun v hv pte hpte => ?_⟩
  · rw [h.pteAt e' v hv, if_neg hn]
  · rw [h.pteAt e v hv] at hpte
    split_ifs at hpte
    exact .inl hpte

theorem Freed.effect (h : Freed e k role k' role') : Effect e (fun _ => True) k role k' := by
  refine ⟨h.frame, fun e' v hv hn => ?_, fun v hv pte hpte => ?_⟩
  · rw [h.pteAt e' v hv, if_neg fun hc => hn ⟨hc, trivial⟩]
  · rw [h.pteAt e v hv, if_pos rfl] at hpte
    cases hpte

theorem Created.effect (h : Created e k role k' role') (e' : ℕ) (V : ℕ → Prop) : Effect e' V k role k' :=
  Effect.quiet e' V (fun q o hq => h.words q (by rcases hq with hq | ⟨i, hq⟩ <;> rw [hq] <;> simp)) h.pteAt

/-! ### The pieces of the calls -/

theorem envid2env_owns {envid : ℕ} (h : envid2env k c envid true = some e) : Owns k c e := by
  unfold envid2env at h
  split_ifs at h with h0 h1 h2
  · exact .inl (Option.some.inj h).symm
  · obtain rfl := Option.some.inj h
    simp only [Bool.true_and, Bool.and_eq_true, bne_iff_ne, not_and, not_not] at h2
    by_cases hc : envx envid = c
    · exact .inl hc
    · exact .inr (h2 hc)

theorem permOk_lt (h : permOk perm = true) : perm < PGSIZE := by
  unfold permOk at h
  simp only [Bool.and_eq_true, beq_iff_eq] at h
  have : perm ≤ PTE_USER := h.2 ▸ Nat.left_le_or
  exact this.trans_lt (by decide)

theorem vaOk_lt (h : vaOk va = true) : va < UTOP := by
  unfold vaOk at h
  simp only [Bool.and_eq_true, decide_eq_true_eq] at h
  exact h.1

/-- `PTE_P` is not the bit for writing. -/
theorem writable_or (ppn perm : ℕ) : (⟨ppn, perm ||| PTE_P⟩ : Pte).writable = (perm &&& PTE_W != 0) := by
  have h : (perm ||| PTE_P) &&& PTE_W = perm &&& PTE_W := by
    rw [Nat.and_or_distrib_right]
    exact Nat.or_zero _
  unfold Pte.writable
  rw [h]

/-- In a state with roles `env_pgdir` is the directory. -/
theorem pgdirOf_typed (h : Typed k role l) (e : ℕ) :
    Run (pgdirOf e) k (fun d k' => k' = k ∧ k.dirOf (some e) = some d) fun f _ => f.IsPanic :=
  (pgdirOf_run e k).post (fun _ _ ⟨h1, h2⟩ => ⟨h1, (h.dirOf_eq e).trans h2⟩)

/-- The page at `srcva` of env `c` is mapped, and writable if `perm` says so. -/
def Sendable (c srcva perm : ℕ) (k : KernSt) (pte : Pte) : Prop :=
  k.pteAt c (srcva / PGSIZE) = some pte ∧ (perm &&& PTE_W ≠ 0 → pte.writable = true)

theorem sharePage_typed {src srcva dst dstva : ℕ} (h : Typed k role l) (hb : Bounded k) (hs : srcva < UTOP) (hd : dstva < UTOP)
    (hperm : perm < PGSIZE) :
    Run (sharePage src srcva dst dstva perm) k
      (fun _ k' => (∃ role' l', Typed k' role' l' ∧ Effect dst (fun v => v = dstva / PGSIZE) k role k' ∧ Same k k') ∧
        ∃ pte, Sendable src srcva perm k pte ∧ ∀ e, ∀ v < NUPAGES,
          k'.pteAt e v = if e = dst ∧ v = dstva / PGSIZE then some ⟨pte.ppn, perm ||| PTE_P⟩ else k.pteAt e v)
      fun f k' => f.IsPanic ∨ k' = k := by
  unfold sharePage
  refine .step (pgdirOf_typed h src) (fun _ _ => .inl) fun d k1 ⟨hk, hds⟩ => ?_
  subst hk
  refine .step (pageLookup_typed h hds hs) nofun ?_
  rintro _ k2 ⟨rfl, ⟨rfl, -⟩ | ⟨t, rfl, hpte, ht⟩⟩
  · exact .throw (.inr rfl)
  · refine .getBind ?_
    split
    · exact .throw (.inr rfl)
    next hw =>
      have hu := h.user src _ (vpn_lt hs) _ hpte
      refine .step (pgdirOf_typed h dst) (fun _ _ => .inl) fun d' k3 ⟨hk, hdd⟩ => ?_
      subst hk
      refine .step (pageInsert_typed h hdd hd hu hperm fun q _ => hb q) nofun ?_
      rintro r k4 ⟨role', l', hi⟩
      split
      next hr =>
        refine .pure ⟨⟨role', l', hi.typed, hi.effect h.toShape
          (.inr ⟨src, srcva / PGSIZE, _, vpn_lt hs, hpte, rfl, fun hpw => ?_⟩), hi.same⟩, _, ⟨hpte, fun hp => ?_⟩, fun e v hv => ?_⟩
        · rw [writable_or] at hpw
          rw [hpw] at hw
          simpa using hw
        · simpa [hp] using hw
        · rw [hi.pteAt e v hv, hr]
          simp
      next hr => exact .throw (.inr (hi.failed (by simpa using hr)))

/-! ### The calls -/

/-- The program `x` is a part of the call `s` that does to the mappings what the call may. -/
def Mapping {α : Type} (c : ℕ) (s : Call) (role : ℕ → Role) (x : KM α) (k : KernSt) : Prop :=
  Run x k (fun _ k' => Maps c s k role k') fun f k' => f.IsPanic ∨ Maps c s k role k'

/-- A call that changes no mapping. -/
theorem Maps.refl (c : ℕ) (s : Call) (h : Typed k role l) : Maps c s k role k :=
  ⟨c, fun _ => False, role, l, h, Effect.refl .., .inl (.inl rfl)⟩

/-- An env gets other fields, but for its directory and whether it is free. -/
theorem Maps.setEnv {w : Env} (h : Maps c s k role k') (hdir : w.pgdir = (k'.envs e').pgdir)
    (hfree : w.status = .free ↔ (k'.envs e').status = .free) : Maps c s k role (k'.setEnv e' w) := by
  obtain ⟨e, V, role', l', ht, he, hr⟩ := h
  obtain ⟨ht', hp⟩ := ht.setEnv (e := e') hdir hfree
  exact ⟨e, V, role', l', ht', he.after (fun _ _ _ => rfl) hp, hr⟩

variable {α : Type}

theorem Mapping.fails (h : Typed k role l) (er : Err) : Mapping c s role (throw (.err er) : KM α) k :=
  .throw (.inr (Maps.refl c s h))

theorem Mapping.lookup {envid : ℕ} {b : Bool} {f : ℕ → KM α} (h : Typed k role l)
    (hf : ∀ e, envid2env k c envid b = some e → Mapping c s role (f e) k) : Mapping c s role (lookupEnv c envid b >>= f) k :=
  run_lookupEnv (fun _ => .inr (Maps.refl c s h)) hf

/-- There is a page to hand out, and one for the page table if env `e` has none for `va`. -/
def KernSt.Enough (k : KernSt) (e va : ℕ) : Prop :=
  ∃ p l, k.freeList.Holds (p :: l) ∧ (l = [] → ∃ d, (k.envs e).pgdir = some d ∧ (k.word d (pdx va)).present = true)

/-- What `sys_page_alloc` at `va` in env `e` does: the first free page `p` is inserted and cleared. -/
structure Allocated (e va p perm : ℕ) (k : KernSt) (role : ℕ → Role) (l : List ℕ) (k' : KernSt) (role' : ℕ → Role)
    (l' : List ℕ) : Prop where
  typed : Typed k' role' l'
  same : Same k k'
  free : role p = .free
  pteAt : ∀ e', ∀ v < NUPAGES, k'.pteAt e' v = if e' = e ∧ v = va / PGSIZE then some ⟨p, perm ||| PTE_P⟩ else k.pteAt e' v
  zero : ∀ i, k'.word p i = .zero
  tables : ∀ q o i, role q = .table o i → role' q = .table o i
  words : ∀ q, q ≠ p → role q ≠ .dir (some e) → role' q ≠ .table (some e) (pdx va) → k'.word q = k.word q
  room : l.length ≤ l'.length + 2
  spares : (∃ t, role t = .table (some e) (pdx va)) → l.length ≤ l'.length + 1

/-- The pages are as before. -/
def Restored (k : KernSt) (role : ℕ → Role) (l : List ℕ) (k' : KernSt) : Prop :=
  Typed k' role l ∧ Same k k' ∧ k'.word = k.word

theorem sysPageAlloc_typed (h : Typed k role l) (envid va perm : ℕ)
    (hdir : ∀ e, envid2env k c envid true = some e → (k.envs e).pgdir ≠ none)
    (hb : ∀ e q, envid2env k c envid true = some e → k.target e (va / PGSIZE) = some q → k.mapCount q < 2 ^ 16) :
    Run (sysPageAlloc c envid va perm) k
      (fun r k' => r = some 0 ∧ perm &&& PTE_W ≠ 0 ∧ ∃ e p role' l', envid2env k c envid true = some e ∧
        Allocated e va p perm k role l k' role' l')
      fun f k' => (f = .panic .pageFault ∧ perm &&& PTE_W = 0 ∧ ∃ e, envid2env k c envid true = some e ∧ k.Enough e va) ∨
        (∃ er, f = .err er) ∧ Restored k role l k' ∧
          (vaOk va = true → permOk perm = true → ∀ e, envid2env k c envid true = some e → ¬ k.Enough e va) := by
  have hrefl : Restored k role l k := ⟨h, .refl k, rfl⟩
  unfold sysPageAlloc
  split
  next hva => exact .throw (.inr ⟨⟨_, rfl⟩, hrefl, fun hc => by simp [hc] at hva⟩)
  next hva =>
  split
  next hperm => exact .throw (.inr ⟨⟨_, rfl⟩, hrefl, fun _ hc => by simp [hc] at hperm⟩)
  next hperm =>
  have hva : va < UTOP := vaOk_lt (by simpa using hva)
  have hperm : perm < PGSIZE := permOk_lt (by simpa using hperm)
  refine run_lookupEnv (fun hn => .inr ⟨⟨_, rfl⟩, hrefl, fun _ _ e he => by rw [hn] at he; cases he⟩) fun e he => ?_
  refine .step (pageAlloc_typed h) nofun ?_
  rintro _ k1 (⟨rfl, rfl, rfl⟩ | ⟨p, l1, rfl, rfl, hsame, hw, h1⟩)
  · refine .throw (.inr ⟨⟨_, rfl⟩, hrefl, fun _ _ e' _ ⟨p, l, hq, _⟩ => ?_⟩)
    cases h.queue.unique hq
  have hfree : role p = .free := (h.free p).mp List.mem_cons_self
  have hpte : k.SameMaps k1 := fun e' v hv =>
    h.pteAt_congr hsame.envs (fun q _ _ => congrFun hw q) (fun q _ _ _ => congrFun hw q) hv
  have hkeep : ∀ {q x}, role q = x → x ≠ .free → update role p .user q = x := fun hq hx => by
    rw [update_of_ne fun hc => hx (by rw [← hq, hc, hfree]), hq]
  obtain ⟨d, hd⟩ := Option.ne_none_iff_exists'.mp (hdir e he)
  have hd1 : k1.dirOf (some e) = some d := by rw [h1.dirOf_eq, hsame.envs, hd]
  have hu : update role p .user p = .user := update_self ..
  -- a page table for the address
  have htab : (∃ t, update role p .user t = .table (some e) (pdx va)) ↔ (k.word d (pdx va)).present = true := by
    rw [← hw]
    exact h1.table_iff hd1 (entry_va hva)
  dsimp only
  refine run_pgdirOf (by rw [hsame.envs]; exact hd) ?_
  refine .step (pageInsert_typed h1 hd1 hva hu hperm fun q hq => ?_) nofun ?_
  · rw [KernSt.mapCount_congr hpte]
    exact hb e q he (by rwa [KernSt.target_of_pteAt (hpte e _ (vpn_lt hva))] at hq)
  rintro r k2 ⟨role', l', hi⟩
  cases r with
  | true =>
    rw [if_pos rfl]
    have henough : k.Enough e va := by
      refine ⟨p, l1, h.queue, fun hl => ⟨d, hd, htab.mp ?_⟩⟩
      by_contra hno
      cases hi.full.mpr ⟨hl, not_exists.mp hno⟩
    split
    next hpw => exact .throw (.inl ⟨rfl, hpw, e, he, henough⟩)
    next hpw =>
      obtain ⟨hz, hzp⟩ := hi.typed.zeroPage hi.user
      refine .modifyBind (.pure ⟨rfl, hpw, e, p, role', l', he, hz, hsame.trans (hi.same.trans ⟨rfl, rfl, rfl, rfl, rfl⟩), hfree,
        fun e' v hv => ?_, fun i => ?_, fun q o i hq => hi.tables q o i (hkeep hq (by simp)), fun q hq hqd hqt => ?_, ?_,
        fun ⟨t, ht⟩ => ?_⟩)
      · rw [hzp e' v hv, hi.pteAt e' v hv, hpte e' v hv]
        simp
      · exact congrFun (update_self (β := fun _ => ℕ → Pte) ..) i
      · rw [show (k2.zeroPage p).word q = k2.word q from update_of_ne hq .., hi.words q ?_ hqt, hw]
        rwa [update_of_ne hq]
      · have := hi.room
        rw [List.length_cons]
        omega
      · have := hi.spares ⟨t, hkeep ht (by simp)⟩
        rw [List.length_cons]
        omega
  | false =>
    obtain ⟨rfl, hno⟩ := hi.full.mp rfl
    obtain rfl := hi.failed rfl
    rw [if_neg (by simp)]
    have hm : k2.mapCount p = 0 := by
      rw [KernSt.mapCount_congr hpte]
      exact h.mapCount_eq_zero (by rw [hfree]; simp)
    have hrel := h1.release hu hm
    rw [update_idem, ← hfree, update_eq_self] at hrel
    refine .modifyBind (.throw (.inr ⟨⟨_, rfl⟩, ⟨hrel, hsame.trans ⟨rfl, rfl, rfl, rfl, rfl⟩, hw⟩, fun _ _ e' he' ⟨p', l, hq, hl⟩ => ?_⟩))
    cases h.queue.unique hq
    obtain rfl := Option.mem_unique he he'
    obtain ⟨d', hd', hpr⟩ := hl rfl
    obtain rfl := Option.mem_unique hd hd'
    obtain ⟨t, ht⟩ := htab.mpr hpr
    exact hno t ht

theorem Restored.pteAt (h : Restored k role l k') (hk : Shape k role) : k.SameMaps k' :=
  fun _ _ hv => hk.pteAt_congr h.2.1.envs (fun q _ _ => congrFun h.2.2 q) (fun q _ _ _ => congrFun h.2.2 q) hv

theorem Allocated.effect {e va p : ℕ} (h : Allocated e va p perm k role l k' role' l') (hk : Shape k role) :
    Effect e (fun v => v = va / PGSIZE) k role k' := by
  refine ⟨fun q o ho hq => ?_, fun e' v hv hn => ?_, fun v hv pte hp => ?_⟩
  · have hq' : role' q = .dir o ∨ ∃ i, role' q = .table o i := by
      refine hq.imp (fun hd => ?_) fun ⟨i, ht⟩ => ⟨i, h.tables q o i ht⟩
      rw [h.typed.dir, h.same.dirOf, ← hk.dir, hd]
    refine h.words q (fun hc => ?_) (fun hc => ?_) fun hc => ?_
    · rcases hq with hq | ⟨i, hq⟩ <;> rw [hc, h.free] at hq <;> cases hq
    · rcases hq with hq | ⟨i, hq⟩ <;> rw [hc] at hq <;> cases hq
      exact ho rfl
    · rcases hq' with hq | ⟨i, hq⟩ <;> rw [hc] at hq <;> cases hq
      exact ho rfl
  · rw [h.pteAt e' v hv, if_neg hn]
  · rw [h.pteAt e v hv] at hp
    split_ifs at hp with hc
    · exact .inr (.inl (Option.some.inj hp ▸ h.free))
    · exact .inl hp

theorem sysPageAlloc_maps (h : Typed k role l) (hb : Bounded k) (hc : k.Live c)
    (envid va perm : ℕ) : Mapping c (.pageAlloc envid va perm) role (sysPageAlloc c envid va perm) k := by
  refine (sysPageAlloc_typed h envid va perm (fun e he => (h.live e).mpr (envid2env_live he hc)) fun e q _ _ => hb q).mono ?_ ?_
  · rintro _ k' ⟨-, -, e, p, role', l', he, ha⟩
    exact ⟨e, _, role', l', ha.typed, ha.effect h.toShape, .inl (envid2env_owns he)⟩
  · rintro f k' (⟨rfl, -⟩ | ⟨-, hr, -⟩)
    · exact .inl ⟨_, rfl⟩
    · exact .inr ⟨c, fun _ => False, role, l, hr.1, Effect.quiet _ _ (fun q _ _ => congrFun hr.2.2 q) (hr.pteAt h.toShape),
        .inl (.inl rfl)⟩

theorem sysPageMap_maps (h : Typed k role l) (hb : Bounded k) (srcenvid srcva dstenvid dstva perm : ℕ) :
    Mapping c (.pageMap srcenvid srcva dstenvid dstva perm) role (sysPageMap c srcenvid srcva dstenvid dstva perm) k := by
  unfold sysPageMap
  split
  · exact .fails h _
  next hva =>
  split
  · exact .fails h _
  next hperm =>
  simp only [Bool.or_eq_true, Bool.not_eq_true', not_or, Bool.not_eq_false] at hva hperm
  refine .lookup h fun src _ => .lookup h fun dst hdst => ?_
  refine .step (sharePage_typed h hb (vaOk_lt hva.1) (vaOk_lt hva.2) (permOk_lt hperm)) ?_ ?_
  · rintro f k' (hf | rfl)
    · exact .inl hf
    · exact .inr (Maps.refl c _ h)
  · rintro _ k' ⟨⟨role', l', ht, he, -⟩, -⟩
    exact .pure ⟨dst, _, role', l', ht, he, .inl (envid2env_owns hdst)⟩

theorem sysPageUnmap_maps (h : Typed k role l) (hb : Bounded k) (envid va : ℕ) :
    Mapping c (.pageUnmap envid va) role (sysPageUnmap c envid va) k := by
  unfold sysPageUnmap
  split
  · exact .fails h _
  next hva =>
  refine .lookup h fun e he => ?_
  refine .step (pgdirOf_typed h e) (fun _ _ => .inl) fun d k1 ⟨hk, hd⟩ => ?_
  subst hk
  refine .bind (.mono (pageRemove_typed h hd (vaOk_lt (by simpa using hva)) fun q _ => hb q) (fun _ _ h => h)
    nofun) ?_
  rintro _ k' ⟨role', l', hr⟩
  exact .pure ⟨e, _, role', l', hr.typed, hr.effect, .inl (envid2env_owns he)⟩

theorem envFree_freed (h : Typed k role l) (hb : Bounded k) :
    Run (envFree e) k (fun _ k' => ∃ role' l', Typed k' role' l' ∧ Freed e k role k' role') fun f _ => f.IsPanic := by
  cases hd : k.dirOf (some e) with
  | none =>
    unfold envFree
    refine .bind (pgdirOf_typed h e) fun d k' ⟨_, hc⟩ => ?_
    rw [hd] at hc
    cases hc
  | some d => exact (envFree_typed h hb hd).mono (fun _ _ hf => hf) nofun

/-- `env_free` of an env that the caller may change. -/
theorem envFree_maps (s : Call) (h : Typed k role l) (hb : Bounded k) (ho : Owns k c e) :
    Run (envFree e) k (fun _ k' => Maps c s k role k') fun f _ => f.IsPanic := by
  refine .post (envFree_freed h hb) ?_
  rintro _ k' ⟨role', l', ht, hf⟩
  exact ⟨e, _, role', l', ht, hf.effect, .inl ho⟩

theorem sysExofork_maps (h : Typed k role l) : Mapping c .exofork role (sysExofork c) k := by
  unfold sysExofork
  refine .getBind (.step (envAlloc_typed h _) nofun ?_)
  rintro _ k1 (⟨er, rfl, rfl, -⟩ | ⟨e, role', l', rfl, ht, hcr, -⟩)
  · exact Mapping.fails h _
  · have hm : Maps c .exofork k role k1 := ⟨c, fun _ => False, role', l', ht, hcr.effect .., .inl (.inl rfl)⟩
    refine .modifyBind (.getBind (.pure (hm.setEnv rfl ?_)))
    rw [hcr.runnable]
    simp

theorem sysEnvSetStatus_maps (h : Typed k role l) (hc : k.Live c) (envid : ℕ) (st : Status) :
    Mapping c (.envSetStatus envid st) role (sysEnvSetStatus c envid st) k := by
  unfold sysEnvSetStatus
  refine .lookup h fun e he => .getBind ?_
  split
  · exact Mapping.fails h _
  next hst =>
    refine .modifyBind (.pure ((Maps.refl c _ h).setEnv rfl ?_))
    exact ⟨fun hf => absurd (.inl hf) hst, fun hf => absurd hf (envid2env_live he hc).2⟩

theorem storeFrame_maps {va : ℕ} {tf : Trapframe} (h : Maps c s k role k') :
    Run (storeFrame c e va tf) k' (fun _ k'' => Maps c s k role k'') fun f _ => f.IsPanic :=
  (storeFrame_run c e va tf k').post (fun _ _ ⟨_, hk⟩ => hk ▸ h.setEnv rfl .rfl)

theorem sysEnvSetTrapframe_maps (h : Typed k role l) (hb : Bounded k) (envid va : ℕ) (tf : Trapframe) :
    Mapping c (.envSetTrapframe envid va tf) role (sysEnvSetTrapframe c envid va tf) k := by
  unfold sysEnvSetTrapframe
  refine .lookup h fun e he => .getBind ?_
  refine .step (pgdirOf_run e k) (fun _ _ => .inl) fun d k1 ⟨hk, _⟩ => ?_
  subst hk
  split
  · exact .mono (storeFrame_maps (Maps.refl c _ h)) (fun _ _ h => h) fun _ _ => .inl
  · refine .step (envFree_maps (.envSetTrapframe envid va tf) h hb (envid2env_owns he)) (fun _ _ => .inl) fun _ k2 hm => ?_
    split
    · exact .pure hm
    · exact .mono (storeFrame_maps hm) (fun _ _ h => h) fun _ _ => .inl

theorem sysEnvDestroy_maps (h : Typed k role l) (hb : Bounded k) (envid : ℕ) :
    Mapping c (.envDestroy envid) role (sysEnvDestroy c envid) k := by
  unfold sysEnvDestroy
  refine .lookup h fun e he => ?_
  refine .step (envFree_maps (.envDestroy envid) h hb (envid2env_owns he)) (fun _ _ => .inl) fun _ k2 hm => ?_
  split <;> exact .pure hm

theorem sysUserMem_maps (h : Typed k role l) (hb : Bounded k) (va len perm r : ℕ) :
    Mapping c (.userMem va len perm r) role (sysUserMem c va len perm r) k := by
  unfold sysUserMem
  refine .getBind (.step (pgdirOf_run c k) (fun _ _ => .inl) fun d k1 ⟨hk, _⟩ => ?_)
  subst hk
  split
  · exact .pure (Maps.refl c _ h)
  · refine .step (envFree_maps (.userMem va len perm r) h hb (.inl rfl)) (fun _ _ => .inl) fun _ k2 hm => ?_
    exact .pure hm

/-- The addresses envs receive at are below `UTOP`. -/
def KernSt.Dst (k : KernSt) : Prop := ∀ e, (k.envs e).dstva < UTOP

/-- What a message to env `e` does to the mappings and to `env_ipc_perm`. -/
def Posted (c e srcva perm : ℕ) (k k' : KernSt) : Prop :=
  if srcva < UTOP ∧ (k.envs e).dstva ≠ 0 then
    (k'.envs e).perm = perm ∧ ∃ pte, Sendable c srcva perm k pte ∧ ∀ e', ∀ v < NUPAGES, k'.pteAt e' v =
      if e' = e ∧ v = (k.envs e).dstva / PGSIZE then some ⟨pte.ppn, perm ||| PTE_P⟩ else k.pteAt e' v
  else (k'.envs e).perm = 0 ∧ ∀ e', ∀ v < NUPAGES, k'.pteAt e' v = k.pteAt e' v

theorem Posted.congr {srcva : ℕ} (h : Posted c e srcva perm k k') (he : (k''.envs e).perm = (k'.envs e).perm)
    (hp : k'.SameMaps k'') : Posted c e srcva perm k k'' := by
  unfold Posted at h ⊢
  split_ifs at h ⊢
  · obtain ⟨h1, pte, h2, h3⟩ := h
    exact ⟨he.trans h1, pte, h2, fun e' v hv => (hp e' v hv).trans (h3 e' v hv)⟩
  · exact ⟨he.trans h.1, fun e' v hv => (hp e' v hv).trans (h.2 e' v hv)⟩

theorem sendPage_maps (value : ℕ) (h : Typed k role l) (hb : Bounded k) (hd : k.Dst) {envid srcva perm : ℕ}
    (he : envid2env k c envid false = some e) (hr : (k.envs e).recving = true) (hperm : srcva < UTOP → perm < PGSIZE) :
    Run (sendPage c e srcva perm) (k.setEnv e { k.envs e with perm := 0 })
      (fun _ k' => Maps c (.ipcTrySend envid value srcva perm) k role k' ∧ (k'.envs e).status = (k.envs e).status ∧
        Posted c e srcva perm k k')
      fun f k' => f.IsPanic ∨ Maps c (.ipcTrySend envid value srcva perm) k role k' := by
  obtain ⟨h0, hp0⟩ := h.setEnv (e := e) (w := { k.envs e with perm := 0 }) rfl .rfl
  have hself : (k.setEnv e { k.envs e with perm := 0 }).envs e = { k.envs e with perm := 0 } := setEnv_self
  have hm0 : Maps c (.ipcTrySend envid value srcva perm) k role (k.setEnv e { k.envs e with perm := 0 }) :=
    (Maps.refl c (.ipcTrySend envid value srcva perm) h).setEnv rfl .rfl
  have hb0 : Bounded (k.setEnv e { k.envs e with perm := 0 }) := fun q => by
    rw [KernSt.mapCount_congr hp0]
    exact hb q
  have hdst : ((k.setEnv e { k.envs e with perm := 0 }).envs e).dstva = (k.envs e).dstva := by rw [hself]
  unfold sendPage
  refine .getBind ?_
  split
  next hs =>
    refine .getBind ?_
    rw [hdst]
    refine .step (sharePage_typed h0 hb0 hs.1 (hd e) (hperm hs.1)) ?_ ?_
    · rintro f k' (hf | rfl)
      · exact .inl hf
      · exact .inr hm0
    · rintro _ k' ⟨⟨role', l', ht, heff, hsame⟩, pte, hpte, hmap⟩
      have heff' : Effect e (fun v => v = (k.envs e).dstva / PGSIZE) k role k' := heff.before (fun _ _ _ => ⟨rfl, rfl⟩) hp0 fun _ => id
      have hm : Maps c (.ipcTrySend envid value srcva perm) k role k' :=
        ⟨e, _, role', l', ht, heff', .inr ⟨envid, value, srcva, perm, rfl, he, hr, fun _ hv => hv⟩⟩
      refine .modify ⟨hm.setEnv rfl .rfl, ?_, ?_⟩
      · refine (congrArg Env.status setEnv_self).trans ?_
        show (k'.envs e).status = _
        rw [hsame.envs, hself]
      · unfold Posted
        rw [hdst] at hs
        rw [if_pos hs, congrArg Env.perm setEnv_self]
        refine ⟨rfl, pte, ⟨(hp0 c _ (vpn_lt hs.1)).symm.trans hpte.1, hpte.2⟩, fun e' v hv => ?_⟩
        rw [(ht.setEnv (e := e) (w := { k'.envs e with perm := perm }) rfl Iff.rfl).2 e' v hv, hmap e' v hv, hp0 e' v hv]
  next hs =>
    rw [hdst] at hs
    exact .pure ⟨hm0, by rw [hself], by unfold Posted; rw [if_neg hs, hself]; exact ⟨rfl, hp0⟩⟩

theorem sysIpcTrySend_posted (h : Typed k role l) (hb : Bounded k) (hd : k.Dst) (hc : k.Live c)
    (envid value srcva perm : ℕ) :
    Run (sysIpcTrySend c envid value srcva perm) k
      (fun _ k' => Maps c (.ipcTrySend envid value srcva perm) k role k' ∧ (srcva < UTOP → permOk perm = true) ∧
        ∃ e, envid2env k c envid false = some e ∧ Posted c e srcva perm k k')
      fun f k' => f.IsPanic ∨ Maps c (.ipcTrySend envid value srcva perm) k role k' := by
  unfold sysIpcTrySend
  split
  · exact .throw (.inr (Maps.refl c _ h))
  next hperm =>
  have hperm : srcva < UTOP → permOk perm = true := fun hs => by
    simp only [hs, true_and, Bool.or_eq_true, Bool.not_eq_true', not_or, Bool.not_eq_false] at hperm
    exact hperm.2
  refine run_lookupEnv (fun _ => .inr (Maps.refl c _ h)) fun e he => .getBind ?_
  split
  · exact .throw (.inr (Maps.refl c _ h))
  next hr =>
    refine .modifyBind (.bind (sendPage_maps value h hb hd he (by simpa using hr) fun hs => permOk_lt (hperm hs)) ?_)
    rintro _ k1 ⟨hm, hst, hpost⟩
    have hfree : Status.runnable = .free ↔ (k1.envs e).status = .free :=
      ⟨by simp, fun hf => absurd (hst ▸ hf) (envid2env_live he hc).2⟩
    refine .modifyBind (.pure ⟨hm.setEnv rfl hfree, hperm, e, he, ?_⟩)
    obtain ⟨-, -, role', l', ht, -⟩ := hm
    exact hpost.congr (by rw [setEnv_self]) (ht.setEnv (by rfl) (by exact hfree)).2

theorem sysIpcTrySend_maps (h : Typed k role l) (hb : Bounded k) (hd : k.Dst) (hc : k.Live c)
    (envid value srcva perm : ℕ) :
    Mapping c (.ipcTrySend envid value srcva perm) role (sysIpcTrySend c envid value srcva perm) k :=
  (sysIpcTrySend_posted h hb hd hc envid value srcva perm).post (fun _ _ h => h.1)

theorem sysIpcRecv_maps (h : Typed k role l) (hc : k.Live c) (dstva : ℕ) :
    Mapping c (.ipcRecv dstva) role (sysIpcRecv c dstva) k := by
  unfold sysIpcRecv
  split
  · exact .fails h _
  · exact .modifyBind (.pure ((Maps.refl c _ h).setEnv rfl ⟨by simp, fun hf => absurd hf hc.2⟩))

/-- Every call of a live env. -/
theorem syscall_maps (h : Typed k role l) (hb : Bounded k) (hd : k.Dst) (hc : k.Live c)
    (s : Call) : Mapping c s role (syscall c s) k := by
  cases s with
  | pageAlloc envid va perm => exact sysPageAlloc_maps h hb hc envid va perm
  | pageMap srcenvid srcva dstenvid dstva perm => exact sysPageMap_maps h hb srcenvid srcva dstenvid dstva perm
  | pageUnmap envid va => exact sysPageUnmap_maps h hb envid va
  | exofork => exact sysExofork_maps h
  | envSetStatus envid st => exact sysEnvSetStatus_maps h hc envid st
  | envSetTrapframe envid va tf => exact sysEnvSetTrapframe_maps h hb envid va tf
  | envSetPgfaultUpcall envid func =>
    exact .lookup h fun e _ => .modifyBind (.pure ((Maps.refl c _ h).setEnv rfl .rfl))
  | envSetTransaction envid t =>
    exact .lookup h fun e _ => .modifyBind (.pure ((Maps.refl c _ h).setEnv rfl .rfl))
  | envDestroy envid => exact sysEnvDestroy_maps h hb envid
  | ipcTrySend envid value srcva perm => exact sysIpcTrySend_maps h hb hd hc envid value srcva perm
  | ipcRecv dstva => exact sysIpcRecv_maps h hc dstva
  | yield => exact .pure (Maps.refl c _ h)
  | userMem va len perm r => exact sysUserMem_maps h hb va len perm r
  | query r => exact .pure (Maps.refl c _ h)
  | unknown => exact .fails h _

/-! ### Traps -/

theorem Typed.save (h : Typed k role l) (c : ℕ) (tf : Trapframe) : Typed (k.save c tf) role l ∧
    k.SameMaps (k.save c tf) := h.setEnv rfl .rfl

/-- Which env an id stands for does not depend on a frame. -/
theorem envid2env_save (k : KernSt) (c : ℕ) (tf : Trapframe) (c' envid : ℕ) (b : Bool) :
    envid2env (k.save c tf) c' envid b = envid2env k c' envid b := by
  unfold envid2env
  rw [k.save_envs c tf (envx envid), k.save_envs c tf c']

theorem Reach.of_save {tf : Trapframe} (h : Reach c (k.save c tf) s e V) : Reach c k s e V := by
  unfold Reach Owns at h ⊢
  rw [k.save_envs c tf e, k.save_envs c tf c] at h
  simp only [envid2env_save] at h
  exact h

theorem Maps.of_save {tf : Trapframe} (h : Typed k role l) (hm : Maps c s (k.save c tf) role k') : Maps c s k role k' := by
  obtain ⟨e, V, role', l', ht, he, hr⟩ := hm
  exact ⟨e, V, role', l', ht, he.before (fun _ _ _ => ⟨rfl, rfl⟩) (h.save c tf).2 fun _ => id, hr.of_save⟩

theorem Bounded.save (h : Typed k role l) (hb : Bounded k) (tf : Trapframe) : Bounded (k.save c tf) := fun q => by
  rw [KernSt.mapCount_congr (h.save c tf).2]
  exact hb q

/-- The call a trap makes; any other trap acts on the env itself, as a call may. -/
def Trap.call : Trap → Call
  | .syscall s => s
  | _ => .yield

/-- Every trap of a live env. -/
theorem trap_maps (h : Typed k role l) (hb : Bounded k) (hd : k.Dst) (hc : k.Live c)
    (tf : Trapframe) (t : Trap) : Run (trap c tf t) k (fun _ k' => Maps c t.call k role k') fun f _ => f.IsPanic := by
  obtain ⟨hs, -⟩ := h.save c tf
  have hbs : Bounded (k.save c tf) := hb.save h tf
  have hdie : ∀ s, Run (envFree c) (k.save c tf) (fun _ k' => Maps c s k role k') fun f _ => f.IsPanic := fun s =>
    (envFree_maps s hs hbs (.inl rfl)).post (fun _ _ hm => hm.of_save h)
  unfold trap
  refine .modifyBind ?_
  cases t with
  | syscall s =>
    have hds : (k.save c tf).Dst := fun e => by
      rw [k.save_envs c tf e]
      exact hd e
    refine dispatchCall_run (syscall_maps hs hbs hds (hc.save tf) s) (fun v k' hm => ?_) (fun k' hm => ?_)
      (fun er k' hm => ?_) fun p k' _ => ⟨p, rfl⟩
    · exact .modify ((hm.of_save h).setEnv rfl .rfl)
    · exact hm.of_save h
    · rcases hm with ⟨_, hf⟩ | hm
      · cases hf
      · exact .modify ((hm.of_save h).setEnv rfl .rfl)
  | pgflt => exact pageFaultHandler_run (hdie _) (((Maps.refl c _ hs).of_save h).setEnv rfl .rfl)
  | irq => exact .pure ((Maps.refl c _ hs).of_save h)
  | unexpected => exact hdie _

/-! ### The addresses envs receive at -/

/-- The address a slot receives at is set by `sys_ipc_recv` only. -/
theorem Did.dstva {T : Slots} {r : Except Err (Option ℕ)} (h : Did c k s r T) (e : ℕ) :
    (T.envs e).dstva = (k.envs e).dstva ∨
      e = c ∧ ∃ dstva, s = .ipcRecv dstva ∧ (dstva < UTOP → dstva % PGSIZE = 0) ∧
        (T.envs e).dstva = if dstva < UTOP then dstva else 0 := by
  let P : ℕ → Env → Prop := fun e w => w.dstva = (k.envs e).dstva
  have hs : ∀ e, P e (k.slots.envs e) := fun _ => rfl
  cases h with
  | failed hT => exact .inl (hT ▸ hs e)
  | quiet hT => exact .inl (hT ▸ hs e)
  | fork => exact .inl (all_update (P := P) hs (by rfl) e)
  | status => exact .inl (all_set (P := P) hs (by rfl) e)
  | frame => exact .inl (all_set (P := P) hs (by rfl) e)
  | deadFrame envid va e' =>
    have hdrop : ∀ e, P e ((k.slots.drop e').envs e) := all_drop (P := P) hs rfl
    exact .inl (all_set (P := P) hdrop (by exact hdrop e') e)
  | suicide s hfat hp hT => exact .inl (hT ▸ all_drop (P := P) hs (by rfl) e)
  | upcall => exact .inl (all_set (P := P) hs (by rfl) e)
  | transaction => exact .inl (all_set (P := P) hs (by rfl) e)
  | destroy => exact .inl (all_drop (P := P) hs (by rfl) e)
  | refused => exact .inl (all_set (P := P) hs (by rfl) e)
  | sent => exact .inl (all_set (P := P) hs (by rfl) e)
  | recv dstva hal =>
    by_cases hec : e = c
    · exact .inr ⟨hec, dstva, rfl, hal, by rw [hec, Slots.set_self]⟩
    · exact .inl (by rw [Slots.set_ne hec]; rfl)

theorem Acted.dstva {T : Slots} {a : KAct} (h : Acted k a T) (e : ℕ) :
    (T.envs e).dstva = (k.envs e).dstva ∨ ∃ tf dstva, a = .trap e tf (.syscall (.ipcRecv dstva)) ∧
      (dstva < UTOP → dstva % PGSIZE = 0) ∧ (T.envs e).dstva = if dstva < UTOP then dstva else 0 := by
  let P : ℕ → Env → Prop := fun e w => w.dstva = (k.envs e).dstva
  have hs : ∀ e, P e (k.slots.envs e) := fun _ => rfl
  cases h with
  | trap c tf t T hc hr hu ht =>
    have hsave : ∀ e, P e ((k.save c tf).envs e) := fun e => by
      rw [k.save_envs c tf e]
    cases ht with
    | syscall s r T hdid =>
      obtain ⟨rs, hfin⟩ := T.finish_envs c r e
      rw [hfin]
      refine (hdid.dstva e).imp (fun h => h.trans (hsave e)) ?_
      rintro ⟨rfl, dstva, rfl, h⟩
      exact ⟨tf, dstva, rfl, h⟩
    | upcall esp => exact .inl (all_set (T := (k.save c tf).slots) (P := P) hsave (by exact hsave c) e)
    | died t hp hT => exact .inl (hT ▸ all_drop (T := (k.save c tf).slots) (P := P) hsave (by exact hsave c) e)
    | irq => exact .inl (hsave e)
  | calm a hT => exact .inl (hT ▸ hs e)
  | alloc parent e' p q hf hq hT => exact .inl (hT ▸ all_update (P := P) hs (by rfl) e)
  | create prog e' p q hf hq hT => exact .inl (hT ▸ all_update (P := P) hs (by rfl) e)
  | free e' hp hT => exact .inl (hT ▸ all_drop (P := P) hs (by rfl) e)

theorem KernSt.Dst.acted {T : Slots} {a : KAct} (hd : k.Dst) (h : Acted k a T) : ∀ e, (T.envs e).dstva < UTOP := by
  intro e
  rcases h.dstva e with he | ⟨-, dstva, -, -, he⟩
  · rw [he]
    exact hd e
  · rw [he]
    split
    · assumption
    · decide

end

end Kern
end Jos
