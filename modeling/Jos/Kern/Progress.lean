/-
# Calls that succeed

What the calls come to when nothing is in their way: the env they name may be
changed, there are pages, and the memory they use is mapped. Runs on a machine
that has booted with two programs are put together from them.

Key definitions: `smallMemory`, `Mapped`, `Family`.
Key theorems: `exists_booted`, `kstep_call`, `pageAlloc_ok`, `pageMap_ok`, `exofork_ok`, `setTrapframe_ok`.
-/
import Jos.Kern.Boot

namespace Jos
namespace Kern

open Fs (NENV PGSIZE envx nextEnvid)
open Function

/-- A machine of 4 MB. -/
def smallMemory : Machine where
  npage := 1024
  freemem := 256
  bootPgdir := 256
  mem := fun _ _ => .zero
  boot := ⟨0, 0, 0⟩
  low := by decide
  alloc := by decide
  high := by decide
  fits := by decide

/-- A program of one page. -/
def onePage : Program := ⟨[(0x800, 1)], 0x800020⟩

theorem onePage_fits : onePage.Fits := by
  intro g hg
  obtain rfl := List.mem_singleton.mp hg
  decide

/-- The machine boots with the idle env in slot 0 and the file server in slot 1. -/
theorem exists_booted : ∃ k role l, smallMemory.Boots [onePage, onePage] k ∧ Typed k role l ∧ Bounded k ∧
    Started [onePage, onePage] k ∧ 800 ≤ l.length ∧ k.npage = 1024 := by
  have hf : ∀ prog ∈ [onePage, onePage], prog.Fits := by
    intro prog hp
    simp only [List.mem_cons, List.not_mem_nil, or_false, or_self] at hp
    exact hp ▸ onePage_fits
  obtain ⟨k, role, l, hb, ht, hbd, hs, hl, hn⟩ := exists_boots smallMemory [onePage, onePage] hf (by decide) (by decide)
  refine ⟨k, role, l, hb, ht, hbd, hs, ?_, hn⟩
  have h1 : needs [onePage, onePage] = 10 := by decide
  have h2 : smallMemory.npage - smallMemory.freemem = 768 := by decide
  omega

theorem Started.status {progs : List Program} {k : KernSt} {e : ℕ} (h : Started progs k) (he : e < progs.length) :
    (k.envs e).status = .runnable ∧ (k.envs e).pgdir ≠ none := by
  obtain ⟨d, hd⟩ := h.envs e he
  rw [hd]
  exact ⟨rfl, fun hc => nomatch hc⟩

section
variable {k k' k1 : KernSt} {role role' : ℕ → Role} {l l' le : List ℕ} {c e envid : ℕ} {s : Call} {r : Option ℕ} {tf : Trapframe}

/-- A call of the env in slot `c`, with the frame it was resumed with. -/
def callOf (k : KernSt) (c : ℕ) (s : Call) : KAct := .trap c (k.envs c).tf (.syscall s)

theorem userFrame_refl (tf : Trapframe) : userFrame tf tf = true := by
  unfold userFrame
  simp

/-- The state when a call that returns `r` is over. -/
def KernSt.finish (k : KernSt) (c : ℕ) : Option ℕ → KernSt
  | some v => k.setEnv c { k.envs c with tf := { (k.envs c).tf with regs := { (k.envs c).tf.regs with eax := v } } }
  | none => k

theorem KernSt.save_same (k : KernSt) (c : ℕ) : k.save c (k.envs c).tf = k := by
  unfold KernSt.save KernSt.setEnv
  rw [show ({ k.envs c with tf := (k.envs c).tf } : Env) = k.envs c from rfl, update_eq_self]

theorem dispatchCall_eq (h : syscall c s k = .ok r k1) : dispatchCall c s k = .ok () (k1.finish c r) := by
  unfold dispatchCall
  rw [h]
  cases r <;> rfl

/-- A call that succeeds, as a step. -/
theorem kstep_call (hc : c < NENV) (hr : (k.envs c).status = .runnable) (h : syscall c s k = .ok r k1) :
    kstep (callOf k c s) k = .ok () (k1.finish c r) := by
  have htrap : trap c (k.envs c).tf (.syscall s) k = dispatchCall c s (k.save c (k.envs c).tf) := rfl
  show (if c < NENV ∧ (k.envs c).status = .runnable ∧ userFrame (k.envs c).tf (k.envs c).tf = true then
    trap c (k.envs c).tf (.syscall s) else pure ()) k = _
  rw [if_pos ⟨hc, hr, userFrame_refl _⟩, htrap, k.save_same, dispatchCall_eq h]

theorem KernSt.finish_slots (k : KernSt) (c : ℕ) (r : Option ℕ) : (k.finish c r).slots = k.slots.finish c (.ok r) := by
  cases r <;> rfl

/-- The end of a call changes registers only. -/
theorem KernSt.finish_envs (k : KernSt) (c : ℕ) (r : Option ℕ) (e : ℕ) :
    ∃ rs, (k.finish c r).envs e = { k.envs e with tf := { (k.envs e).tf with regs := rs } } := by
  rw [← KernSt.slots_envs, KernSt.finish_slots]
  exact k.slots.finish_envs c (.ok r) e

theorem Typed.finish (h : Typed k role l) (c : ℕ) (r : Option ℕ) :
    Typed (k.finish c r) role l ∧ k.SameMaps (k.finish c r) := by
  cases r with
  | none => exact ⟨h, fun _ _ _ => rfl⟩
  | some v => exact h.setEnv (by rfl) (by rfl)

theorem setStatus_ok {st : Status} (he : envid2env k c envid true = some e) (hne : st ≠ .free) (hst : st ≠ (k.envs e).status) :
    syscall c (.envSetStatus envid st) k = .ok (some 0) (k.setEnv e { k.envs e with status := st }) := by
  refine Run.eq_ok (run_lookup he (Run.getBind ?_))
  rw [if_neg (not_or.mpr ⟨hne, hst⟩)]
  exact .modifyBind (.pure ⟨rfl, rfl⟩)

theorem setTransaction_ok {t : ℕ} (he : envid2env k c envid false = some e) :
    syscall c (.envSetTransaction envid t) k = .ok (some 0) (k.setEnv e { k.envs e with trans := t }) :=
  Run.eq_ok (run_lookup he (Run.modifyBind (Run.pure ⟨rfl, rfl⟩)))

theorem recv_ok {dstva : ℕ} (hd : dstva < UTOP → dstva % PGSIZE = 0) : syscall c (.ipcRecv dstva) k =
    .ok none (k.setEnv c { k.envs c with
      dstva := if dstva < UTOP then dstva else 0, recving := true, status := .notRunnable }) := by
  refine Run.eq_ok ?_
  show Run (sysIpcRecv c dstva) k _ _
  unfold sysIpcRecv
  rw [if_neg fun hc => hc.2 (hd hc.1)]
  exact .modifyBind (.pure ⟨rfl, rfl⟩)

/-- `sys_ipc_try_send` when no page is sent, or the env does not take one. -/
theorem send_ok {value srcva perm : ℕ} (he : envid2env k c envid false = some e) (hr : (k.envs e).recving = true) (hec : c ≠ e)
    (hs : srcva < UTOP → (k.envs e).dstva = 0) (hp : srcva < UTOP → vaOk srcva = true ∧ permOk perm = true) :
    syscall c (.ipcTrySend envid value srcva perm) k = .ok (some 0) (k.setEnv e { k.envs e with
      perm := 0, recving := false, sender := (k.envs c).id, value := value, status := .runnable,
      tf := { (k.envs e).tf with regs := { (k.envs e).tf.regs with eax := 0 } } }) := by
  refine Run.eq_ok ?_
  show Run (sysIpcTrySend c envid value srcva perm) k _ _
  unfold sysIpcTrySend sendPage
  rw [if_neg fun hc => by simp [hp hc.1] at hc]
  refine run_lookup he (.getBind ?_)
  rw [hr, if_neg (by simp)]
  refine .modifyBind ?_
  rw [bind_assoc]
  refine .getBind ?_
  rw [if_neg fun hc => hc.2 ((congrArg Env.dstva setEnv_self).trans (hs hc.1)), pure_bind]
  refine .modifyBind (.pure ⟨rfl, ?_⟩)
  rw [setEnv_self, setEnv_ne hec]
  unfold KernSt.setEnv
  simp only [update_idem]

/-- `sys_exofork` when there is a page for the directory. -/
theorem exofork_ok (h : Typed k role l) (hl : l ≠ []) (hq : k.envFree.Holds (e :: le)) (hc : c ≠ e) :
    ∃ k1 p q role' l', syscall c .exofork k = .ok (some (nextEnvid (k.envs e).id e)) k1 ∧ q.Holds le ∧
      k1.slots = ⟨update k.envs e { k.slots.born e p (k.envs c).id with
        status := .notRunnable, tf := { (k.envs c).tf with regs := { (k.envs c).tf.regs with eax := 0 } } }, q⟩ ∧
      Typed k1 role' l' ∧ l.length = l'.length + 1 ∧ k1.npage = k.npage ∧ k.SameMaps k1 := by
  obtain ⟨q, hrem, hqle⟩ := hq.remove
  have hfirst := hq.first
  refine Run.use (x := sysExofork c) (s := k) fun R hR => ?_
  unfold sysExofork
  have hboth := (envAlloc_typed h (k.envs c).id).and (envAlloc_slots (k.envs c).id k)
  refine .getBind (.step hboth (fun _ _ h => h.1) ?_)
  rintro x k1 ⟨⟨er, rfl, rfl, hno⟩ | ⟨e', role', l', rfl, ht, hcr, hlen⟩, hslots⟩
  · rw [hfirst] at hno
    exact (hno.elim hl (by simp)).elim
  · obtain ⟨er, hc', -⟩ | ⟨e'', p, q', hok, hf, hq', hk1⟩ := hslots
    · cases hc'
    obtain rfl : e' = e'' := Except.ok.inj hok
    obtain rfl : e = e' := Option.mem_unique hfirst hf
    obtain rfl : q = q' := Option.mem_unique hrem hq'
    have hself : k1.envs e = k.slots.born e p (k.envs c).id := by
      rw [← KernSt.slots_envs, hk1]
      exact update_self ..
    have hother : k1.envs c = k.envs c := by
      rw [← KernSt.slots_envs, hk1]
      exact update_of_ne hc ..
    obtain ⟨ht', hp'⟩ := ht.setEnv (e := e) (w := { k1.envs e with
      status := .notRunnable, tf := { (k1.envs c).tf with regs := { (k1.envs c).tf.regs with eax := 0 } } }) rfl
      ⟨by simp, fun hf => by rw [hcr.runnable] at hf; cases hf⟩
    refine .modifyBind (.getBind (.pure fun hx =>
      ⟨_, p, q, role', l', (hR hx).trans ?_, hqle, ?_, ht', hlen, hcr.npage, fun e v hv => ?_⟩))
    · rw [setEnv_self, hself]
      rfl
    · rw [KernSt.slots_setEnv, hk1, hself, hother]
      unfold Slots.set
      simp only [update_idem]
    · rw [hp' e v hv, hcr.pteAt e v hv]

/-! ### Memory of an env -/

/-- The entries behind a mapping. -/
theorem pteAt_words {d va : ℕ} {pte : Pte} (hd : k.dirOf (some e) = some d) (hva : va < UTOP)
    (hp : k.pteAt e (va / PGSIZE) = some pte) :
    (k.word d (pdx va)).present = true ∧ k.word (k.word d (pdx va)).ppn (ptx va) = pte ∧ pte.present = true := by
  cases hpde : (k.word d (pdx va)).present with
  | false => 
    rw [Shape.pteAt_eq_none_of_entry hd (by rw [← pdx_eq hva]; exact hpde)] at hp
    cases hp
  | true =>
    rw [pteAt_va hd hva hpde] at hp
    split at hp
    next h =>
      obtain rfl := Option.some.inj hp
      exact ⟨rfl, rfl, h⟩
    next => cases hp

theorem any_of_present {pte : Pte} (h : pte.present = true) (mask : ℕ) : pte.any (mask ||| PTE_P) = true := by
  unfold Pte.present at h
  unfold Pte.any
  rw [bne_iff_ne, Nat.and_or_distrib_left, ne_eq, Nat.or_eq_zero_iff]
  exact fun hc => bne_iff_ne.mp h hc.2

/-- The last byte of an access inside one page. -/
theorem page_last {va len : ℕ} (hlen : 0 < len) (hfit : va % PGSIZE + len ≤ PGSIZE) :
    (va + len - 1) / PGSIZE = va / PGSIZE ∧ pdx (va + len - 1) = pdx va ∧ ptx (va + len - 1) = ptx va := by
  have h : (va + len - 1) / PGSIZE = va / PGSIZE := by
    simp only [PGSIZE] at *
    omega
  refine ⟨h, ?_, by unfold ptx; rw [h]⟩
  unfold pdx PTSIZE
  rw [← Nat.div_div_eq_div_mul, ← Nat.div_div_eq_div_mul, h]

/-- An access inside one page that is mapped. -/
theorem userMemCheck_page {d va len perm : ℕ} {pte : Pte} (hd : k.dirOf (some e) = some d) (hva : va < UTOP)
    (hp : k.pteAt e (va / PGSIZE) = some pte) (hlen : 0 < len) (hfit : va % PGSIZE + len ≤ PGSIZE) :
    userMemCheck k d va len perm = true := by
  obtain ⟨h1, h2, h3⟩ := pteAt_words hd hva hp
  obtain ⟨-, hpd, hpt⟩ := page_last hlen hfit
  have hU : UTOP = 4005560320 := by decide
  have hL : ULIM = 4018143232 := by decide
  have hP : PGSIZE = 4096 := by decide
  have hend : (va + len + (2 ^ 32 - 1)) % 2 ^ 32 = va + len - 1 := by omega
  unfold userMemCheck
  dsimp only
  rw [hend, hpd, hpt, Nat.add_sub_cancel_left]
  simp only [List.range_one, List.all_cons, List.all_nil, Nat.add_zero, if_pos, Nat.add_sub_cancel_left, h2, Bool.and_true,
    any_of_present h1, any_of_present h3, Bool.and_eq_true, decide_eq_true_eq]
  omega

theorem storeOk_page {d va len : ℕ} {pte : Pte} (h : Typed k role l) (hd : k.dirOf (some e) = some d) (hva : va < UTOP)
    (hp : k.pteAt e (va / PGSIZE) = some pte) (hw : pte.writable = true) (hlen : 0 < len) (hfit : va % PGSIZE + len ≤ PGSIZE) :
    storeOk k d va len = true := by
  obtain ⟨h1, h2, h3⟩ := pteAt_words hd hva hp
  obtain ⟨hpage, -, -⟩ := page_last hlen hfit
  have hw' := h.pde _ _ _ hd (entry_va hva) h1
  unfold storeOk
  rw [hpage, Nat.add_sub_cancel_left]
  rw [pdx_eq hva] at h1 h2 hw'
  have h2' : k.word (k.word d (va / PGSIZE / NPTENTRIES)).ppn (va / PGSIZE % NPTENTRIES) = pte := h2
  simp only [List.range_one, List.all_cons, List.all_nil, Nat.add_zero, h1, h2', h3, hw, hw', Bool.and_true]

/-- `sys_env_set_trapframe` of an env on itself, with the frame in memory it may write to. -/
theorem setTrapframe_ok {va : ℕ} {pte : Pte} (h : Typed k role l) (he : envid2env k c envid true = some c) (hva : va < UTOP)
    (hp : k.pteAt c (va / PGSIZE) = some pte) (hw : pte.writable = true) (hfit : va % PGSIZE + TF_SIZE ≤ PGSIZE) (tf : Trapframe) :
    syscall c (.envSetTrapframe envid va tf) k = .ok (some 0) (k.setEnv c { k.envs c with tf := userTf tf }) := by
  obtain ⟨d, hd⟩ := KernSt.pteAt_dir hp
  have hpd : (k.envs c).pgdir = some d := (KernSt.dirOf_some.mp hd).2.2
  refine Run.eq_ok (run_lookup he (Run.getBind (run_pgdirOf hpd ?_)))
  rw [if_pos (userMemCheck_page hd hva hp (by decide) hfit)]
  unfold storeFrame
  rw [if_neg]
  · refine .getBind (run_pgdirOf hpd ?_)
    rw [storeOk_page h hd hva hp hw (by decide) hfit, if_neg (by simp)]
    exact .modifyBind (.pure ⟨rfl, rfl⟩)
  · have hL : ULIM = UTOP + 3 * PTSIZE := by decide
    have hT : TF_SIZE < PTSIZE := by decide
    omega

/-- The state after a mapping of env `e` is made. -/
structure Mapped (e va p perm : ℕ) (k : KernSt) (role : ℕ → Role) (l : List ℕ) (k' : KernSt) (role' : ℕ → Role)
    (l' : List ℕ) : Prop where
  typed : Typed k' role' l'
  same : Same k k'
  pteAt : ∀ e', ∀ v < NUPAGES, k'.pteAt e' v =
    if e' = e ∧ v = va / PGSIZE then some ⟨p, perm ||| PTE_P⟩ else k.pteAt e' v
  room : l.length ≤ l'.length + 1
  spares : (∃ t, role t = .table (some e) (pdx va)) → l.length ≤ l'.length

theorem Same.slots (h : Same k k') : k'.slots = k.slots := by
  unfold KernSt.slots
  rw [h.envs, h.envFree]

/-- `page_insert` when there is a page for the table. -/
theorem pageInsert_mapped {d p va perm : ℕ} (h : Typed k role l) (hl : l ≠ []) (hd : k.dirOf (some e) = some d) (hva : va < UTOP)
    (hu : role p = .user) (hperm : perm < PGSIZE) (hb : ∀ q, k.target e (va / PGSIZE) = some q → k.mapCount q < 2 ^ 16) :
    Run (pageInsert d p va perm) k
      (fun r k' => r = true ∧ ∃ role' l', Mapped e va p perm k role l k' role' l' ∧ role' p = .user) fun _ _ => False := by
  refine (pageInsert_typed h hd hva hu hperm hb).post ?_
  rintro r k' ⟨role', l', hi⟩
  cases r with
  | false => exact absurd (hi.full.mp rfl).1 hl
  | true => exact ⟨rfl, role', l', ⟨hi.typed, hi.same, fun e' v hv => by rw [hi.pteAt e' v hv]; simp, hi.room, hi.spares⟩, hi.user⟩

/-- `sys_page_alloc` when there are pages for the mapping and its table. -/
theorem pageAlloc_ok (va perm : ℕ) (h : Typed k role l) (hl : 2 ≤ l.length) (he : envid2env k c envid true = some e)
    (hdir : (k.envs e).pgdir ≠ none) (hva : vaOk va = true) (hperm : permOk perm = true) (hw : perm &&& PTE_W ≠ 0)
    (hb : ∀ q, k.target e (va / PGSIZE) = some q → k.mapCount q < 2 ^ 16) :
    ∃ k1 p role' l', syscall c (.pageAlloc envid va perm) k = .ok (some 0) k1 ∧ Allocated e va p perm k role l k1 role' l' := by
  have hfound : ∀ {e'}, envid2env k c envid true = some e' → e' = e := fun he' => (Option.mem_unique he he').symm
  have henough : k.Enough e va := by
    match l, h.queue, hl with
    | p :: q :: l, hq, _ => exact ⟨p, q :: l, hq, by simp⟩
  have hrun := sysPageAlloc_typed h envid va perm (fun e' he' => hfound he' ▸ hdir) fun e' q he' => hfound he' ▸ hb q
  obtain ⟨r, k1, hx, rfl, -, e', p, role', l', he', ha⟩ := (hrun.mono (fun _ _ h => h) fun f k' hf => (show False by
    rcases hf with ⟨-, hpw, -⟩ | ⟨-, -, hno⟩
    · exact hw hpw
    · exact hno hva hperm e he henough)).exists_ok
  exact ⟨k1, p, role', l', hx, hfound he' ▸ ha⟩

/-- `sys_page_map` of a mapping, when there is a page for the table. -/
theorem pageMap_ok {src srcenvid : ℕ} {pte : Pte} (srcva dstva perm : ℕ) (h : Typed k role l) (hl : l ≠ [])
    (hs : envid2env k c srcenvid true = some src) (he : envid2env k c envid true = some e) (hdir : (k.envs e).pgdir ≠ none)
    (hsva : vaOk srcva = true) (hva : vaOk dstva = true) (hperm : permOk perm = true)
    (hp : k.pteAt src (srcva / PGSIZE) = some pte) (hw : perm &&& PTE_W ≠ 0 → pte.writable = true)
    (hb : ∀ q, k.target e (dstva / PGSIZE) = some q → k.mapCount q < 2 ^ 16) :
    ∃ k1 role' l', syscall c (.pageMap srcenvid srcva envid dstva perm) k = .ok (some 0) k1 ∧
      Mapped e dstva pte.ppn perm k role l k1 role' l' := by
  obtain ⟨ds, hds⟩ := KernSt.pteAt_dir hp
  obtain ⟨d, hd⟩ := Option.ne_none_iff_exists'.mp hdir
  have hd1 : k.dirOf (some e) = some d := by rw [h.dirOf_eq, hd]
  refine Run.use (x := sysPageMap c srcenvid srcva envid dstva perm) (s := k) fun R hR => ?_
  unfold sysPageMap
  rw [hsva, hva, hperm, if_neg (by simp), if_neg (by simp)]
  refine run_lookup hs (run_lookup he ?_)
  unfold sharePage
  simp only [bind_assoc]
  refine run_pgdirOf (KernSt.dirOf_some.mp hds).2.2 (.bind (pageLookup_typed h hds (vaOk_lt hsva)) ?_)
  rintro _ k1 ⟨rfl, ⟨-, hnone⟩ | ⟨t, rfl, hpte, -⟩⟩
  · rw [hp] at hnone
    cases hnone
  · rw [hp] at hpte
    obtain rfl := Option.some.inj hpte
    dsimp only
    simp only [bind_assoc]
    refine .getBind ?_
    rw [if_neg]
    · simp only [bind_assoc]
      refine run_pgdirOf hd (.bind
        (pageInsert_mapped h hl hd1 (vaOk_lt hva) (h.user src _ (vpn_lt (vaOk_lt hsva)) _ hp) (permOk_lt hperm) hb) ?_)
      rintro _ k2 ⟨rfl, role', l', hm, -⟩
      rw [if_pos rfl]
      exact .pure fun hx => ⟨k2, role', l', hR hx, hm⟩
    · simp only [Bool.and_eq_true, bne_iff_ne, Bool.not_eq_true', not_and, Bool.not_eq_false]
      exact hw

/-! ### A parent and a child -/

/-- The env in slot 0 runs, and the one in slot 2 is its child. -/
structure Family (k : KernSt) (st : Status) (rcv : Bool) : Prop where
  id : (k.envs 0).id = 4096
  runs : (k.envs 0).status = .runnable
  child : (k.envs 2).id = 4098
  parent : (k.envs 2).parent = 4096
  status : (k.envs 2).status = st
  recving : (k.envs 2).recving = rcv

variable {st : Status} {rcv : Bool}

theorem Family.lookup (h : Family k st rcv) (hst : st ≠ .free) (b : Bool) : envid2env k 0 4098 b = some 2 := by
  have hx : envx 4098 = 2 := by decide
  unfold envid2env
  rw [if_neg (by decide), hx, h.status, h.child, h.parent, h.id, if_neg (by simp [hst]), if_neg (by simp)]

/-- Nothing of this depends on frames. -/
theorem Family.congr (h : Family k st rcv) (h0 : ∃ tf, k'.envs 0 = { k.envs 0 with tf := tf })
    (h2 : ∃ tf, k'.envs 2 = { k.envs 2 with tf := tf }) : Family k' st rcv := by
  obtain ⟨tf0, h0⟩ := h0
  obtain ⟨tf2, h2⟩ := h2
  exact ⟨by rw [h0]; exact h.id, by rw [h0]; exact h.runs, by rw [h2]; exact h.child, by rw [h2]; exact h.parent,
    by rw [h2]; exact h.status, by rw [h2]; exact h.recving⟩

theorem Family.finish (h : Family k st rcv) (c : ℕ) (r : Option ℕ) : Family (k.finish c r) st rcv := by
  have hf : ∀ e, ∃ tf, (k.finish c r).envs e = { k.envs e with tf := tf } := fun e =>
    (k.finish_envs c r e).imp' _ fun _ h => h
  exact h.congr (hf 0) (hf 2)

/-- The parent forks. -/
theorem exists_family : ∃ k₀ k role l, smallMemory.Boots [onePage, onePage] k₀ ∧ Started [onePage, onePage] k₀ ∧
    kstep (callOf k₀ 0 .exofork) k₀ = .ok () k ∧ Family k .notRunnable false ∧ Typed k role l ∧ 700 ≤ l.length ∧
    (∀ v < NUPAGES, k.pteAt 2 v = none) ∧ k.npage = 1024 ∧ k.envFree.Holds (List.range' 3 1021) := by
  obtain ⟨k₀, role, l, hb, ht, -, hs, hl, hn⟩ := exists_booted
  obtain ⟨d0, h0⟩ := hs.envs 0 (by decide)
  have h2 := hs.rest 2 (by decide)
  have hq : k₀.envFree.Holds (2 :: List.range' 3 1021) := hs.queue
  obtain ⟨k1, p, q, role1, l1, hcall, hq1, hslots, ht1, hlen, hn1, hpte⟩ :=
    exofork_ok (c := 0) ht (fun hc => by rw [hc] at hl; cases hl) hq (by decide)
  have hrun : (k₀.envs 0).status = .runnable := by rw [h0]; rfl
  refine ⟨k₀, _, role1, l1, hb, hs, kstep_call (by decide) hrun hcall, Family.finish ?_ 0 _, (ht1.finish 0 _).1, by omega,
    fun v hv => ?_, hn1.trans hn, ?_⟩
  rotate_left
  · rw [(ht1.finish 0 _).2 2 v hv, hpte 2 v hv]
    exact Shape.pteAt_eq_none_of_dirOf (by rw [ht.dirOf_eq, h2])
  · rw [show (k1.finish 0 _).envFree = k1.slots.free from rfl, hslots]
    exact hq1
  have h1 : k1.envs 2 = { k₀.slots.born 2 p (k₀.envs 0).id with
      status := .notRunnable, tf := { (k₀.envs 0).tf with regs := { (k₀.envs 0).tf.regs with eax := 0 } } } := by
    rw [← KernSt.slots_envs, hslots]
    exact update_self (2 : ℕ) _ k₀.envs
  have h10 : k1.envs 0 = k₀.envs 0 := by
    rw [← KernSt.slots_envs, hslots]
    simp
  refine ⟨by rw [h10, h0]; rfl, by rw [h10, hrun], ?_, by rw [h1, h0]; rfl, by rw [h1], by rw [h1]; rfl⟩
  rw [h1]
  show nextEnvid (k₀.envs 2).id 2 = 4098
  rw [h2]
  decide

/-- The child changes, but for its id and its parent. -/
theorem Family.setChild {w : Env} (h : Family k st rcv) (hid : w.id = (k.envs 2).id) (hp : w.parent = (k.envs 2).parent) :
    Family (k.setEnv 2 w) w.status w.recving := by
  have h0 : (k.setEnv 2 w).envs 0 = k.envs 0 := setEnv_ne (by decide)
  have h2 : (k.setEnv 2 w).envs 2 = w := setEnv_self
  exact ⟨by rw [h0]; exact h.id, by rw [h0]; exact h.runs, by rw [h2, hid]; exact h.child,
    by rw [h2, hp]; exact h.parent, by rw [h2], by rw [h2]⟩

/-- The parent makes its child runnable. -/
theorem Family.start (h : Family k .notRunnable rcv) :
    ∃ k', kstep (callOf k 0 (.envSetStatus 4098 .runnable)) k = .ok () k' ∧ Family k' .runnable rcv := by
  have hcall : syscall 0 (.envSetStatus 4098 .runnable) k = _ :=
    setStatus_ok (h.lookup (by simp) true) (by simp) (by rw [h.status]; simp)
  refine ⟨_, kstep_call (by decide) h.runs hcall, Family.finish ?_ 0 _⟩
  rw [← h.recving]
  exact h.setChild (w := { k.envs 2 with status := .runnable }) rfl rfl

theorem Family.recv (h : Family k .runnable rcv) :
    ∃ k', kstep (callOf k 2 (.ipcRecv UTOP)) k = .ok () k' ∧ Family k' .notRunnable true :=
  ⟨_, kstep_call (by decide) h.status (recv_ok fun hc => absurd hc (lt_irrefl _)),
    Family.finish (h.setChild (w := { k.envs 2 with dstva := _, recving := true, status := .notRunnable }) rfl rfl) 2 _⟩

end

end Kern
end Jos
