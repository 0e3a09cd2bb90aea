/-
# Who may change an env

A call of an env changes its own slot and page tables and those of its children. Of
any other env it changes nothing, unless it sends to an env that receives: then
the fields of the message, the saved `eax`, the status and the mapping
at `env_ipc_dstva`. The exception is `sys_env_set_transaction`, which looks its env up
without the check: any env can set `env_trans` of any other.

New mappings show pages from the free list or pages that some env had mapped, writable
only if they were, so a page that nobody may write to stays so while it is not
allocated again.

Key definitions: `Kept`, `Received`, `Respects`, `Trespass`, `Unwritable`.
Key theorems: `respects_of_run`, `authority_of_run`.
-/
import Jos.Kern.Isolation

namespace Jos
namespace Kern

open Fs (NENV PGSIZE envx)
open Slots (drop_ne set_ne set_self)

/-! ### Frames of calls -/

/-- The slot, the page directory and the page tables of env `e` are the same. -/
structure Kept (e : ℕ) (k k' : KernSt) : Prop where
  env : k'.envs e = k.envs e
  tables : ∀ d, k.dirOf (some e) = some d → k'.word d = k.word d ∧
    ∀ i < pdx UTOP, (k.word d i).present = true → k'.word (k.word d i).ppn = k.word (k.word d i).ppn

/-- What a message may change in the env that receives. -/
structure Received (e : ℕ) (k k' : KernSt) : Prop where
  recving : (k.envs e).recving = true
  env : ∃ perm recving sender value status eax, k'.envs e = { k.envs e with
    perm := perm, recving := recving, sender := sender, value := value, status := status,
    tf := { (k.envs e).tf with regs := { (k.envs e).tf.regs with eax := eax } } }
  pteAt : ∀ v < NUPAGES, v ≠ (k.envs e).dstva / PGSIZE → k'.pteAt e v = k.pteAt e v

/-- The call `s` sends to env `e`. -/
def SendsTo (c : ℕ) (s : Call) (k : KernSt) (e : ℕ) : Prop :=
  ∃ envid value srcva perm, s = .ipcTrySend envid value srcva perm ∧ envid2env k c envid false = some e

/-- The call changes the live envs that are not the caller's as it may. -/
def Respects (c : ℕ) (s : Call) (k k' : KernSt) : Prop :=
  ∀ e, k.Live e → ¬ Owns k c e → Kept e k k' ∨ SendsTo c s k e ∧ Received e k k'

/-- A call that changes `env_trans` of an env that is not the caller's. -/
def Trespass (c : ℕ) (s : Call) (k : KernSt) : Prop :=
  ∃ envid t e, s = .envSetTransaction envid t ∧ envid2env k c envid false = some e ∧ ¬ Owns k c e ∧ (k.envs e).trans ≠ t

section
variable {k k' : KernSt} {role role' : ℕ → Role} {l l' : List ℕ} {c e : ℕ} {s : Call} {r : Except Err (Option ℕ)} {T : Slots}
  {tf : Trapframe} {V : ℕ → Prop}

/-- The slot of an env that is not the caller's, after a call. -/
theorem Did.foreign (h : Did c k s r T) (hk : k.slots.Sound) (hlive : k.Live e) (ho : ¬ Owns k c e) :
    T.envs e = k.envs e ∨ (SendsTo c s k e ∧ (k.envs e).recving = true ∧ ∃ perm recving sender value status eax,
      T.envs e = { k.envs e with
        perm := perm, recving := recving, sender := sender, value := value, status := status,
        tf := { (k.envs e).tf with regs := { (k.envs e).tf.regs with eax := eax } } }) ∨
    ∃ envid t, s = .envSetTransaction envid t ∧ envid2env k c envid false = some e ∧
      T.envs e = { k.envs e with trans := t } := by
  have hec : e ≠ c := fun hc => ho (.inl hc)
  have hne : ∀ {envid e'}, envid2env k c envid true = some e' → e ≠ e' := fun he hc => ho (hc ▸ envid2env_owns he)
  cases h with
  | failed hT => exact .inl (by rw [hT]; rfl)
  | quiet hT hs => exact .inl (by rw [hT]; rfl)
  | fork e' p q hf hq =>
    refine .inl (Function.update_of_ne (fun hc => ?_) ..)
    exact hlive.2 (hc ▸ (hk.first hf).2)
  | status envid e' st he hst => exact .inl (set_ne (hne he))
  | frame envid va e' tf he => exact .inl (set_ne (hne he))
  | deadFrame envid va e' tf he hec' hp => exact .inl ((set_ne (hne he)).trans (drop_ne (hne he)))
  | suicide s hs hp hT => exact .inl (by rw [hT]; exact drop_ne hec)
  | upcall envid func e' he => exact .inl (set_ne (hne he))
  | transaction envid t e' he =>
    by_cases h : e = e'
    · subst h
      exact .inr (.inr ⟨envid, t, rfl, he, set_self⟩)
    · exact .inl (set_ne h)
  | destroy envid e' he hec' hp => exact .inl (drop_ne (hne he))
  | refused envid value srcva perm e' er he hr =>
    by_cases h : e = e'
    · subst h
      exact .inr (.inl ⟨⟨envid, value, srcva, perm, rfl, he⟩, hr, 0, (k.envs e).recving, (k.envs e).sender, (k.envs e).value,
        (k.envs e).status, (k.envs e).tf.regs.eax, set_self⟩)
    · exact .inl (set_ne h)
  | sent envid value srcva perm e' n he hr =>
    by_cases h : e = e'
    · subst h
      exact .inr (.inl ⟨⟨envid, value, srcva, perm, rfl, he⟩, hr, n, false, (k.envs c).id, value, .runnable, 0, set_self⟩)
    · exact .inl (set_ne h)
  | recv dstva => exact .inl (set_ne hec)

/-- Page tables that a call does not reach. -/
theorem Effect.tables {e' : ℕ} (h : Effect e' V k role k') (hs : Shape k role) (hne : e ≠ e') {d : ℕ} (hd : k.dirOf (some e) = some d) :
    k'.word d = k.word d ∧ ∀ i < pdx UTOP, (k.word d i).present = true → k'.word (k.word d i).ppn = k.word (k.word d i).ppn := by
  have ho : (some e : Option ℕ) ≠ some e' := fun hc => hne (Option.some.inj hc)
  exact ⟨h.frame d _ ho (.inl (hs.dir_of hd)), fun i hi hp => h.frame _ _ ho (.inr ⟨i, hs.table_of hd hi hp⟩)⟩

theorem Owns.save : Owns (k.save c tf) c e ↔ Owns k c e := by
  unfold Owns
  rw [k.save_envs c tf e, k.save_envs c tf c]

/-- The mappings of an env that is not the caller's. -/
theorem Effect.foreign {e' : ℕ} (h : Effect e' V k role k') (hr : Reach c k s e' V) (ho : ¬ Owns k c e) :
    ∀ v < NUPAGES, v ≠ (k.envs e).dstva / PGSIZE → k'.pteAt e v = k.pteAt e v := by
  refine fun v hv hne => h.pteAt e v hv ?_
  rintro ⟨rfl, hV⟩
  rcases hr with hr | ⟨-, -, -, -, -, -, -, hr⟩
  · exact ho hr
  · exact hne (hr v hV)

theorem Typed.respects (h : Typed k role l) (hb : Bounded k) (hd : k.Dst) (hg : k.CanTrap c tf)
    (hk : kstep (.trap c tf (.syscall s)) k = .ok () k') (hs : ¬ Trespass c s k) : Respects c s k k' := by
  obtain ⟨e', V, role', l', -, heff, hreach⟩ : Maps c s k role k' :=
    (trap_maps h hb hd (KernSt.live_of_runnable hg.1 hg.2.1) tf (.syscall s)).of_ok ((kstep_trap hg).mp hk)
  obtain ⟨r, T, hdid, hT, -⟩ := h.sound.call hg hk
  intro e hlive ho
  have hec : e ≠ c := fun hc => ho (.inl hc)
  have hsave : (k.save c tf).envs e = k.envs e := k.save_ne tf hec
  have hk' : k'.envs e = T.envs e := by
    rw [← KernSt.slots_envs, hT]
    exact T.finish_ne hec r
  -- the page tables change only if the call sends to the env
  have hkept : k'.envs e = k.envs e → ¬ (SendsTo c s k e ∧ (k.envs e).recving = true) → Kept e k k' := fun henv hns => by
    refine ⟨henv, fun d hd => heff.tables h.toShape ?_ hd⟩
    rintro rfl
    rcases hreach with ho' | ⟨envid, value, srcva, perm, hcall, he, hrec, -⟩
    · exact ho ho'
    · exact hns ⟨⟨envid, value, srcva, perm, hcall, he⟩, hrec⟩
  have hpte := heff.foreign hreach ho
  rcases hdid.foreign (h.sound.save c tf) (e := e) (by unfold KernSt.Live; rw [hsave]; exact hlive) (fun hc => ho (Owns.save.mp hc)) with
    h1 | ⟨⟨envid, value, srcva, perm, hcall, he⟩, hrec, hf⟩ | ⟨envid, t, rfl, he, hw⟩
  · have henv : k'.envs e = k.envs e := by rw [hk', h1, hsave]
    by_cases hsend : SendsTo c s k e ∧ (k.envs e).recving = true
    · exact .inr ⟨hsend.1, hsend.2, ⟨_, _, _, _, _, _, henv⟩, hpte⟩
    · exact .inl (hkept henv hsend)
  · refine .inr ⟨⟨envid, value, srcva, perm, hcall, by rw [← envid2env_save k c tf]; exact he⟩, ?_, ?_, hpte⟩
    · rw [← hsave]
      exact hrec
    · rw [hk', ← hsave]
      exact hf
  · rw [envid2env_save] at he
    have htrans : (k.envs e).trans = t := by
      by_contra hne
      exact hs ⟨envid, t, e, rfl, he, ho, hne⟩
    refine .inl (hkept ?_ ?_)
    · rw [hk', hw, hsave, ← htrans]
    · rintro ⟨⟨_, _, _, _, hc, -⟩, -⟩
      cases hc

/-- A call that trespasses changes the env. -/
theorem Trespass.breaks (hg : k.CanTrap c tf) (hk : kstep (.trap c tf (.syscall s)) k = .ok () k')
    (hs : Trespass c s k) : ¬ Respects c s k k' := by
  obtain ⟨envid, t, e, rfl, he, ho, hne⟩ := hs
  have hec : e ≠ c := fun hc => ho (.inl hc)
  have hcall : dispatchCall c (.envSetTransaction envid t) (k.save c tf) = .ok () (_ : KernSt) :=
    dispatchCall_eq (setTransaction_ok (by rw [envid2env_save]; exact he))
  obtain rfl : _ = k' := EStateM.Result.ok.inj (hcall.symm.trans ((kstep_trap hg).mp hk)) |>.2
  intro hres
  have hw : (((k.save c tf).setEnv e { (k.save c tf).envs e with trans := t }).finish c (some 0)).envs e =
      { k.envs e with trans := t } := by
    rw [← KernSt.slots_envs, KernSt.finish_slots, Slots.finish_ne _ hec, KernSt.slots_envs, setEnv_self, k.save_ne tf hec]
  rcases hres e (envid2env_live he (KernSt.live_of_runnable hg.1 hg.2.1)) ho with hkept | ⟨⟨_, _, _, _, hcall, -⟩, -⟩
  · have := hkept.env
    rw [hw] at this
    exact hne (congrArg Env.trans this).symm
  · cases hcall

end

/-- No env may write to the page. -/
def Unwritable (p : ℕ) (k : KernSt) : Prop :=
  ∀ e v pte, v < NUPAGES → k.pteAt e v = some pte → pte.ppn = p → pte.writable = false

/-- The page is on the free list. -/
def OnFree (p : ℕ) (k : KernSt) : Prop := ∃ l, k.freeList.Holds l ∧ p ∈ l

section
variable {k k' : KernSt} {role role' : ℕ → Role} {l l' : List ℕ} {c e v p : ℕ} {tf : Trapframe} {t : Trap} {V : ℕ → Prop} {pte : Pte}

theorem Typed.onFree (h : Typed k role l) : OnFree p k ↔ role p = .free := by
  constructor
  · rintro ⟨l', hl, hp⟩
    rw [hl.unique h.queue] at hp
    exact (h.free p).mp hp
  · exact fun hp => ⟨l, h.queue, (h.free p).mpr hp⟩

/-- A new mapping can be written to if the page was free or could be written to. -/
theorem Effect.unwritable (h : Effect e V k role k') (ht : Typed k role l) (ht' : Typed k' role' l') (hp : Unwritable p k)
    (hf : OnFree p k → OnFree p k') : Unwritable p k' := by
  intro e' v pte hv hpte hpp
  have hcopy : k.pteAt e' v = some pte → pte.writable = false := fun hk => hp e' v pte hv hk hpp
  by_cases he : e' = e
  · subst he
    rcases h.source v hv pte hpte with hk | hfree | ⟨e₀, v₀, pte₀, hv₀, hk, hpp₀, hw⟩
    · exact hcopy hk
    · -- the page would be free and mapped
      have hfree' := ht'.onFree.mp (hf (ht.onFree.mpr (hpp ▸ hfree)))
      have huser := ht'.user e' v hv pte hpte
      rw [hpp, hfree'] at huser
      cases huser
    · have h0 := hp e₀ v₀ pte₀ hv₀ hk (hpp₀.trans hpp)
      rw [← Bool.not_eq_true]
      intro hc
      rw [hw hc] at h0
      cases h0
  · exact hcopy ((h.pteAt e' v hv fun hc => he hc.1).symm.trans hpte)

/-- A trap that is no call makes no mapping. -/
theorem trap_other (h : Typed k role l) (hb : Bounded k) (ht : ∀ s, t ≠ .syscall s) :
    Run (trap c tf t) k (fun _ k' => ∀ e, ∀ v < NUPAGES, ∀ pte, k'.pteAt e v = some pte → k.pteAt e v = some pte)
      fun f _ => f.IsPanic := by
  obtain ⟨hs, hpte⟩ := h.save c tf
  have hdie : Run (envFree c) (k.save c tf) (fun _ k' => ∀ e, ∀ v < NUPAGES, ∀ pte, k'.pteAt e v = some pte → k.pteAt e v = some pte)
      fun f _ => f.IsPanic := by
    refine .post (envFree_freed hs (hb.save h tf)) ?_
    rintro _ k' ⟨role', l', -, hf⟩ e v hv pte hp
    rw [hf.pteAt e v hv] at hp
    split_ifs at hp
    rw [← hpte e v hv, hp]
  unfold trap
  refine .modifyBind ?_
  cases t with
  | syscall s => exact absurd rfl (ht s)
  | irq => exact .pure fun e v hv pte hp => by rw [← hpte e v hv]; exact hp
  | unexpected => exact hdie
  | pgflt =>
    refine pageFaultHandler_run hdie fun e v hv pte hp => ?_
    rw [← hpte e v hv]
    refine ((hs.setEnv ?_ ?_).2 e v hv).symm.trans hp
    · rfl
    · exact .rfl

/-- A trap leaves all as it is, or it happens. -/
theorem KernSt.Ok.trap (h : k.Ok) (hb : Bounded k) (hk : kstep (.trap c tf t) k = .ok () k') :
    k' = k ∨ ∃ role l, Typed k role l ∧ Maps c t.call k role k' ∧ Kern.trap c tf t k = .ok () k' := by
  obtain ⟨⟨role, l, ht⟩, hd⟩ := h
  by_cases hg : k.CanTrap c tf
  · have htrap := (kstep_trap hg).mp hk
    exact .inr ⟨role, l, ht, (trap_maps ht hb hd (KernSt.live_of_runnable hg.1 hg.2.1) tf t).of_ok htrap, htrap⟩
  · rw [kstep_skip hg] at hk
    exact .inl (EStateM.Result.ok.inj hk).2.symm

theorem KernSt.Ok.unwritable (h : k.Ok) (hb : Bounded k) (hk : kstep (.trap c tf t) k = .ok () k') (hp : Unwritable p k)
    (hf : OnFree p k → OnFree p k') : Unwritable p k' := by
  rcases h.trap hb hk with rfl | ⟨role, l, ht, ⟨e, V, role', l', ht', heff, -⟩, -⟩
  · exact hp
  · exact heff.unwritable ht ht' hp hf

/-- Who makes a mapping, and what it shows. -/
theorem KernSt.Ok.mapping (h : k.Ok) (hb : Bounded k) (hk : kstep (.trap c tf t) k = .ok () k') (hv : v < NUPAGES)
    (hnew : k'.pteAt e v = some pte) (hold : k.pteAt e v ≠ some pte) :
    (∃ s, t = .syscall s ∧ (e = c ∨ (k.envs e).parent = (k.envs c).id ∨
      SendsTo c s k e ∧ (k.envs e).recving = true ∧ v = (k.envs e).dstva / PGSIZE)) ∧
    (OnFree pte.ppn k ∨ ∃ e₀ v₀ pte₀, v₀ < NUPAGES ∧ k.pteAt e₀ v₀ = some pte₀ ∧ pte₀.ppn = pte.ppn ∧
      (pte.writable = true → pte₀.writable = true)) := by
  rcases h.trap hb hk with rfl | ⟨role, l, ht, ⟨e', V, role', l', ht', heff, hreach⟩, htrap⟩
  · exact absurd hnew hold
  obtain ⟨s, rfl⟩ : ∃ s, t = .syscall s := by
    by_contra hc
    exact hold ((trap_other ht hb fun s hs => hc ⟨s, hs⟩).of_ok htrap e v hv pte hnew)
  obtain ⟨rfl, hV⟩ : e = e' ∧ V v := by
    by_contra hc
    exact hold ((heff.pteAt e v hv hc).symm.trans hnew)
  refine ⟨⟨s, rfl, ?_⟩, ?_⟩
  · rcases hreach with (ho | ho) | ⟨envid, value, srcva, perm, hs, he, hrec, hd⟩
    · exact .inl ho
    · exact .inr (.inl ho)
    · exact .inr (.inr ⟨⟨envid, value, srcva, perm, hs, he⟩, hrec, hd v hV⟩)
  · rcases heff.source v hv pte hnew with hk | hs
    · exact absurd hk hold
    · exact hs.imp_left ht.onFree.mpr

end

/-- After any run of calls and other traps from the end of the boot in which no page has 2 ^ 16 mappings when
a trap happens. While such a run goes on, a page that no env may write to stays so, until it
is taken off the free list. A new mapping in an env is made by a call of the env, its parent, or an env that sends to it while
it receives; and it shows a page from the free list, or one that an env had mapped, writable if the new mapping is. -/
theorem authority_of_run {m : Machine} {progs : List Program} {k₀ k : KernSt} {as : List KAct} (h₀ : m.Boots progs k₀)
    (ha : Along (fun k a => Bounded k ∧ ∃ c tf t, a = .trap c tf t) as k₀) (hr : krun as k₀ = .ok () k) :
    (∀ p, Unwritable p k → ∀ bs k', Along (fun k a => (Bounded k ∧ ∃ c tf t, a = .trap c tf t) ∧
        ∀ k', kstep a k = .ok () k' → OnFree p k → OnFree p k') bs k →
      krun bs k = .ok () k' → Unwritable p k') ∧
    (Bounded k → ∀ c tf t k', kstep (.trap c tf t) k = .ok () k' →
      ∀ e v pte, v < NUPAGES → k'.pteAt e v = some pte → k.pteAt e v ≠ some pte →
        (∃ s, t = .syscall s ∧ (e = c ∨ (k.envs e).parent = (k.envs c).id ∨
          SendsTo c s k e ∧ (k.envs e).recving = true ∧ v = (k.envs e).dstva / PGSIZE)) ∧
        (OnFree pte.ppn k ∨ ∃ e₀ v₀ pte₀, v₀ < NUPAGES ∧ k.pteAt e₀ v₀ = some pte₀ ∧ pte₀.ppn = pte.ppn ∧
          (pte.writable = true → pte₀.writable = true))) := by
  have hok : k.Ok := h₀.ok.run (ha.mono fun k a ⟨hb, c, tf, t, ht⟩ => ⟨hb, ht ▸ trivial⟩) hr
  refine ⟨fun p hp bs k' hb hrun => ?_, fun hb c tf t k' hk e v pte hv hnew hold => hok.mapping hb hk hv hnew hold⟩
  -- along the run the pages have roles and the page stays unwritable
  have hstep := krun_induction (I := fun k => k.Ok ∧ Unwritable p k) (P := fun k a => (Bounded k ∧ ∃ c tf t, a = .trap c tf t) ∧
    ∀ k', kstep a k = .ok () k' → OnFree p k → OnFree p k') ?_ ⟨hok, hp⟩ hb hrun
  · exact hstep.2
  · rintro k a k' ⟨hok, hp⟩ ⟨⟨hb, c, tf, t, rfl⟩, hf⟩ hk
    exact ⟨hok.step (a := .trap c tf t) hb trivial hk, hok.unwritable hb hk hp (hf k' hk)⟩

/-- Page 0 is in no env of a machine that has just booted, and in none after a fork. -/
theorem authority_fork : ∃ k₀ k tf, smallMemory.Boots [onePage, onePage] k₀ ∧
    krun [.trap 0 tf (.syscall .exofork)] k₀ = .ok () k ∧ Unwritable 0 k₀ ∧ Unwritable 0 k := by
  obtain ⟨k₀, k, -, -, hb, -, h1, -⟩ := exists_family
  obtain ⟨role, l, ht, hbd, -⟩ := boot_typed hb
  have hres : k₀.managed 0 = false := by simp [KernSt.managed, reserved]
  have hp : Unwritable 0 k₀ := fun e v pte hv hpte hpp => by
    have hu := ht.user e v hv pte hpte
    rcases (ht.managed 0).mp hres with hr | hr <;> rw [hpp, hr] at hu <;> cases hu
  have hfree : ¬ OnFree 0 k₀ := fun hc => by
    rcases (ht.managed 0).mp hres with hr | hr <;> rw [ht.onFree, hr] at hc <;> cases hc
  have hrun : krun [callOf k₀ 0 .exofork] k₀ = .ok () k := krun_cons.mpr ⟨k, h1, krun_nil k⟩
  have ha : Along (fun k a => (Bounded k ∧ ∃ c tf t, a = .trap c tf t) ∧
      ∀ k', kstep a k = .ok () k' → OnFree 0 k → OnFree 0 k') [callOf k₀ 0 .exofork] k₀ :=
    Along.cons ⟨⟨hbd, _, _, _, rfl⟩, fun _ _ hc => absurd hc hfree⟩ h1 trivial
  exact ⟨k₀, k, _, hb, hrun, hp, (authority_of_run hb (by trivial) (krun_nil k₀)).1 0 hp _ k ha hrun⟩

end Kern
end Jos
