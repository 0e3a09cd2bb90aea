/-
# Env ids

The ids of a slot count its envs: the `m`-th env in slot `e` has the id
`idAt e m`, which starts again after 2 ^ 19 - 1 envs. An id is refused as soon as
its env is gone, until the slot has had as many new ones.

Key definitions: `idAt`, `births`.
Key theorems: `nextEnvid_idAt`, `id_of_births`, `ids_of_run`.
-/
import Jos.Kern.Slots

namespace Jos
namespace Kern

open Fs (NENV PGSIZE envx nextEnvid)

/-- The number of ids of a slot. -/
abbrev GENS : ℕ := 2 ^ 19 - 1

/-- The id of the `m`-th env in slot `e`; 0 before the first. -/
def idAt (e : ℕ) : ℕ → ℕ
  | 0 => 0
  | m + 1 => (m % GENS + 1) * 4096 + e

section
variable {k k' : KernSt} {c e m n : ℕ} {s : Call} {r : Except Err (Option ℕ)} {T : Slots} {a : KAct} {as : List KAct}

theorem nextEnvid_idAt (he : e < NENV) : ∀ m, nextEnvid (idAt e m) e = idAt e (m + 1)
  | 0 => by
    show (if _ ∨ _ then _ else _) + e = (0 % GENS + 1) * 4096 + e
    rw [show idAt e 0 = 0 from rfl, if_neg (by decide)]
    exact congrArg (· + e) (by decide)
  | m + 1 => by
    have hlt : m % GENS < GENS := Nat.mod_lt _ (by decide)
    have hsucc : (m + 1) % GENS = if m % GENS + 1 = GENS then 0 else m % GENS + 1 := by
      rw [Nat.add_mod, Nat.mod_eq_of_lt (show 1 < GENS by decide)]
      split
      next h => rw [h, Nat.mod_self]
      next h => exact Nat.mod_eq_of_lt (by omega)
    have hg : ((m % GENS + 1) * 4096 + e + 4096) / NENV * NENV = (m % GENS + 2) * 4096 := by
      simp only [NENV] at he ⊢
      omega
    show (if _ ∨ _ then _ else _) + e = ((m + 1) % GENS + 1) * 4096 + e
    rw [show idAt e (m + 1) = (m % GENS + 1) * 4096 + e from rfl, hg, hsucc]
    simp only [GENS] at hlt ⊢
    split_ifs <;> omega

/-- Ids come back when the slot has had a multiple of `GENS` new envs. -/
theorem idAt_add_eq (hm : 0 < m) : idAt e (m + n) = idAt e m ↔ GENS ∣ n := by
  obtain ⟨m, rfl⟩ := Nat.exists_eq_add_one.mpr hm
  rw [show m + 1 + n = (m + n) + 1 by omega]
  simp only [idAt, GENS]
  omega

theorem envx_idAt (he : e < NENV) (hm : 0 < m) : envx (idAt e m) = e ∧ 0 < idAt e m ∧ idAt e m < 2 ^ 31 := by
  obtain ⟨m, rfl⟩ := Nat.exists_eq_add_one.mpr hm
  have hlt : m % GENS < GENS := Nat.mod_lt _ (by decide)
  simp only [envx, idAt, NENV, GENS] at *
  omega

/-! ### The ids of a slot over a run -/

/-- What an action does to the id in slot `e`: a new env gets the next id, and
else it stays. -/
def NextId (e : ℕ) (w w' : Env) : Prop :=
  (w.status = .free ∧ w'.status ≠ .free ∧ w'.id = nextEnvid w.id e) ∨ (w'.id = w.id ∧ (w.status = .free → w'.status = .free))

theorem NextId.refl (e : ℕ) (w : Env) : NextId e w w := .inr ⟨rfl, id⟩

theorem NextId.congr {w w' v v' : Env} (h : NextId e w w') (hi : v.id = w.id) (hs : v.status = w.status)
    (hi' : v'.id = w'.id) (hs' : v'.status = w'.status) : NextId e v v' := by
  unfold NextId at h ⊢
  rw [hi, hs, hi', hs']
  exact h

theorem NextId.set {e0 : ℕ} {w : Env} (hi : w.id = (k.envs e0).id) (hs : (k.envs e0).status = .free → w.status = .free) :
    ∀ e, NextId e (k.envs e) ((k.slots.set e0 w).envs e) :=
  Slots.all_set (P := fun e w' => NextId e (k.envs e) w') (fun e => .refl e _) (.inr ⟨hi, hs⟩)

theorem NextId.drop (e0 : ℕ) : ∀ e, NextId e (k.envs e) ((k.slots.drop e0).envs e) :=
  Slots.all_drop (P := fun e w' => NextId e (k.envs e) w') (fun e => .refl e _) (.inr ⟨rfl, fun _ => rfl⟩)

theorem NextId.born {e0 : ℕ} {w : Env} {q : Queue} (hf : (k.envs e0).status = .free) (hs : w.status ≠ .free)
    (hi : w.id = nextEnvid (k.envs e0).id e0) :
    ∀ e, NextId e (k.envs e) ((⟨Function.update k.envs e0 w, q⟩ : Slots).envs e) :=
  Slots.all_update (T := k.slots) (P := fun e w' => NextId e (k.envs e) w') (fun e => .refl e _) (.inl ⟨hf, hs, hi⟩)

theorem Did.nextId (h : Did c k s r T) (hk : k.slots.Sound) (hc : k.Live c) (e : ℕ) :
    NextId e (k.envs e) (T.envs e) := by
  have live : ∀ {envid e b}, envid2env k c envid b = some e → (k.envs e).status ≠ .free := fun he =>
    (envid2env_live he hc).2
  cases h with
  | failed hT => exact hT ▸ .refl e _
  | quiet hT => exact hT ▸ .refl e _
  | fork e0 p q hf hq => exact .born (hk.first hf).2 (by simp) rfl e
  | status envid e0 st he hst => exact .set (by rfl) (by exact fun hc => absurd hc (live he)) e
  | frame => exact .set (by rfl) (by exact id) e
  | deadFrame envid va e0 tf he hec hp =>
    refine (NextId.drop e0 e).congr rfl rfl ?_ ?_ <;> rw [Slots.set_envs] <;> split
    next h => rw [h]
    next => rfl
    next h => rw [h]
    next => rfl
  | suicide s hfat hp hT => exact hT ▸ .drop c e
  | upcall => exact .set (by rfl) (by exact id) e
  | transaction => exact .set (by rfl) (by exact id) e
  | destroy envid e0 he hec hp => exact .drop e0 e
  | refused => exact .set (by rfl) (by exact id) e
  | sent envid value srcva perm e0 n he hr => exact .set (by rfl) (by exact fun hc => absurd hc (live he)) e
  | recv => exact .set (by rfl) (by exact fun hf => absurd hf hc.2) e

theorem Acted.nextId (h : Acted k a T) (hk : k.slots.Sound) (e : ℕ) : NextId e (k.envs e) (T.envs e) := by
  cases h with
  | trap c tf t T hc hr hu ht =>
    have hsave := k.save_envs c tf e
    have hid := congrArg Env.id hsave
    have hst := congrArg Env.status hsave
    cases ht with
    | syscall s r T hd =>
      obtain ⟨rs, hfin⟩ := T.finish_envs c r e
      rw [hfin]
      exact (hd.nextId (hk.save c tf) ((KernSt.live_of_runnable hc hr).save tf) e).congr hid.symm hst.symm rfl rfl
    | upcall esp => exact (NextId.set (k := k.save c tf) (by rfl) (by exact id) e).congr hid.symm hst.symm rfl rfl
    | died t hp hT => exact hT ▸ (NextId.drop (k := k.save c tf) c e).congr hid.symm hst.symm rfl rfl
    | irq => exact (NextId.refl e _).congr hid.symm hst.symm rfl rfl
  | calm a hT => exact hT ▸ .refl e _
  | alloc parent e0 p q hf hq hT => exact hT ▸ .born (hk.first hf).2 (by simp [Slots.born]) rfl e
  | create prog e0 p q hf hq hT => exact hT ▸ .born (hk.first hf).2 (by simp [Slots.born]) rfl e
  | free e0 hp hT => exact hT ▸ .drop e0 e

/-- The new envs in slot `e` over a run. -/
def births (e : ℕ) : List KAct → KernSt → ℕ
  | [], _ => 0
  | a :: as, k =>
    let k' := after (kstep a) k
    (if (k.envs e).status = .free ∧ (k'.envs e).status ≠ .free then 1 else 0) + births e as k'

/-- The ids are those of some number of envs in each slot. -/
def Issued (k : KernSt) (m : ℕ → ℕ) : Prop :=
  ∀ e < NENV, (k.envs e).id = idAt e (m e) ∧ ((k.envs e).status ≠ .free → 0 < m e)

theorem Issued.step {m : ℕ → ℕ} (h : Issued k m) (hk : k.slots.Sound) (hs : kstep a k = .ok () k') :
    Issued k' fun e => m e + if (k.envs e).status = .free ∧ (k'.envs e).status ≠ .free then 1 else 0 := by
  intro e he
  obtain ⟨hid, hpos⟩ := h e he
  dsimp only
  rcases (hk.step hs).nextId hk e with ⟨hf, hl, hi⟩ | ⟨hi, hf⟩
  · rw [if_pos ⟨hf, hl⟩]
    refine ⟨?_, fun _ => Nat.succ_pos _⟩
    rw [← nextEnvid_idAt he, ← hid]
    exact hi
  · rw [if_neg fun hc => hc.2 (hf hc.1), Nat.add_zero]
    exact ⟨hi.trans hid, fun hl => hpos fun hc => hl (hf hc)⟩

/-- The ids after a run. -/
theorem id_of_births {m : ℕ → ℕ} (h : Issued k m) (hk : k.slots.Sound) (hr : krun as k = .ok () k') :
    Issued k' fun e => m e + births e as k := by
  induction as generalizing k m with
  | nil =>
    have : EStateM.Result.ok () k = EStateM.Result.ok () k' := hr
    injection this with _ this
    exact this ▸ h
  | cons a as ih =>
    obtain ⟨k1, h1, h2⟩ := krun_cons.mp hr
    have hb : ∀ e, births e (a :: as) k = (if (k.envs e).status = .free ∧ (k1.envs e).status ≠ .free then 1 else 0) +
        births e as k1 := fun e => by
      have hk1 : after (kstep a) k = k1 := by
        unfold after
        rw [h1]
      subst hk1
      rfl
    have := ih (h.step hk h1) (hk.acted (hk.step h1)) h2
    simp only [hb, ← Nat.add_assoc]
    exact this

theorem KernSt.Fresh.issued (h : k.Fresh) : Issued k fun _ => 0 := fun e _ => by
  rw [h.envs]
  exact ⟨rfl, fun hc => absurd rfl hc⟩

/-- In every state of every run: the ids of live envs are distinct, positive and
say the slot; the free list has the free slots, once each; and an id that a live
env has is later refused unless that env is still there, as long as its slot has
had fewer than 2 ^ 19 - 1 new envs, and comes back after just as many. -/
theorem ids_of_run {k₀ : KernSt} (h₀ : k₀.Fresh) (hr : krun as k₀ = .ok () k) :
    (∀ e e', k.Live e → k.Live e' → (k.envs e).id = (k.envs e').id → e = e') ∧
    (∀ e, k.Live e → 0 < (k.envs e).id ∧ (k.envs e).id < 2 ^ 31 ∧ envx (k.envs e).id = e) ∧
    (∃ l, k.envFree.Holds l ∧ l.Nodup ∧ ∀ e, e ∈ l ↔ e < NENV ∧ (k.envs e).status = .free) ∧
    ∀ e, k.Live e → ∀ as' k', krun as' k = .ok () k' →
      (births e as' k < 2 ^ 19 - 1 → ∀ c e', envid2env k' c (k.envs e).id false = some e' →
        e' = e ∧ k'.Live e ∧ births e as' k = 0) ∧
      (k'.Live e → ((k'.envs e).id = (k.envs e).id ↔ 2 ^ 19 - 1 ∣ births e as' k)) := by
  have hk := h₀.sound.run hr
  have hi := id_of_births h₀.issued h₀.sound hr
  have hid : ∀ e, k.Live e → 0 < (k.envs e).id ∧ (k.envs e).id < 2 ^ 31 ∧ envx (k.envs e).id = e := fun e he => by
    obtain ⟨h1, h2⟩ := hi e he.1
    obtain ⟨hx, hpos, hlt⟩ := envx_idAt he.1 (h2 he.2)
    rw [h1]
    exact ⟨hpos, hlt, hx⟩
  refine ⟨fun e e' he he' h => ?_, hid, ?_, fun e he as' k' hr' => ?_⟩
  · rw [← (hid e he).2.2, h, (hid e' he').2.2]
  · obtain ⟨l, hl, hm⟩ := hk.queue
    exact ⟨l, hl, hl.2, hm⟩
  · have hi' := id_of_births hi hk hr'
    obtain ⟨h1, h2⟩ := hi e he.1
    obtain ⟨h3, -⟩ := hi' e he.1
    have hback : (k'.envs e).id = (k.envs e).id ↔ GENS ∣ births e as' k := by
      rw [h1, h3]
      exact idAt_add_eq (h2 he.2)
    refine ⟨fun hb c e' hc => ?_, fun _ => hback⟩
    obtain ⟨hpos, -, hx⟩ := hid e he
    unfold envid2env at hc
    rw [if_neg (by omega), hx, Bool.false_and] at hc
    split_ifs at hc with hno
    cases hc
    rw [not_or, not_not] at hno
    exact ⟨rfl, ⟨he.1, hno.1⟩, Nat.eq_zero_of_dvd_of_lt (hback.mp hno.2) hb⟩

end

/-- A machine with 300 pages, when `page_init` and `env_init` are done. -/
def smallMachine : KernSt := kernReset 300 256 256 fun _ _ => .zero

set_option maxRecDepth 8000 in
/-- Slot 0 on a small machine: its first env is created and freed, and its id is
refused when the second one is there. -/
theorem ids_of_two_envs :
    ∃ k k', krun [.envAlloc 0] smallMachine = .ok () k ∧ krun [.envFree 0, .envAlloc 0] k = .ok () k' ∧
      k.Live 0 ∧ (k'.envs 0).status = .runnable ∧ envid2env k' 0 (k.envs 0).id false = none := by
  refine ⟨_, _, eq_ok_of_returns (by decide +kernel), eq_ok_of_returns (by decide +kernel), ⟨by decide, by decide +kernel⟩,
    by decide +kernel, ?_⟩
  have h := ((ids_of_run (kernReset_fresh 300 256 256 fun _ _ => .zero) (k := after (krun [.envAlloc 0]) smallMachine)
    (eq_ok_of_returns (by decide +kernel))).2.2.2 0 ⟨by decide, by decide +kernel⟩ [.envFree 0, .envAlloc 0] _
    (eq_ok_of_returns (by decide +kernel))).1 (by decide +kernel) 0
  cases hc : envid2env (after (krun [.envFree 0, .envAlloc 0]) (after (krun [.envAlloc 0]) smallMachine)) 0
      ((after (krun [.envAlloc 0]) smallMachine).envs 0).id false with
  | none => rfl
  | some e => exact absurd (h e hc).2.2 (by decide +kernel)

end Kern
end Jos
