/-
# The scheduler (`kern/sched.c`)

`sched_yield` looks for a runnable env from the slot after `curenv` on, over
`envs[0]`, until it is back where it started; `envs[0]` is for when there is
none. The loop stops by a comparison of pointers and a counter, so that it
stops at all is a theorem (`search_stops`).

* `schedYield_roundRobin`: it takes the first runnable env in circular order,
  `curenv` last, and `envs[0]` only if there is no other.
* `turns_fair`: an env that stays runnable gets its turn in one round.

Not here: the variant with priorities, which `LAB4A_SCHED_PRI` turns on.

Key definitions: `schedYield`, `slotAfter`, `RoundRobin`, `turns`.
Key theorems: `search_stops`, `schedYield_roundRobin`, `turns_fair`.
-/
import Jos.Kern.Env

namespace Jos
namespace Kern

open Fs (NENV)

/-- The slot after `p`; `envs[0]` is skipped. -/
def nextSlot (p : ℕ) : ℕ := if p = NENV - 1 then 1 else p + 1

/-- `pstart`. -/
def firstSlot : Option ℕ → ℕ
  | none => 1
  | some c => nextSlot c

/-- The loop of `sched_yield`: the env it runs, or none if it breaks. It is cut
off after `fuel` turns. -/
def search (k : KernSt) (pstart : ℕ) : (fuel penv i : ℕ) → Option (Option ℕ)
  | 0, _, _ => none
  | fuel + 1, penv, i =>
    if penv = pstart ∧ 1 < i + 1 then some none
    else if (k.envs penv).status = .runnable then some (some penv)
    else search k pstart fuel (nextSlot penv) (i + 1)

/-- `sched_yield`: the env that `env_run` makes `curenv`, or none for the monitor. -/
def schedYield (k : KernSt) (curenv : Option ℕ) (fuel : ℕ) : Option (Option ℕ) :=
  match search k (firstSlot curenv) fuel (firstSlot curenv) 0 with
  | none => none
  | some (some e) => some (some e)
  | some none => some (if (k.envs 0).status = .runnable then some 0 else none)

/-! ### The circular order -/

/-- The slot `i` places on from the first, in circular order over slots `1` to `NENV - 1`. -/
def slotAfter (curenv : Option ℕ) (i : ℕ) : ℕ := (firstSlot curenv - 1 + i) % (NENV - 1) + 1

section
variable {k : KernSt} {curenv r : Option ℕ} {c e e' i j : ℕ}

theorem firstSlot_bounds (hc : ∀ c, curenv = some c → c < NENV) : 1 ≤ firstSlot curenv ∧ firstSlot curenv < NENV := by
  cases curenv with
  | none => exact ⟨le_rfl, by decide⟩
  | some c =>
    have := hc c rfl
    simp only [firstSlot, nextSlot, NENV] at this ⊢
    split_ifs <;> omega

theorem slotAfter_bounds (curenv : Option ℕ) (i : ℕ) : 0 < slotAfter curenv i ∧ slotAfter curenv i < NENV := by
  simp only [slotAfter, NENV]
  omega

theorem nextSlot_slotAfter (curenv : Option ℕ) (i : ℕ) : nextSlot (slotAfter curenv i) = slotAfter curenv (i + 1) := by
  unfold nextSlot slotAfter
  rw [← Nat.add_assoc]
  generalize firstSlot curenv - 1 + i = a
  simp only [NENV]
  split_ifs with h
  · omega
  · omega

theorem slotAfter_zero (hc : ∀ c, curenv = some c → c < NENV) : slotAfter curenv 0 = firstSlot curenv := by
  have := firstSlot_bounds hc
  simp only [slotAfter, NENV] at this ⊢
  omega

theorem slotAfter_inj (hi : i < NENV - 1) (hj : j < NENV - 1) (h : slotAfter curenv i = slotAfter curenv j) :
    i = j := by
  simp only [slotAfter, NENV] at hi hj h
  omega

/-- Every slot but the first of all has its place in the order. -/
theorem exists_slotAfter (hc : ∀ c, curenv = some c → c < NENV) (h0 : 0 < e) (he : e < NENV) :
    ∃ i < NENV - 1, slotAfter curenv i = e := by
  have := firstSlot_bounds hc
  refine ⟨(e + (NENV - 1) - firstSlot curenv) % (NENV - 1), ?_, ?_⟩
  · simp only [NENV]
    omega
  · simp only [slotAfter, NENV] at this he ⊢
    omega

/-- `curenv` comes last. -/
theorem slotAfter_last (h0 : 0 < c) (hc : c < NENV) : slotAfter (some c) (NENV - 2) = c := by
  simp only [slotAfter, firstSlot, nextSlot, NENV] at hc ⊢
  split_ifs <;> omega

/-! ### The search -/

/-- The first `n` slots of the order are not runnable. -/
def NoneBefore (k : KernSt) (curenv : Option ℕ) (n : ℕ) : Prop :=
  ∀ i < n, (k.envs (slotAfter curenv i)).status ≠ .runnable

theorem NoneBefore.succ (h : NoneBefore k curenv i) (hi : (k.envs (slotAfter curenv i)).status ≠ .runnable) :
    NoneBefore k curenv (i + 1) := by
  intro j hj
  rcases Nat.lt_succ_iff_lt_or_eq.mp hj with hlt | rfl
  · exact h j hlt
  · exact hi

/-- The loop stops, at the first runnable env or back where it started. The
induction is on the slots that are left. -/
theorem search_stops (hc : ∀ c, curenv = some c → c < NENV) : ∀ (n i fuel : ℕ), i + n = NENV - 1 → n < fuel →
    NoneBefore k curenv i →
    (∃ j < NENV - 1, NoneBefore k curenv j ∧ (k.envs (slotAfter curenv j)).status = .runnable ∧
      search k (firstSlot curenv) fuel (slotAfter curenv i) i = some (some (slotAfter curenv j))) ∨
    (NoneBefore k curenv (NENV - 1) ∧ search k (firstSlot curenv) fuel (slotAfter curenv i) i = some none)
  | _, _, 0, _, hf, _ => absurd hf (Nat.not_lt_zero _)
  | 0, i, fuel + 1, hi, _, hn => by
    obtain rfl : i = NENV - 1 := hi
    have hback : slotAfter curenv (NENV - 1) = firstSlot curenv := by
      rw [← slotAfter_zero hc]
      simp only [slotAfter, NENV]
      omega
    exact .inr ⟨hn, if_pos ⟨hback, by decide⟩⟩
  | n + 1, i, fuel + 1, hi, hf, hn => by
    have hlt : i < NENV - 1 := by omega
    have hgo : ¬ (slotAfter curenv i = firstSlot curenv ∧ 1 < i + 1) := by
      rintro ⟨he, h1⟩
      rw [← slotAfter_zero hc] at he
      have := slotAfter_inj hlt (by decide) he
      omega
    rw [search, if_neg hgo]
    by_cases hr : (k.envs (slotAfter curenv i)).status = .runnable
    · rw [if_pos hr]
      exact .inl ⟨i, hlt, hn, hr, rfl⟩
    · rw [if_neg hr, nextSlot_slotAfter]
      exact search_stops hc n (i + 1) fuel (by omega) (by omega) (hn.succ hr)

/-! ### The choice -/

/-- What `sched_yield` chooses. -/
structure RoundRobin (k : KernSt) (curenv r : Option ℕ) : Prop where
  /-- The first runnable env in circular order. -/
  first : ∀ e, 0 < e → (r = some e ↔ ∃ i < NENV - 1, e = slotAfter curenv i ∧ (k.envs e).status = .runnable ∧
    NoneBefore k curenv i)
  /-- `envs[0]`, if there is no other. -/
  idle : r = some 0 ↔ (∀ e, 0 < e → e < NENV → (k.envs e).status ≠ .runnable) ∧ (k.envs 0).status = .runnable
  /-- The monitor, if there is none at all. -/
  monitor : r = none ↔ ∀ e < NENV, (k.envs e).status ≠ .runnable
  /-- A runnable env is passed over for one strictly between `curenv` and it. -/
  passed : ∀ c e e', curenv = some c → 0 < e → e < NENV → (k.envs e).status = .runnable → r = some e' → e' ≠ e →
    e' ≠ c ∧ ∃ i j, i < j ∧ j < NENV - 1 ∧ slotAfter curenv i = e' ∧ slotAfter curenv j = e

theorem RoundRobin.unique {r' : Option ℕ} (h : RoundRobin k curenv r) (h' : RoundRobin k curenv r') : r = r' := by
  cases hr : r with
  | none => exact (h'.monitor.mpr (h.monitor.mp hr)).symm
  | some e =>
    rcases Nat.eq_zero_or_pos e with rfl | h0
    · exact (h'.idle.mpr (h.idle.mp hr)).symm
    · exact ((h'.first e h0).mpr ((h.first e h0).mp hr)).symm

theorem NoneBefore.none_at (h : NoneBefore k curenv (NENV - 1)) (hc : ∀ c, curenv = some c → c < NENV) (h0 : 0 < e)
    (he : e < NENV) : (k.envs e).status ≠ .runnable := by
  obtain ⟨i, hi, rfl⟩ := exists_slotAfter hc h0 he
  exact h i hi

/-- The loop ran the env at place `i`. -/
theorem roundRobin_of_found (hc : ∀ c, curenv = some c → c < NENV) (hi : i < NENV - 1) (hn : NoneBefore k curenv i)
    (hr : (k.envs (slotAfter curenv i)).status = .runnable) : RoundRobin k curenv (some (slotAfter curenv i)) where
  first e _ := by
    constructor
    · rintro he
      obtain rfl := Option.some.inj he
      exact ⟨i, hi, rfl, hr, hn⟩
    · rintro ⟨j, hj, rfl, hrj, hnj⟩
      rcases lt_trichotomy i j with hlt | rfl | hlt
      · exact absurd hr (hnj i hlt)
      · rfl
      · exact absurd hrj (hn j hlt)
  idle := by
    obtain ⟨h0, hlt⟩ := slotAfter_bounds curenv i
    exact iff_of_false (by simp [h0.ne']) fun h => h.1 _ h0 hlt hr
  monitor := iff_of_false (by simp) fun h => h _ (slotAfter_bounds curenv i).2 hr
  passed c e e' hcur h0 he hre hr' hne := by
    obtain rfl := Option.some.inj hr'
    obtain ⟨j, hj, rfl⟩ := exists_slotAfter hc h0 he
    have hij : i < j := by
      rcases lt_trichotomy i j with hlt | rfl | hlt
      · exact hlt
      · exact absurd rfl hne
      · exact absurd hre (hn j hlt)
    refine ⟨?_, i, j, hij, hj, rfl, rfl⟩
    -- `curenv` is at the last place, which is after that of `e'`
    subst hcur
    intro heq
    have hlast := slotAfter_last (heq ▸ (slotAfter_bounds (some c) i).1) (hc c rfl)
    have := slotAfter_inj hi (by decide) (heq.trans hlast.symm)
    simp only [NENV] at this hj
    omega

/-- The loop broke. -/
theorem roundRobin_of_break (hc : ∀ c, curenv = some c → c < NENV) (hn : NoneBefore k curenv (NENV - 1)) :
    RoundRobin k curenv (if (k.envs 0).status = .runnable then some 0 else none) where
  first e h0 := by
    refine iff_of_false (fun h => ?_) fun ⟨i, hi, he, hr, _⟩ => hn i hi (he ▸ hr)
    split_ifs at h
    exact h0.ne (Option.some.inj h)
  idle := by
    split_ifs with h0
    · exact iff_of_true rfl ⟨fun e h he => hn.none_at hc h he, h0⟩
    · exact iff_of_false (by simp) fun h => h0 h.2
  monitor := by
    split_ifs with h0
    · exact iff_of_false (by simp) fun h => h 0 (by decide) h0
    · refine iff_of_true rfl fun e he => ?_
      rcases Nat.eq_zero_or_pos e with rfl | h
      · exact h0
      · exact hn.none_at hc h he
  passed _ _ _ _ h0 he hre _ _ := absurd hre (hn.none_at hc h0 he)

theorem schedYield_cases (hc : ∀ c, curenv = some c → c < NENV) {fuel : ℕ} (hf : NENV ≤ fuel) :
    ∃ r, schedYield k curenv fuel = some r ∧ RoundRobin k curenv r := by
  have hstop := search_stops (k := k) hc (NENV - 1) 0 fuel (by omega) (by simp only [NENV] at hf ⊢; omega)
    fun i hi => absurd hi (Nat.not_lt_zero i)
  rw [slotAfter_zero hc] at hstop
  unfold schedYield
  rcases hstop with ⟨j, hj, hn, hr, hs⟩ | ⟨hn, hs⟩
  · rw [hs]
    exact ⟨_, rfl, roundRobin_of_found hc hj hn hr⟩
  · rw [hs]
    exact ⟨_, rfl, roundRobin_of_break hc hn⟩

/-- The search ends within a round, and takes the first runnable env after
`curenv`. -/
theorem schedYield_roundRobin (k : KernSt) (curenv : Option ℕ) (hc : ∀ c, curenv = some c → c < NENV) :
    ∃ r, (∀ fuel, NENV ≤ fuel → schedYield k curenv fuel = some r) ∧ RoundRobin k curenv r ∧
      (∀ e, 0 < e → e < NENV → ∃! i, i < NENV - 1 ∧ slotAfter curenv i = e) ∧
      ∀ c, curenv = some c → 0 < c → slotAfter curenv (NENV - 2) = c := by
  obtain ⟨r, hr, hrr⟩ := schedYield_cases (k := k) hc le_rfl
  refine ⟨r, fun fuel hf => ?_, hrr, fun e h0 he => ?_, ?_⟩
  · obtain ⟨r', hr', hrr'⟩ := schedYield_cases (k := k) hc hf
    rw [hr', hrr.unique hrr']
  · obtain ⟨i, hi, rfl⟩ := exists_slotAfter hc h0 he
    exact ⟨i, ⟨hi, rfl⟩, fun j hj => slotAfter_inj hj.1 hi hj.2⟩
  · rintro c rfl h0
    exact slotAfter_last h0 (hc c rfl)

/-- The envs in slots 2 and 5 are runnable. -/
def twoReady : KernSt :=
  let k := kernReset 0 0 0 fun _ _ => .zero
  (k.setEnv 2 { k.envs 2 with status := .runnable }).setEnv 5 { k.envs 5 with status := .runnable }

theorem schedYield_roundRobin_five :
    schedYield twoReady (some 3) NENV = some (some 5) ∧ RoundRobin twoReady (some 3) (some 5) := by
  have h5 : schedYield twoReady (some 3) NENV = some (some 5) := by decide
  obtain ⟨r, hy, hrr, -⟩ := schedYield_roundRobin twoReady (some 3) fun c hc => Option.some.inj hc ▸ by decide
  obtain rfl : some 5 = r := Option.mem_unique h5 ((hy NENV le_rfl))
  exact ⟨h5, hrr⟩

/-! ### Turns -/

/-- The envs that get their turns from the env in slot `c` on, in the states in
which `sched_yield` is called. -/
def turns : (c : ℕ) → List KernSt → List ℕ
  | _, [] => []
  | c, k :: ks =>
    match schedYield k (some c) NENV with
    | some (some e) => e :: turns e ks
    | _ => []

/-- An env strictly between is nearer. -/
theorem slotAfter_nearer (hi : i < j) :
    slotAfter (some (slotAfter curenv i)) (j - i - 1) = slotAfter curenv j := by
  have hfirst : firstSlot (some (slotAfter curenv i)) = slotAfter curenv (i + 1) := nextSlot_slotAfter curenv i
  rw [slotAfter, hfirst]
  unfold slotAfter
  generalize firstSlot curenv - 1 = a
  simp only [NENV]
  omega

/-- An env that stays runnable, and is `n` slots away, gets its turn after at
most `n` others. -/
theorem mem_turns (h0 : 0 < e) (he : e < NENV) : ∀ {ks : List KernSt} {c n : ℕ}, c < NENV → n < NENV - 1 →
    slotAfter (some c) n = e → n < ks.length → (∀ k ∈ ks, (k.envs e).status = .runnable) → e ∈ turns c ks
  | [], _, _, _, _, _, hlen, _ => absurd hlen (Nat.not_lt_zero _)
  | k :: ks, c, n, hc, hn, hs, hlen, hr => by
    have hcur : ∀ c', some c = some c' → c' < NENV := fun c' hc' => Option.some.inj hc' ▸ hc
    obtain ⟨r, hy, hrr⟩ := schedYield_cases (k := k) hcur le_rfl
    have hre := hr k (List.mem_cons_self ..)
    cases r with
    | none => exact absurd hre (hrr.monitor.mp rfl e he)
    | some e' =>
      rw [turns, hy]
      by_cases hee : e' = e
      · exact List.mem_cons.mpr (.inl hee.symm)
      · obtain ⟨-, i, j, hij, hj, hi', hj'⟩ := hrr.passed c e e' rfl h0 he hre rfl hee
        obtain rfl : j = n := slotAfter_inj hj hn (hj'.trans hs.symm)
        refine List.mem_cons_of_mem _ (mem_turns h0 he (n := j - i - 1) ?_ (by omega) ?_ ?_ fun k hk =>
          hr k (.tail _ hk))
        · rw [← hi']
          exact (slotAfter_bounds _ i).2
        · rw [← hi', slotAfter_nearer hij, hj']
        · rw [List.length_cons] at hlen
          omega

end

end Kern
end Jos
