/-
# Queues in a ring of slots

An unbounded sequence `log` passes through `N` slots: entry `k` is put in slot
`k % N`. `Holds N slot log r` says that the entries from the `r`th on, those not
yet taken out, are in their slots, and that there are at most `N` of them.

A party that adds an entry fills a slot first and counts it afterwards, so the
two are separate here: filling the slot of the next entry disturbs none that
is waiting (`Holds.fill`), and then the entry may be counted (`Holds.add`). The
party that takes one reads the slot of entry `r` (`Holds.get`, `Holds.front`)
and counts it afterwards (`Holds.drop`).
-/
import Mathlib.Data.List.Basic
import Mathlib.Logic.Function.Basic
import Mathlib.Tactic.Ring

namespace Jos
namespace Ring

variable {α : Type} {N r : ℕ} {slot : ℕ → α} {log : List α} {x : α}

/-- Two entries less than a turn apart are in different slots. -/
theorem slot_inj {a i j : ℕ} (hi : a ≤ i) (hi' : i < a + N) (hj : a ≤ j) (hj' : j < a + N)
    (h : i % N = j % N) : i = j := by
  rcases Nat.le_total i j with hle | hle
  · have h0 := Nat.sub_mod_eq_zero_of_mod_eq h.symm
    have := Nat.mod_eq_of_lt (show j - i < N by omega)
    omega
  · have h0 := Nat.sub_mod_eq_zero_of_mod_eq h
    have := Nat.mod_eq_of_lt (show i - j < N by omega)
    omega

/-- The slot after slot `k % N`, with the test for the last slot. -/
theorem succ_mod (k : ℕ) (hN : 0 < N) : (k + 1) % N = if k % N = N - 1 then 0 else k % N + 1 := by
  have hlt := Nat.mod_lt k hN
  rw [Nat.add_mod]
  by_cases h : k % N = N - 1
  · rw [if_pos h, h]
    rcases Nat.lt_or_ge 1 N with h1 | h1
    · rw [Nat.mod_eq_of_lt h1, Nat.sub_add_cancel hN, Nat.mod_self]
    · obtain rfl : N = 1 := by omega
      rfl
  · rw [if_neg h, Nat.mod_eq_of_lt (show 1 < N by omega), Nat.mod_eq_of_lt (by omega)]

/-- The entries of `log` from `r` on are in their slots, and fit. -/
structure Holds (N : ℕ) (slot : ℕ → α) (log : List α) (r : ℕ) : Prop where
  le : r ≤ log.length
  room : log.length ≤ r + N
  entry : ∀ k, r ≤ k → k < log.length → log[k]? = some (slot (k % N))

theorem Holds.empty (N : ℕ) (slot : ℕ → α) : Holds N slot [] 0 :=
  ⟨Nat.le_refl 0, Nat.zero_le _, fun k _ hk => absurd hk (Nat.not_lt_zero k)⟩

variable (h : Holds N slot log r)
include h

/-- Only the slots of waiting entries matter. -/
theorem Holds.congr {slot' : ℕ → α}
    (hs : ∀ k, r ≤ k → k < log.length → slot' (k % N) = slot (k % N)) : Holds N slot' log r :=
  ⟨h.le, h.room, fun k hk hk' => (h.entry k hk hk').trans (by rw [hs k hk hk'])⟩

/-- No waiting entry is in the slot of the next one while there is room. -/
theorem Holds.slot_ne (hroom : log.length < r + N) {k : ℕ} (hk : r ≤ k)
    (hk' : k < log.length) : k % N ≠ log.length % N := by
  intro heq
  have := slot_inj (a := r) hk (by omega) h.le hroom heq
  omega

/-- The slot of the next entry may be filled. -/
theorem Holds.fill (hroom : log.length < r + N) (x : α) :
    Holds N (Function.update slot (log.length % N) x) log r :=
  h.congr fun _ hk hk' => Function.update_of_ne (h.slot_ne hroom hk hk') _ _

/-- An entry that is in its slot may be counted. -/
theorem Holds.add (hroom : log.length < r + N) (hx : slot (log.length % N) = x) :
    Holds N slot (log ++ [x]) r := by
  have hlen : (log ++ [x]).length = log.length + 1 := by simp
  refine ⟨by rw [hlen]; exact h.le.trans (Nat.le_succ _), by omega, fun k hk hk' => ?_⟩
  rcases Nat.lt_or_ge k log.length with hlt | hge
  · rw [List.getElem?_append_left hlt]
    exact h.entry k hk hlt
  · obtain rfl : k = log.length := by omega
    rw [List.getElem?_concat_length, hx]

/-- The first waiting entry is what its slot has. -/
theorem Holds.get (hr : r < log.length) : log[r]? = some (slot (r % N)) :=
  h.entry r (Nat.le_refl r) hr

/-- Taking the first waiting entry extends what has been taken. -/
theorem Holds.front (hr : r < log.length) :
    log.take (r + 1) = log.take r ++ [slot (r % N)] := by
  rw [List.take_add_one, h.get hr, Option.toList_some]

/-- The first waiting entry may be counted as taken. -/
theorem Holds.drop (hr : r < log.length) : Holds N slot log (r + 1) :=
  ⟨hr, by have := h.room; omega, fun k hk hk' => h.entry k (by omega) hk'⟩

end Ring
end Jos
