/-
# Marks on numbered resources

A pool of numbered resources with a mark on each that is in use. `Marks mark l`
says that the marks are those of the list `l` of what is held, each once: a
resource without a mark may be taken (`Marks.take`), one that is held may be
put back (`Marks.put`), and when all of `n` are marked, `n` are held
(`Marks.length_ge`).
-/
import Mathlib.Data.List.Nodup
import Mathlib.Data.List.Perm.Subperm
import Mathlib.Logic.Function.Basic

namespace Jos

/-- The marks are on the elements of `l`, which are different. -/
structure Marks (mark : ℕ → Bool) (l : List ℕ) : Prop where
  nodup : l.Nodup
  iff : ∀ i, mark i = true ↔ i ∈ l

namespace Marks

variable {mark : ℕ → Bool} {l l' : List ℕ} {i n : ℕ}

theorem take (h : Marks mark l) (hi : mark i = false) : Marks (Function.update mark i true) (i :: l) := by
  have hni : i ∉ l := fun hm => by simp [(h.iff i).mpr hm] at hi
  refine ⟨List.nodup_cons.mpr ⟨hni, h.nodup⟩, fun j => ?_⟩
  by_cases hj : j = i
  · simp [hj]
  · simp [hj, h.iff j]

theorem put (h : Marks mark (i :: l)) : Marks (Function.update mark i false) l := by
  obtain ⟨hni, hnd⟩ := List.nodup_cons.mp h.nodup
  refine ⟨hnd, fun j => ?_⟩
  by_cases hj : j = i
  · simp [hj, hni]
  · simp [hj, h.iff j]

theorem perm (h : Marks mark l) (hp : l.Perm l') : Marks mark l' :=
  ⟨hp.nodup_iff.mp h.nodup, fun i => (h.iff i).trans hp.mem_iff⟩

/-- If all below `n` are marked, at least `n` are held. -/
theorem length_ge (h : Marks mark l) (hall : ∀ i < n, mark i = true) : n ≤ l.length := by
  have hsub : List.range n ⊆ l := fun i hi => (h.iff i).mp (hall i (List.mem_range.mp hi))
  simpa using (List.nodup_range.subperm hsub).length_le

end Marks

end Jos
