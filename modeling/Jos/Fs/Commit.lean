/-
# Committing a transaction

`commit_transaction` writes the handles, then the handle indirect block, then
the sector of the record with `t_active` set. What is on the disk after every
one of these writes is part of the specification (`Committed`).

Key definitions: `sector`, `Evs`, `Saved`, `Committed`.
Key theorems: `sector_rec`, `commitLoop_run`, `commit_run`.
-/
import Jos.Fs.Handles

namespace Jos
namespace Fs

open Block Function

/-! ### Sectors -/

/-- Block `d` with the sector of the record `t` taken from `m`. -/
def sector (d m : Block) (t : ℕ) : Block :=
  d.write (tOff t / SECTSIZE * SECTSIZE) SECTSIZE fun i => m (tOff t / SECTSIZE * SECTSIZE + i)

/-- A sector holds 16 records. -/
theorem sector_rec (d m : Block) (t t' : ℕ) {i : ℕ} (hi : i < 32) :
    sector d m t (tOff t' + i) = if t' / 16 = t / 16 then m (tOff t' + i) else d (tOff t' + i) := by
  have ht : tOff t / SECTSIZE * SECTSIZE = 512 + 512 * (t / 16) := by
    simp only [tOff, SECTSIZE]
    omega
  have ht' : tOff t' = 512 + 32 * t' := rfl
  unfold sector
  rw [ht]
  split_ifs with hs
  · rw [write_in (by omega) (by simp only [SECTSIZE]; omega)]
    congr 1
    omega
  · rw [write_out]
    simp only [SECTSIZE]
    omega

/-- Writing a sector twice. -/
theorem sector_sector (d m m' : Block) (t : ℕ) : sector (sector d m t) m' t = sector d m' t := by
  funext i
  unfold sector
  by_cases hi : tOff t / SECTSIZE * SECTSIZE ≤ i ∧ i < tOff t / SECTSIZE * SECTSIZE + SECTSIZE
  · rw [write_in hi.1 hi.2, write_in hi.1 hi.2]
  · rw [write_out (by omega), write_out (by omega), write_out (by omega)]

/-- The sector of record `t` was written. -/
structure Sectored (t : ℕ) (s s' : FsSt) : Prop where
  mem : s'.mem = s.mem
  dirty : s'.dirty = s.dirty
  disk : s'.disk = update s.disk 3 (sector (s.disk 3) (s.mem 3) t)
  trace : s'.trace = .write s'.disk :: s.trace

theorem flushSector_ok {t : ℕ} {s : FsSt} {E : Fault → FsSt → Prop} (h : s.dirty 3 = true) :
    Run (flushSector jblk (tOff t)) s (fun _ s' => Sectored t s s') E := by
  refine (flushSector_run jblk (tOff t) s E).post ?_
  rintro _ s' ⟨h1, h2, ⟨h3, -⟩ | ⟨-, h3, h4⟩⟩
  · rw [h] at h3
    cases h3
  · exact ⟨h1, h2, h3, h4⟩

section
variable {L L' : Layout} {own : ℕ → Use} {jown jown' : ℕ → JUse} {n t b : ℕ} {m m' : Disk} {s s' s'' : FsSt}
  {P Q : Event → Prop}

/-! ### `commit_transaction` -/

/-- Blocks in `B` were flushed. -/
structure Saved (B : ℕ → Prop) (s s' : FsSt) : Prop where
  mem : s'.mem = s.mem
  coh : Coh s → Coh s'
  clean : ∀ b, s.dirty b = false → s'.dirty b = false
  dirty : ∀ b, ¬ B b → s'.dirty b = s.dirty b
  disk : ∀ b, s'.disk b = s.disk b ∨ (B b ∧ s'.disk b = s.mem b)
  evs : Evs (fun e => ∃ d, e = .write d ∧ ∀ b, d b = s.disk b ∨ (B b ∧ d b = s.mem b)) s s'

theorem Saved.refl (B : ℕ → Prop) (s : FsSt) : Saved B s s :=
  ⟨rfl, id, fun _ => id, fun _ _ => rfl, fun _ => .inl rfl, Evs.refl⟩

theorem Saved.disk_of_not {B : ℕ → Prop} (h : Saved B s s') (hb : ¬ B b) : s'.disk b = s.disk b :=
  (h.disk b).resolve_right fun hc => hb hc.1

theorem Saved.trans {B : ℕ → Prop} (h : Saved B s s') (h' : Saved B s' s'') : Saved B s s'' where
  mem := h'.mem.trans h.mem
  coh := h'.coh ∘ h.coh
  clean b hb := h'.clean b (h.clean b hb)
  dirty b hb := (h'.dirty b hb).trans (h.dirty b hb)
  disk b := (h'.disk b).elim (fun he => he.symm ▸ h.disk b) fun hb => .inr ⟨hb.1, by rw [hb.2, h.mem]⟩
  evs := h.evs.trans <| h'.evs.mono fun _ ⟨d, he, hd⟩ => ⟨d, he, fun c =>
    (hd c).elim (fun hc => hc.symm ▸ h.disk c) fun hc => .inr ⟨hc.1, by rw [hc.2, h.mem]⟩⟩

theorem Loaded.saved (h : Loaded s s') (B : ℕ → Prop) : Saved B s s' where
  mem := h.mem
  coh hs b hb := by
    rw [h.dirty] at hb
    rw [h.mem, h.disk, hs b hb]
  clean b hb := by rwa [h.dirty]
  dirty _ _ := by rw [h.dirty]
  disk _ := .inl (by rw [h.disk])
  evs := evs_of_eq h.trace

theorem Flushed.saved {B : ℕ → Prop} (h : Flushed b s s') (hb : B b) : Saved B s s' ∧ s'.dirty b = false := by
  have hne : ∀ c, ¬ B c → c ≠ b := by
    rintro c hc rfl
    exact hc hb
  have hclean : ∀ c, s.dirty c = false → s'.dirty c = false := by
    intro c hc
    rw [h.dirty]
    by_cases hcb : c = b
    · rw [hcb, update_self]
    · rwa [update_of_ne hcb]
  have hdirty : ∀ c, ¬ B c → s'.dirty c = s.dirty c := fun c hc => by
    rw [h.dirty, update_of_ne (hne c hc)]
  refine ⟨?_, by rw [h.dirty, update_self]⟩
  rcases h.disk with ⟨hcl, hd, ht⟩ | ⟨-, hd, ht⟩
  · refine ⟨h.mem, fun hs c hc => ?_, hclean, hdirty, fun c => .inl (by rw [hd]), evs_of_eq ht⟩
    have hsame : s'.dirty = s.dirty := by rw [h.dirty, ← hcl, update_eq_self]
    rw [hsame] at hc
    rw [h.mem, hd, hs c hc]
  · have hdisk : ∀ c, s'.disk c = s.disk c ∨ (B c ∧ s'.disk c = s.mem c) := fun c => by
      rw [hd]
      by_cases hcb : c = b
      · rw [hcb, update_self]
        exact .inr ⟨hb, rfl⟩
      · exact .inl (update_of_ne hcb _ _)
    refine ⟨h.mem, fun hs c hc => ?_, hclean, hdirty, hdisk, evs_cons ht ⟨_, rfl, hd ▸ hdisk⟩⟩
    by_cases hcb : c = b
    · rw [h.mem, hd, hcb, update_self]
    · rw [h.dirty, update_of_ne hcb] at hc
      rw [h.mem, hd, update_of_ne hcb, hs c hc]

/-- The blocks of transaction `t`. -/
def Mine (jown : ℕ → JUse) (t b : ℕ) : Prop := (jown b).trans = some t

theorem Mine.ne (h : Mine jown t b) : jown b ≠ .none := fun hc => by
  rw [Mine, hc] at h
  exact absurd h (by simp [JUse.trans])

/-- The first loop of `commit_transaction` writes the handles. -/
theorem commitLoop_run {E : Fault → FsSt → Prop} : ∀ (k j : ℕ) {s : FsSt}, TInv L own jown n t s.mem → j + k = n →
    Run (commitLoop t k j) s
      (fun r s' => r = true ∧ Saved (Mine jown t) s s' ∧ ∀ i, j ≤ i → i < n → s'.dirty (hblk s.mem t i) = false) E
  | 0, j, s, _, hn => .pure ⟨rfl, Saved.refl _ s, fun i h1 h2 => by omega⟩
  | k + 1, j, s, hT, hn => by
    have hj : j < n := by omega
    unfold commitLoop
    refine .bind (attempt_getHandle hT hj) ?_
    rintro r s1 ⟨rfl, hl1⟩
    dsimp only
    have hh := hl1.here.mpr (hT.handle_here hj)
    refine .bind (flushBlock_ok hh.1 hh.2.1) ?_
    intro _ s2 hf
    obtain ⟨hs2, hc2⟩ := hf.saved (B := Mine jown t) (by rw [Mine, (hT.ok.handle j hj).2]; rfl)
    have hs : Saved (Mine jown t) s s2 := (hl1.saved _).trans hs2
    refine (commitLoop_run k (j + 1) (s := s2) (by rwa [hs.mem]) (by omega)).post ?_
    rintro r s3 ⟨rfl, hs3, hc3⟩
    refine ⟨rfl, hs.trans hs3, fun i h1 h2 => ?_⟩
    rw [hs.mem] at hc3
    by_cases hij : i = j
    · rw [hij]
      exact hs3.clean _ hc2
    · exact hc3 i (by omega) h2

/-- Transaction `t` with `n` handles is on the disk, and active there. -/
structure Committed (jown : ℕ → JUse) (n t : ℕ) (s s' : FsSt) : Prop where
  mem : s'.mem = update s.mem 3 ((s.mem 3).put32 (tOff t) 1)
  coh : Coh s → Coh s'
  dirty3 : s'.dirty 3 = true
  dirty : ∀ c, c ≠ 3 → ¬ Mine jown t c → s'.dirty c = s.dirty c
  clean : s'.dirty (tHandlei s.mem t) = false ∧ ∀ k < n, s'.dirty (hblk s.mem t k) = false
  disk : ∀ c, c ≠ 3 → ¬ Mine jown t c → s'.disk c = s.disk c
  disk3 : s'.disk 3 = sector (s.disk 3) (s'.mem 3) t
  evs : ∃ evs, s'.trace = .write s'.disk :: (evs ++ s.trace) ∧
    ∀ e ∈ evs, ∃ d, e = .write d ∧ ∀ c, ¬ Mine jown t c → d c = s.disk c

/-- `commit_transaction` on a transaction. -/
theorem commit_run {E : Fault → FsSt → Prop} (hT : TInv L own jown n t s.mem) (hn : tNhandles s.mem t = n)
    (hE : n = 0 → tHandlei s.mem t ≠ 0 → E (.panic .transInUse) (s.log (.commit t (handlesOf s.mem t)))) :
    Run (commit t) s
      (fun _ s' => (n = 0 ∧ tHandlei s.mem t = 0 ∧ s' = s.log (.commit t (handlesOf s.mem t))) ∨
        (0 < n ∧ Committed jown n t (s.log (.commit t (handlesOf s.mem t))) s')) E := by
  unfold commit
  refine .getBind (.setBind ?_)
  rw [hn]
  by_cases h0 : n = 0
  · rw [if_pos h0]
    split_ifs with hi
    · exact .pure (.inl ⟨h0, hi, rfl⟩)
    · exact .throw (hE h0 hi)
  rw [if_neg h0]
  have hi : tHandlei s.mem t ≠ 0 := hT.ok.handlei_ne (k := 0) (by omega)
  have htab := hT.ok.tab hi
  refine .bind (commitLoop_run n 0 (s := s.log _) hT (by omega)) ?_
  rintro r s1 ⟨rfl, hs1, hc1⟩
  have hm1 : s1.mem = s.mem := hs1.mem
  rw [if_pos rfl]
  have hh1 : Here s1 (tHandlei s.mem t) := by
    rw [Here, FsSt.nblocks, hm1]
    exact hT.tab_here hi
  refine .bind (diskaddr_ok hh1.1 hh1.2.1) ?_
  rintro _ s1' ⟨rfl, hs1'⟩
  rw [hs1']
  refine .bind (flushBlock_ok hh1.1 hh1.2.1) ?_
  intro _ s2 hf
  obtain ⟨hs2, hc2⟩ := hf.saved (B := Mine jown t) (by rw [Mine, htab]; rfl)
  have hs12 := hs1.trans hs2
  have hm2 : s2.mem = s.mem := hs12.mem
  have hi2 : FInv L own s2.mem := by rw [hm2]; exact hT.inv
  refine .bind (store_ok hi2.here_three _ _ _) ?_
  intro _ s3 h3
  have hd3 : s3.dirty 3 = true := by rw [h3.dirty, update_self]
  refine (flushSector_ok hd3).post ?_
  intro _ s' hsec
  have hmine3 : ∀ c, Mine jown t c → c ≠ 3 := by
    rintro c hc rfl
    exact hc.ne hT.jrn.three
  have hmem : s'.mem = update s.mem 3 ((s.mem 3).put32 (tOff t) 1) := by
    rw [hsec.mem, h3.mem, hm2]
    rfl
  have hdirty : ∀ c, c ≠ 3 → s'.dirty c = s2.dirty c := fun c hc => by
    rw [hsec.dirty, h3.dirty, update_of_ne hc]
  have hdisk : ∀ c, c ≠ 3 → s'.disk c = s2.disk c := fun c hc => by
    rw [hsec.disk, update_of_ne hc, h3.disk]
  refine .inr ⟨by omega, hmem, fun hco c hc => ?_, by rw [hsec.dirty, hd3], fun c hc hm => ?_, ⟨?_, fun k hk => ?_⟩,
    fun c hc hm => ?_, ?_, ?_⟩
  · by_cases hc3 : c = 3
    · rw [hc3, hsec.dirty, hd3] at hc
      cases hc
    · rw [hdirty c hc3] at hc
      rw [hmem, update_of_ne hc3, hdisk c hc3, ← hm2]
      exact hs12.coh hco c hc
  · rw [hdirty c hc, hs12.dirty c hm]
  · show s'.dirty (tHandlei s.mem t) = false
    rw [hdirty _ (hmine3 _ (by rw [Mine, htab]; rfl)), hc2]
  · have hm : Mine jown t (hblk s.mem t k) := by rw [Mine, (hT.ok.handle k hk).2]; rfl
    show s'.dirty (hblk s.mem t k) = false
    rw [hdirty _ (hmine3 _ hm)]
    exact hs2.clean _ (hc1 k (by omega) hk)
  · rw [hdisk c hc, hs12.disk_of_not hm]
  · have h33 : ¬ Mine jown t 3 := fun hm => hmine3 3 hm rfl
    rw [hsec.disk, update_self, hsec.mem, h3.disk, hs12.disk_of_not h33]
  · obtain ⟨evs, ht, he⟩ := hs12.evs
    refine ⟨evs, by rw [hsec.trace, h3.trace, ht], fun e hm => ?_⟩
    obtain ⟨d, rfl, hd⟩ := he e hm
    exact ⟨d, rfl, fun c hc => (hd c).resolve_right fun hcm => hc hcm.1⟩

end

end Fs
end Jos
