/-
# The blocks of the journal

Block 3 holds the records of the transactions; a transaction with handles has a
handle indirect block, which lists the blocks of its handles. `jown` gives the
blocks that belong to a transaction their use, as `own` does for files: no
block belongs to two, and none to a file.

A function that works on one transaction leaves the files and the other
transactions alone (`Others`, `Logged`).

Key definitions: `JUse`, `Jrn`, `TransOk`, `Others`, `Logged`.
Key theorems: `TransOk.congr`, `Logged.inv`, `logged_of_stored`, `logged_of_marked`.
-/
import Jos.Fs.Blocks
import Jos.Fs.Journal

namespace Jos
namespace Fs

open Block Function

/-- What a transaction uses a block for. -/
inductive JUse
  | none
  /-- The handle indirect block of transaction `t`. -/
  | tab (t : ℕ)
  /-- Handle `k` of transaction `t`. -/
  | handle (t k : ℕ)
  deriving DecidableEq

def JUse.trans : JUse → Option ℕ
  | .none => Option.none
  | .tab t => some t
  | .handle t _ => some t

/-- The block of handle `k` of transaction `t`, as the handle indirect block has it. -/
def hblk (m : Disk) (t k : ℕ) : ℕ := (m (tHandlei m t)).le32 (4 * k)

/-- The journal has its superblock and the blocks of the transactions. -/
structure Jrn (L : Layout) (jown : ℕ → JUse) : Prop where
  small : L.nb ≤ 32768
  zero : jown 0 = .none
  three : jown 3 = .none
  journal : ∀ b, L.J b ↔ b = 3 ∨ jown b ≠ .none

/-- The record of transaction `t` and its handle indirect block list `n`
handles. -/
structure TransOk (jown : ℕ → JUse) (n : ℕ) (m : Disk) (t : ℕ) : Prop where
  tab : tHandlei m t ≠ 0 → jown (tHandlei m t) = .tab t
  zero : tHandlei m t = 0 → n = 0
  le : n ≤ 1024
  handle : ∀ k < n, hblk m t k ≠ 0 ∧ jown (hblk m t k) = .handle t k
  rest : tHandlei m t ≠ 0 → ∀ k < 1024, n ≤ k → hblk m t k = 0

theorem TransOk.tab_ne {jown : ℕ → JUse} {n t : ℕ} {m : Disk} (h : TransOk jown n m t) (h0 : tHandlei m t ≠ 0) :
    jown (tHandlei m t) ≠ .none := by
  rw [h.tab h0]
  simp

theorem TransOk.handle_ne {jown : ℕ → JUse} {n t k : ℕ} {m : Disk} (h : TransOk jown n m t) (hk : k < n) :
    jown (hblk m t k) ≠ .none := by
  rw [(h.handle k hk).2]
  simp

/-- The layout of a journal with the blocks of `jown`. -/
def jLayout (L : Layout) (jown : ℕ → JUse)
    (h : ∀ b, b = 3 ∨ jown b ≠ .none → b < L.nb ∧ b ≠ 1 ∧ (b < 2 ∨ 2 + (L.nb + 32767) / 32768 ≤ b)) : Layout :=
  ⟨L.nb, fun b => b = 3 ∨ jown b ≠ .none, L.D, L.nb3, h⟩

/-- The blocks that are not for transaction `t` to change. -/
def Others (own : ℕ → Use) (jown : ℕ → JUse) (t b : ℕ) : Prop :=
  b = 1 ∨ own b ≠ .none ∨ ∃ t', t' ≠ t ∧ (jown b).trans = some t'

/-- Transaction `t` was changed in the cache: nothing but bitmap blocks was
written to disk and no block freed. -/
structure Logged (L : Layout) (own : ℕ → Use) (jown : ℕ → JUse) (t : ℕ) (s s' : FsSt) : Prop where
  keeps : Keeps (Others own jown t) s s'
  three : ∀ i, i < tOff t ∨ tOff t + 32 ≤ i → s'.mem 3 i = s.mem 3 i
  bitmap : s.dirty 2 = false → s'.dirty 2 = false
  bits : ∀ b < L.nb, bitSet s.mem b = false → bitSet s'.mem b = false
  disk : ∀ c, c ≠ 2 → s'.disk c = s.disk c
  inUse : ∀ b < L.nb, InUse s b → InUse s' b
  evs : Evs (fun e => e = .full ∨ (∃ b, e = .taken b) ∨ ∃ d, e = .write d ∧ (∀ c, c ≠ 2 → d c = s.disk c) ∧
    ∀ b < L.nb, InUse s b → bitSet d b = false) s s'

section
variable {L L' : Layout} {own : ℕ → Use} {jown jown' : ℕ → JUse} {n t : ℕ} {m m' : Disk} {s s' s'' : FsSt} {b : ℕ}

/-! ### Blocks of a transaction -/

theorem Jrn.blk (hj : Jrn L jown) (hb : jown b ≠ .none) : 3 < b ∧ b < L.nb := by
  obtain ⟨h1, h2, h3⟩ := L.journal b ((hj.journal b).mpr (.inr hb))
  have h0 : b ≠ 0 := by
    rintro rfl
    exact hb hj.zero
  have h4 : b ≠ 3 := by
    rintro rfl
    exact hb hj.three
  have := L.nb3
  have := hj.small
  omega

theorem FInv.own_jown (h : FInv L own m) (hj : Jrn L jown) (hb : jown b ≠ .none) :
    own b = .none ∧ bitSet m b = false :=
  h.fixed b (.inr ((hj.journal b).mpr (.inr hb)))

theorem FInv.here (h : FInv L own s.mem) (hj : Jrn L jown) (hb : jown b ≠ .none) : Here s b := by
  obtain ⟨h1, h2⟩ := hj.blk hb
  refine ⟨by omega, ?_, (h.own_jown hj hb).2⟩
  rwa [h.nblocks_eq]

theorem FInv.here_three (h : FInv L own s.mem) : Here s 3 := by
  have := L.nb3
  refine ⟨by omega, ?_, (h.fixed 3 (.inl (.inl le_rfl))).2⟩
  rwa [h.nblocks_eq]

theorem bitBlk_small (hj : Jrn L jown) (hb : b < L.nb) : bitBlk b = 2 := bitBlk_first (hb.trans_le hj.small)

theorem bitSet_small {m m' : Disk} (hj : Jrn L jown) (hb : b < L.nb) (h : m' 2 = m 2) : bitSet m' b = bitSet m b :=
  bitSet_first (hb.trans_le hj.small) h

theorem FInv.here_two (h : FInv L own s.mem) : Here s 2 := by
  have := L.nb3
  refine ⟨by omega, ?_, (h.fixed 2 (.inl (.inl (by omega)))).2⟩
  rw [h.nblocks_eq]
  omega

/-! ### What is not the transaction's -/

theorem Others.lt (ho : Others own jown t b) (h : FInv L own m) (hj : Jrn L jown) : b < L.nb ∧ b ≠ 2 ∧ b ≠ 3 := by
  have := L.nb3
  rcases ho with rfl | ho | ⟨t', -, ho⟩
  · exact ⟨by omega, by omega, by omega⟩
  · refine ⟨(h.used b ho).1, ?_, ?_⟩
    · rintro rfl
      exact ho (h.fixed 2 (.inl (.inl (by omega)))).1
    · rintro rfl
      exact ho (h.fixed 3 (.inl (.inl le_rfl))).1
  · have := hj.blk (b := b) (by rintro he; rw [he] at ho; exact absurd ho (by simp [JUse.trans]))
    omega

theorem not_others (h : FInv L own m) (hj : Jrn L jown) (hb : (jown b).trans = some t) : ¬ Others own jown t b := by
  have hne : jown b ≠ .none := by
    intro he
    rw [he] at hb
    exact absurd hb (by simp [JUse.trans])
  rintro (rfl | ho | ⟨t', hne', ho⟩)
  · have := hj.blk hne
    omega
  · exact ho (h.own_jown hj hne).1
  · rw [hb] at ho
    exact hne' (Option.some.inj ho).symm

/-- A free block is nobody's. -/
theorem not_others_free (h : FInv L own m) (hj : Jrn L jown) (hb : bitSet m b = true) : ¬ Others own jown t b := by
  have hin : ¬ bitSet m b = false := by simp [hb]
  rintro (rfl | ho | ⟨t', -, ho⟩)
  · exact hin (h.fixed 1 (.inl L.rsv_one)).2
  · exact hin (h.used b ho).2
  · refine hin (h.own_jown hj ?_).2
    intro he
    rw [he] at ho
    exact absurd ho (by simp [JUse.trans])

/-! ### Transactions that read the same -/

theorem tOff_disjoint {t' : ℕ} (hne : t' ≠ t) {i : ℕ} (hi : i < 32) :
    tOff t' + i < tOff t ∨ tOff t + 32 ≤ tOff t' + i := by
  unfold tOff
  omega

/-- The records' words depend on the record's bytes only. -/
theorem rec_le32 {d d' : Block} (h : ∀ i < 32, d' (tOff t + i) = d (tOff t + i)) {o : ℕ} (ho : o + 4 ≤ 32) :
    d'.le32 (tOff t + o) = d.le32 (tOff t + o) := by
  refine le32_congr fun i hi => ?_
  rw [Nat.add_assoc]
  exact h (o + i) (by omega)

variable (h : ∀ i < 32, m' 3 (tOff t + i) = m 3 (tOff t + i))
include h

theorem tHandlei_congr : tHandlei m' t = tHandlei m t :=
  rec_le32 h (by omega)

theorem tNhandles_congr : tNhandles m' t = tNhandles m t :=
  rec_le32 h (by omega)

theorem tActive_congr : tActive m' t = tActive m t :=
  rec_le32 (o := 0) h (by omega)

theorem tEnvid_congr : tEnvid m' t = tEnvid m t := by
  unfold tEnvid
  rw [rec_le32 h (by omega)]

omit h

theorem TransOk.congr (h : TransOk jown n m t) (hi : tHandlei m' t = tHandlei m t)
    (htab : tHandlei m t ≠ 0 → m' (tHandlei m t) = m (tHandlei m t))
    (hown : ∀ b, (jown b).trans = some t → jown' b = jown b) : TransOk jown' n m' t := by
  have hk : tHandlei m t ≠ 0 → ∀ k, hblk m' t k = hblk m t k := by
    intro h0 k
    rw [hblk, hblk, hi, htab h0]
  refine ⟨fun h0 => ?_, fun h0 => h.zero (by rwa [hi] at h0), h.le, fun k hlt => ?_, fun h0 k hlt hle => ?_⟩
  · rw [hi] at h0 ⊢
    rw [hown _ (by rw [h.tab h0]; rfl), h.tab h0]
  · have h0 : tHandlei m t ≠ 0 := fun h0 => by
      rw [h.zero h0] at hlt
      omega
    obtain ⟨h1, h2⟩ := h.handle k hlt
    rw [hk h0, hown _ (by rw [h2]; rfl)]
    exact ⟨h1, h2⟩
  · rw [hi] at h0
    rw [hk h0]
    exact h.rest h0 k hlt hle

/-! ### Changes of a transaction -/

theorem Logged.refl (L : Layout) (own : ℕ → Use) (jown : ℕ → JUse) (t : ℕ) (s : FsSt) : Logged L own jown t s s :=
  ⟨Keeps.refl _ s, fun _ _ => rfl, id, fun _ _ => id, fun _ _ => rfl, fun _ _ => id, Evs.refl⟩

theorem Logged.trans (h : Logged L own jown t s s') (h' : Logged L own jown t s' s'') :
    Logged L own jown t s s'' where
  keeps := h.keeps.trans h'.keeps
  three i hi := (h'.three i hi).trans (h.three i hi)
  bitmap := h'.bitmap ∘ h.bitmap
  bits b hlt hb := h'.bits b hlt (h.bits b hlt hb)
  disk c hc := (h'.disk c hc).trans (h.disk c hc)
  inUse b hlt hu := h'.inUse b hlt (h.inUse b hlt hu)
  evs := by
    refine h.evs.trans (h'.evs.mono ?_)
    rintro e (he | he | ⟨d, rfl, hd, hb⟩)
    · exact .inl he
    · exact .inr (.inl he)
    · exact .inr (.inr ⟨d, rfl, fun c hc => (hd c hc).trans (h.disk c hc),
        fun b hlt hu => hb b hlt (h.inUse b hlt hu)⟩)

theorem Loaded.logged (h : Loaded s s') : Logged L own jown t s s' :=
  ⟨h.keeps _, fun i _ => by rw [h.mem], fun hc => by rwa [h.dirty], fun b _ hb => by rwa [h.mem],
    fun c _ => by rw [h.disk], fun b _ hu => by rwa [InUse, h.mem, h.disk], evs_of_eq h.trace⟩

theorem logged_log_full : Logged L own jown t s (s.log .full) :=
  ⟨keeps_log trivial, fun _ _ => rfl, id, fun _ _ => id, fun _ _ => rfl, fun _ _ => id,
    evs_cons rfl (.inl rfl)⟩

/-- Block 3 is for every transaction to change. -/
theorem Jrn.not_others_three (hj : Jrn L jown) (h : FInv L own m) : ¬ Others own jown t 3 := by
  rintro (hc | hc | ⟨t', -, hc⟩)
  · omega
  · exact hc (h.fixed 3 (.inl (.inl le_rfl))).1
  · rw [hj.three] at hc
    exact absurd hc (by simp [JUse.trans])

theorem logged_log_taken (h : FInv L own m) (hj : Jrn L jown) : Logged L own jown t s (s.log (.taken b)) :=
  ⟨keeps_log (hj.not_others_three h), fun _ _ => rfl, id, fun _ _ => id, fun _ _ => rfl, fun _ _ => id,
    evs_cons rfl (.inr (.inl ⟨b, rfl⟩))⟩

/-- The files do not notice. -/
theorem Logged.inv (hl : Logged L own jown t s s') (h : FInv L own s.mem) : FInv L own s'.mem := by
  refine h.of_frame (fun c hc => hl.keeps.mem c ?_) fun b hb hf => hl.bits b ?_ hf
  · rcases hc with hc | hc
    · exact .inl hc
    · exact .inr (.inl hc)
  · rcases hb with hb | hb
    · exact (h.used b hb).1
    · exact Layout.fixed_lt hb

/-- A store into a block of nobody else, into block 3 within the record only. -/
theorem logged_of_stored {off k : ℕ} {src : ℕ → UInt8} (h : FInv L own s.mem) (hj : Jrn L jown)
    (hs : Stored b off k src s s') (hb : ¬ Others own jown t b) (h2 : b ≠ 2)
    (h3 : b = 3 → tOff t ≤ off ∧ off + k ≤ tOff t + 32) : Logged L own jown t s s' := by
  have h1 : b ≠ 1 := by
    rintro rfl
    exact hb (.inl rfl)
  have hbits : ∀ c < L.nb, bitSet s.mem c = false → bitSet s'.mem c = false := fun c hlt hf => by
    rw [bitSet_congr (m := s.mem)]
    · exact hf
    · rw [hs.mem, bitBlk_small hj hlt, update_of_ne h2.symm]
  refine ⟨hs.keeps hb (fun c hc => ?_) h2 fun hc => absurd hc h1, fun i hi => ?_, fun hc => ?_, hbits,
    fun c _ => by rw [hs.disk], fun c hlt hu => ⟨hbits c hlt hu.1, by rw [hs.disk]; exact hu.2⟩, evs_of_eq hs.trace⟩
  · rw [bitBlk_small hj (hc.lt h hj).1]
    exact h2.symm
  · by_cases hb3 : b = 3
    · obtain ⟨h4, h5⟩ := h3 hb3
      rw [hs.mem, hb3, update_self, write_out (by omega)]
    · rw [hs.mem, update_of_ne (Ne.symm hb3)]
  · rw [hs.dirty, update_of_ne h2.symm]
    exact hc

/-- A block marked in use. -/
theorem logged_of_marked (h : FInv L own s.mem) (hj : Jrn L jown) (hb : b < L.nb) (hf : bitSet s.mem b = true)
    (hm : Marked b false s s') : Logged L own jown t s s' := by
  have h2 := bitBlk_small hj hb
  have hbits : ∀ c < L.nb, bitSet s.mem c = false → bitSet s'.mem c = false := fun c _ hc => by
    rw [hm.bit, hc, ite_self]
  have hd2 : s'.disk 2 = s'.mem 2 := by
    rcases hm.disk2 with hd | ⟨-, hd, -⟩
    · exact hd
    · exact absurd h2 hd
  have hdisk : ∀ c < L.nb, InUse s c → bitSet s'.disk c = false := fun c hlt hu => by
    rw [bitSet_congr (m := s'.mem) (by rw [bitBlk_small hj hlt, hd2])]
    exact hbits c hlt hu.1
  refine ⟨hm.keeps (not_others_free h hj hf) ?_ ?_ ?_, fun i _ => ?_, fun _ => ?_, hbits, hm.disk,
    fun c hlt hu => ⟨hbits c hlt hu.1, hdisk c hlt hu⟩, ?_⟩
  · rintro c hc rfl
    exact (hc.lt h hj).2.1 h2
  · exact fun hc => (hc.lt h hj).2.1 rfl
  · rintro rfl
    rw [(h.fixed 2 (Or.inl (Or.inl (by omega)))).2] at hf
    cases hf
  · rw [hm.mem 3 (by omega)]
  · rw [hm.dirty, update_self]
  · obtain ⟨evs, ht, he⟩ := hm.evs
    refine ⟨evs, ht, fun e hee => ?_⟩
    rcases he e hee with rfl | ⟨-, hv⟩
    · exact .inr (.inr ⟨_, rfl, hm.disk, hdisk⟩)
    · cases hv

end

end Fs
end Jos
