/-
# Clearing a transaction

`clear_transaction` writes the sector of the record with `t_active` reset,
frees the handles and the handle indirect block, and writes the sector again.
The recovery clears transactions on images whose files are in no order, so the
specification asks for nothing but the blocks touched being there; it says what
is on the disk after every write (`Cleared`).

Key definitions: `Unlisted`, `Rooted`, `Listed`, `Clearable`, `Cleared`.
Key theorems: `transactionFreeHandle_run`, `clearLoop_run`, `clearTransaction_run`.
-/
import Jos.Fs.Commit

namespace Jos
namespace Fs

open Block Function

section
variable {n t b : ℕ} {s s' s'' : FsSt}

/-- Blocks in `F` were freed and the handle indirect block `tab` changed. -/
structure Unlisted (F : ℕ → Prop) (tab : ℕ) (s s' : FsSt) : Prop where
  mem : ∀ c, c ≠ 2 → c ≠ tab → s'.mem c = s.mem c
  bits : ∀ c < 32768, ¬ F c → bitSet s'.mem c = bitSet s.mem c
  bitmap : s.dirty 2 = false → s'.dirty 2 = false
  dirty : ∀ c, c ≠ 2 → c ≠ tab → s'.dirty c = s.dirty c
  disk : ∀ c, c ≠ 2 → s'.disk c = s.disk c
  coh : Coh s → Coh s'
  bitsDisk : ∀ c < 32768, ¬ F c → InUse s c → bitSet s'.disk c = false
  evs : Evs (fun e => (∃ b, e = .freed b ∧ F b) ∨ ∃ d, e = .write d ∧ (∀ c, c ≠ 2 → d c = s.disk c) ∧
    ∀ c < 32768, ¬ F c → InUse s c → bitSet d c = false) s s'

theorem Unlisted.inUse {F : ℕ → Prop} {tab : ℕ} (h : Unlisted F tab s s') {c : ℕ} (hlt : c < 32768) (hc : ¬ F c)
    (hu : InUse s c) : InUse s' c := ⟨by rw [h.bits c hlt hc]; exact hu.1, h.bitsDisk c hlt hc hu⟩

theorem Unlisted.refl (F : ℕ → Prop) (tab : ℕ) (s : FsSt) : Unlisted F tab s s :=
  ⟨fun _ _ _ => rfl, fun _ _ _ => rfl, id, fun _ _ _ => rfl, fun _ _ => rfl, id, fun _ _ _ h => h.2, Evs.refl⟩

theorem Unlisted.trans {F : ℕ → Prop} {tab : ℕ} (h : Unlisted F tab s s') (h' : Unlisted F tab s' s'') :
    Unlisted F tab s s'' where
  mem c h2 ht := (h'.mem c h2 ht).trans (h.mem c h2 ht)
  bits c hlt hc := (h'.bits c hlt hc).trans (h.bits c hlt hc)
  bitmap := h'.bitmap ∘ h.bitmap
  dirty c h2 ht := (h'.dirty c h2 ht).trans (h.dirty c h2 ht)
  disk c hc := (h'.disk c hc).trans (h.disk c hc)
  coh := h'.coh ∘ h.coh
  bitsDisk c hlt hc hu := h'.bitsDisk c hlt hc (h.inUse hlt hc hu)
  evs := by
    refine h.evs.trans (h'.evs.mono ?_)
    rintro e (he | ⟨d, rfl, hd, hb⟩)
    · exact .inl he
    · exact .inr ⟨d, rfl, fun c hc => (hd c hc).trans (h.disk c hc), fun c hlt hc hu =>
        hb c hlt hc (h.inUse hlt hc hu)⟩

theorem Loaded.unlisted {F : ℕ → Prop} {tab : ℕ} (h : Loaded s s') : Unlisted F tab s s' :=
  ⟨fun _ _ _ => by rw [h.mem], fun _ _ _ => by rw [h.mem], fun hc => by rwa [h.dirty], fun _ _ _ => by rw [h.dirty],
    fun _ _ => by rw [h.disk], (h.saved fun _ => False).coh, fun c _ _ hu => by rw [h.disk]; exact hu.2,
    evs_of_eq h.trace⟩

theorem unlisted_of_marked {F : ℕ → Prop} {tab : ℕ} (hm : Marked b true s s') (hb : F b) (hlt : b < 32768) :
    Unlisted F tab s s' := by
  have h2 := bitBlk_first hlt
  have hd2 : s'.disk 2 = s'.mem 2 := by
    rcases hm.disk2 with h | ⟨-, h, -⟩
    · exact h
    · exact absurd h2 h
  have hbits : ∀ c < 32768, ¬ F c → bitSet s'.mem c = bitSet s.mem c := fun c _ hc => by
    rw [hm.bit, if_neg]
    rintro rfl
    exact hc hb
  have hdisk : ∀ c < 32768, ¬ F c → InUse s c → bitSet s'.disk c = false := fun c hlt hc hu => by
    rw [bitSet_first hlt hd2, hbits c hlt hc, hu.1]
  refine ⟨fun c hc _ => hm.mem c (by rwa [h2]), hbits, fun _ => by rw [hm.dirty, update_self],
    fun c hc _ => ?_, hm.disk, fun hs c hc => ?_, hdisk, ?_⟩
  · rw [hm.dirty, h2, update_of_ne hc, update_of_ne hc]
  · by_cases hc2 : c = 2
    · rw [hc2, hd2]
    · rw [hm.dirty, h2, update_of_ne hc2, update_of_ne hc2] at hc
      rw [hm.mem c (by rwa [h2]), hm.disk c hc2, hs c hc]
  · obtain ⟨evs, ht, he⟩ := hm.evs
    refine ⟨evs, ht, fun e hee => ?_⟩
    rcases he e hee with rfl | ⟨rfl, -⟩
    · exact .inr ⟨_, rfl, hm.disk, hdisk⟩
    · exact .inl ⟨b, rfl, hb⟩

theorem unlisted_of_stored {F : ℕ → Prop} {tab off k : ℕ} {src : ℕ → UInt8} (hs : Stored tab off k src s s')
    (hgt : 3 < tab) : Unlisted F tab s s' := by
  refine ⟨fun c _ hc => by rw [hs.mem, update_of_ne hc], fun c hlt _ => ?_, fun hc => ?_,
    fun c _ hc => by rw [hs.dirty, update_of_ne hc], fun c _ => by rw [hs.disk], fun hco c hc => ?_,
    fun c _ _ hu => by rw [hs.disk]; exact hu.2, evs_of_eq hs.trace⟩
  · exact bitSet_first hlt (by rw [hs.mem, update_of_ne (by omega)])
  · rw [hs.dirty, update_of_ne (by omega)]
    exact hc
  · by_cases hct : c = tab
    · rw [hs.dirty, hct, update_self] at hc
      cases hc
    · rw [hs.dirty, update_of_ne hct] at hc
      rw [hs.mem, update_of_ne hct, hs.disk, hco c hc]

/-- The blocks in `G` were freed on the way, and none was taken. -/
structure Frees (G : ℕ → Prop) (s s' : FsSt) : Prop where
  evs : ∃ evs, s'.trace = evs ++ s.trace ∧ ∀ b, G b → .freed b ∈ evs
  bits : ∀ c < 32768, G c ∨ bitSet s.mem c = true → bitSet s'.mem c = true

theorem Frees.trans {G G' : ℕ → Prop} (h : Frees G s s') (h' : Frees G' s' s'') :
    Frees (fun b => G b ∨ G' b) s s'' := by
  obtain ⟨e, ht, he⟩ := h.evs
  obtain ⟨e', ht', he'⟩ := h'.evs
  refine ⟨⟨e' ++ e, by rw [ht', ht, List.append_assoc], fun b hb => ?_⟩, fun c hc hb => ?_⟩
  · rw [List.mem_append]
    exact hb.elim (fun hb => .inr (he b hb)) fun hb => .inl (he' b hb)
  · refine h'.bits c hc ?_
    rcases hb with (hb | hb) | hb
    · exact .inr (h.bits c hc (.inl hb))
    · exact .inl hb
    · exact .inr (h.bits c hc (.inr hb))

theorem Frees.mono {G G' : ℕ → Prop} (h : Frees G s s') (hG : ∀ b, G' b → G b) : Frees G' s s' := by
  obtain ⟨e, ht, he⟩ := h.evs
  exact ⟨⟨e, ht, fun b hb => he b (hG b hb)⟩, fun c hc hb => h.bits c hc (hb.imp_left (hG c))⟩

/-- Nothing but events that are not of interest, and the bitmap as it was. -/
theorem frees_of_evs {G : ℕ → Prop} (ht : ∃ evs, s'.trace = evs ++ s.trace) (hb : s'.mem 2 = s.mem 2)
    (hG : ∀ b, ¬ G b) : Frees G s s' := by
  obtain ⟨e, ht⟩ := ht
  refine ⟨⟨e, ht, fun b hb => absurd hb (hG b)⟩, fun c hc h => ?_⟩
  rw [bitSet_first hc hb]
  exact h.resolve_left (hG c)

theorem frees_of_marked (hm : Marked b true s s') (ht : Noted b s s') : Frees (· = b) s s' := by
  obtain ⟨e, ht, he⟩ : ∃ evs, s'.trace = evs ++ s.trace ∧ .freed b ∈ evs := by
    rcases ht with ht | ⟨d, ht⟩
    · exact ⟨[.freed b], ht, by simp⟩
    · exact ⟨[.write d, .freed b], ht, by simp⟩
  refine ⟨⟨e, ht, fun c hc => hc ▸ he⟩, fun c _ hc => ?_⟩
  rw [hm.bit]
  split_ifs with hcb
  · rfl
  · exact hc.resolve_left hcb

/-- The bitmap and the journal superblock are there. -/
structure Rooted (s : FsSt) : Prop where
  small : s.nblocks ≤ 32768
  two : Here s 2
  three : Here s 3

/-- The handle indirect block `tab` is there, and its entries from `k` up to
`n` are 0 or blocks in `F` that can be freed. -/
structure Listed (F : ℕ → Prop) (tab k n : ℕ) (s : FsSt) : Prop where
  here : Here s tab
  gt : 3 < tab
  le : n ≤ 1024
  entry : ∀ j, k ≤ j → j < n → (s.mem tab).le32 (4 * j) = 0 ∨
    (F ((s.mem tab).le32 (4 * j)) ∧ 3 < (s.mem tab).le32 (4 * j) ∧ (s.mem tab).le32 (4 * j) < s.nblocks ∧
      (s.mem tab).le32 (4 * j) ≠ tab)

theorem Unlisted.nblocks {F : ℕ → Prop} {tab : ℕ} (h : Unlisted F tab s s') (ht : 3 < tab) :
    s'.nblocks = s.nblocks := by
  rw [FsSt.nblocks, FsSt.nblocks, h.mem 1 (by omega) (by omega)]

theorem Unlisted.three {F : ℕ → Prop} {tab : ℕ} (h : Unlisted F tab s s') (ht : 3 < tab) : s'.mem 3 = s.mem 3 :=
  h.mem 3 (by omega) (by omega)

/-- `transaction_free_handle`. -/
theorem transactionFreeHandle_run {F : ℕ → Prop} {k : ℕ} {E : Fault → FsSt → Prop} (hr : Rooted s)
    (hl : Listed F (tHandlei s.mem t) k n s) (hk : k < n) :
    Run (transactionFreeHandle t k) s (fun _ s' => Unlisted F (tHandlei s.mem t) s s' ∧ Rooted s' ∧
      Listed F (tHandlei s.mem t) (k + 1) n s' ∧ Frees (fun b => b ≠ 0 ∧ b = hblk s.mem t k) s s' ∧
      ∀ j, k < j → hblk s'.mem t j = hblk s.mem t j) E := by
  have hgt := hl.gt
  have hle := hl.le
  unfold transactionFreeHandle
  refine .bind (transactionHandleWalk_run (by omega) hl.here) ?_
  rintro p s0 ⟨rfl, hs0⟩
  rw [hs0]
  refine .bind (load32_ok hl.here) ?_
  rintro b s1 ⟨hb, h1⟩
  have hr1 : Rooted s1 := ⟨by rw [FsSt.nblocks, h1.mem]; exact hr.small, h1.here.mpr hr.two, h1.here.mpr hr.three⟩
  have hl1 : Listed F (tHandlei s.mem t) k n s1 := by
    refine ⟨h1.here.mpr hl.here, hgt, hle, ?_⟩
    rw [FsSt.nblocks, h1.mem]
    exact hl.entry
  have hb1 : b = (s1.mem (tHandlei s.mem t)).le32 (4 * k) := by rw [hb, h1.mem]
  by_cases h0 : b = 0
  · rw [if_pos h0]
    refine .pure ⟨h1.unlisted, hr1, ⟨hl1.here, hgt, hle, fun j hj => hl1.entry j (by omega)⟩,
      frees_of_evs ⟨[], h1.trace⟩ (by rw [h1.mem]) ?_, fun j _ => by rw [h1.mem]⟩
    rintro c ⟨hc, hck⟩
    exact hc (hck.trans (hb.symm.trans h0))
  rw [if_neg h0]
  obtain ⟨hF, hb3, hbn, hbt⟩ := (hl1.entry k le_rfl hk).resolve_left (by rwa [← hb1])
  rw [← hb1] at hF hb3 hbn hbt
  have hlt : b < 32768 := by have := hr1.small; omega
  have hbb := bitBlk_first hlt
  refine .bind (freeBlock_ok h0 (by rw [hbb]; exact hr1.two) (by have := hr1.two.2.1; omega)) ?_
  rintro _ s2 ⟨hm, hev⟩
  have hu2 : Unlisted F (tHandlei s.mem t) s1 s2 := unlisted_of_marked hm hF hlt
  have hmem2 : ∀ c, c ≠ 2 → s2.mem c = s1.mem c := fun c hc => hm.mem c (by rwa [hbb])
  have ht2 : Here s2 (tHandlei s.mem t) := hl1.here.of_marked hm (Ne.symm hbt)
  refine (store_ok ht2 _ _ _).post ?_
  intro _ s3 hst
  have hst : Stored (tHandlei s.mem t) (4 * k) 4 (bytes32 0) s2 s3 := hst
  have hu3 : Unlisted F (tHandlei s.mem t) s2 s3 := unlisted_of_stored hst hgt
  have hn3 : s3.nblocks = s1.nblocks := by rw [hu3.nblocks hgt, hu2.nblocks hgt]
  have hhere3 : ∀ c < 32768, Here s2 c → Here s3 c := fun c hc =>
    (hst.here (by omega) (by rw [bitBlk_first hc]; omega)).mpr
  have hsm := hr1.small
  have hlt1 := hl1.here.2.1
  have hsame : ∀ j, k < j → (s3.mem (tHandlei s.mem t)).le32 (4 * j) = (s1.mem (tHandlei s.mem t)).le32 (4 * j) := by
    intro j hj
    rw [hst.mem, update_self, hmem2 _ (by omega), le32_write_out (by omega)]
  refine ⟨h1.unlisted.trans (hu2.trans hu3), ⟨by rw [hn3]; exact hr1.small, ?_, ?_⟩, ⟨hhere3 _ (by omega) ht2, hgt, hle,
    fun j hj hjn => ?_⟩, ?_, fun j hj => ?_⟩
  · exact hhere3 2 (by omega) (hr1.two.of_marked hm (by omega))
  · exact hhere3 3 (by omega) (hr1.three.of_marked hm (by omega))
  · rw [hsame j (by omega), hn3]
    exact hl1.entry j (by omega) hjn
  · have hst2 : Frees (fun _ => False) s2 s3 :=
      frees_of_evs ⟨[], hst.trace⟩ (by rw [hst.mem, update_of_ne (by omega)]) fun _ h => h
    have hld : Frees (fun _ => False) s s1 := frees_of_evs ⟨[], h1.trace⟩ (by rw [h1.mem]) fun _ h => h
    exact (hld.trans ((frees_of_marked hm hev).trans hst2)).mono fun c hc => .inr (.inl (hc.2.trans hb.symm))
  · have h33 : s3.mem 3 = s.mem 3 := by rw [hst.mem, update_of_ne (by omega), hmem2 3 (by omega), h1.mem]
    have hi3 : tHandlei s3.mem t = tHandlei s.mem t := by rw [tHandlei, h33, tHandlei]
    rw [hblk, hi3, hsame j hj, h1.mem, hblk]

/-- The loop of `clear_transaction`. -/
theorem clearLoop_run {F : ℕ → Prop} {E : Fault → FsSt → Prop} : ∀ (fuel k : ℕ) {s : FsSt}, Rooted s →
    Listed F (tHandlei s.mem t) k (tNhandles s.mem t) s →
    Run (clearLoop t fuel k) s (fun _ s' => Unlisted F (tHandlei s.mem t) s s' ∧ Rooted s' ∧
      Here s' (tHandlei s.mem t) ∧ (tNhandles s.mem t ≤ fuel + k →
        Frees (fun b => b ≠ 0 ∧ ∃ j, k ≤ j ∧ j < tNhandles s.mem t ∧ b = hblk s.mem t j) s s')) E
  | 0, k, s, hr, hl => .pure ⟨Unlisted.refl _ _ s, hr, hl.here, fun hf => frees_of_evs ⟨[], rfl⟩ rfl
      fun _ ⟨_, _, _, _, _⟩ => by omega⟩
  | fuel + 1, k, s, hr, hl => by
    unfold clearLoop
    refine .getBind ?_
    by_cases hk : k < tNhandles s.mem t
    · rw [if_pos hk]
      refine .bind (Q := fun _ s' => Unlisted F (tHandlei s.mem t) s s' ∧ Rooted s' ∧
        Listed F (tHandlei s.mem t) (k + 1) (tNhandles s.mem t) s' ∧ Frees (fun b => b ≠ 0 ∧ b = hblk s.mem t k) s s' ∧
        ∀ j, k < j → hblk s'.mem t j = hblk s.mem t j)
        ((attempt_run (transactionFreeHandle_run (E := fun _ _ => False) hr hl hk)).mono ?_ fun _ _ h => h.2.elim) ?_
      · rintro r s' (⟨_, -, h⟩ | ⟨e, -, he⟩)
        · exact h
        · exact he.elim
      rintro _ s1 ⟨hu, hr1, hl1, hfr, hsame⟩
      have hi : tHandlei s1.mem t = tHandlei s.mem t := by rw [tHandlei, hu.three hl.gt, tHandlei]
      have hn : tNhandles s1.mem t = tNhandles s.mem t := by rw [tNhandles, hu.three hl.gt, tNhandles]
      refine (clearLoop_run fuel (k + 1) hr1 (by rwa [hi, hn])).post ?_
      rintro _ s2 ⟨hu2, hr2, hh2, hfr2⟩
      rw [hi] at hu2 hh2
      rw [hn] at hfr2
      refine ⟨hu.trans hu2, hr2, hh2, fun hfuel => (hfr.trans (hfr2 (by omega))).mono ?_⟩
      rintro b ⟨hb, j, hkj, hj, hbj⟩
      rcases Nat.eq_or_lt_of_le hkj with rfl | hlt
      · exact .inl ⟨hb, hbj⟩
      · exact .inr ⟨hb, j, hlt, hj, by rw [hsame j hlt, hbj]⟩
    · rw [if_neg hk]
      exact .pure ⟨Unlisted.refl _ _ s, hr, hl.here, fun _ => frees_of_evs ⟨[], rfl⟩ rfl
        fun _ ⟨_, _, _, _, _⟩ => by omega⟩

/-- The record of a transaction after the first half of `clear_transaction`. -/
def halfCleared (d : Block) (t : ℕ) : Block := (d.put32 (tOff t) 0).put32 (tOff t + 4) 0

/-- Transaction `t` was cleared and blocks in `F` freed. On the way the disk
held the record half cleared. -/
structure Cleared (F : ℕ → Prop) (t : ℕ) (s s' : FsSt) : Prop where
  mem : ∀ c, c ≠ 2 → c ≠ 3 → c ≠ tHandlei s.mem t → s'.mem c = s.mem c
  mem3 : s'.mem 3 = ((halfCleared (s.mem 3) t).put32 (tOff t + 16) 0).put32 (tOff t + 12) 0
  bits : ∀ c < 32768, ¬ F c → bitSet s'.mem c = bitSet s.mem c
  bitmap : s.dirty 2 = false → s'.dirty 2 = false
  dirty : ∀ c, c ≠ 2 → c ≠ 3 → c ≠ tHandlei s.mem t → s'.dirty c = s.dirty c
  disk : ∀ c, c ≠ 2 → c ≠ 3 → s'.disk c = s.disk c
  disk3 : s'.disk 3 = sector (s.disk 3) (s'.mem 3) t
  coh : Coh s → Coh s'
  bitsDisk : ∀ c < 32768, ¬ F c → InUse s c → bitSet s'.disk c = false
  rooted : Rooted s'
  evs : Evs (fun e => (∃ b, e = .freed b ∧ F b) ∨ ∃ d, e = .write d ∧ (∀ c, c ≠ 2 → c ≠ 3 → d c = s.disk c) ∧
    (d 3 = sector (s.disk 3) (halfCleared (s.mem 3) t) t ∨ d 3 = s'.disk 3) ∧
    ∀ c < 32768, ¬ F c → InUse s c → bitSet d c = false) s s'

/-- What `clear_transaction` asks of the record. -/
def Clearable (F : ℕ → Prop) (t : ℕ) (s : FsSt) : Prop :=
  (tHandlei s.mem t = 0 ∧ tNhandles s.mem t = 0) ∨
    (Listed F (tHandlei s.mem t) 0 (tNhandles s.mem t) s ∧ F (tHandlei s.mem t))

theorem Rooted.of_stored_three {off k : ℕ} {src : ℕ → UInt8} (h : Rooted s) (hs : Stored 3 off k src s s') :
    Rooted s' ∧ ∀ c, c < 32768 → (Here s' c ↔ Here s c) := by
  have hn : s'.nblocks = s.nblocks := hs.nblocks (by omega)
  have hh : ∀ c, c < 32768 → (Here s' c ↔ Here s c) := fun c hc => hs.here (by omega) (by rw [bitBlk_first hc]; omega)
  exact ⟨⟨by rw [hn]; exact h.small, (hh 2 (by omega)).mpr h.two, (hh 3 (by omega)).mpr h.three⟩, hh⟩

/-- The first half: the sector is written with the record inactive. -/
structure HalfCleared (t : ℕ) (s s' : FsSt) : Prop where
  mem : s'.mem = update s.mem 3 (halfCleared (s.mem 3) t)
  dirty : s'.dirty = update s.dirty 3 true
  disk : s'.disk = update s.disk 3 (sector (s.disk 3) (halfCleared (s.mem 3) t) t)
  trace : s'.trace = .write s'.disk :: s.trace
  rooted : Rooted s'
  here : ∀ c, c < 32768 → (Here s' c ↔ Here s c)

theorem halfClear_run {β : Type} {f : FsM β} {R : β → FsSt → Prop} {E : Fault → FsSt → Prop} (hr : Rooted s)
    (hf : ∀ s', HalfCleared t s s' → Run f s' R E) :
    Run (store32 jblk (tOff t) 0 >>= fun _ => store32 jblk (tOff t + 4) 0 >>= fun _ =>
      flushSector jblk (tOff t) >>= fun _ => f) s R E := by
  refine .bind (store_ok hr.three _ _ _) ?_
  intro _ s1 h1
  obtain ⟨hr1, hh1⟩ := hr.of_stored_three h1
  refine .bind (store_ok hr1.three _ _ _) ?_
  intro _ s2 h2
  obtain ⟨hr2, hh2⟩ := hr1.of_stored_three h2
  have hm2 : s2.mem = update s.mem 3 (halfCleared (s.mem 3) t) := by
    rw [h2.mem, h1.mem, update_self, update_idem]
    rfl
  have hd2 : s2.dirty = update s.dirty 3 true := by
    rw [h2.dirty, h1.dirty, update_idem]
  refine .bind (flushSector_ok (by rw [hd2, update_self])) ?_
  intro _ s3 h3
  have hn : s3.nblocks = s2.nblocks := by rw [FsSt.nblocks, h3.mem]; rfl
  have hh3 : ∀ c, Here s3 c ↔ Here s2 c := fun c => by rw [Here, Here, hn, h3.mem]
  refine hf s3 ⟨by rw [h3.mem, hm2], by rw [h3.dirty, hd2], ?_, ?_, ?_, fun c hc => ?_⟩
  · rw [h3.disk, h2.disk, h1.disk, hm2, update_self]
  · rw [h3.trace, h2.trace, h1.trace]
  · exact ⟨by rw [hn]; exact hr2.small, (hh3 2).mpr hr2.two, (hh3 3).mpr hr2.three⟩
  · rw [hh3, hh2 c hc, hh1 c hc]

theorem HalfCleared.handlei (h : HalfCleared t s s') : tHandlei s'.mem t = tHandlei s.mem t := by
  rw [tHandlei, h.mem, update_self, halfCleared, le32_put32_out (by omega), le32_put32_out (by omega),
    tHandlei]

theorem HalfCleared.nhandles (h : HalfCleared t s s') : tNhandles s'.mem t = tNhandles s.mem t := by
  rw [tNhandles, h.mem, update_self, halfCleared, le32_put32_out (by omega), le32_put32_out (by omega),
    tNhandles]

/-- The last half: the record is emptied and its sector written. -/
theorem Cleared.of_halves {F : ℕ → Prop} {s1 s2 s4 : FsSt} (h1 : HalfCleared t s s1)
    (h2 : Unlisted F (tHandlei s.mem t) s1 s2) (h0 : tHandlei s.mem t = 0 ∨ 3 < tHandlei s.mem t)
    (hm4 : s4.mem = update s2.mem 3 (((s2.mem 3).put32 (tOff t + 16) 0).put32 (tOff t + 12) 0))
    (hd4 : s4.dirty = update s2.dirty 3 true) (hk4 : s4.disk = s2.disk) (ht4 : s4.trace = s2.trace)
    (hr4 : Rooted s4) (h5 : Sectored t s4 s') : Cleared F t s s' := by
  have h23 : s2.mem 3 = halfCleared (s.mem 3) t := by
    rw [h2.mem 3 (by omega) (by omega), h1.mem, update_self]
  have hm3 : s'.mem 3 = ((halfCleared (s.mem 3) t).put32 (tOff t + 16) 0).put32 (tOff t + 12) 0 := by
    rw [h5.mem, hm4, update_self, h23]
  have hdisk : ∀ c, c ≠ 2 → c ≠ 3 → s'.disk c = s.disk c := fun c hc2 hc3 => by
    rw [h5.disk, update_of_ne hc3, hk4, h2.disk c hc2, h1.disk, update_of_ne hc3]
  have hdisk3 : s'.disk 3 = sector (s.disk 3) (s'.mem 3) t := by
    rw [h5.disk, update_self, hk4, h2.disk 3 (by omega), h1.disk, update_self, sector_sector,
      h5.mem]
  have hb1 : ∀ c < 32768, bitSet s1.mem c = bitSet s.mem c := fun c hc =>
    bitSet_first hc (by rw [h1.mem, update_of_ne (by omega)])
  have hb1d : ∀ c < 32768, bitSet s1.disk c = bitSet s.disk c := fun c hc =>
    bitSet_first hc (by rw [h1.disk, update_of_ne (by omega)])
  have hu1 : ∀ c < 32768, InUse s c → InUse s1 c := fun c hc hu =>
    ⟨by rw [hb1 c hc]; exact hu.1, by rw [hb1d c hc]; exact hu.2⟩
  have hbd : ∀ c < 32768, ¬ F c → InUse s c → bitSet s'.disk c = false := fun c hc hF hu => by
    rw [bitSet_first (m := s2.disk) hc (by rw [h5.disk, update_of_ne (by omega), hk4])]
    exact h2.bitsDisk c hc hF (hu1 c hc hu)
  refine ⟨fun c hc2 hc3 hct => ?_, hm3, fun c hc hF => ?_, fun hd => ?_, fun c hc2 hc3 hct => ?_, hdisk, hdisk3,
    fun hco c hc => ?_, hbd, ?_, ?_⟩
  · rw [h5.mem, hm4, update_of_ne hc3, h2.mem c hc2 hct, h1.mem, update_of_ne hc3]
  · rw [h5.mem, bitSet_first (m := s2.mem) hc (by rw [hm4, update_of_ne (by omega)]), h2.bits c hc hF, hb1 c hc]
  · rw [h5.dirty, hd4, update_of_ne (by omega)]
    refine h2.bitmap ?_
    rw [h1.dirty, update_of_ne (by omega)]
    exact hd
  · rw [h5.dirty, hd4, update_of_ne hc3, h2.dirty c hc2 hct, h1.dirty, update_of_ne hc3]
  · have hc3 : c ≠ 3 := by
      rintro rfl
      rw [h5.dirty, hd4, update_self] at hc
      cases hc
    have hco1 : Coh s1 := by
      intro c hc
      have hc3 : c ≠ 3 := by
        rintro rfl
        rw [h1.dirty, update_self] at hc
        cases hc
      rw [h1.dirty, update_of_ne hc3] at hc
      rw [h1.mem, h1.disk, update_of_ne hc3, update_of_ne hc3, hco c hc]
    rw [h5.dirty, hd4, update_of_ne hc3] at hc
    rw [h5.mem, hm4, h5.disk, update_of_ne hc3, update_of_ne hc3, hk4]
    exact h2.coh hco1 c hc
  · have hn : s'.nblocks = s4.nblocks := by rw [FsSt.nblocks, h5.mem]; rfl
    have hh : ∀ c, Here s4 c → Here s' c := fun c h => by rwa [Here, hn, h5.mem]
    exact ⟨by rw [hn]; exact hr4.small, hh 2 hr4.two, hh 3 hr4.three⟩
  · have hev1 : ∀ P : Event → Prop, P (.write s1.disk) → Evs P s s1 := fun _ h => evs_cons h1.trace h
    have hev5 : ∀ P : Event → Prop, P (.write s'.disk) → Evs P s2 s' := fun _ h => evs_cons (by rw [h5.trace, ht4]) h
    refine (hev1 _ ?_).trans ((h2.evs.mono ?_).trans (hev5 _ (.inr ⟨_, rfl, hdisk, .inr rfl, hbd⟩)))
    · refine .inr ⟨_, rfl, fun c _ hc3 => ?_, .inl ?_, fun c hc _ hu => ?_⟩
      · rw [h1.disk, update_of_ne hc3]
      · rw [h1.disk, update_self]
      · rw [hb1d c hc]
        exact hu.2
    · rintro e (he | ⟨d, rfl, hd, hb⟩)
      · exact .inl he
      · refine .inr ⟨d, rfl, fun c hc2 hc3 => ?_, .inl ?_, fun c hc hF hu => hb c hc hF (hu1 c hc hu)⟩
        · rw [hd c hc2, h1.disk, update_of_ne hc3]
        · rw [hd 3 (by omega), h1.disk, update_self]

/-- `clear_transaction` frees every block of the transaction. -/
theorem clearTransaction_frees {F : ℕ → Prop} {E : Fault → FsSt → Prop} (hr : Rooted s) (hc : Clearable F t s) :
    Run (clearTransaction t) s (fun _ s' => Cleared F t s s' ∧
      Frees (fun b => b ≠ 0 ∧ (b = tHandlei s.mem t ∨ ∃ k < tNhandles s.mem t, b = hblk s.mem t k)) s s') E := by
  have h0 : tHandlei s.mem t = 0 ∨ 3 < tHandlei s.mem t := hc.imp (fun h => h.1) fun h => h.1.gt
  unfold clearTransaction
  refine halfClear_run hr ?_
  intro s1 h1
  have hend : ∀ G s2, Unlisted F (tHandlei s.mem t) s1 s2 → Rooted s2 → Frees G s1 s2 →
      Run (store32 jblk (tOff t + 16) 0 >>= fun _ => store32 jblk (tOff t + 12) 0 >>= fun _ =>
        flushSector jblk (tOff t)) s2 (fun _ s' => Cleared F t s s' ∧ Frees G s s') E := by
    intro G s2 h2 hr2 hfr
    refine .bind (store_ok hr2.three _ _ _) ?_
    intro _ s3 h3
    obtain ⟨hr3, -⟩ := hr2.of_stored_three h3
    refine .bind (store_ok hr3.three _ _ _) ?_
    intro _ s4 h4
    obtain ⟨hr4, -⟩ := hr3.of_stored_three h4
    have hd4 : s4.dirty = update s2.dirty 3 true := by rw [h4.dirty, h3.dirty, update_idem]
    refine (flushSector_ok (by rw [hd4, update_self])).post ?_
    intro _ s' h5
    refine ⟨Cleared.of_halves h1 h2 h0 ?_ hd4 (by rw [h4.disk, h3.disk]) (by rw [h4.trace, h3.trace]) hr4 h5, ?_⟩
    · rw [h4.mem, h3.mem, update_self, update_idem]
      rfl
    · have hfirst : Frees (fun _ => False) s s1 :=
        frees_of_evs ⟨[_], h1.trace⟩ (by rw [h1.mem, update_of_ne (by omega)]) fun _ h => h
      have hlast : Frees (fun _ => False) s2 s' := by
        refine frees_of_evs ⟨[_], by rw [h5.trace, h4.trace, h3.trace]; rfl⟩ ?_ fun _ h => h
        rw [h5.mem, h4.mem, update_of_ne (by simp), h3.mem, update_of_ne (by simp)]
      exact (hfirst.trans (hfr.trans hlast)).mono fun b hb => .inr (.inl hb)
  rcases hc with ⟨hi, hn⟩ | ⟨hl, hF⟩
  · -- nothing to free
    have hloop : ∀ fuel, clearLoop t fuel 0 s1 = .ok () s1 := by
      intro fuel
      cases fuel with
      | zero => rfl
      | succ n =>
        have : ¬ 0 < tNhandles s1.mem t := by rw [h1.nhandles, hn]; omega
        show (ite (0 < tNhandles s1.mem t) _ (pure ()) : FsM Unit) s1 = _
        rw [if_neg this]
        rfl
    refine .bind (Q := fun _ s' => s' = s1) (show Run _ _ _ _ by rw [Run, hloop]) ?_
    intro _ s2 hs2
    rw [hs2]
    refine .getBind ?_
    dsimp only
    rw [if_pos (by rw [h1.handlei, hi])]
    refine (hend (fun _ => False) s1 (Unlisted.refl _ _ s1) h1.rooted (frees_of_evs ⟨[], rfl⟩ rfl fun _ h => h)).mono
      (fun _ _ h => ⟨h.1, h.2.mono ?_⟩) fun _ _ h => h
    rintro b ⟨hb, rfl | ⟨k, hk, -⟩⟩
    · exact hb hi
    · omega
  · have hsm := hr.small
    have hlt := hl.here.2.1
    have hne := hl.here.1
    have hgt := hl.gt
    have htab : s1.mem (tHandlei s.mem t) = s.mem (tHandlei s.mem t) := by
      rw [h1.mem, update_of_ne (by omega)]
    have hnb : s1.nblocks = s.nblocks := by rw [FsSt.nblocks, h1.mem, update_of_ne (by omega)]; rfl
    have hl1 : Listed F (tHandlei s1.mem t) 0 (tNhandles s1.mem t) s1 := by
      rw [h1.handlei, h1.nhandles]
      refine ⟨(h1.here _ (by omega)).mpr hl.here, hgt, hl.le, ?_⟩
      rw [htab, hnb]
      exact hl.entry
    refine .bind (clearLoop_run _ 0 h1.rooted hl1) ?_
    rintro _ s2 ⟨hu, hr2, hh2, hfr⟩
    rw [h1.handlei] at hu hh2
    rw [h1.nhandles] at hfr
    have hblk1 : ∀ k, hblk s1.mem t k = hblk s.mem t k := fun k => by rw [hblk, h1.handlei, htab, hblk]
    have hi2 : tHandlei s2.mem t = tHandlei s.mem t := by rw [← h1.handlei, tHandlei, hu.three hgt, tHandlei]
    refine .getBind ?_
    dsimp only
    rw [hi2, if_neg hne]
    have hlt32 : tHandlei s.mem t < 32768 := by omega
    have hbb := bitBlk_first hlt32
    refine .bind (freeBlock_ok hne (by rw [hbb]; exact hr2.two) (by have := hr2.two.2.1; omega)) ?_
    rintro _ s3 ⟨hm, hev⟩
    have hu3 : Unlisted F (tHandlei s.mem t) s2 s3 := unlisted_of_marked hm hF hlt32
    have hle := hl.le
    refine (hend _ s3 (hu.trans hu3) ⟨by rw [hu3.nblocks hgt]; exact hr2.small, hr2.two.of_marked hm (by omega),
      hr2.three.of_marked hm (by omega)⟩ ((hfr (by omega)).trans (frees_of_marked hm hev))).mono
      (fun _ _ h => ⟨h.1, h.2.mono ?_⟩) fun _ _ h => h
    rintro b ⟨hb, rfl | ⟨k, hk, hbk⟩⟩
    · exact .inr rfl
    · exact .inl ⟨hb, k, Nat.zero_le k, hk, by rw [hblk1, hbk]⟩

/-- `clear_transaction` returns. -/
theorem clearTransaction_run {F : ℕ → Prop} {E : Fault → FsSt → Prop} (hr : Rooted s) (hc : Clearable F t s) :
    Run (clearTransaction t) s (fun _ s' => Cleared F t s s') E :=
  (clearTransaction_frees hr hc).post (fun _ _ h => h.1)

end

end Fs
end Jos
