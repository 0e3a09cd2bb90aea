/-
# Ending a transaction

`clear_transaction` of a transaction whose handles are on the disk, and
`fs_sync`, which may write the journal superblock at any time. After
`clear_transaction` the blocks of the transaction are nobody's; until its last
write the record on the disk still lists them, and if the tree is on the disk
then no file on the disk has them.

Key theorems: `FInv.sameFile_of_clean`, `FsInv.of_cleared`, `FsInv.of_synced`.
-/
import Jos.Fs.Wal

namespace Jos
namespace Fs

open Block

section
variable {R : Rules} {L L' : Layout} {own own' : ℕ → Use} {jown jown' : ℕ → JUse} {a : Option ℕ} {t n : ℕ}
  {m d : Disk} {s s' : FsSt} {evs tr : List Event} {y : ℕ → Bool}

/-! ### A tree that is on the disk -/

theorem CleanTree.blk (h : FInv L own m) (hc : CleanTree m y) {f : Ptr} (hf : InTree m f) :
    y f.blk = false ∧ (f.blk = 1 ∨ own f.blk ≠ .none) := by
  obtain ⟨sp, hsp⟩ := hf
  cases sp with
  | nil =>
    obtain rfl : root = f := Option.some.inj hsp
    exact ⟨hc.super, .inl rfl⟩
  | cons k sp =>
    obtain ⟨g, hg, ht, hch⟩ := node_cons.mp hsp
    have hown := (h.own_child (h.node_rec hg).1 ht hch).1
    obtain ⟨h1, h2, -, rfl⟩ := child_some.mp hch
    exact ⟨hc.dir g (k / 16) ⟨sp, hg⟩ ht h1 h2, .inr (by rw [hown]; simp)⟩

variable (h : FInv L own m) (hc : CleanTree m y) (hd : ∀ b, y b = false → b = 1 ∨ own b ≠ .none → d b = m b)
include h hc hd

/-- The records of the tree read the same on the disk. -/
theorem FInv.sameFile_of_clean {f : Ptr} (hf : InTree m f) : SameFile m d f := by
  obtain ⟨hy, hb⟩ := hc.blk h hf
  refine ⟨fun i _ => by rw [hd _ hy hb], fun h0 => hd _ (hc.ind f hf h0) (.inr ?_)⟩
  rw [(h.recOk f (h.isRec hf)).ind h0]
  simp

theorem FInv.node_of_clean : ∀ {sp : List ℕ} {f : Ptr}, node d sp = some f → node m sp = some f
  | [], _, hn => hn
  | k :: sp, c, hn => by
    obtain ⟨f, hf, ht, hch⟩ := node_cons.mp hn
    have hf' := FInv.node_of_clean hf
    have hs := h.sameFile_of_clean hc hd ⟨sp, hf'⟩
    have htm : fType m f = 1 := by rwa [← hs.1.fType]
    obtain ⟨h1, h2, h3, rfl⟩ := child_some.mp hch
    have he : entryAt d f k = entryAt m f k := by rw [entryAt, entryAt, hs.ptr]
    rw [hs.ptr] at h2
    rw [he] at h3 ⊢
    refine node_cons.mpr ⟨f, hf', htm, child_some.mpr ⟨h1, h2, ?_, rfl⟩⟩
    have hown := h.own_entry (h.isRec ⟨sp, hf'⟩) htm h1 h2
    have hb : d (entryAt m f k).blk = m (entryAt m f k).blk :=
      hd _ (hc.dir f _ ⟨sp, hf'⟩ htm h1 h2) (.inr (by rw [hown]; simp))
    rwa [fName, hb] at h3

/-- A file on the disk has no block that is not a file's in the cache. -/
theorem FInv.not_names_of_clean {r : Ref} {b : ℕ} (hr : InTree d r.file) (hb : own b = .none) : ¬ Names d r b := by
  obtain ⟨sp, hsp⟩ := hr
  have hrm : InTree m r.file := ⟨sp, h.node_of_clean hc hd hsp⟩
  intro hn
  have hu := h.own_names (h.isRec hrm) ((h.sameFile_of_clean hc hd hrm).names.mp hn)
  rw [hb] at hu
  cases r with
  | block f k =>
    rw [Ref.use, useOf] at hu
    split_ifs at hu
  | indirect f => exact absurd hu (by simp [Ref.use])

end

/-! ### `clear_transaction` -/

/-- The journal's blocks without those of transaction `t`. -/
def released (jown : ℕ → JUse) (t : ℕ) : ℕ → JUse := fun b => if (jown b).trans = some t then .none else jown b

section
variable {R : Rules} {L L' : Layout} {own own' : ℕ → Use} {jown jown' : ℕ → JUse} {a : Option ℕ} {t n : ℕ}
  {m d : Disk} {s s' : FsSt}

theorem released_ne {b : ℕ} (h : released jown t b ≠ .none) : jown b ≠ .none ∧ ¬ Mine jown t b := by
  unfold released at h
  split_ifs at h with hm
  · exact absurd rfl h
  · exact ⟨h, hm⟩

theorem released_of_ne {b : ℕ} (h : ¬ Mine jown t b) : released jown t b = jown b := if_neg h

theorem exists_released (h : FInv L own m) (hj : Jrn L jown) (t : ℕ) :
    ∃ L', L'.nb = L.nb ∧ L'.D = L.D ∧ FInv L' own m ∧ Jrn L' (released jown t) := by
  have hsub : ∀ b, b = 3 ∨ released jown t b ≠ .none → L.J b := fun b hb =>
    (hj.journal b).mpr (hb.imp_right fun hb => (released_ne hb).1)
  have hnone : ∀ b ≤ 3, released jown t b = .none := fun b hb => by
    by_contra hc
    have := hj.blk (released_ne hc).1
    omega
  refine ⟨jLayout L (released jown t) fun b hb => L.journal b (hsub b hb), rfl, rfl,
    ⟨h.nblocks, h.used, fun b hb => h.fixed b (hb.imp_right (hsub b)), fun a ha => ?_, h.rootDir⟩,
    hj.small, hnone 0 (by omega), hnone 3 le_rfl, fun b => .rfl⟩
  have hr := h.recOk a ha
  exact ⟨hr.ptr, hr.ind, hr.size, hr.dead, hr.dirSize⟩

theorem FsInv.rooted (h : FsInv R L own jown a s) : Rooted s :=
  ⟨by rw [h.inv.nblocks_eq]; exact h.jrn.small, h.inv.here_two, h.inv.here_three⟩

theorem FsInv.clearable (h : FsInv R L own jown a s) (ht : t < 112) : Clearable (Mine jown t) t s := by
  have hok := h.ok t ht
  by_cases h0 : tHandlei s.mem t = 0
  · exact .inl ⟨h0, hok.zero h0⟩
  have htab := hok.tab h0
  refine .inr ⟨⟨(h.tinv ht).tab_here h0, (h.jrn.blk (by rw [htab]; simp)).1, hok.le, fun j _ hj => .inr ?_⟩,
    by rw [Mine, htab]; rfl⟩
  have hu : jown (hblk s.mem t j) = .handle t j := (hok.handle j hj).2
  obtain ⟨h1, h2⟩ := h.jrn.blk (b := hblk s.mem t j) (by rw [hu]; simp)
  refine ⟨by rw [Mine]; exact congrArg JUse.trans hu, h1, ?_, fun he => ?_⟩
  · rw [h.inv.nblocks_eq]
    exact h2
  · rw [show hblk s.mem t j = tHandlei s.mem t from he, htab] at hu
    cases hu

/-- `end_transaction` is called. -/
theorem FsInv.of_ending (h : FsInv R L own jown a s) (hE : R.E t s.mem s.dirty) :
    FsInv R L own jown a (s.log (.ending t s.mem s.dirty)) := by
  refine ⟨h.inv, h.jrn, h.ok, h.coh, h.bitmap, h.sized, h.quiet, fun t' ht' => ?_, h.blank,
    fun b hb => .tail _ (h.taken b hb), h.tr.wal, fun hZ d hd => ?_, fun t' m y hm => ?_⟩
  · have hod := h.active t' ht'
    exact ⟨hod.lt, hod.active, hod.pos, hod.rec32, hod.tab, hod.handles, hod.last⟩
  · refine (h.tr.imgs hZ d ?_).mono fun e he => .tail _ he
    simpa [FsSt.log] using hd
  · rcases List.mem_cons.mp hm with he | hm
    · cases he
      exact hE
    · exact h.tr.ends t' m y hm

theorem halfCleared_other {t' i : ℕ} (x : Block) (hne : t' ≠ t) (hi : i < 32) :
    halfCleared x t (tOff t' + i) = x (tOff t' + i) := by
  have := tOff_disjoint hne hi
  rw [halfCleared, put32_out (by omega), put32_out (by omega)]

theorem halfCleared_word (x : Block) {o : ℕ} (ho : 8 ≤ o) : (halfCleared x t).le32 (tOff t + o) = x.le32 (tOff t + o) := by
  rw [halfCleared, le32_put32_out (by omega), le32_put32_out (by omega)]

theorem halfCleared_active (x : Block) : (halfCleared x t).le32 (tOff t) = 0 := by
  rw [halfCleared, le32_put32_out (by omega), le32_put32, Nat.zero_mod]

/-- What `clear_transaction` changes in the cache. -/
theorem Cleared.words {F : ℕ → Prop} (hc : Cleared F t s s') : tActive s'.mem t = 0 ∧ Quiet s'.mem t ∧
    ∀ t', t' ≠ t → ∀ i < 32, s'.mem 3 (tOff t' + i) = s.mem 3 (tOff t' + i) := by
  refine ⟨?_, ⟨?_, ?_⟩, fun t' hne i hi => ?_⟩
  · rw [tActive, hc.mem3, le32_put32_out (by omega), le32_put32_out (by omega), halfCleared_active]
  · rw [tHandlei, hc.mem3, le32_put32_out (by omega), le32_put32, Nat.zero_mod]
  · rw [tNhandles, hc.mem3, le32_put32, Nat.zero_mod]
  · have := tOff_disjoint hne hi
    rw [hc.mem3, put32_out (by omega), put32_out (by omega), halfCleared_other _ hne hi]

variable (h : FsInv R L own jown a s) (ht : t < 112) (ha : a = some t ∨ (a = none ∧ Quiet s.mem t))
include h ha

theorem FsInv.quiet_others {t' : ℕ} (ht' : t' < 112) (hne : t' ≠ t) : tActive s.mem t' = 0 ∧ tActive s.disk t' = 0 := by
  refine h.quiet t' ht' ?_
  rcases ha with rfl | ⟨rfl, -⟩
  · exact fun hc => hne (Option.some.inj hc).symm
  · simp

theorem FsInv.blank_others (hZ : R.Z) {t' : ℕ} (ht' : t' < 112) (hne : t' ≠ t) : Quiet s.disk t' := by
  refine h.blank hZ t' ht' ?_
  rcases ha with rfl | ⟨rfl, -⟩
  · exact fun hc => hne (Option.some.inj hc).symm
  · simp

/-- No record is active once the sector is written with that of `t` inactive. -/
theorem FsInv.inactive_of_sector {x : Block} (hd : d 3 = sector (s.disk 3) x t) (hx : x.le32 (tOff t) = 0)
    (hother : ∀ t', t' ≠ t → ∀ i < 32, x (tOff t' + i) = s.mem 3 (tOff t' + i)) : ∀ t' < 112, tActive d t' = 0 := by
  intro t' ht'
  rcases sector_disk hd t' with ⟨-, hs⟩ | ⟨hs', hs⟩
  · by_cases hne : t' = t
    · subst hne
      rw [← hx]
      exact le32_congr fun i hi => hs i (by omega)
    · rw [tActive_congr (m := s.mem) fun i hi => (hs i hi).trans (hother t' hne i hi)]
      exact (h.quiet_others ha ht' hne).1
  · rw [tActive_congr (m := s.disk) hs]
    exact (h.quiet_others ha ht' fun he => hs' (by rw [he])).2

/-- Nor does any other list blocks. -/
theorem FsInv.quiet_of_sector (hZ : R.Z) (hal : Alone s.mem t) {x : Block} (hd : d 3 = sector (s.disk 3) x t)
    (hother : ∀ t', t' ≠ t → ∀ i < 32, x (tOff t' + i) = s.mem 3 (tOff t' + i)) :
    ∀ t' < 112, t' ≠ t → Quiet d t' := by
  intro t' ht' hne
  rcases sector_disk hd t' with ⟨hs', hs⟩ | ⟨-, hs⟩
  · rw [quiet_congr (m := s.mem) fun i hi => (hs i hi).trans (hother t' hne i hi)]
    exact hal t' ht' hne hs'
  · rw [quiet_congr (m := s.disk) hs]
    exact h.blank_others ha hZ ht' hne

/-- The handle indirect block is on the disk. -/
theorem FsInv.tab_disk (h0 : tHandlei s.mem t ≠ 0) : s.disk (tHandlei s.mem t) = s.mem (tHandlei s.mem t) := by
  rcases ha with rfl | ⟨rfl, hq⟩
  · exact (h.coh _ (h.active t rfl).tab).symm
  · exact absurd hq.1 h0

include ht

/-- The image while the blocks of transaction `t` are being freed. -/
theorem FsInv.imgOk_half (hZ : R.Z) (hal : Alone s.mem t) (hend : .ending t s.mem s.dirty ∈ s.trace)
    (hd : ∀ c, c ≠ 2 → c ≠ 3 → d c = s.disk c) (hd3 : d 3 = sector (s.disk 3) (halfCleared (s.mem 3) t) t)
    (h2 : bitSet d 2 = false) (h3 : bitSet d 3 = false) : ImgOk L.nb s.trace d := by
  have hok := h.ok t ht
  have hword : ∀ o, 8 ≤ o → o ≤ 28 → (d 3).le32 (tOff t + o) = (s.mem 3).le32 (tOff t + o) := fun o ho ho' => by
    rw [← halfCleared_word (s.mem 3) ho]
    refine le32_congr fun i hi => ?_
    rw [hd3, Nat.add_assoc, sector_rec _ _ _ _ (by omega), if_pos rfl]
  have hn : (d 1).le32 4 = L.nb := by
    rw [hd 1 (by omega) (by omega)]
    exact h.sized.2
  refine imgOk_of_trans (t := t) (m := s.mem) h.jrn h.taken hn h2 h3
    (h.quiet_of_sector ha hZ hal hd3 fun t' hne i hi => halfCleared_other _ hne hi)
    (.inr ⟨hok, hword 16 (by omega) (by omega), hword 12 (by omega) (by omega), fun h0 => ?_⟩)
    fun hcl _ _ b hb r hr => ?_
  · have := h.jrn.blk (hok.tab_ne h0)
    rw [hd _ (by omega) (by omega), h.tab_disk ha h0]
  · refine h.inv.not_names_of_clean (hcl t _ _ hend) (fun c hy hc => ?_) hr (h.inv.own_jown h.jrn hb.ne).1
    have hc3 : c ≠ 3 := by
      rintro rfl
      exact hc.elim (by omega) fun hu => hu (h.inv.fixed 3 (.inl (.inl le_rfl))).1
    rw [hd c (h.inv.home hc).2.2.1 hc3, h.coh c hy]

theorem FsInv.history_of_cleared (hZ : R.Z → Alone s.mem t) (hend : .ending t s.mem s.dirty ∈ s.trace)
    (hc : Cleared (Mine jown t) t s s') :
    (∀ e ∈ s.trace, e ∈ s'.trace) ∧ lastCommit s'.trace = lastCommit s.trace ∧ TrOk R L.nb s'.trace := by
  obtain ⟨hact, hq, hrec⟩ := hc.words
  have hnb := L.nb3
  have hmine : ∀ c ≤ 3, ¬ Mine jown t c := fun c hle hm => by
    have := h.jrn.mine hm
    omega
  refine h.history hc.evs ?_ ?_ ?_ ?_
  · rintro t' hs (⟨b, he, -⟩ | ⟨d, he, -⟩) <;> cases he
  · rintro t' m y (⟨b, he, -⟩ | ⟨d, he, -⟩) <;> cases he
  · rintro d (⟨b, he, -⟩ | ⟨d', he, -, hd3, -⟩) tr' - <;> cases he
    refine walAt_of_quiet ?_
    rcases hd3 with hd3 | hd3
    · exact h.inactive_of_sector ha hd3 (halfCleared_active _) fun t' hne i hi => halfCleared_other _ hne hi
    · exact h.inactive_of_sector ha (hd3.trans hc.disk3) hact hrec
  · rintro hz d (⟨b, he, -⟩ | ⟨d', he, hd, hd3, hb⟩) <;> cases he
    have h2 := hb 2 (by omega) (hmine 2 (by omega)) h.two
    have h3 := hb 3 (by omega) (hmine 3 (by omega)) h.three
    rcases hd3 with hd3 | hd3
    · exact h.imgOk_half ht ha hz (hZ hz) hend hd hd3 h2 h3
    · refine h.imgOk_of_quiet ?_ h2 h3 fun t' ht' => ?_
      · rw [hd 1 (by omega) (by omega)]
        exact h.sized.2
      · by_cases hne : t' = t
        · rw [hne, quiet_congr (m := s'.mem) fun i hi => ?_]
          · exact hq
          · rw [hd3, hc.disk3, sector_rec _ _ _ _ hi, if_pos rfl]
        · exact h.quiet_of_sector ha hz (hZ hz) (hd3.trans hc.disk3) hrec t' ht' hne

/-- The records and the handle indirect blocks of the other transactions. -/
theorem FsInv.ok_of_cleared (hc : Cleared (Mine jown t) t s s') :
    ∀ t' < 112, TransOk (released jown t) (tNhandles s'.mem t') s'.mem t' := by
  obtain ⟨-, hq, hrec⟩ := hc.words
  intro t' ht'
  by_cases hne : t' = t
  · subst hne
    rw [hq.2]
    exact ⟨fun h0 => absurd hq.1 h0, fun _ => rfl, by omega, fun k hk => by omega, fun h0 => absurd hq.1 h0⟩
  · rw [tNhandles_congr (hrec t' hne)]
    have hok := h.ok t' ht'
    refine hok.congr (tHandlei_congr (hrec t' hne)) (fun h0 => ?_) fun b hb => released_of_ne fun hm => ?_
    · have htab := hok.tab h0
      have := h.jrn.blk (b := tHandlei s.mem t') (by rw [htab]; simp)
      refine hc.mem _ (by omega) (by omega) fun he => ?_
      rw [he, (h.ok t ht).tab (by omega), JUse.tab.injEq] at htab
      exact hne htab.symm
    · rw [Mine, hb] at hm
      exact hne (Option.some.inj hm)

/-- `clear_transaction`. -/
theorem FsInv.of_cleared (hZ : R.Z → Alone s.mem t) (hend : .ending t s.mem s.dirty ∈ s.trace)
    (hc : Cleared (Mine jown t) t s s') :
    ∃ L', L'.nb = L.nb ∧ L'.D = L.D ∧ FsInv R L' own (released jown t) none s' := by
  obtain ⟨hact, hq, hrec⟩ := hc.words
  obtain ⟨hsub, -, htr⟩ := h.history_of_cleared ht ha hZ hend hc
  obtain ⟨L', hnb, hD, hinv, hjrn⟩ := exists_released h.inv h.jrn t
  have hsmall := h.jrn.small
  have hlow : ∀ c ≤ 3, ¬ Mine jown t c := fun c hle hm => by
    have := h.jrn.mine hm
    omega
  have htab : ∀ c, c = 1 ∨ own c ≠ .none → c ≠ tHandlei s.mem t := by
    rintro c hc' rfl
    by_cases h0 : tHandlei s.mem t = 0
    · rw [h0] at hc'
      exact hc'.elim (by omega) fun hu => hu (h.inv.fixed 0 (.inl (.inl (by omega)))).1
    · have hj := h.j_mine ((h.ok t ht).tab_ne h0)
      exact (h.inv.home hc').1 hj
  have hfree : ∀ b, own b ≠ .none ∨ L'.Fixed b → ¬ Mine jown t b := by
    intro b hb hm
    rcases hb with hb | (hb | hb) | hb
    · exact hb (h.inv.own_jown h.jrn hm.ne).1
    · exact hlow b hb hm
    · have := (L.journal b (h.j_mine hm.ne)).2.2
      have := h.jrn.mine hm
      omega
    · rcases (hjrn.journal b).mp hb with rfl | hb
      · exact hlow 3 le_rfl hm
      · exact (released_ne hb).2 hm
  refine ⟨L', hnb, hD, hinv.of_frame (fun c hc' => ?_) fun b hb hbit => ?_, hjrn, h.ok_of_cleared ht ha hc, hc.coh h.coh,
    hc.bitmap h.bitmap, ⟨?_, ?_⟩, fun t' ht' _ => ⟨?_, h.inactive_of_sector ha hc.disk3 hact hrec t' ht'⟩, (by simp),
    fun hz t' ht' _ => ?_, fun b hb => hsub _ (h.taken b (released_ne hb).1), hnb ▸ htr⟩
  · have hc3 : c ≠ 3 := by
      rintro rfl
      exact hc'.elim (by omega) fun hu => hu (h.inv.fixed 3 (.inl (.inl le_rfl))).1
    exact hc.mem c (h.inv.home hc').2.2.1 hc3 (htab c hc')
  · have hlt : b < L.nb := hb.elim (fun hu => (h.inv.used b hu).1) fun hf => hnb ▸ Layout.fixed_lt hf
    rwa [hc.bits b (by omega) (hfree b hb)]
  · rw [hc.mem 1 (by omega) (by omega) (htab 1 (Or.inl rfl)), hnb]
    exact h.sized.1
  · rw [hc.disk 1 (by omega) (by omega), hnb]
    exact h.sized.2
  · by_cases hne : t' = t
    · rw [hne, hact]
    · rw [tActive_congr (hrec t' hne)]
      exact (h.quiet_others ha ht' hne).1
  · by_cases hne : t' = t
    · rw [hne, quiet_congr (m := s'.mem) fun i hi => ?_]
      · exact hq
      · rw [hc.disk3, sector_rec _ _ _ _ hi, if_pos rfl]
    · exact h.quiet_of_sector ha hz (hZ hz) hc.disk3 hrec t' ht' hne

end

/-! ### `fs_sync` -/

section
variable {R : Rules} {L : Layout} {own : ℕ → Use} {jown : ℕ → JUse} {s s' : FsSt} {d : Disk}

theorem syncLoop_run {E : Fault → FsSt → Prop} : ∀ (n i : ℕ) {s : FsSt}, 0 < i → i + n ≤ s.nblocks →
    Run (syncLoop n i) s (fun _ s' => Saved (fun _ => True) s s') E
  | 0, _, s, _, _ => .pure (Saved.refl _ s)
  | n + 1, i, s, h0, hle => by
    unfold syncLoop
    refine .bind (diskaddr_ok (by omega) (by omega)) ?_
    rintro va s1 ⟨hva, hs1⟩
    rw [hva, hs1]
    refine .bind (flushBlock_ok (by omega) (by omega)) ?_
    intro _ s2 hf
    have hs2 := (hf.saved (B := fun _ => True) trivial).1
    have hnb : s2.nblocks = s.nblocks := by rw [FsSt.nblocks, hs2.mem, FsSt.nblocks]
    exact (syncLoop_run n (i + 1) (by omega) (by omega)).post (fun _ _ h => hs2.trans h)

/-- `fs_sync` writes what is dirty. -/
theorem fsSync_run {E : Fault → FsSt → Prop} (h : 0 < s.nblocks) :
    Run fsSync s (fun _ s' => Saved (fun _ => True) s s') E :=
  .getBind (syncLoop_run _ 1 (by omega) (by omega))

/-- `fs_sync` with no transaction active. -/
theorem FsInv.of_synced (h : FsInv R L own jown none s) (hZ : R.Z → ∀ t < 112, Quiet s.mem t)
    (hs : Saved (fun _ => True) s s') : FsInv R L own jown none s' := by
  have := L.nb3
  have himg : ∀ d : Disk, (∀ b, d b = s.disk b ∨ (True ∧ d b = s.mem b)) → (∀ t < 112, tActive d t = 0) ∧
      (R.Z → ∀ t < 112, Quiet d t) ∧ (d 1).le32 4 = L.nb ∧ ∀ b < L.nb, InUse s b → bitSet d b = false := by
    intro d hd
    refine ⟨fun t ht => ?_, fun hz t ht => ?_, ?_, fun b hb hu => ?_⟩
    · rw [tActive]
      rcases hd 3 with h3 | ⟨-, h3⟩
      · rw [h3]
        exact (h.quiet t ht (by simp)).2
      · rw [h3]
        exact (h.quiet t ht (by simp)).1
    · rw [Quiet, tHandlei, tNhandles]
      rcases hd 3 with h3 | ⟨-, h3⟩
      · rw [h3]
        exact h.blank hz t ht (by simp)
      · rw [h3]
        exact hZ hz t ht
    · rcases hd 1 with h1 | ⟨-, h1⟩
      · rw [h1]
        exact h.sized.2
      · rw [h1]
        exact h.sized.1
    · rcases hd 2 with h2 | ⟨-, h2⟩
      · rw [bitSet_congr (m := s.disk)]
        · exact hu.2
        · rw [bitBlk_small h.jrn hb, h2]
      · rw [bitSet_congr (m := s.mem)]
        · exact hu.1
        · rw [bitBlk_small h.jrn hb, h2]
  obtain ⟨hsub, -, htr⟩ := h.history hs.evs (by simp) (by simp) (fun d hd _ _ => by
    obtain ⟨_, hc, hd⟩ := hd
    cases hc
    exact walAt_of_quiet (himg d hd).1) fun hz d hd => by
    obtain ⟨_, hc, hd⟩ := hd
    cases hc
    obtain ⟨-, h1, h2, h3⟩ := himg d hd
    exact h.imgOk_of_quiet h2 (h3 2 (by omega) h.two) (h3 3 (by omega) h.three) (h1 hz)
  obtain ⟨h1, h2, h3, -⟩ := himg s'.disk hs.disk
  have hm : s'.mem = s.mem := hs.mem
  refine ⟨hm ▸ h.inv, h.jrn, hm ▸ h.ok, hs.coh h.coh, hs.clean 2 h.bitmap, ⟨by rw [hm]; exact h.sized.1, h3⟩,
    fun t ht _ => ⟨?_, h1 t ht⟩, by simp, fun hz t ht _ => h2 hz t ht, fun b hb => hsub _ (h.taken b hb), htr⟩
  rw [hm]
  exact (h.quiet t ht (by simp)).1

end

end Fs
end Jos
