/-
# Changing one file (file_truncate_blocks, file_set_size)

`Edit a` is what a function does that works on the record `a` only: blocks of
`a` may be freed, and everything else of the file system reads as before. A
record must not lie in a block of its own (`hself`; no record in the tree
does), for then cutting it off would free the ground it stands on.

Between `free_block` and the store that clears the pointer the invariant does
not hold, but the place of the pointer is still there (`IsSlot.ne_ptr`): the
functions return.

Key definitions: `Edit`.
Key theorems: `edit_free`, `edit_store`, `fileTruncateBlocks_run`, `fileSetSize_run`.
-/
import Jos.Fs.Space

namespace Jos
namespace Fs

open Block Function

/-- Only the record `a` and blocks of its own changed. -/
structure Edit (L : Layout) (own own' : ℕ → Use) (a : Ptr) (s s' : FsSt) : Prop where
  inv : FInv L own' s'.mem
  keeps : Keeps L.J s s'
  bitmap : s.dirty 2 = false → s'.dirty 2 = false
  cut : ∀ b, own' b = own b ∨ ((own b).owner = some a ∧ own' b = .none)
  other : ∀ c i, c = 1 ∨ own' c ≠ .none → ¬ (c = a.blk ∧ a.off ≤ i ∧ i < a.off + 256) → ¬ Scratch own a c →
    s'.mem c i = s.mem c i
  leak : ∀ b < L.nb, bitSet s'.mem b = false → own' b = .none → bitSet s.mem b = false ∧ own b = .none

section
variable {L : Layout} {own own' own'' : ℕ → Use} {s s' s'' : FsSt} {a a' : Ptr}

namespace Edit

/-- The block a record stays in keeps its use. -/
theorem isRec (h : Edit L own own' a s s') (ha : IsRec own a) (hself : ∀ k, own a.blk ≠ .dir a k) :
    IsRec own' a ∧ ∀ k, own' a.blk ≠ .dir a k := by
  rcases ha with rfl | ⟨f, k, j, hd, hj, ho⟩
  · refine ⟨.inl rfl, fun k hk => ?_⟩
    rw [show root.blk = 1 from rfl, h.inv.own_one] at hk
    cases hk
  · rcases h.cut a.blk with h1 | ⟨h1, -⟩
    · refine ⟨.inr ⟨f, k, j, by rw [h1, hd], hj, ho⟩, fun k => ?_⟩
      rw [h1]
      exact hself k
    · rw [hd] at h1
      obtain rfl : f = a := Option.some.inj h1
      exact absurd hd (hself k)

theorem trans (h : Edit L own own' a s s') (h' : Edit L own' own'' a s' s'') : Edit L own own'' a s s'' where
  inv := h'.inv
  keeps := h.keeps.trans h'.keeps
  bitmap := h'.bitmap ∘ h.bitmap
  cut b := by
    rcases h'.cut b with h1 | ⟨h1, h2⟩
    · rw [h1]
      exact h.cut b
    · rcases h.cut b with h3 | ⟨h3, -⟩
      · rw [h3] at h1
        exact .inr ⟨h1, h2⟩
      · exact .inr ⟨h3, h2⟩
  other c i hc hr hs := by
    have hc1 : c = 1 ∨ own' c ≠ .none := hc.imp_right fun hn => by
      rcases h'.cut c with h1 | ⟨-, h1⟩
      · rwa [← h1]
      · exact absurd h1 hn
    have hs1 : ¬ Scratch own' a c := by
      rcases hc1 with rfl | hc1
      · rcases h.cut 1 with h1 | ⟨-, h1⟩
        · rwa [Scratch, h1]
        · simp [Scratch, h1]
      · rcases h.cut c with h1 | ⟨-, h1⟩
        · rwa [Scratch, h1]
        · exact absurd h1 hc1
    rw [h'.other c i hc hr hs1, h.other c i hc1 hr hs]
  leak b hlt hb hn := by
    obtain ⟨h1, h2⟩ := h'.leak b hlt hb hn
    exact h.leak b hlt h1 h2

theorem of_mem (h : FInv L own s.mem) (hm : s'.mem = s.mem) (hk : Keeps L.J s s')
    (h2 : s.dirty 2 = false → s'.dirty 2 = false) : Edit L own own a s s' where
  inv := by rwa [hm]
  keeps := hk
  bitmap := h2
  cut _ := .inl rfl
  other _ _ _ _ _ := by rw [hm]
  leak _ _ h1 h2 := by rw [hm] at h1; exact ⟨h1, h2⟩

theorem refl (h : FInv L own s.mem) : Edit L own own a s s := of_mem h rfl (Keeps.refl _ s) id

theorem of_loaded (h : FInv L own s.mem) (hl : Loaded s s') : Edit L own own a s s' :=
  of_mem h hl.mem (hl.keeps _) fun h2 => by rwa [hl.dirty]

theorem of_flushed (h : FInv L own s.mem) {c : ℕ} (hf : Flushed c s s') (hc : ¬ L.J c) :
    Edit L own own a s s' := by
  refine of_mem h hf.mem (hf.keeps hc) fun h2 => ?_
  rw [hf.dirty]
  by_cases he : 2 = c
  · rw [he, update_self]
  · rwa [update_of_ne he]

/-- Another record that is still there reads as before. -/
theorem sameFile (h : Edit L own own' a s s') (hi : FInv L own s.mem) (ha : IsRec own a) (ha' : IsRec own a')
    (hrec : IsRec own' a') (hne : a' ≠ a) : SameFile s.mem s'.mem a' := by
  constructor
  · intro i hi'
    refine h.other _ _ ?_ ?_ ?_
    · rcases hrec with rfl | ⟨f, k, j, hd, -, -⟩
      · exact .inl rfl
      · exact .inr (by simp [hd])
    · rintro ⟨h1, h2, h3⟩
      rcases hi.rec_disjoint ha ha' hne with hd | hd | hd
      · exact hd h1
      · omega
      · omega
    · rcases ha' with rfl | ⟨f, k, j, hd, -, -⟩
      · simp [Scratch, show root.blk = 1 from rfl, hi.own_one]
      · simp [Scratch, hd]
  · intro hind
    have ho := (hi.recOk a' ha').ind hind
    have ho' : own' (fIndirect s.mem a') = .ind a' := by
      rcases h.cut (fIndirect s.mem a') with h1 | ⟨h1, -⟩
      · rw [h1, ho]
      · rw [ho] at h1
        exact absurd (Option.some.inj h1) hne
    funext i
    refine h.other _ _ (.inr (by simp [ho'])) ?_ ?_
    · rintro ⟨h1, -, -⟩
      exact ha.ne_ind hi ho h1
    · simp only [Scratch, ho, Use.ind.injEq, reduceCtorEq, exists_const, false_and, or_false]
      exact hne

end Edit

/-- The block an event of the history frees. -/
def Event.frees : Event → Option ℕ
  | .freed b => some b
  | _ => none

/-- The blocks `bs` were freed one after the other; but for their bits only
pointers of `a` changed, in the record or in the block `ib`. -/
structure Cut (nb : ℕ) (a : Ptr) (ib : ℕ) (bs : List ℕ) (s s' : FsSt) : Prop where
  freed : s'.trace.filterMap Event.frees = bs.reverse ++ s.trace.filterMap Event.frees
  bit : ∀ b < nb, bitSet s'.mem b = (bitSet s.mem b || decide (b ∈ bs))
  mem : ∀ c i, (∀ b ∈ bs, c ≠ bitBlk b) → ¬ (c = a.blk ∧ a.off + 136 ≤ i ∧ i < a.off + 180) →
    ¬ (c = ib ∧ ib ≠ 0) → s'.mem c i = s.mem c i

theorem Cut.refl (nb : ℕ) (a : Ptr) (ib : ℕ) (s : FsSt) : Cut nb a ib [] s s :=
  ⟨rfl, fun _ _ => by simp, fun _ _ _ _ _ => rfl⟩

theorem Cut.of_loaded (hl : Loaded s s') (nb : ℕ) (a : Ptr) (ib : ℕ) : Cut nb a ib [] s s' :=
  ⟨by rw [hl.trace]; rfl, fun _ _ => by simp [hl.mem], fun _ _ _ _ _ => by rw [hl.mem]⟩

theorem Cut.trans {nb ib : ℕ} {bs bs' : List ℕ} (h : Cut nb a ib bs s s') (h' : Cut nb a ib bs' s' s'') :
    Cut nb a ib (bs ++ bs') s s'' where
  freed := by rw [h'.freed, h.freed, List.reverse_append, List.append_assoc]
  bit b hb := by simp [h'.bit b hb, h.bit b hb, Bool.or_assoc]
  mem c i hc hn hi := by
    rw [h'.mem c i (fun b hb => hc b (List.mem_append_right _ hb)) hn hi,
      h.mem c i (fun b hb => hc b (List.mem_append_left _ hb)) hn hi]

/-- Changes inside the record `a`. -/
theorem edit_within (h : FInv L own s.mem) (ha : IsRec own a)
    (hout : ∀ c i, ¬ (c = a.blk ∧ a.off ≤ i ∧ i < a.off + 256) → s'.mem c i = s.mem c i)
    (hk : Keeps L.J s s') (hd2 : s'.dirty 2 = s.dirty 2) (hrec : RecOk L own s'.mem a)
    (hroot : a = root → fType s'.mem root = 1) : Edit L own own a s s' := by
  have hhome := h.home (ha.kept)
  have hbits : ∀ b < L.nb, bitSet s'.mem b = bitSet s.mem b := fun b hb => by
    refine bitSet_congr (funext fun i => hout _ i fun hc => hhome.2.1 b hb hc.1)
  refine ⟨?_, hk, fun h2 => by rwa [hd2], fun _ => .inl rfl, fun c i _ hn _ => hout c i hn, ?_⟩
  · refine h.of_local ha (fun c i hn _ => hout c i hn) (fun c hc => absurd rfl hc)
      (fun c f k _ hc => absurd rfl hc) ?_ ?_ (fun _ => hrec) hroot
    · intro b hb
      obtain ⟨h1, h2⟩ := h.used b hb
      exact ⟨h1, by rw [hbits b h1, h2]⟩
    · intro b hb
      rw [hbits b (Layout.fixed_lt hb)]
      exact h.fixed b hb
  · intro b hlt hb hn
    exact ⟨by rw [← hbits b hlt, hb], hn⟩

/-- A store into the record `a` itself. -/
theorem edit_store {off n : ℕ} {src : ℕ → UInt8} (h : FInv L own s.mem) (ha : IsRec own a)
    (hst : Stored a.blk off n src s s') (hlo : a.off ≤ off) (hhi : off + n ≤ a.off + 256)
    (hrec : RecOk L own s'.mem a) (hroot : a = root → fType s'.mem root = 1) : Edit L own own a s s' := by
  obtain ⟨hk, -, hd2⟩ := hst.keeps_home h (ha.kept)
    fun hb => (h.rec_off ha hb).trans hlo
  refine edit_within h ha ?_ hk hd2 hrec hroot
  intro c i hn
  by_cases he : c = a.blk
  · subst he
    rw [hst.mem, update_self, write_out]
    by_contra hcon
    exact hn ⟨rfl, by omega, by omega⟩
  · rw [hst.mem, update_of_ne he]

/-- A block of `a` was freed and the word that named it overwritten. -/
theorem edit_free {b c off : ℕ} {src : ℕ → UInt8} {s1 s2 : FsSt} (h : FInv L own s.mem) (ha : IsRec own a)
    (hb : (own b).owner = some a) (hf : Marked b true s s1 ∧ Noted b s s1) (hc : Home own a c)
    (hst : Stored c off 4 src s1 s2) (hin : c = a.blk → a.off + 136 ≤ off ∧ off + 4 ≤ a.off + 180)
    (hib : c ≠ a.blk → c = fIndirect s.mem a ∧ fIndirect s.mem a ≠ 0)
    (hrec : IsRec (update own b .none) a → RecOk L (update own b .none) s2.mem a)
    (htype : fType s2.mem a = fType s.mem a) :
    Edit L own (update own b .none) a s s2 ∧ Cut L.nb a (fIndirect s.mem a) [b] s s2 := by
  obtain ⟨hm, hnote⟩ := hf
  have hbn : own b ≠ .none := by
    intro h0
    rw [h0] at hb
    exact absurd hb (by simp [Use.owner])
  have hlt := (h.used b hbn).1
  have hnf := h.not_fixed hbn
  obtain ⟨hcJ, hcbit, hc2, -⟩ := h.home (hc.kept ha)
  have hbits : ∀ b' < L.nb, bitSet s2.mem b' = if b' = b then true else bitSet s.mem b' := by
    intro b' hb'
    rw [← hm.bit]
    refine bitSet_congr ?_
    rw [hst.mem, update_of_ne (hcbit b' hb')]
  have hout : ∀ c' i, c' = 1 ∨ own c' ≠ .none → ¬ (c' = a.blk ∧ a.off ≤ i ∧ i < a.off + 256) →
      own c' ≠ .ind a → s2.mem c' i = s.mem c' i := by
    intro c' i hc' hn hi
    have hcm : c' ≠ bitBlk b := fun he => (h.home hc').2.1 b hlt he.symm
    by_cases he : c' = c
    · subst he
      rcases hc with hc | hc
      · rw [hst.mem, update_self, write_out, hm.mem c' hcm]
        by_contra hcon
        have := hin hc
        exact hn ⟨hc, by omega, by omega⟩
      · exact absurd hc hi
    · rw [hst.mem, update_of_ne he, hm.mem c' hcm]
  have hl : Local own a s.mem s2.mem := by
    intro c' i hn hs
    refine hout c' i ?_ hn fun hi => hs (.inl hi)
    by_contra hcon
    exact hs (.inr (.inr ⟨by_contra fun hx => hcon (.inr hx), fun hx => hcon (.inl hx)⟩))
  have hne : ∀ c', update own b .none c' ≠ own c' → c' = b := fun c' hc' =>
    by_contra fun he => hc' (update_of_ne he _ _)
  refine ⟨⟨?_, ?_, ?_, ?_, fun c' i _ hn hs => hl c' i hn hs, ?_⟩, ?_, ?_, ?_⟩
  · refine h.of_local ha hl ?_ ?_ ?_ ?_ hrec ?_
    · intro c' hc'
      rw [hne c' hc', hb]
      exact .inl rfl
    · intro c' f k hd hc'
      rw [hne c' hc', update_self] at hd
      cases hd
    · intro b' hb'
      have he : b' ≠ b := by
        rintro rfl
        exact hb' (update_self _ _ _)
      rw [update_of_ne he] at hb'
      obtain ⟨h1, h2⟩ := h.used b' hb'
      exact ⟨h1, by rw [hbits b' h1, if_neg he, h2]⟩
    · intro b' hb'
      have he : b' ≠ b := by
        rintro rfl
        exact hnf hb'
      rw [update_of_ne he, hbits b' (Layout.fixed_lt hb'), if_neg he]
      exact h.fixed b' hb'
    · rintro rfl
      rw [htype, h.rootDir]
  · exact (hm.keeps_layout hlt hnf).trans
      (hst.keeps hcJ (fun b' hb' => hcbit b' (L.journal b' hb').1) hc2 (hc.off_ge h ha fun he => by have := hin he; omega))
  · intro _
    rw [hst.dirty, update_of_ne hc2.symm, hm.dirty, update_self]
  · intro b'
    by_cases he : b' = b
    · right
      rw [he, update_self]
      exact ⟨hb, rfl⟩
    · exact .inl (update_of_ne he _ _)
  · intro b' hb' hin' hn
    by_cases he : b' = b
    · rw [hbits b' hb', if_pos he] at hin'
      cases hin'
    · rw [update_of_ne he] at hn
      rw [hbits b' hb', if_neg he] at hin'
      exact ⟨hin', hn⟩
  · rw [hst.trace]
    rcases hnote with hn | ⟨d, hn⟩ <;> rw [hn] <;> rfl
  · intro b' hb'
    rw [hbits b' hb']
    by_cases he : b' = b <;> simp [he]
  · intro c' i hcb hn hi
    rw [hst.mem, update_apply]
    split_ifs with he
    · have hca : c = a.blk := by_contra fun hne => hi ⟨he.trans (hib hne).1, (hib hne).2⟩
      have := hin hca
      rw [he, write_out (by by_contra hcon; exact hn ⟨he.trans hca, by omega, by omega⟩), hm.mem c (he ▸ hcb b (by simp))]
    · rw [hm.mem c' (hcb b (by simp))]

/-! ### Cutting off blocks -/

/-- The blocks among the `n` of the file `a` from `lo` on. -/
def cutFrom (m : Disk) (a : Ptr) (lo n : ℕ) : List ℕ := ((List.range' lo n).filter (ptr m a · ≠ 0)).map (ptr m a)

theorem cutFrom_succ {m m' : Disk} {lo n : ℕ} (h : ∀ k < lo + n + 1, lo < k → ptr m' a k = ptr m a k) :
    cutFrom m a lo (n + 1) = cutFrom m a lo 1 ++ cutFrom m' a (lo + 1) n := by
  have hmem : ∀ k ∈ List.range' (lo + 1) n, ptr m' a k = ptr m a k := fun k hk => by
    have := List.mem_range'_1.mp hk
    exact h k (by omega) (by omega)
  have hfil : (List.range' (lo + 1) n).filter (ptr m' a · ≠ 0) = (List.range' (lo + 1) n).filter (ptr m a · ≠ 0) :=
    List.filter_congr fun k hk => by rw [hmem k hk]
  unfold cutFrom
  rw [hfil, List.map_congr_left fun k hk => hmem k (List.mem_filter.mp hk).1]
  exact (congrArg _ (List.filter_append [lo] _)).trans List.map_append

/-- The blocks `lo ≤ k < hi` of the file `a` are gone, and the rest of it is
as before. -/
structure Trimmed (own' : ℕ → Use) (a : Ptr) (lo hi : ℕ) (s s' : FsSt) : Prop where
  head : ∀ i < 136, s'.mem a.blk (a.off + i) = s.mem a.blk (a.off + i)
  ptr : ∀ k < 1034, ptr s'.mem a k = if lo ≤ k ∧ k < hi then 0 else ptr s.mem a k
  freed : ∀ k < 1034, lo ≤ k ∧ k < hi → own' (Fs.ptr s.mem a k) = .none
  data : ∀ c f k, own' c = .data f k → s'.mem c = s.mem c

namespace Trimmed

theorem fType {lo hi : ℕ} (h : Trimmed own' a lo hi s s') : fType s'.mem a = fType s.mem a :=
  head_le32 h.head (by omega)

theorem trans {lo hi lo' hi' n : ℕ} (h : Trimmed own' a lo hi s s') (h' : Trimmed own'' a lo' hi' s' s'')
    (hcut : ∀ b, own'' b = own' b ∨ own'' b = .none) (hle : lo ≤ lo' ∧ lo' ≤ hi ∧ hi ≤ n ∧ (n = hi ∨ n = hi')) (hn : hi' ≤ n) :
    Trimmed own'' a lo n s s'' where
  head i hi := (h'.head i hi).trans (h.head i hi)
  ptr k hk := by
    rw [h'.ptr k hk, h.ptr k hk]
    split_ifs <;> first | rfl | omega
  freed k hk hr := by
    by_cases hm : k < hi
    · rcases hcut (Fs.ptr s.mem a k) with he | he
      · rw [he]
        exact h.freed k hk ⟨hr.1, hm⟩
      · exact he
    · have hp := h.ptr k hk
      rw [if_neg (by omega)] at hp
      rw [← hp]
      exact h'.freed k hk (by omega)
  data c f k hc := by
    rw [h'.data c f k hc, h.data c f k]
    rcases hcut c with he | he
    · rwa [← he]
    · rw [he] at hc
      cases hc

end Trimmed

theorem useOf_inj (m : Disk) (f : Ptr) : Injective (useOf m f) := fun k k' h => by
  unfold useOf at h
  split_ifs at h <;> cases h <;> rfl

/-- One pointer of `a` cleared, in an image that agrees with `m'` elsewhere. -/
theorem clearSlot_recOk {m m' : Disk} {k b : ℕ} {p : Ptr} (h : FInv L own m) (ha : IsRec own a)
    (hk : k < 1034) (hs : IsSlot m a k p) (hp : ptr m a k = b) (hb : b ≠ 0)
    (hsame : ∀ c, c = 1 ∨ own c ≠ .none → m' c = setSlot m p 0 c) :
    RecOk L (update own b .none) m' a ∧ (∀ k', ptr m' a k' = if k' = k then 0 else ptr m a k') ∧
      (∀ i < 136, m' a.blk (a.off + i) = m a.blk (a.off + i)) ∧ fIndirect m' a = fIndirect m a := by
  have hblk : m' a.blk = setSlot m p 0 a.blk := hsame _ (ha.kept)
  have hsf : SameFile (setSlot m p 0) m' a := by
    refine ⟨fun i _ => by rw [hblk], fun hi => ?_⟩
    rw [setSlot_ind h ha hs] at hi ⊢
    exact hsame _ (.inr (by simp [(h.recOk a ha).ind hi]))
  have hhead : ∀ i < 136, m' a.blk (a.off + i) = m a.blk (a.off + i) := fun i hi => by
    rw [hblk, setSlot_head h ha hs (Or.inl hi)]
  have hptr : ∀ k', ptr m' a k' = if k' = k then 0 else ptr m a k' := fun k' => by
    rw [hsf.ptr, setSlot_ptr h ha hs]
    rfl
  have hind : fIndirect m' a = fIndirect m a := by rw [hsf.1.fIndirect, setSlot_ind h ha hs]
  have hrec := h.recOk a ha
  have hbu := (hrec.ptr k hk (by rwa [hp])).1
  rw [hp] at hbu
  refine ⟨hrec.of_head hhead (fun k' hk' hp' => ?_) (fun hi => ?_) fun hr hn => hind.trans (hrec.dead hr hn).2, hptr, hhead, hind⟩
  · rw [hptr] at hp' ⊢
    split_ifs at hp' ⊢ with he
    · exact absurd rfl hp'
    · have h1 := hrec.ptr k' hk' hp'
      rwa [update_of_ne]
      -- two blocks of one file have two uses
      intro hc
      rw [hc, hbu] at h1
      exact he (useOf_inj m a h1.1).symm
  · rw [hind] at hi ⊢
    have h1 := hrec.ind hi
    rwa [update_of_ne]
    intro hc
    rw [hc, hbu, useOf] at h1
    split_ifs at h1

/-- The place of a pointer is not in the block it names. -/
theorem IsSlot.ne_ptr {m : Disk} {k : ℕ} {p : Ptr} (h : FInv L own m) (ha : IsRec own a) (hself : ∀ k, own a.blk ≠ .dir a k)
    (hs : IsSlot m a k p) (hk : k < 1034) (hp : Fs.ptr m a k ≠ 0) : p.blk ≠ Fs.ptr m a k := by
  intro he
  have hu := ((h.recOk a ha).ptr k hk hp).1
  rw [← he, useOf] at hu
  rcases hs with ⟨-, rfl⟩ | ⟨-, -, hi, rfl⟩
  · split_ifs at hu
    · exact hself k hu
    · exact ha.ne_data h hu rfl
  · rw [(h.recOk a ha).ind hi] at hu
    split_ifs at hu

/-- `file_free_block`. -/
theorem fileFreeBlock_run (h : FInv L own s.mem) (ha : IsRec own a) (hself : ∀ k, own a.blk ≠ .dir a k) (k : ℕ) :
    Run (fileFreeBlock a k) s
      (fun _ s' => ∃ own', Edit L own own' a s s' ∧ Trimmed own' a k (k + 1) s s' ∧
        fIndirect s'.mem a = fIndirect s.mem a ∧ Cut L.nb a (fIndirect s.mem a) (cutFrom s.mem a k 1) s s')
      (fun e s' => s' = s ∧ (∃ er, e = .err er) ∧ (k < 1034 → ptr s.mem a k = 0)) := by
  refine .step (fileBlockWalk_run h ha k) ?_ ?_
  · rintro e s' ⟨rfl, ⟨rfl, hk⟩ | ⟨rfl, hk, hi⟩⟩
    · exact ⟨rfl, ⟨_, rfl⟩, fun hk' => by omega⟩
    · refine ⟨rfl, ⟨_, rfl⟩, fun _ => ?_⟩
      rw [ptr, if_neg (by omega), if_pos hi]
  rintro p s ⟨rfl, hk, hs⟩
  refine .bind (load32_ok (h.here_slot ha hs)) ?_
  rintro b s1 ⟨hb, hl⟩
  rw [← hs.ptr] at hb
  have h1 : FInv L own s1.mem := by rwa [hl.mem]
  split_ifs with h0
  · have hnil : cutFrom s.mem a k 1 = [] := by simp [cutFrom, ← hb, h0]
    refine .pure ⟨own, Edit.of_loaded h hl, ⟨fun i _ => by rw [hl.mem], ?_, ?_, fun c f k _ => by rw [hl.mem]⟩,
      by rw [hl.mem], by rw [hnil]; exact .of_loaded hl _ _ _⟩
    · intro k' _
      rw [hl.mem]
      split_ifs with hr
      · rw [show k' = k by omega, ← hb, h0]
      · rfl
    · intro k' _ hr
      rw [show k' = k by omega, ← hb, h0]
      exact h.own_zero
  · have hs1 : IsSlot s1.mem a k p := by rwa [hl.mem]
    have hp1 : ptr s1.mem a k = b := by rw [hl.mem, ← hb]
    have hbu := ((h1.recOk a ha).ptr k hk (by rwa [hp1])).1
    rw [hp1] at hbu
    have hbo : (own b).owner = some a := by
      rw [hbu, useOf]
      split_ifs <;> rfl
    have hbn : own b ≠ .none := by
      rw [hbu, useOf]
      split_ifs <;> simp
    have hnf := h1.not_fixed hbn
    have hlt := (h1.used b hbn).1
    have hnb : b < s1.nblocks := by rwa [h1.nblocks_eq]
    refine .bind (freeBlock_ok h0 (h1.here_bitBlk hnb) h1.two_lt) ?_
    intro _ s2 hf
    obtain ⟨hm, -⟩ := id hf
    have hplace := hs1.ne_ptr h1 ha hself hk (by rwa [hp1])
    rw [hp1] at hplace
    refine (store_ok ((h1.here_slot ha hs1).of_marked hm hplace) _ _ _).post ?_
    intro _ s3 hst
    have hhome := Home.slot h1 ha hs1
    have hsame : ∀ c, c = 1 ∨ own c ≠ .none → s3.mem c = setSlot s1.mem p 0 c := by
      intro c hc
      have hcm : ∀ c', c' = 1 ∨ own c' ≠ .none → s2.mem c' = s1.mem c' := fun c' hc' =>
        hm.mem c' fun he => (h1.home hc').2.1 b hlt he.symm
      by_cases he : c = p.blk
      · rw [he, setSlot, update_self, hst.mem, update_self, hcm _ (he ▸ hc)]
        rfl
      · rw [setSlot, update_of_ne he, hst.mem, update_of_ne he, hcm c hc]
    obtain ⟨hrec, hptr, hhead, hind⟩ := clearSlot_recOk h1 ha hk hs1 hp1 h0 hsame
    obtain ⟨hed, hcut⟩ : Edit L own (update own b .none) a s1 s3 ∧ Cut L.nb a (fIndirect s1.mem a) [b] s1 s3 := by
      refine edit_free h1 ha hbo hf hhome hst ?_ ?_ (fun _ => hrec) (head_le32 hhead (by omega))
      · intro hc
        rcases hs1 with ⟨hk10, rfl⟩ | ⟨-, -, hi, rfl⟩
        · dsimp only
          omega
        · exact absurd hc (ha.ne_ind h1 ((h1.recOk a ha).ind hi))
      · rcases hs1 with ⟨-, rfl⟩ | ⟨-, -, hi, rfl⟩
        · exact fun hne => absurd rfl hne
        · exact fun _ => ⟨rfl, hi⟩
    have hone : cutFrom s.mem a k 1 = [b] := by simp [cutFrom, ← hb, h0]
    rw [hl.mem] at hcut
    refine ⟨_, (Edit.of_loaded h hl).trans hed, ⟨fun i hi => by rw [hhead i hi, hl.mem], ?_, ?_, ?_⟩,
      by rw [hind, hl.mem], hone ▸ (Cut.of_loaded hl _ _ _).trans hcut⟩
    · intro k' _
      rw [hptr, hl.mem]
      split_ifs <;> first | rfl | omega
    · intro k' _ hr
      rw [show k' = k by omega, ← hb, update_self]
    · intro c f k' hc'
      have hc : own c = .data f k' := by
        rw [update_apply] at hc'
        split_ifs at hc'
        exact hc'
      rw [hsame c (Or.inr (by simp [hc])), setSlot, update_of_ne (hhome.ne_data h ha hc), hl.mem]

/-- The loop of `file_truncate_blocks`. -/
theorem truncLoop_run {E : Fault → FsSt → Prop} : ∀ (n lo : ℕ) {own : ℕ → Use} {s : FsSt},
    FInv L own s.mem → IsRec own a → (∀ k, own a.blk ≠ .dir a k) →
    Run (truncLoop a n lo) s
      (fun _ s' => ∃ own', Edit L own own' a s s' ∧ Trimmed own' a lo (lo + n) s s' ∧
        fIndirect s'.mem a = fIndirect s.mem a ∧
        (lo + n ≤ 1034 → Cut L.nb a (fIndirect s.mem a) (cutFrom s.mem a lo n) s s')) E
  | 0, lo, own, s, h, _, _ => by
    refine .pure ⟨own, Edit.refl h, ⟨fun _ _ => rfl, fun k _ => ?_, fun k _ hr => ?_, fun _ _ _ _ => rfl⟩, rfl,
      fun _ => .refl ..⟩
    · rw [if_neg (by omega)]
    · omega
  | n + 1, lo, own, s, h, ha, hself => by
    -- what one turn does, whether or not there was a block to free
    refine .bind (Q := fun _ s' => ∃ own', Edit L own own' a s s' ∧ Trimmed own' a lo (lo + 1) s s' ∧
      fIndirect s'.mem a = fIndirect s.mem a ∧ (lo < 1034 → Cut L.nb a (fIndirect s.mem a) (cutFrom s.mem a lo 1) s s'))
      ((attempt_run (fileFreeBlock_run h ha hself lo)).mono ?_ ?_) ?_
    · rintro r s1 (⟨_, -, own1, h1, h2, h3, h4⟩ | ⟨e, -, rfl, -, h0⟩)
      · exact ⟨own1, h1, h2, h3, fun _ => h4⟩
      · refine ⟨own, Edit.refl h, ⟨fun _ _ => rfl, fun k hk => ?_, fun k hk hr => ?_, fun _ _ _ _ => rfl⟩, rfl, fun hlo => ?_⟩
        · split_ifs with hr
          · rw [show k = lo by omega, h0 (by omega)]
          · rfl
        · rw [show k = lo by omega, h0 (by omega)]
          exact h.own_zero
        · rw [show cutFrom s1.mem a lo 1 = [] by simp [cutFrom, h0 hlo]]
          exact .refl ..
    · rintro e s1 ⟨⟨p, rfl⟩, -, ⟨er, he⟩, -⟩
      cases he
    rintro _ s1 ⟨own1, hed1, ht1, hi1, hc1⟩
    obtain ⟨ha1, hself1⟩ := hed1.isRec ha hself
    refine (truncLoop_run n (lo + 1) hed1.inv ha1 hself1).post ?_
    rintro _ s2 ⟨own2, hed2, ht2, hi2, hc2⟩
    rw [Nat.add_right_comm] at ht2
    refine ⟨own2, hed1.trans hed2, ht1.trans ht2 (fun b => (hed2.cut b).imp_right And.right) (by omega) le_rfl,
      hi2.trans hi1, fun hle => ?_⟩
    have hsame : ∀ k < lo + n + 1, lo < k → ptr s1.mem a k = ptr s.mem a k := fun k hk hlo => by
      rw [ht1.ptr k (by omega), if_neg (by omega)]
    rw [cutFrom_succ hsame]
    exact (hc1 (by omega)).trans (hi1 ▸ hc2 (by omega))

theorem fSize_lt (m : Disk) (a : Ptr) : fSize m a < 2 ^ 31 := by
  have := le32_lt (m a.blk) (a.off + 128)
  rw [fSize, toInt32]
  split_ifs <;> omega

/-- The 32-bit count of blocks, where it matters. -/
theorem blocksOf_word {z : ℤ} (h0 : 0 ≤ z) (h1 : z < 2 ^ 31) :
    ofInt32 (blocksOf z) = blocksUp z ∨ (1034 < ofInt32 (blocksOf z) ∧ 1034 < blocksUp z) := by
  unfold blocksOf blocksUp
  by_cases hs : z + 4095 < 2 ^ 31
  · left
    rw [show z + ((BLKSIZE : ℕ) : ℤ) - 1 = z + 4095 by simp; ring, toInt32_ofInt32 (by omega) hs,
      Int.tdiv_eq_ediv_of_nonneg (by omega), ofInt32]
    simp only [BLKSIZE, Nat.cast_ofNat]
    omega
  · right
    have hw : toInt32 (ofInt32 (z + ((BLKSIZE : ℕ) : ℤ) - 1)) = z + 4095 - 2 ^ 32 := by
      simp only [BLKSIZE, Nat.cast_ofNat]
      unfold toInt32 ofInt32
      split_ifs <;> omega
    rw [hw, show z + 4095 - 2 ^ 32 = -(2 ^ 32 - 4095 - z) by ring, Int.neg_tdiv,
      Int.tdiv_eq_ediv_of_nonneg (by omega)]
    simp only [BLKSIZE, Nat.cast_ofNat, ofInt32]
    omega

/-- The indirect block is freed once no pointer in it is left. -/
theorem freeIndirect_run {E : Fault → FsSt → Prop} (h : FInv L own s.mem) (ha : IsRec own a) (hi : fIndirect s.mem a ≠ 0)
    (h0 : ∀ k < 1034, 10 ≤ k → ptr s.mem a k = 0) :
    Run (do freeBlock (fIndirect s.mem a)
            store32 a.blk (a.off + 176) 0) s
      (fun _ s' => ∃ own', Edit L own own' a s s' ∧ Trimmed own' a 10 1034 s s' ∧ fIndirect s'.mem a = 0 ∧
        own' (fIndirect s.mem a) = .none ∧ Cut L.nb a (fIndirect s.mem a) [fIndirect s.mem a] s s') E := by
  have ho := (h.recOk a ha).ind hi
  have hbn : own (fIndirect s.mem a) ≠ .none := by simp [ho]
  have hlt := (h.used _ hbn).1
  have hnb : fIndirect s.mem a < s.nblocks := by rwa [h.nblocks_eq]
  refine .bind (freeBlock_ok hi (h.here_bitBlk hnb) h.two_lt) ?_
  intro _ s1 hf
  obtain ⟨hm, -⟩ := id hf
  refine (store_ok ((h.here_rec ha).of_marked hm (ha.ne_ind h ho).symm) _ _ _).post ?_
  intro _ s2 hst
  have hcm : ∀ c, c = 1 ∨ own c ≠ .none → s1.mem c = s.mem c := fun c hc =>
    hm.mem c fun he => (h.home hc).2.1 _ hlt he.symm
  have hblk : s2.mem a.blk = (s.mem a.blk).put32 (a.off + 176) 0 := by
    rw [hst.mem, update_self, hcm _ (ha.kept)]
    rfl
  have hout : ∀ i, i < 176 ∨ 180 ≤ i → s2.mem a.blk (a.off + i) = s.mem a.blk (a.off + i) := fun i hi => by
    rw [hblk, put32_out (by omega)]
  have hhead : ∀ i < 136, s2.mem a.blk (a.off + i) = s.mem a.blk (a.off + i) := fun i hi => hout i (by omega)
  have hind : fIndirect s2.mem a = 0 := by
    rw [fIndirect, hblk, le32_put32]
    rfl
  have hptr : ∀ k < 1034, ptr s2.mem a k = ptr s.mem a k := by
    intro k hk
    by_cases hk10 : k < 10
    · rw [ptr, if_pos hk10, ptr, if_pos hk10]
      refine le32_congr fun i hi => ?_
      rw [Nat.add_assoc, Nat.add_assoc]
      exact hout _ (by omega)
    · rw [h0 k hk (by omega), ptr, if_neg hk10, if_pos hind]
  have hrec := h.recOk a ha
  have hrec2 : RecOk L (update own (fIndirect s.mem a) .none) s2.mem a := by
    refine hrec.of_head hhead (fun k hk hp => ?_) (fun h' => absurd hind h') fun _ _ => hind
    rw [hptr k hk] at hp ⊢
    have h1 := hrec.ptr k hk hp
    rwa [update_of_ne]
    intro hc
    rw [hc, ho, useOf] at h1
    split_ifs at h1 <;> cases h1.1
  obtain ⟨hed, hcut⟩ := edit_free h ha (by rw [ho]; rfl) hf (.inl rfl) hst (fun _ => by omega) (fun hne => absurd rfl hne)
    (fun _ => hrec2) (head_le32 hhead (by omega))
  refine ⟨_, hed, ⟨hhead, ?_, ?_, ?_⟩, hind, update_self _ _ _, hcut⟩
  · intro k hk
    rw [hptr k hk]
    split_ifs with hr
    · exact h0 k hk hr.1
    · rfl
  · intro k hk hr
    rw [h0 k hk hr.1, update_of_ne hi.symm]
    exact h.own_zero
  · intro c f k hc
    rw [update_apply] at hc
    split_ifs at hc
    rw [hst.mem, update_of_ne (ha.ne_data h hc), hcm c (Or.inr (by simp [hc]))]

/-- The blocks of the file `a` that one of `n` bytes does not have, in the order
in which they are freed. -/
def cutBlocks (m : Disk) (a : Ptr) (n : ℤ) : List ℕ :=
  cutFrom m a (blocksUp n) (blocksUp (fSize m a) - blocksUp n) ++
    if blocksUp n ≤ 10 ∧ fIndirect m a ≠ 0 then [fIndirect m a] else []

/-- The blocks cut off have uses, and no two the same. -/
theorem FInv.cutBlocks_uses {m : Disk} {n : ℤ} (h : FInv L own m) (ha : IsRec own a) (hmax : blocksUp (fSize m a) ≤ 1034) :
    (cutBlocks m a n).Nodup ∧ ∀ b ∈ cutBlocks m a n, b < L.nb ∧ bitSet m b = false := by
  have hrec := h.recOk a ha
  have hmap : (cutBlocks m a n).map own =
      ((List.range' (blocksUp n) (blocksUp (fSize m a) - blocksUp n)).filter (ptr m a · ≠ 0)).map (useOf m a) ++
        if blocksUp n ≤ 10 ∧ fIndirect m a ≠ 0 then [.ind a] else [] := by
    rw [cutBlocks, List.map_append, cutFrom, List.map_map]
    congr 1
    · refine List.map_congr_left fun k hk => ?_
      obtain ⟨hr, hp⟩ := List.mem_filter.mp hk
      have := List.mem_range'_1.mp hr
      exact (hrec.ptr k (by omega) (of_decide_eq_true hp)).1
    · split_ifs with hi
      · rw [List.map_singleton, hrec.ind hi.2]
      · rfl
  have huse : ∀ k, useOf m a k ≠ .ind a ∧ useOf m a k ≠ .none := fun k => by
    unfold useOf
    split_ifs <;> simp
  refine ⟨.of_map own ?_, fun b hb => h.used b ?_⟩
  · rw [hmap]
    refine (((List.nodup_range' 1).filter _).map (useOf_inj m a)).append (by split_ifs <;> simp) fun u hu hu' => ?_
    obtain ⟨k, -, rfl⟩ := List.mem_map.mp hu
    split_ifs at hu'
    · exact (huse k).1 (List.mem_singleton.mp hu')
    · cases hu'
  · have hu := List.mem_map_of_mem (f := own) hb
    rw [hmap, List.mem_append] at hu
    rcases hu with hu | hu
    · obtain ⟨k, -, hk⟩ := List.mem_map.mp hu
      exact hk ▸ (huse k).2
    · split_ifs at hu
      · rw [List.mem_singleton.mp hu]
        simp
      · cases hu

/-- `file_truncate_blocks`: the blocks from the new size on are gone, the
indirect block too if no block is left in it. -/
theorem fileTruncateBlocks_run {E : Fault → FsSt → Prop} (h : FInv L own s.mem) (ha : IsRec own a) (hself : ∀ k, own a.blk ≠ .dir a k)
    {n : ℤ} (hn0 : 0 ≤ n) (hn1 : n < 2 ^ 31) :
    Run (fileTruncateBlocks a n) s
      (fun _ s' => ∃ own', Edit L own own' a s s' ∧ Trimmed own' a (blocksUp n) 1034 s s' ∧
        (fIndirect s'.mem a = if blocksUp n ≤ 10 then 0 else fIndirect s.mem a) ∧
        (fIndirect s'.mem a = fIndirect s.mem a ∨ own' (fIndirect s.mem a) = .none) ∧
        (blocksUp n ≤ blocksUp (fSize s.mem a) → blocksUp (fSize s.mem a) ≤ 1034 →
          Cut L.nb a (fIndirect s.mem a) (cutBlocks s.mem a n) s s')) E := by
  have hold := blocksOf_word (h.recOk a ha).size (fSize_lt s.mem a)
  have hnew := blocksOf_word hn0 hn1
  refine .getBind ?_
  refine .bind (Q := fun _ s' => ∃ own', Edit L own own' a s s' ∧ Trimmed own' a (blocksUp n) 1034 s s' ∧
    fIndirect s'.mem a = fIndirect s.mem a ∧ (blocksUp n ≤ blocksUp (fSize s.mem a) → blocksUp (fSize s.mem a) ≤ 1034 →
      Cut L.nb a (fIndirect s.mem a) (cutFrom s.mem a (blocksUp n) (blocksUp (fSize s.mem a) - blocksUp n)) s s'))
    ((truncLoop_run _ _ h ha hself).post ?_) ?_
  · rintro _ s1 ⟨own1, hed, ht, hi, hcut⟩
    have hzero := fun k => h.ptr_past (k := k) ha
    refine ⟨own1, hed, ⟨ht.head, ?_, ?_, ht.data⟩, hi, fun hle hmax => ?_⟩
    · intro k hk
      rw [ht.ptr k hk]
      by_cases hb : blocksUp (fSize s.mem a) ≤ k
      · rw [hzero k hk hb, ite_self, ite_self]
      · split_ifs <;> first | rfl | omega
    · intro k hk hr
      by_cases hb : blocksUp (fSize s.mem a) ≤ k
      · rw [hzero k hk hb]
        exact hed.inv.own_zero
      · exact ht.freed k hk (by omega)
    · rw [hold.resolve_right (by omega), hnew.resolve_right (by omega)] at hcut
      exact hcut (by omega)
  rintro _ s1 ⟨own1, hed, ht, hi, hcut⟩
  obtain ⟨ha1, hself1⟩ := hed.isRec ha hself
  refine .getBind ?_
  have hle : ofInt32 (blocksOf n) ≤ NDIRECT ↔ blocksUp n ≤ 10 := by
    simp only [NDIRECT]
    omega
  by_cases hc : ofInt32 (blocksOf n) ≤ NDIRECT ∧ fIndirect s1.mem a ≠ 0
  · rw [if_pos hc]
    have h0 : ∀ k < 1034, 10 ≤ k → ptr s1.mem a k = 0 := by
      intro k hk hk10
      rw [ht.ptr k hk, if_pos]
      have := hle.mp hc.1
      omega
    refine (freeIndirect_run hed.inv ha1 hc.2 h0).post ?_
    rintro _ s2 ⟨own2, hed2, ht2, hi2, hfree, hcut2⟩
    rw [hi] at hfree hcut2
    refine ⟨own2, hed.trans hed2, ht.trans ht2 (fun b => (hed2.cut b).imp_right And.right) ?_ le_rfl,
      by rw [hi2, if_pos (hle.mp hc.1)], .inr hfree, fun h1 h2 => ?_⟩
    · have := hle.mp hc.1
      omega
    · rw [cutBlocks, if_pos ⟨hle.mp hc.1, hi ▸ hc.2⟩]
      exact (hcut h1 h2).trans hcut2
  · rw [if_neg hc]
    refine .pure ⟨own1, hed, ht, ?_, .inl hi, fun h1 h2 => ?_⟩
    · split_ifs with hb
      · exact by_contra fun hne => hc ⟨hle.mpr hb, hne⟩
      · exact hi
    · rw [cutBlocks, if_neg (by rwa [← hi, ← hle]), List.append_nil]
      exact hcut h1 h2

/-- A change of a record that gets no blocks takes none. -/
theorem Edit.freeBlocks_le (h : Edit L own own' a s s') (hi : FInv L own s.mem) :
    Fs.freeBlocks s.mem ≤ Fs.freeBlocks s'.mem := by
  refine Finset.card_le_card fun b hb => ?_
  rw [Finset.mem_filter, Finset.mem_range] at hb ⊢
  obtain ⟨hlt, h0, hfree⟩ := hb
  rw [hi.nblocks] at hlt
  refine ⟨by rwa [h.inv.nblocks], h0, ?_⟩
  -- a block in use after was in use before
  by_contra hc
  rw [Bool.not_eq_true] at hc
  by_cases hown : own' b = .none
  · rw [(h.leak b hlt hc hown).1] at hfree
    cases hfree
  · have hu : own b ≠ .none := by
      rcases h.cut b with he | ⟨-, he⟩
      · rwa [← he]
      · exact absurd he hown
    rw [(hi.used b hu).2] at hfree
    cases hfree

/-! ### Setting the size -/

/-- The file `a` now has `n` bytes; what it had before them is kept. -/
structure Resized (own' : ℕ → Use) (a : Ptr) (n : ℤ) (s s' : FsSt) : Prop where
  name : ∀ i < 128, fName s'.mem a i = fName s.mem a i
  type : fType s'.mem a = fType s.mem a
  size : fSize s'.mem a = n
  ptr : ∀ k < 1034, ptr s'.mem a k = if k < blocksUp n then ptr s.mem a k else 0
  freed : ∀ k < 1034, blocksUp n ≤ k → own' (Fs.ptr s.mem a k) = .none
  ind : fIndirect s'.mem a = fIndirect s.mem a ∨ own' (fIndirect s.mem a) = .none
  data : ∀ c f k, own' c = .data f k → s'.mem c = s.mem c

theorem Resized.of_mem {n : ℤ} (h : Resized own' a n s s') (hm : s''.mem = s'.mem) : Resized own' a n s s'' := by
  constructor <;> try rw [hm]
  exacts [h.name, h.type, h.size, h.ptr, h.freed, h.ind, h.data]

theorem blocksUp_mono {z z' : ℤ} (h : z ≤ z') : blocksUp z ≤ blocksUp z' := by
  unfold blocksUp
  omega

/-- The store of the size field, where no block is left past it. -/
theorem resized_store {n : ℤ} (h : FInv L own s.mem) (ha : IsRec own a) (hlive : Live s.mem a) (hn0 : 0 ≤ n)
    (hn1 : n < 2 ^ 31) (hD : L.D → fType s.mem a = 1 → (4096 : ℤ) ∣ n)
    (hz : ∀ k < 1034, blocksUp n ≤ k → ptr s.mem a k = 0)
    (hst : Stored a.blk (a.off + 128) 4 (bytes32 (ofInt32 n)) s s') :
    Edit L own own a s s' ∧ Resized own a n s s' := by
  have hblk : s'.mem a.blk = (s.mem a.blk).put32 (a.off + 128) (ofInt32 n) := by
    rw [hst.mem, update_self]
    rfl
  have hout : ∀ i, i < 128 ∨ 132 ≤ i → s'.mem a.blk (a.off + i) = s.mem a.blk (a.off + i) := fun i hi => by
    rw [hblk, put32_out (by omega)]
  have hw : ∀ o, o + 4 ≤ 128 ∨ 132 ≤ o → (s'.mem a.blk).le32 (a.off + o) = (s.mem a.blk).le32 (a.off + o) := fun o ho => by
    rw [hblk, le32_put32_out (by omega)]
  have hsize : fSize s'.mem a = n := by
    rw [Fs.fSize, hblk, le32_put32, Nat.mod_eq_of_lt (ofInt32_lt n), toInt32_ofInt32 (by omega) hn1]
  have htype : fType s'.mem a = fType s.mem a := hw 132 (by omega)
  have hind : fIndirect s'.mem a = fIndirect s.mem a := hw 176 (by omega)
  have hptr : ∀ k < 1034, ptr s'.mem a k = ptr s.mem a k := by
    intro k hk
    unfold Fs.ptr
    rw [hind]
    split_ifs with hk10 hi
    · rw [fDirect, Nat.add_assoc, hw _ (by omega), fDirect, Nat.add_assoc]
    · rfl
    · rw [hst.mem, update_of_ne]
      exact ha.ne_ind h ((h.recOk a ha).ind hi)
  have hrec := h.recOk a ha
  constructor
  · refine edit_store h ha hst (by omega) (by omega) ⟨?_, by rw [hind]; exact hrec.ind, by rw [hsize]; exact hn0,
      ?_, ?_⟩ ?_
    · intro k hk hp
      rw [hptr k hk] at hp ⊢
      rw [useOf_congr htype, hsize]
      refine ⟨(hrec.ptr k hk hp).1, ?_⟩
      by_contra hc
      exact hp (hz k hk (by omega))
    · intro hr hn
      exact absurd ((hout 0 (by omega)).symm.trans hn) (hlive.resolve_left hr)
    · intro hd hty
      rw [hsize]
      exact hD hd (htype ▸ hty)
    · rintro rfl
      rw [htype, h.rootDir]
  · refine ⟨fun i hi => hout i (by omega), htype, hsize, ?_, ?_, .inl hind, ?_⟩
    · intro k hk
      rw [hptr k hk]
      split_ifs with hb
      · rfl
      · exact hz k hk (by omega)
    · intro k hk hb
      rw [hz k hk hb]
      exact h.own_zero
    · intro c f k hc
      rw [hst.mem, update_of_ne (ha.ne_data h hc)]

theorem Trimmed.resized {n : ℤ} {s1 : FsSt} (ht : Trimmed own' a (blocksUp n) 1034 s s1)
    (hi : fIndirect s1.mem a = fIndirect s.mem a ∨ own' (fIndirect s.mem a) = .none)
    (hr : Resized own' a n s1 s') : Resized own' a n s s' where
  name i hi := (hr.name i hi).trans (ht.head i (by omega))
  type := hr.type.trans ht.fType
  size := hr.size
  ptr k hk := by
    rw [hr.ptr k hk, ht.ptr k hk]
    split_ifs <;> first | rfl | omega
  freed k hk hb := ht.freed k hk ⟨hb, hk⟩
  ind := by
    rcases hi with hi | hi
    · rw [← hi]
      exact hr.ind
    · exact .inr hi
  data c f k hc := (hr.data c f k hc).trans (ht.data c f k hc)

/-- `file_set_size`. -/
theorem fileSetSize_run {E : Fault → FsSt → Prop} (h : FInv L own s.mem) (ha : IsRec own a) (hself : ∀ k, own a.blk ≠ .dir a k)
    (hlive : Live s.mem a) {n : ℤ} (hn0 : 0 ≤ n) (hn1 : n < 2 ^ 31)
    (hD : L.D → fType s.mem a = 1 → (4096 : ℤ) ∣ n) :
    Run (fileSetSize a n) s (fun _ s' => ∃ own', Edit L own own' a s s' ∧ Resized own' a n s s') E := by
  refine .getBind ?_
  refine .iteBind (Q := fun _ s1 => ∃ own1, Edit L own own1 a s s1 ∧ Trimmed own1 a (blocksUp n) 1034 s s1 ∧
    (fIndirect s1.mem a = fIndirect s.mem a ∨ own1 (fIndirect s.mem a) = .none)) ?_ ?_
  · split_ifs with hlt
    · refine (fileTruncateBlocks_run h ha hself hn0 hn1).post ?_
      rintro _ s1 ⟨own1, hed, ht, -, hi1, -⟩
      exact ⟨own1, hed, ht, hi1⟩
    have hz : ∀ k < 1034, blocksUp n ≤ k → ptr s.mem a k = 0 := by
      intro k hk hb
      by_contra hp
      have := ((h.recOk a ha).ptr k hk hp).2
      have := blocksUp_mono (not_lt.mp hlt)
      omega
    refine .pure ⟨own, Edit.refl h, ⟨fun _ _ => rfl, ?_, ?_, fun _ _ _ _ => rfl⟩, .inl rfl⟩
    · intro k hk
      split_ifs with hr
      · exact hz k hk hr.1
      · rfl
    · intro k hk hr
      rw [hz k hk hr.1]
      exact h.own_zero
  -- the blocks are cut off: the size and the flush
  rintro _ s1 ⟨own1, hed, ht, hi1⟩
  obtain ⟨ha1, hself1⟩ := hed.isRec ha hself
  refine .bind (store_ok (hed.inv.here_rec ha1) _ _ _) ?_
  intro _ s2 hst
  have hlive1 : Live s1.mem a := hlive.imp_right fun hn => by
    rw [fName, ht.head 0 (by omega)]
    exact hn
  obtain ⟨hed2, hr⟩ := resized_store hed.inv ha1 hlive1 hn0 hn1 (fun hd hty => hD hd (ht.fType ▸ hty))
    (fun k hk hb => by rw [ht.ptr k hk, if_pos ⟨hb, hk⟩]) hst
  have hhere := hed2.inv.here_rec ha1
  refine (flushBlock_ok hhere.1 hhere.2.1).post ?_
  intro _ s3 hf
  exact ⟨own1, (hed.trans hed2).trans (Edit.of_flushed hed2.inv hf (hed2.inv.home (ha1.kept)).1),
    (ht.resized hi1 hr).of_mem hf.mem⟩

end

end Fs
end Jos
