/-
# Reading and writing (file_read, file_write)

A file's contents are its bytes (`byteAt`), zero in a hole. Reading only grows
the file system. Writing fills blocks of one regular file: `Filled` is `Grown`
but for the contents of that file, and `Bytes` says what they are after. The
blocks are counted: what is written are the bytes up to the first block that
cannot be had (`Stuck`).

Negative offsets are excluded: there the loops take the address of a byte
before the block they asked for.

Key definitions: `byteAt`, `Filled`, `Bytes`, `Backed`, `Obtainable`, `Stuck`, `Extended`.
Key theorems: `chunk_eq`, `fileRead_run`, `writeLoop_exact`, `fileWrite_exact`.
-/
import Jos.Fs.Ops

namespace Jos
namespace Fs

open Block Function

/-- Byte `i` of the file `f`. -/
def byteAt (m : Disk) (f : Ptr) (i : ℕ) : UInt8 :=
  if ptr m f (i / 4096) = 0 then 0 else m (ptr m f (i / 4096)) (i % 4096)

/-- The bytes `lo ≤ i < hi` of `a` are those of `buf`, the others as before. -/
def Bytes (a : Ptr) (buf : ℕ → UInt8) (lo hi : ℕ) (m m' : Disk) : Prop :=
  ∀ i, i / 4096 < 1034 → byteAt m' a i = if lo ≤ i ∧ i < hi then buf (i - lo) else byteAt m a i

/-- The blocks of the bytes `p ≤ i < fin` of the file `a` are there. -/
def Backed (m : Disk) (a : Ptr) (p fin : ℕ) : Prop := ∀ i, p ≤ i → i < fin → ptr m a (i / 4096) ≠ 0

/-- The blocks for the bytes `p ≤ i < fin` of the file `a` can be had. -/
def Obtainable (m : Disk) (a : Ptr) (p fin : ℕ) : Prop :=
  p < fin → fin ≤ MAXFILESIZE ∧ lacking m a (p / 4096) ((fin + 4095) / 4096) ≤ freeBlocks m

instance (m : Disk) (a : Ptr) (p fin : ℕ) : Decidable (Obtainable m a p fin) := inferInstanceAs (Decidable (_ → _))

/-- How many of the `count` bytes from `off` on `file_write` stores. -/
def stored (m : Disk) (a : Ptr) (off count : ℕ) : ℕ := Nat.findGreatest (fun n => Obtainable m a off (off + n)) count

/-- The block of byte `q` is the first, from byte `p` on, that cannot be had. -/
structure Stuck (m : Disk) (a : Ptr) (p q : ℕ) : Prop where
  le : p ≤ q
  before : Obtainable m a p q
  edge : q = p ∨ q % 4096 = 0
  here : ¬ Obtainable m a p (q + 1)

section
variable {L : Layout} {own own' own'' : ℕ → Use} {s s' s'' : FsSt} {a : Ptr} {m : Disk} {k p q fin : ℕ} {X : Ptr → Prop}

theorem GrownBut.byteAt (h : GrownBut L own own' X s s') (ha : IsRec own a) (hX : ¬ X a)
    (ht : Fs.fType s.mem a ≠ 1) {i : ℕ} (hlt : i / 4096 < 1034) : Fs.byteAt s'.mem a i = Fs.byteAt s.mem a i := by
  unfold Fs.byteAt
  by_cases hp : Fs.ptr s.mem a (i / 4096) = 0
  · rw [if_pos hp]
    split_ifs with hp'
    · rfl
    · exact (h.new a ha hX _ hlt hp hp').2 (by rwa [h.fType ha]) _ (Nat.mod_lt _ (by omega))
  · have hu := ((h.start.recOk a ha).ptr _ hlt hp).1
    rw [useOf, if_neg ht] at hu
    rw [h.ptr a ha _ hlt hp, if_neg hp, if_neg hp, h.data _ _ _ hu hX]

/-! ### The loops -/

/-- One turn of the loops at a position that is not negative. -/
theorem chunk_eq {fin p : ℕ} (hp : p < fin) (hfin : fin < 2 ^ 31) :
    chunk fin (p : ℤ) = (p / 4096, min (4096 - p % 4096) (fin - p)) := by
  rw [chunk, ← Int.ofNat_tdiv p 4096, ← Int.ofNat_tmod p 4096, ofInt32_natCast (by omega),
    show ((BLKSIZE : ℕ) : ℤ) - ((p % 4096 : ℕ) : ℤ) = ((4096 - p % 4096 : ℕ) : ℤ) by simp only [BLKSIZE]; omega,
    ofInt32_natCast (by omega), show ((fin : ℤ) - (p : ℤ)) = ((fin - p : ℕ) : ℤ) by omega,
    ofInt32_natCast (by omega)]

theorem blkAt_eq (blk p : ℕ) : blkAt blk ((p : ℤ).tmod ((BLKSIZE : ℕ) : ℤ)) = ⟨blk, p % 4096⟩ := by
  rw [← Int.ofNat_tmod p 4096, blkAt, if_neg (by omega), Int.toNat_natCast]

theorem toInt32_add {p n : ℕ} (h : p + n < 2 ^ 31) : toInt32 (ofInt32 ((p : ℤ) + (n : ℤ))) = ((p + n : ℕ) : ℤ) := by
  rw [toInt32_ofInt32 (by omega) (by omega)]
  push_cast
  rfl

/-- A position in the file is in one of its blocks. -/
theorem div_lt_blocksUp {p : ℕ} {z : ℤ} (h : (p : ℤ) < z) : p / 4096 < blocksUp z := by
  unfold blocksUp
  omega

/-- The loop of `file_read`. -/
theorem readLoop_run : ∀ (n fin p : ℕ) {own : ℕ → Use} {s : FsSt}, FInv L own s.mem → IsRec own a →
    Live s.mem a → p < 2 ^ 31 → (fin : ℤ) ≤ fSize s.mem a →
    Run (readLoop a fin n p) s (fun _ s' => ∃ own', Grown L own own' s s')
      (Fails L own s True fun e _ => e = .inval)
  | 0, _, _, own, s, h, _, _, _, _ => .pure ⟨own, .refl h⟩
  | n + 1, fin, p, own, s, h, ha, hlive, hp31, hsz => by
    have hfin : fin < 2 ^ 31 := by
      have := fSize_lt s.mem a
      omega
    unfold readLoop
    by_cases hp : ofInt32 (p : ℤ) < fin
    · rw [if_pos hp]
      rw [ofInt32_natCast (by omega)] at hp
      rw [chunk_eq hp hfin]
      refine .step (fileGetBlock_run h ha hlive (div_lt_blocksUp (by omega))) ?_ ?_
      · exact fun e s' he => Fails.of_grown (.refl h) he id fun e _ _ he => he.1
      rintro blk s1 ⟨own1, hg, hlt, hblk, rfl⟩
      dsimp only
      rw [blkAt_eq]
      refine .bind (touch_ok (hg.inv.here_ptr (hg.isRec ha) hlt hblk)) ?_
      intro _ s2 hl
      have hg2 := hg.trans (grown_of_loaded hg.inv hl)
      refine .getBind ?_
      dsimp only
      rw [toInt32_add (by omega)]
      refine .step (readLoop_run n fin _ hg2.inv (hg2.isRec ha) ((hg2.live ha).mpr hlive) (by omega)
        (by rwa [hg2.fSize ha])) (fun e s' he => Fails.of_grown hg2 he id fun _ _ _ he => he) ?_
      rintro rest s3 ⟨own3, hg3⟩
      exact .pure ⟨own3, hg2.trans hg3⟩
    · rw [if_neg hp]
      exact .pure ⟨own, .refl h⟩

/-- `file_read` from a position that is not negative. -/
theorem fileRead_run (h : FInv L own s.mem) (ha : IsRec own a) (hlive : Live s.mem a) (count off : ℕ) :
    Run (fileRead a count off) s (fun _ s' => ∃ own', Grown L own own' s s')
      (Fails L own s True fun e _ => e = .inval) := by
  refine .getBind ?_
  have hlt := fSize_lt s.mem a
  by_cases hoff : fSize s.mem a ≤ off
  · rw [if_pos hoff]
    exact .pure ⟨own, .refl h⟩
  · rw [if_neg hoff]
    have hc : ofInt32 (fSize s.mem a - off) = (fSize s.mem a - off).toNat := by
      rw [ofInt32]
      omega
    have hfin : ofInt32 ((off : ℤ) + (min count (ofInt32 (fSize s.mem a - off)) : ℕ)) =
        off + min count (fSize s.mem a - off).toNat := by
      rw [hc, ofInt32]
      omega
    dsimp only
    rw [hfin]
    refine .bind (readLoop_run _ _ off h ha hlive (by omega) (by omega)) ?_
    intro bytes s1 h1
    exact .pure h1

/-! ### Filling blocks of one file -/

/-- `Grown`, but for the contents of the regular file `a`. -/
abbrev Filled (L : Layout) (own own' : ℕ → Use) (a : Ptr) (s s' : FsSt) : Prop := GrownBut L own own' (· = a) s s'

namespace Filled

theorem of_grown (h : Grown L own own' s s') (ht : Fs.fType s.mem a ≠ 1) : Filled L own own' a s s' :=
  { h with
    reg := fun _ he => he ▸ ht
    new := fun f hf _ => h.new f hf id
    data := fun b f k hb _ => h.data b f k hb id }

/-- A store into a data block of `a`. -/
theorem of_stored {b off n k : ℕ} {src : ℕ → UInt8} (h : FInv L own s.mem) (ht : Fs.fType s.mem a ≠ 1)
    (hb : own b = .data a k) (hst : Stored b off n src s s') : Filled L own own a s s' := by
  obtain ⟨hk, hbits, hd2⟩ := hst.keeps_home h (.inr (by simp [hb])) fun h1 => by
    rw [h1, h.own_one] at hb
    cases hb
  have hne : ∀ c, c ≠ b → s'.mem c = s.mem c := fun c hc => by rw [hst.mem, update_of_ne hc]
  have hsame := fun f => hst.sameFile_data (f := f) h hb
  refine ⟨h, fun _ he => he ▸ ht, ⟨?_, ?_, ?_, fun f hf => (h.recOk f hf).congr (hsame f hf) fun _ _ => rfl, ?_⟩, hk,
    fun h2 => by rwa [hd2], fun _ _ => rfl, fun f hf i hi => (hsame f hf).1 i (by omega),
    fun f hf k' _ _ => (hsame f hf).ptr k', fun f hf _ => (hsame f hf).1.fIndirect, ?_,
    fun _ h0 h1 => absurd h0 h1, ?_, ?_⟩
  · rw [hne 1, h.nblocks]
    rintro rfl
    rw [h.own_one] at hb
    cases hb
  · intro c hc
    obtain ⟨h1, h2⟩ := h.used c hc
    exact ⟨h1, by rw [hbits c h1, h2]⟩
  · intro c hc
    rw [hbits c (Layout.fixed_lt hc)]
    exact h.fixed c hc
  · rw [(hsame root (Or.inl rfl)).1.fType, h.rootDir]
  · intro f hf _ k' _ h0 h1
    rw [(hsame f hf).ptr] at h1
    exact absurd h0 h1
  · intro c f k' hc hfa
    refine hne c ?_
    rintro rfl
    rw [hb, Use.data.injEq] at hc
    exact hfa hc.1.symm
  · intro c hc h1 h2
    exact ⟨by rw [← hbits c hc, h1], h2⟩

end Filled

theorem Bytes.refl (a : Ptr) (buf : ℕ → UInt8) {lo hi : ℕ} (m : Disk) (h : hi ≤ lo) : Bytes a buf lo hi m m :=
  fun i _ => by rw [if_neg (by omega)]

theorem Bytes.trans {buf : ℕ → UInt8} {lo mid hi : ℕ} {m m' m'' : Disk} (h : Bytes a buf lo mid m m')
    (h' : Bytes a (fun i => buf (mid - lo + i)) mid hi m' m'') (h1 : lo ≤ mid) (h2 : mid ≤ hi) :
    Bytes a buf lo hi m m'' := by
  intro i hi34
  rw [h' i hi34, h i hi34]
  split_ifs <;> first | rfl | exact congrArg buf (by omega) | omega

/-- One turn of the loop of `file_write`: the bytes go into one block. -/
theorem bytes_of_stored {p n : ℕ} {buf : ℕ → UInt8} (h : FInv L own s.mem) (ha : IsRec own a)
    (ht : fType s.mem a ≠ 1) (hk : p / 4096 < 1034) (hp : ptr s.mem a (p / 4096) ≠ 0) (hn : p % 4096 + n ≤ 4096)
    (hst : Stored (ptr s.mem a (p / 4096)) (p % 4096) n buf s s') :
    Filled L own own a s s' ∧ Bytes a buf p (p + n) s.mem s'.mem := by
  have hu := ((h.recOk a ha).ptr _ hk hp).1
  rw [useOf, if_neg ht] at hu
  refine ⟨Filled.of_stored h ht hu hst, fun i hi34 => ?_⟩
  unfold byteAt
  rw [(hst.sameFile_data h hu ha).ptr]
  by_cases hb : i / 4096 = p / 4096
  · rw [hb, if_neg hp, if_neg hp, hst.mem, update_self]
    split_ifs with hr
    · rw [write_in (by omega) (by omega)]
      congr 1
      omega
    · rw [write_out (by omega)]
  · rw [if_neg (show ¬ (p ≤ i ∧ i < p + n) by omega)]
    split_ifs with hi0
    · rfl
    · rw [hst.mem, update_of_ne]
      -- another block of the same file
      intro he
      have hui := ((h.recOk a ha).ptr _ hi34 hi0).1
      rw [he, hu, useOf, if_neg ht, Use.data.injEq] at hui
      exact hb hui.2.symm

theorem Grown.bytes (h : Grown L own own' s s') (ha : IsRec own a)
    (ht : Fs.fType s.mem a ≠ 1) (buf : ℕ → UInt8) (p : ℕ) : Bytes a buf p p s.mem s'.mem := fun i hi34 => by
  rw [h.byteAt ha id ht hi34, if_neg (by omega)]

/-! ### Ranges of bytes -/

/-- Once the block of byte `p` is there, what follows can be had if and only
if the whole range could. -/
theorem Got.obtainable (h : Got L own own' a (p / 4096) s s') (ha : IsRec own a) (hk : p / 4096 < 1034) (hp : p < q) :
    Obtainable s.mem a p q ↔ Obtainable s'.mem a ((p / 4096 + 1) * 4096) q := by
  have hfree := h.free
  have hmul : (p / 4096 + 1) * 4096 / 4096 = p / 4096 + 1 := by omega
  constructor
  · intro hw hq
    obtain ⟨hmax, hle⟩ := hw hp
    have hmax' : q ≤ 1034 * 4096 := hmax
    have := h.lacking ha (show p / 4096 < (q + 4095) / 4096 by omega) (by omega)
    rw [hmul]
    exact ⟨hmax, by omega⟩
  · intro hw _
    by_cases hq : (p / 4096 + 1) * 4096 < q
    · obtain ⟨hmax, hle⟩ := hw hq
      have hmax' : q ≤ 1034 * 4096 := hmax
      have := h.lacking ha (show p / 4096 < (q + 4095) / 4096 by omega) (by omega)
      rw [hmul] at hle
      exact ⟨hmax, by omega⟩
    · -- the range ends in the block of `p`
      have hlast : (q + 4095) / 4096 = p / 4096 + 1 := by omega
      have := h.lacking ha (show p / 4096 < p / 4096 + 1 by omega) (by omega)
      rw [lacking_of_le le_rfl] at this
      rw [hlast]
      exact ⟨show q ≤ 1034 * 4096 by omega, by omega⟩

theorem Obtainable.congr {m' : Disk} (hptr : ∀ k < 1034, ptr m' a k = ptr m a k) (hind : fIndirect m' a = fIndirect m a)
    (hfree : freeBlocks m' = freeBlocks m) : Obtainable m' a p q ↔ Obtainable m a p q := by
  refine imp_congr_right fun _ => and_congr_right fun hmax => ?_
  have hmax' : q ≤ 1034 * 4096 := hmax
  rw [hfree, lacking_congr (fun k _ hk => hptr k (by omega)) hind]

/-- Part of a range that can be had can be had. -/
theorem Obtainable.mono (h : Obtainable m a p fin) (hq : q ≤ fin) : Obtainable m a p q := by
  intro hp
  obtain ⟨hmax, hle⟩ := h (by omega)
  exact ⟨hq.trans hmax, (lacking_mono (by omega)).trans hle⟩

theorem Stuck.le_of_obtainable (h : Stuck m a p q) (hw : Obtainable m a p fin) : fin ≤ q := by
  by_contra hc
  exact h.here (hw.mono (by omega))

theorem Stuck.congr {m' : Disk} (h : Stuck m a p q) (hO : ∀ {q}, Obtainable m a p q ↔ Obtainable m' a p q) : Stuck m' a p q :=
  ⟨h.le, hO.mp h.before, h.edge, fun hw => h.here (hO.mpr hw)⟩

theorem Obtainable.stored {off count : ℕ} (h : Obtainable m a off (off + count)) : stored m a off count = count :=
  Nat.findGreatest_eq h

theorem Stuck.stored {off count : ℕ} (h : Stuck m a off q) (hq : q < off + count) : off + stored m a off count = q := by
  have hle := h.le
  suffices hs : Fs.stored m a off count = q - off by omega
  refine Nat.findGreatest_eq_iff.mpr ⟨by omega, fun _ => ?_, fun n hn _ hc => ?_⟩
  · rw [Nat.add_sub_cancel' hle]
    exact h.before
  · have := h.le_of_obtainable hc
    omega

theorem Backed.obtainable (h : Backed m a p fin) (hmax : fin ≤ MAXFILESIZE) : Obtainable m a p fin := by
  intro hp
  have hz : lacking m a (p / 4096) ((fin + 4095) / 4096) = 0 := by
    refine lacking_eq_zero fun k h1 h2 => ?_
    have hk : max p (4096 * k) / 4096 = k := by omega
    rw [← hk]
    exact h _ (by omega) (by omega)
  exact ⟨hmax, by omega⟩

/-! ### Writing -/

/-- `file_get_block` in the loop of `file_write`. -/
theorem fileGetBlock_at (h : FInv L own s.mem) (ha : IsRec own a) (hlive : Live s.mem a) (hp : (p : ℤ) < fSize s.mem a) :
    Run (fileGetBlock a (p / 4096)) s
      (fun b s' => p / 4096 < 1034 ∧ ∃ own', Got L own own' a (p / 4096) s s' ∧ ptr s'.mem a (p / 4096) = b)
      (fun e s' => (∃ er, e = .err er) ∧ Stuck s.mem a p p ∧ ∃ own', Grown L own own' s s') := by
  have hfirst : (p + 1 + 4095) / 4096 = p / 4096 + 1 := by omega
  have hno : ∀ {P : Prop}, p < p → P := fun hc => absurd hc (lt_irrefl _)
  by_cases hk : p / 4096 < 1034
  · refine (fileGetBlock_exact h ha hlive hk (div_lt_blocksUp hp)).mono (fun b s' hb => ⟨hk, hb⟩) ?_
    rintro e s' ⟨rfl, -, hfree, own1, hg, -⟩
    refine ⟨⟨_, rfl⟩, ⟨le_rfl, hno, .inl rfl, fun hw => ?_⟩, own1, hg⟩
    have := need_le_lacking (m := s.mem) (a := a) (show p / 4096 < p / 4096 + 1 by omega)
    have := (hw (by omega)).2
    rw [hfirst] at this
    omega
  · refine (fileGetBlock_run h ha hlive (div_lt_blocksUp hp)).mono ?_ ?_
    · rintro b s' ⟨-, -, hlt, -⟩
      exact absurd hlt hk
    · intro e s' he
      obtain ⟨er, rfl⟩ := he.err trivial
      obtain ⟨own1, hg, -⟩ := he
      refine ⟨⟨er, rfl⟩, ⟨le_rfl, hno, .inl rfl, fun hw => ?_⟩, own1, hg⟩
      have hmax : p + 1 ≤ 1034 * 4096 := (hw (by omega)).1
      omega

/-- A store into a data block changes nothing about what can be had. -/
theorem Stored.obtainable {b off n : ℕ} {src : ℕ → UInt8} (hst : Stored b off n src s s') (h : FInv L own s.mem)
    (hb : own b = .data a k) (ha : IsRec own a) : Obtainable s'.mem a p q ↔ Obtainable s.mem a p q := by
  have hsame := hst.sameFile_data h hb ha
  exact Obtainable.congr (fun j _ => hsame.ptr j) hsame.1.fIndirect (hst.freeBlocks_data h hb)

/-- What stops the loop in a later turn stops it from here. -/
theorem Stuck.of_got (h : Stuck s'.mem a ((p / 4096 + 1) * 4096) q) (hgot : Got L own own' a (p / 4096) s s')
    (ha : IsRec own a) (hk : p / 4096 < 1034) : Stuck s.mem a p q where
  le := by
    have := h.le
    omega
  before := by
    have := h.le
    exact (hgot.obtainable ha hk (by omega)).mpr h.before
  edge := by
    have := h.edge
    omega
  here := by
    have := h.le
    exact fun hw => h.here ((hgot.obtainable ha hk (by omega)).mp hw)

/-- The loop of `file_write`: it stores the bytes up to the first block that
cannot be had. -/
theorem writeLoop_exact (buf : ℕ → UInt8) (fin : ℕ) : ∀ (n p i : ℕ) {own : ℕ → Use} {s : FsSt},
    FInv L own s.mem → IsRec own a → Live s.mem a → fType s.mem a ≠ 1 → p ≤ fin → fin ≤ p + n →
    (fin : ℤ) ≤ fSize s.mem a →
    Run (writeLoop a buf fin n p i) s
      (fun _ s' => ∃ own', Filled L own own' a s s' ∧ Bytes a (fun k => buf (i + k)) p fin s.mem s'.mem ∧
        Backed s'.mem a p fin ∧ Obtainable s.mem a p fin)
      (fun e s' => (∃ er, e = .err er) ∧ ∃ own' q, Filled L own own' a s s' ∧
        Bytes a (fun k => buf (i + k)) p q s.mem s'.mem ∧ Stuck s.mem a p q ∧ q < fin)
  | 0, p, i, own, s, h, _, _, ht, _, hn, _ =>
    .pure ⟨own, Filled.of_grown (.refl h) ht, Bytes.refl a _ _ (by omega), fun j h1 h2 => by omega,
      fun hc => by omega⟩
  | n + 1, p, i, own, s, h, ha, hlive, ht, hpf, hn, hsz => by
    have hfin : fin < 2 ^ 31 := by
      have := fSize_lt s.mem a
      omega
    unfold writeLoop
    rw [ofInt32_natCast (by omega)]
    by_cases hp : p < fin
    · rw [if_pos hp, chunk_eq hp hfin]
      refine .step (fileGetBlock_at h ha hlive (by omega)) ?_ ?_
      · rintro e s' ⟨her, hstuck, own1, hg⟩
        exact ⟨her, own1, p, Filled.of_grown hg ht, hg.bytes ha ht _ p, hstuck, hp⟩
      rintro blk s1 ⟨hk, own1, hgot, rfl⟩
      have hg := hgot.grown
      have ha1 := hg.isRec ha
      have ht1 : fType s1.mem a ≠ 1 := by rwa [hg.fType ha]
      have hu : own1 (ptr s1.mem a (p / 4096)) = .data a (p / 4096) := by
        have := ((hg.inv.recOk a ha1).ptr _ hk hgot.there).1
        rwa [useOf, if_neg ht1] at this
      dsimp only
      rw [blkAt_eq]
      refine .bind (store_ok (hg.inv.here_ptr ha1 hk hgot.there) _ _ _) ?_
      intro _ s2 hst
      obtain ⟨hf, hb⟩ := bytes_of_stored hg.inv ha1 ht1 hk hgot.there (by omega) hst
      have hf2 : Filled L own own1 a s s2 := (Filled.of_grown hg ht).trans hf
      have hbytes : Bytes a (fun k => buf (i + k)) p (p + min (4096 - p % 4096) (fin - p)) s.mem s2.mem := by
        refine Bytes.trans (hg.bytes ha ht _ p) ?_ le_rfl (by omega)
        simpa using hb
      rw [toInt32_add (by omega)]
      refine (writeLoop_exact buf fin n _ _ hf2.inv (hf2.isRec ha) ((hf2.live ha).mpr hlive)
        (by rwa [hf2.fType ha]) (by omega) (by omega) (by rwa [hf2.fSize ha])).mono ?_ ?_
      · rintro _ s3 ⟨own3, hf3, hb3, hback, hw⟩
        refine ⟨own3, hf2.trans hf3, Bytes.trans hbytes ?_ (by omega) (by omega), ?_, ?_⟩
        · convert hb3 using 2
          congr 1
          omega
        · intro j h1 h2
          by_cases hj : j < p + min (4096 - p % 4096) (fin - p)
          · have hsame : ptr s2.mem a (p / 4096) = ptr s1.mem a (p / 4096) :=
              hf.ptr a ha1 _ hk hgot.there
            rw [show j / 4096 = p / 4096 by omega, hf3.ptr a (hf2.isRec ha) _ hk (hsame ▸ hgot.there), hsame]
            exact hgot.there
          · exact hback j (by omega) h2
        · refine (hgot.obtainable ha hk hp).mpr fun hlt => ?_
          have hnext : p + min (4096 - p % 4096) (fin - p) = (p / 4096 + 1) * 4096 := by omega
          rw [hnext] at hw
          exact (hst.obtainable hg.inv hu ha1).mp hw hlt
      · rintro e s3 ⟨her, own3, q, hf3, hb3, hstuck, hq⟩
        have hle := hstuck.le
        have hnext : p + min (4096 - p % 4096) (fin - p) = (p / 4096 + 1) * 4096 := by omega
        refine ⟨her, own3, q, hf2.trans hf3, Bytes.trans hbytes ?_ (by omega) (by omega), ?_, hq⟩
        · convert hb3 using 2
          congr 1
          omega
        · rw [hnext] at hstuck
          exact (hstuck.congr (hst.obtainable hg.inv hu ha1)).of_got hgot ha hk
    · rw [if_neg hp]
      exact .pure ⟨own, Filled.of_grown (.refl h) ht, Bytes.refl a _ _ (by omega), fun j h1 h2 => by omega,
        fun hc => by omega⟩

/-! ### Making a file longer -/

/-- The size of the file `a` is now `n`, and no block has changed hands. -/
structure Extended (L : Layout) (own : ℕ → Use) (a : Ptr) (n : ℤ) (s s' : FsSt) : Prop where
  edit : Edit L own own a s s'
  resized : Resized own a n s s'
  ptr : ∀ k < 1034, ptr s'.mem a k = ptr s.mem a k
  ind : fIndirect s'.mem a = fIndirect s.mem a
  free : freeBlocks s'.mem = freeBlocks s.mem

theorem Extended.refl (h : FInv L own s.mem) (ha : IsRec own a) : Extended L own a (fSize s.mem a) s s :=
  ⟨Edit.refl h, Resized.refl h ha, fun _ _ => rfl, rfl, rfl⟩

theorem Extended.obtainable {n : ℤ} (h : Extended L own a n s s') : Obtainable s'.mem a p q ↔ Obtainable s.mem a p q :=
  Obtainable.congr h.ptr h.ind h.free

theorem Extended.byteAt {n : ℤ} (h : Extended L own a n s s') (ha : IsRec own a) (hi : FInv L own s.mem)
    (ht : fType s.mem a ≠ 1) {i : ℕ} (hlt : i / 4096 < 1034) : byteAt s'.mem a i = byteAt s.mem a i := by
  unfold Fs.byteAt
  rw [h.ptr _ hlt]
  split_ifs with h0
  · rfl
  · have hu := ((hi.recOk a ha).ptr _ hlt h0).1
    rw [useOf, if_neg ht] at hu
    rw [h.resized.data _ _ _ hu]

variable (h : FInv L own s.mem)
include h

/-- A size stored that is no smaller. -/
theorem extended_of_stored (ha : IsRec own a) (hlive : Live s.mem a) {n : ℤ}
    (hle : fSize s.mem a ≤ n) (hn1 : n < 2 ^ 31) (hD : L.D → fType s.mem a = 1 → (4096 : ℤ) ∣ n)
    (hst : Stored a.blk (a.off + 128) 4 (bytes32 (ofInt32 n)) s s') : Extended L own a n s s' := by
  have h0 := (h.recOk a ha).size
  have hz : ∀ k < 1034, blocksUp n ≤ k → ptr s.mem a k = 0 := fun k hk hb =>
    h.ptr_past ha hk ((blocksUp_mono hle).trans hb)
  obtain ⟨hed, hres⟩ := resized_store h ha hlive (by omega) hn1 hD hz hst
  refine ⟨hed, hres, fun k hk => ?_, ?_, ?_⟩
  · rw [hres.ptr k hk]
    split_ifs with hb
    · rfl
    · exact (hz k hk (not_lt.mp hb)).symm
  · rw [fIndirect, hst.mem, update_self]
    exact le32_congr fun i hi => put32_out (by omega)
  · refine hst.freeBlocks h (ha.kept) fun hb => ?_
    have := h.rec_off ha hb
    omega

/-- `file_set_size` that does not cut the file. -/
theorem fileSetSize_longer (ha : IsRec own a) (hlive : Live s.mem a) {n : ℤ}
    (hle : fSize s.mem a ≤ n) (hn1 : n < 2 ^ 31) (hD : L.D → fType s.mem a = 1 → (4096 : ℤ) ∣ n) :
    Run (fileSetSize a n) s (fun _ s' => Extended L own a n s s') (fun _ _ => False) := by
  have hkept := ha.kept
  refine .getBind ?_
  rw [if_neg (not_lt.mpr hle)]
  refine .bind (store_ok (h.here_rec ha) _ _ _) fun _ s1 hst => ?_
  have hext := extended_of_stored h ha hlive hle hn1 hD hst
  have hhere := (h.here_rec ha).of_stored h hst hkept fun hb => by
    have := h.rec_off ha hb
    omega
  refine (flushBlock_ok hhere.1 hhere.2.1).mono (fun _ s2 hf => ?_) fun _ _ hc => hc
  have hJ := (hext.edit.inv.home hkept).1
  refine ⟨hext.edit.trans (Edit.of_flushed hext.edit.inv hf hJ), hext.resized.of_mem hf.mem, ?_, ?_, ?_⟩ <;> rw [hf.mem]
  exacts [hext.ptr, hext.ind, hext.free]

/-- `file_write` on a regular file. The size is set first; then the bytes are
stored up to the first block that cannot be had. -/
theorem fileWrite_exact (ha : InTree s.mem a) (ht : fType s.mem a ≠ 1) (buf : ℕ → UInt8)
    {count off : ℕ} (hlt : off + count < 2 ^ 31) :
    Run (fileWrite a buf count off) s
      (fun r s' => r = count ∧ Obtainable s.mem a off (off + count) ∧ Backed s'.mem a off (off + count) ∧
        ∃ s1 own', Extended L own a (max (fSize s.mem a) (off + count)) s s1 ∧ Filled L own own' a s1 s' ∧
          Bytes a buf off (off + count) s1.mem s'.mem)
      (fun e s' => (∃ er, e = .err er) ∧ ∃ q, Stuck s.mem a off q ∧ q < off + count ∧
        ∃ s1 own', Extended L own a (max (fSize s.mem a) (off + count)) s s1 ∧ Filled L own own' a s1 s' ∧
          Bytes a buf off q s1.mem s'.mem) := by
  have hr := h.isRec ha
  have hlive := h.live ha
  have hsz := (h.recOk a hr).size
  have hsz31 := fSize_lt s.mem a
  have hfin : ofInt32 ((off : ℤ) + (count : ℤ)) = off + count := by
    rw [ofInt32]
    omega
  have hword : ofInt32 (fSize s.mem a) = (fSize s.mem a).toNat := by
    rw [ofInt32]
    omega
  refine .getBind ?_
  dsimp only
  rw [hfin, hword]
  refine .iteBind (Q := fun _ s1 => Extended L own a (max (fSize s.mem a) (off + count)) s s1) ?_ ?_
  · split_ifs with hlong
    · rw [toInt32_of_lt hlt, max_eq_right (by omega)]
      refine (fileSetSize_longer h hr hlive (by omega) (by omega) (fun _ ht1 => absurd ht1 ht)).mono ?_ fun _ _ hc => hc.elim
      intro _ s1 hext
      simpa using hext
    · rw [max_eq_left (by omega)]
      exact .pure (Extended.refl h hr)
  -- the loop, once the file is long enough
  intro _ s1 hext
  have hlive1 : Live s1.mem a := by
    rw [Live, hext.resized.name 0 (by omega)]
    exact hlive
  refine .step (writeLoop_exact buf (off + count) count off 0 hext.edit.inv hr hlive1
    (by rwa [hext.resized.type]) (by omega) (by omega)
    (by rw [hext.resized.size]; push_cast; exact le_max_right _ _)) ?_ ?_
  · rintro e s' ⟨her, own', q, hf, hb, hstuck, hq⟩
    refine ⟨her, q, hstuck.congr hext.obtainable, hq, s1, own', hext, hf, ?_⟩
    simpa using hb
  · rintro _ s2 ⟨own2, hf, hb, hback, hw⟩
    refine .pure ⟨rfl, hext.obtainable.mp hw, hback, s1, own2, hext, hf, ?_⟩
    simpa using hb

/-- `file_write` on a regular file: the file is extended if it has to be, and
the bytes are there after. -/
theorem fileWrite_run (ha : InTree s.mem a) (ht : fType s.mem a ≠ 1) (buf : ℕ → UInt8)
    {count off : ℕ} (hlt : off + count < 2 ^ 31) :
    Run (fileWrite a buf count off) s
      (fun r s' => r = count ∧ ∃ own1 s1 own', Edit L own own1 a s s1 ∧
        Resized own1 a (max (fSize s.mem a) (off + count)) s s1 ∧ Filled L own1 own' a s1 s' ∧
        Bytes a buf off (off + count) s1.mem s'.mem)
      (fun e s' => (∃ er, e = .err er) ∧ ∃ own1 s1 own', Edit L own own1 a s s1 ∧
        Resized own1 a (max (fSize s.mem a) (off + count)) s s1 ∧ Filled L own1 own' a s1 s') := by
  refine (fileWrite_exact h ha ht buf hlt).mono ?_ ?_
  · rintro r s' ⟨hr, -, -, s1, own', hext, hf, hb⟩
    exact ⟨hr, own, s1, own', hext.edit, hext.resized, hf, hb⟩
  · rintro e s' ⟨her, q, -, -, s1, own', hext, hf, -⟩
    exact ⟨her, own, s1, own', hext.edit, hext.resized, hf⟩

theorem fileWrite_moved {f : Ptr} (hf : InTree s.mem f) (ht : fType s.mem f ≠ 1)
    (buf : ℕ → UInt8) {count off : ℕ} (hlt : off + count < 2 ^ 31) :
    Run (fileWrite f buf count off) s (fun _ s' => ∃ own', Moved L own own' s s')
      (fun e s' => Panics L s e s' ∨ ∃ er own', e = .err er ∧ Moved L own own' s s') := by
  refine (fileWrite_run h hf ht buf hlt).mono ?_ ?_
  · rintro _ s' ⟨-, own1, s1, own', h1, -, h2, -⟩
    exact ⟨own', h1.moved.trans h2.moved⟩
  · rintro e s' ⟨⟨er, rfl⟩, own1, s1, own', h1, -, h2⟩
    exact .inr ⟨er, own', rfl, h1.moved.trans h2.moved⟩

end

end Fs
end Jos
