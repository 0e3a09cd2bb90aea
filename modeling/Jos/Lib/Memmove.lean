/-
# memmove

`memmove` of lib/string.c twice: the version with `rep movsb` and `rep movsl`,
and the byte loops that stand in for it without assembly. A range that would be
overwritten before it is read is copied from its end down.

Copying up is right when the destination does not start inside the source,
copying down when it does not start below it (`copy_up`, `copy_down`), for
elements of any width: an element is read whole before it is stored, and a store
only reaches elements that have been read. So no path depends on how the ranges
overlap, and all of them leave the same memory (`memmove_copies`).

Key definitions: `copy`, `memmove`, `memmoveBytes`.
-/
import Jos.Base.Bytes

namespace Jos
namespace Lib
namespace Memmove

/-- Addresses are below it. -/
abbrev SPACE : ℕ := 2 ^ 32

/-- The pointer `p`, `off` bytes on. Pointers wrap around. -/
def inc (p off : ℕ) : ℕ := (p + off) % SPACE

/-- The pointer `p`, `off` bytes back. -/
def dec (p off : ℕ) : ℕ := (p + (SPACE - off)) % SPACE

/-- `cnt` elements of `w` bytes from `s` to `d`, up or down the memory: what `rep movsb` (`w = 1`)
and `rep movsl` (`w = 4`) do with the direction flag clear or set, and what a loop of byte
assignments does. -/
def copy (down : Bool) (w d s : ℕ) : ℕ → Block → Block
  | 0, m => m
  | k + 1, m =>
    let m' := copy down w d s k m
    let at' := fun p => if down then dec p (w * k) else inc p (w * k)
    m'.write (at' d) w fun i => m' (at' s + i)

/-- The source overlaps the destination from below. -/
def Below (d s n : ℕ) : Prop := s < d ∧ d < inc s n

instance (d s n : ℕ) : Decidable (Below d s n) := inferInstanceAs (Decidable (_ ∧ _))

def memmove (dst src n : ℕ) (m : Block) : Block :=
  if Below dst src n then
    let s := inc src n
    let d := inc dst n
    if s % 4 = 0 ∧ d % 4 = 0 ∧ n % 4 = 0 then copy true 4 (dec d 4) (dec s 4) (n / 4) m
    else copy true 1 (dec d 1) (dec s 1) n m
  else if src % 4 = 0 ∧ dst % 4 = 0 ∧ n % 4 = 0 then copy false 4 dst src (n / 4) m
  else copy false 1 dst src n m

/-- The version without assembly. -/
def memmoveBytes (dst src n : ℕ) (m : Block) : Block :=
  if Below dst src n then copy true 1 (dec (inc dst n) 1) (dec (inc src n) 1) n m
  else copy false 1 dst src n m

variable {w d s n cnt : ℕ} {m : Block}

/-- A range written in two parts, the lower one first or last. -/
theorem write_parts {a j k : ℕ} {f g h : ℕ → UInt8} (hf : ∀ i < j, f i = h i) (hg : ∀ i < k, g i = h (j + i)) :
    (m.write a j f).write (a + j) k g = m.write a (j + k) h ∧
      (m.write (a + j) k g).write a j f = m.write a (j + k) h := by
  have hlow : ∀ b, a ≤ b → b < a + j → f (b - a) = h (b - a) := fun b _ _ => hf _ (by omega)
  have hhigh : ∀ b, a + j ≤ b → b < a + j + k → g (b - (a + j)) = h (b - a) := fun b _ _ =>
    (hg _ (by omega)).trans (congrArg h (by omega))
  constructor <;> funext b <;> simp only [Block.write] <;> split_ifs
  all_goals first | rfl | exact hlow b (by omega) (by omega) | exact hhigh b (by omega) (by omega) | omega

/-- Up: the destination starts at the source, below it, or past its end. -/
theorem copy_up (hw : 0 < w) (hover : d ≤ s ∨ s + w * cnt ≤ d) (hd : d + w * cnt ≤ SPACE) (hs : s + w * cnt ≤ SPACE) :
    copy false w d s cnt m = m.write d (w * cnt) fun i => m (s + i) := by
  induction cnt with
  | zero => exact (Block.write_zero m d _).symm
  | succ k ih =>
    rw [Nat.mul_succ] at *
    rw [copy, ih (by omega) (by omega) (by omega)]
    simp only [Bool.false_eq_true, if_false, inc, Nat.mod_eq_of_lt (show d + w * k < SPACE by omega),
      Nat.mod_eq_of_lt (show s + w * k < SPACE by omega)]
    refine (write_parts (fun _ _ => rfl) fun i hi => ?_).1
    -- what was stored ends below the bytes read now, or starts past the source
    rw [Block.write_out (by omega), Nat.add_assoc]

/-- Down, the last `k` elements: the destination starts at the source or above it. -/
theorem copy_down (hw : 0 < w) (hover : s ≤ d) (hd : d + w * cnt ≤ SPACE) :
    ∀ k ≤ cnt, copy true w (dec (inc d (w * cnt)) w) (dec (inc s (w * cnt)) w) k m =
      m.write (d + w * (cnt - k)) (w * k) fun i => m (s + w * (cnt - k) + i) := by
  intro k
  induction k with
  | zero => exact fun _ => (Block.write_zero m _ _).symm
  | succ k ih =>
    intro hk
    obtain ⟨j, rfl⟩ := Nat.exists_eq_add_of_le hk
    rw [show k + 1 + j - k = j + 1 by omega] at ih
    rw [show k + 1 + j - (k + 1) = j by omega]
    have hcnt : w * (k + 1 + j) = w * k + w + w * j := by ring
    have hat : ∀ p, p + w * (k + 1 + j) ≤ SPACE → dec (dec (inc p (w * (k + 1 + j))) w) (w * k) = p + w * j := by
      intro p hp
      simp only [hcnt, dec, inc, SPACE] at *
      omega
    rw [copy, ih (by omega), Nat.mul_succ, Nat.mul_succ, Nat.add_comm (w * k) w, ← Nat.add_assoc d]
    simp only [if_true, hat d hd, hat s (by omega)]
    refine (write_parts (fun i hi => ?_) fun i _ => by rw [← Nat.add_assoc, ← Nat.add_assoc]).2
    exact Block.write_out (by omega)

/-- Either way, in elements of `w` bytes. -/
theorem path_copies (w cnt : ℕ) (hw : 0 < w) (hd : d + w * cnt ≤ SPACE) (hs : s + w * cnt ≤ SPACE) :
    (if Below d s (w * cnt) then copy true w (dec (inc d (w * cnt)) w) (dec (inc s (w * cnt)) w) cnt m
      else copy false w d s cnt m) = m.write d (w * cnt) fun i => m (s + i) := by
  split
  case isTrue h => simpa using copy_down (m := m) hw h.1.le hd cnt le_rfl
  case isFalse h =>
    -- a source that ends at the end of the address space has its end at 0, but no range starts inside it
    refine copy_up hw ?_ hd hs
    simp only [Below, inc, SPACE] at *
    omega

theorem memmoveBytes_eq (hd : d + n ≤ SPACE) (hs : s + n ≤ SPACE) :
    memmoveBytes d s n m = m.write d n fun i => m (s + i) := by
  simpa [memmoveBytes] using path_copies (m := m) 1 n Nat.one_pos (by omega) (by omega)

theorem memmove_eq (hd : d + n ≤ SPACE) (hs : s + n ≤ SPACE) :
    memmove d s n m = m.write d n fun i => m (s + i) := by
  have hbytes := memmoveBytes_eq (m := m) hd hs
  unfold memmoveBytes at hbytes
  unfold memmove
  dsimp only
  by_cases h4 : n % 4 = 0
  · have hwords := path_copies (m := m) (d := d) (s := s) 4 (n / 4) (by omega) (by omega) (by omega)
    rw [show 4 * (n / 4) = n by omega] at hwords
    split_ifs at hbytes hwords ⊢ <;> assumption
  · simpa only [h4, and_false, if_false] using hbytes

/-- For all ranges that do not wrap around, `memmove` copies: the destination has the bytes the
source had, and every other byte is as before. The byte loops leave the same memory. -/
theorem memmove_copies (m : Block) (dst src n : ℕ) (hd : dst + n ≤ SPACE) (hs : src + n ≤ SPACE) :
    (∀ i < n, memmove dst src n m (dst + i) = m (src + i)) ∧
      (∀ a, a < dst ∨ dst + n ≤ a → memmove dst src n m a = m a) ∧
      memmove dst src n m = memmoveBytes dst src n m := by
  rw [memmoveBytes_eq hd hs, memmove_eq hd hs]
  refine ⟨fun i hi => ?_, fun a ha => Block.write_out ha, rfl⟩
  rw [Block.write_in (by omega) (by omega), Nat.add_sub_cancel_left]

/-- Four bytes up by one: each byte is copied once. -/
theorem memmove_copies_overlap : memmove 1 0 4 (fun a => UInt8.ofNat a) 4 = 3 :=
  (memmove_copies (fun a => UInt8.ofNat a) 1 0 4 (by decide) (by decide)).1 3 (by decide)

end Memmove
end Lib
end Jos
