/-
# Blocks of bytes, little-endian words and 32-bit integers

A block is its bytes, indexed from 0. Everything a program stores into one is
a `write` of a range; a 32-bit word is four bytes, low byte first (`le32`,
`put32`). What a proof needs of a write is where it is not: a byte, or a word,
outside the range reads as before (`write_out`, `le32_write_out`), and the word
written reads back (`le32_put32`).

Key definitions: `Block.write`, `Block.le32`, `Block.put32`, `toInt32`, `ofInt32`.
-/
import Mathlib.Tactic.Ring
import Mathlib.Tactic.Linarith
import Mathlib.Logic.Function.Basic
import Mathlib.Data.Nat.Bitwise

namespace Jos

/-- The bytes of a block of memory or of a disk. -/
abbrev Block := ℕ → UInt8

namespace Block

/-- `n` bytes of `src` over the bytes from `off` on. -/
def write (d : Block) (off n : ℕ) (src : ℕ → UInt8) : Block :=
  fun i => if off ≤ i ∧ i < off + n then src (i - off) else d i

/-- The 32-bit word at `off`, low byte first. -/
def le32 (d : Block) (off : ℕ) : ℕ :=
  (d off).toNat + 2 ^ 8 * (d (off + 1)).toNat + 2 ^ 16 * (d (off + 2)).toNat +
    2 ^ 24 * (d (off + 3)).toNat

/-- The bytes of a 32-bit word. -/
def bytes32 (v i : ℕ) : UInt8 := UInt8.ofNat (v / 256 ^ i)

/-- A 32-bit word stored at `off`. -/
def put32 (d : Block) (off v : ℕ) : Block := d.write off 4 (bytes32 v)

theorem write_in {d : Block} {off n i : ℕ} {src : ℕ → UInt8} (h1 : off ≤ i) (h2 : i < off + n) :
    d.write off n src i = src (i - off) := if_pos ⟨h1, h2⟩

theorem write_out {d : Block} {off n i : ℕ} {src : ℕ → UInt8} (h : i < off ∨ off + n ≤ i) :
    d.write off n src i = d i := if_neg (by omega)

theorem write_zero (d : Block) (off : ℕ) (src : ℕ → UInt8) : d.write off 0 src = d := by
  funext i
  exact write_out (by omega)

theorem put32_out {d : Block} {off v i : ℕ} (h : i < off ∨ off + 4 ≤ i) : d.put32 off v i = d i :=
  write_out h

/-- A word depends on its four bytes only. -/
theorem le32_congr {d d' : Block} {o o' : ℕ} (h : ∀ i < 4, d (o + i) = d' (o' + i)) :
    d.le32 o = d'.le32 o' := by
  have h0 := h 0 (by omega)
  have h1 := h 1 (by omega)
  have h2 := h 2 (by omega)
  have h3 := h 3 (by omega)
  simp only [Nat.add_zero] at h0
  simp only [le32, h0, h1, h2, h3]

theorem le32_lt (d : Block) (o : ℕ) : d.le32 o < 2 ^ 32 := by
  have h0 := (d o).toNat_lt
  have h1 := (d (o + 1)).toNat_lt
  have h2 := (d (o + 2)).toNat_lt
  have h3 := (d (o + 3)).toNat_lt
  simp only [le32]
  omega

/-- A word outside the range written reads as before. -/
theorem le32_write_out {d : Block} {off n o : ℕ} {src : ℕ → UInt8} (h : o + 4 ≤ off ∨ off + n ≤ o) :
    (d.write off n src).le32 o = d.le32 o :=
  le32_congr fun i hi => write_out (by omega)

/-- A word inside the range written is a word of the source. -/
theorem le32_write_in {d : Block} {off n o : ℕ} {src : ℕ → UInt8} (h1 : off ≤ o) (h2 : o + 4 ≤ off + n) :
    (d.write off n src).le32 o = le32 src (o - off) := by
  refine le32_congr fun i hi => ?_
  rw [write_in (by omega) (by omega)]
  congr 1
  omega

theorem le32_bytes32 (v : ℕ) : le32 (bytes32 v) 0 = v % 2 ^ 32 := by
  simp only [le32, bytes32, UInt8.toNat_ofNat']
  omega

/-- The word written reads back. -/
theorem le32_put32 (d : Block) (off v : ℕ) : (d.put32 off v).le32 off = v % 2 ^ 32 := by
  rw [put32, le32_write_in le_rfl le_rfl, Nat.sub_self, le32_bytes32]

/-- A word stored where it was read. -/
theorem put32_le32 (d : Block) (off : ℕ) : d.put32 off (d.le32 off) = d := by
  funext i
  by_cases hi : off ≤ i ∧ i < off + 4
  · rw [put32, write_in hi.1 hi.2]
    obtain ⟨j, rfl⟩ := Nat.exists_eq_add_of_le hi.1
    rw [Nat.add_sub_cancel_left, ← UInt8.toNat_inj, bytes32, UInt8.toNat_ofNat']
    have h0 := (d off).toNat_lt
    have h1 := (d (off + 1)).toNat_lt
    have h2 := (d (off + 2)).toNat_lt
    have h3 := (d (off + 3)).toNat_lt
    unfold le32
    obtain rfl | rfl | rfl | rfl : j = 0 ∨ j = 1 ∨ j = 2 ∨ j = 3 := by omega
    all_goals
      norm_num
      omega
  · exact put32_out (by omega)

theorem le32_put32_out {d : Block} {off v o : ℕ} (h : o + 4 ≤ off ∨ off + 4 ≤ o) :
    (d.put32 off v).le32 o = d.le32 o := le32_write_out h

/-- 32-bit words stored from `off` on. -/
def put32s (d : Block) (off : ℕ) : List ℕ → Block
  | [] => d
  | v :: vs => (d.put32 off v).put32s (off + 4) vs

theorem put32s_out : ∀ {vs : List ℕ} {d : Block} {off i : ℕ}, i < off ∨ off + 4 * vs.length ≤ i → d.put32s off vs i = d i
  | [], _, _, _, _ => rfl
  | v :: vs, d, off, i, h => by
    rw [List.length_cons] at h
    have hrest : (d.put32 off v).put32s (off + 4) vs i = d.put32 off v i := put32s_out (by omega)
    exact hrest.trans (put32_out (by omega))

/-- Each of the words reads back. -/
theorem le32_put32s : ∀ {vs : List ℕ} {d : Block} {off i : ℕ} (h : i < vs.length),
    (d.put32s off vs).le32 (off + 4 * i) = vs[i] % 2 ^ 32
  | v :: vs, d, off, 0, _ => by
    have hout : ((d.put32 off v).put32s (off + 4) vs).le32 off = (d.put32 off v).le32 off :=
      le32_congr fun i hi => put32s_out (by omega)
    exact hout.trans (le32_put32 d off v)
  | v :: vs, d, off, i + 1, h => by
    have hlt : i < vs.length := by simpa using h
    have hrest : ((d.put32 off v).put32s (off + 4) vs).le32 (off + 4 + 4 * i) = vs[i] % 2 ^ 32 := le32_put32s hlt
    rw [show off + 4 * (i + 1) = off + 4 + 4 * i by omega]
    exact hrest

/-- The block of zeros. -/
def zero : Block := fun _ => 0

theorem le32_zero (o : ℕ) : le32 zero o = 0 := by simp [le32, zero]

end Block

/-! ### 32-bit integers

A word is a natural number below `2 ^ 32`; `toInt32` reads it as a signed
integer and `ofInt32` is the conversion back, modulo `2 ^ 32`. -/

/-- The word `w` as a signed integer. -/
def toInt32 (w : ℕ) : ℤ := if w < 2 ^ 31 then w else (w : ℤ) - 2 ^ 32

/-- An integer as a 32-bit word. -/
def ofInt32 (z : ℤ) : ℕ := (z % 2 ^ 32).toNat

theorem ofInt32_lt (z : ℤ) : ofInt32 z < 2 ^ 32 := by
  unfold ofInt32
  omega

theorem ofInt32_natCast {n : ℕ} (h : n < 2 ^ 32) : ofInt32 (n : ℤ) = n := by
  unfold ofInt32
  omega

theorem toInt32_ofInt32 {z : ℤ} (h1 : -2 ^ 31 ≤ z) (h2 : z < 2 ^ 31) : toInt32 (ofInt32 z) = z := by
  unfold toInt32 ofInt32
  split_ifs <;> omega

theorem toInt32_of_lt {w : ℕ} (h : w < 2 ^ 31) : toInt32 w = w := if_pos h

end Jos
