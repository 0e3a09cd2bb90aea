/-
# Numbers in formatted output

`lib/printfmt.c` as the kernel and the programs use it: `vprintfmt` reads the
format, and its conversions put characters; `printnum` puts the digits of a
number, most significant first, behind what it is padded with. `strtol` of
`lib/string.c` reads a number back.

The types `int` and `long` are integers that go round at 32 bits (`int32`). The
text is the list of the characters put. The memory that `%s` reads gives a
character or a page fault, and the addresses read are kept.

* `printnum_positional_iff`: what `printnum` puts is the number in positional
  notation behind the padding, unless the width falls below the least `int`.
* `reads_back_iff`: `%wd` and `%0wd` put a text that `strtol` reads back and that
  is as long as it has to be, unless the number is negative and narrower than
  `w`: the sign is put before the padding, and is not counted.

Key definitions: `printnum`, `strtol`, `vprintfmt`, `Numeral`, `Positional`, `ReadsBack`.
Key theorems: `printnum_eq`, `strtolDigits_digits`, `vprintfmt_d`.
-/
import Mathlib.Data.Nat.Digits.Lemmas
import Jos.Base.Run

namespace Jos
namespace Lib
namespace Fmt

/-- A value of type `int` or `long`. -/
def int32 (v : ℤ) : ℤ := v.bmod (2 ^ 32)

/-! ### Numbers -/

/-- `"0123456789abcdef"[d]`. -/
def digit (d : ℕ) : Char :=
  ['0', '1', '2', '3', '4', '5', '6', '7', '8', '9', 'a', 'b', 'c', 'd', 'e', 'f'].getD d '0'

/-- The digits of `num`, padded to `width` before the first. -/
def printnum (base : ℕ) (hb : 1 < base) (num : ℕ) (width : ℤ) (padc : Char) : List Char :=
  (if h : base ≤ num then printnum base hb (num / base) (int32 (width - 1)) padc
    -- while (--width > 0)
    else List.replicate (int32 (width - 1)).toNat padc) ++
  [digit (num % base)]
termination_by num
decreasing_by exact Nat.div_lt_self (by omega) hb

/-- What a character is worth as a digit. -/
def digitVal (c : Char) : Option ℕ :=
  if '0' ≤ c ∧ c ≤ '9' then some (c.toNat - '0'.toNat)
  else if 'a' ≤ c ∧ c ≤ 'z' then some (c.toNat - 'a'.toNat + 10)
  else if 'A' ≤ c ∧ c ≤ 'Z' then some (c.toNat - 'A'.toNat + 10)
  else none

/-- The loop over the digits: the value, and where it stops. -/
def strtolDigits (base : ℕ) : List Char → ℤ → ℤ × List Char
  | [], val => (val, [])
  | c :: s, val =>
    match digitVal c with
    | none => (val, c :: s)
    | some dig => if base ≤ dig then (val, c :: s) else strtolDigits base s (int32 (val * base + dig))

def strtolSign : List Char → Bool × List Char
  | [] => (false, [])
  | c :: s => if c = '+' then (false, s) else if c = '-' then (true, s) else (false, c :: s)

/-- The prefix of a hexadecimal or octal number. -/
def strtolBase (base : ℕ) (s : List Char) : ℕ × List Char :=
  if (base = 0 ∨ base = 16) ∧ s.take 2 = ['0', 'x'] then (16, s.drop 2)
  else if base = 0 ∧ s.head? = some '0' then (8, s.tail)
  else if base = 0 then (10, s)
  else (base, s)

/-- The number at the start of `s`, and what is left of `s` (`endptr`). -/
def strtol (s : List Char) (base : ℕ) : ℤ × List Char :=
  let sign := strtolSign (s.dropWhile fun c => c = ' ' || c = '\t')
  let b := strtolBase base sign.2
  let r := strtolDigits b.1 b.2 0
  (if sign.1 then int32 (-r.1) else r.1, r.2)

/-! ### The format -/

/-- The flags of a conversion. -/
structure Spec where
  padc : Char := ' '
  width : ℤ := -1
  precision : ℤ := -1
  lflag : ℕ := 0
  altflag : Bool := false

/-- `process_precision`: the first number is the width. -/
def Spec.process (f : Spec) (precision : ℤ) : Spec :=
  if f.width < 0 then { f with width := precision, precision := -1 } else { f with precision := precision }

theorem strtolDigits_length (base : ℕ) : ∀ (s : List Char) (v : ℤ), (strtolDigits base s v).2.length ≤ s.length
  | [], _ => le_rfl
  | c :: s, v => by
    unfold strtolDigits
    split
    · exact le_rfl
    · split_ifs
      · exact le_rfl
      · exact (strtolDigits_length base s _).trans (Nat.le_succ _)

/-- What follows a `%`: the flags, the arguments that are left, the conversion if
there is one, and what follows it. The arguments are words. -/
def escape (fmt : List Char) (ap : List ℕ) (f : Spec) : Spec × List ℕ × Option (Char × List Char) :=
  match fmt with
  | [] => (f, ap, none)
  | ch :: fmt =>
    if ch = '-' then escape fmt ap { f with padc := '-' }
    else if ch = '0' then escape fmt ap { f with padc := '0' }
    else if '1' ≤ ch ∧ ch ≤ '9' then
      -- a letter is worth at least ten, so the loop takes the decimal digits
      escape (strtolDigits 10 fmt (ch.toNat - '0'.toNat)).2 ap
        (f.process (strtolDigits 10 fmt (ch.toNat - '0'.toNat)).1)
    else if ch = '*' then escape fmt ap.tail (f.process (int32 (ap.headD 0)))
    else if ch = '.' then escape fmt ap { f with width := if f.width < 0 then 0 else f.width }
    else if ch = '#' then escape fmt ap { f with altflag := true }
    else if ch = 'l' then escape fmt ap { f with lflag := f.lflag + 1 }
    else (f, ap, some (ch, fmt))
termination_by fmt.length
decreasing_by all_goals grind [strtolDigits_length]

/-- Why a call does not return. -/
inductive Stop
  | fault
  | endless

/-- The characters put, and the addresses read. -/
structure Out where
  text : List Char
  reads : List ℕ

abbrev PrM := EStateM Stop Out

def puts (l : List Char) : PrM Unit := modify fun o => { o with text := o.text ++ l }

def NUL : Char := Char.ofNat 0

section
variable (mem : ℕ → Option Char)

def load (a : ℕ) : PrM Char := do
  modify fun o => { o with reads := o.reads ++ [a] }
  match mem a with
  | some c => pure c
  | none => throw .fault

def strnlen : (size s : ℕ) → PrM ℕ
  | 0, _ => pure 0
  | size + 1, s => do
    if (← load mem s) = NUL then pure 0
    else
      let n ← strnlen size ((s + 1) % 2 ^ 32)
      pure (n + 1)

/-- The loop of `%s` that puts the string, and how many characters it puts. After
`n` characters, the whole address space, it goes on for ever. -/
def strLoop (altflag : Bool) : (n p : ℕ) → (precision : ℤ) → PrM ℕ
  | 0, _, _ => throw .endless
  | n + 1, p, precision => do
    let ch ← load mem p
    -- (ch = *p++) != '\0' && (precision < 0 || --precision >= 0)
    if ch ≠ NUL ∧ (precision < 0 ∨ 0 ≤ precision - 1) then
      puts [if altflag && (ch < ' ' || '~' < ch) then '?' else ch]
      let k ← strLoop altflag n ((p + 1) % 2 ^ 32) (if precision < 0 then precision else precision - 1)
      pure (k + 1)
    else pure 0

/-- The conversion `%s` of the string at `p`. -/
def printString (f : Spec) (p : ℕ) : PrM Unit := do
  let width ← if 0 < f.width ∧ f.padc ≠ '-' then do
      let n ← strnlen mem (f.precision % 2 ^ 32).toNat p
      puts (List.replicate (f.width - n).toNat f.padc)
      pure (min (f.width - n) 0)
    else pure f.width
  let n ← strLoop mem f.altflag (2 ^ 32) p f.precision
  puts (List.replicate (width - n).toNat ' ')

/-- `"(null)"`. -/
def nullText (i : ℕ) : Option Char := ['(', 'n', 'u', 'l', 'l', ')', NUL][i]?

end

/-- An argument of a conversion to an unsigned number, and the arguments left. -/
def getuint (ap : List ℕ) (lflag : ℕ) : ℕ × List ℕ :=
  if 2 ≤ lflag then (ap.headD 0 + 2 ^ 32 * ap.tail.headD 0, ap.tail.tail) else (ap.headD 0, ap.tail)

def getint (ap : List ℕ) (lflag : ℕ) : ℤ × List ℕ :=
  if 2 ≤ lflag then (((getuint ap lflag).1 : ℤ).bmod (2 ^ 64), ap.tail.tail)
  else (int32 (ap.headD 0), ap.tail)

/-- `%d` of `num`. -/
def printInt (f : Spec) (num : ℤ) : PrM Unit := do
  if num < 0 then puts ['-']
  puts (printnum 10 (by decide) num.natAbs f.width f.padc)

def errorString : List String :=
  ["unspecified error", "bad environment", "invalid parameter", "out of memory", "out of environments",
    "segmentation fault", "env is not recving", "unexpected end of file", "no free space on disk",
    "too many files are open", "file or block not found", "invalid path", "file already exists",
    "file is not a valid executable", "operation not supported", "no buffer space available", "no data available",
    "device or resource busy"]

/-- `%e`: the text for an error, or its number. -/
def printError (err : ℤ) : PrM Unit :=
  let err := if err < 0 then int32 (-err) else err
  -- the least int stays negative, and the table is read below its start
  if err < 0 then throw .fault
  else
    match err.toNat, errorString[err.toNat - 1]? with
    | _ + 1, some msg => puts msg.toList
    | _, _ => do
      puts "error ".toList
      printInt {} err

/-- The conversion `ch`, and the arguments left; nothing if there is no such
conversion. -/
def convert (mem : ℕ → Option Char) (f : Spec) (ap : List ℕ) (ch : Char) : PrM (Option (List ℕ)) := do
  if ch = 'c' then
    puts [Char.ofNat (ap.headD 0 % 256)]
    pure (some ap.tail)
  else if ch = 'e' then
    printError (int32 (ap.headD 0))
    pure (some ap.tail)
  else if ch = 's' then
    if ap.headD 0 = 0 then
      let o ← get
      printString nullText f 0
      -- the literal is no memory of the caller
      modify fun o' => { o' with reads := o.reads }
    else printString mem f (ap.headD 0)
    pure (some ap.tail)
  else if ch = 'd' then
    printInt f (getint ap f.lflag).1
    pure (some (getint ap f.lflag).2)
  else if ch = 'u' then
    puts (printnum 10 (by decide) (getuint ap f.lflag).1 f.width f.padc)
    pure (some (getuint ap f.lflag).2)
  else if ch = 'o' then
    puts (printnum 8 (by decide) (getuint ap f.lflag).1 f.width f.padc)
    pure (some (getuint ap f.lflag).2)
  else if ch = 'p' then
    puts ['0', 'x']
    puts (printnum 16 (by decide) (ap.headD 0) f.width f.padc)
    pure (some ap.tail)
  else if ch = 'x' then
    puts (printnum 16 (by decide) (getuint ap f.lflag).1 f.width f.padc)
    pure (some (getuint ap f.lflag).2)
  else if ch = '%' then
    puts ['%']
    pure (some ap)
  else pure none

/-- `vprintfmt` in at most `n` turns of its loop. -/
def turns (mem : ℕ → Option Char) : (n : ℕ) → List Char → List ℕ → PrM Unit
  | 0, _, _ => throw .endless
  | _ + 1, [], _ => pure ()
  | n + 1, ch :: fmt, ap =>
    if ch ≠ '%' then do
      puts [ch]
      turns mem n fmt ap
    else
      -- what is no conversion is put as it stands
      match escape fmt ap {} with
      | (_, ap, none) => do
        puts ['%']
        turns mem n fmt ap
      | (f, ap, some (ch, rest)) => do
        match ← convert mem f ap ch with
        | some ap => turns mem n rest ap
        | none =>
          puts ['%']
          turns mem n fmt ap

/-- A turn takes a character of the format, so there are no more of them. -/
def vprintfmt (mem : ℕ → Option Char) (fmt : List Char) (ap : List ℕ) : PrM Unit := turns mem (fmt.length + 1) fmt ap

/-! ### Positional notation -/

/-- `ds` is `num` in base `base`, most significant digit first, without leading zeros. -/
structure Numeral (base num : ℕ) (ds : List ℕ) : Prop where
  ne : ds ≠ []
  lt : ∀ d ∈ ds, d < base
  value : Nat.ofDigits base ds.reverse = num
  head : ds = [0] ∨ ds.head? ≠ some 0

/-- The digits of `num`. -/
def numeral (base num : ℕ) : List ℕ := if num = 0 then [0] else (Nat.digits base num).reverse

section
variable {base num : ℕ} {ds : List ℕ}

theorem numeral_lt (h : num < base) : numeral base num = [num] := by
  unfold numeral
  split_ifs with h0
  · rw [h0]
  · rw [Nat.digits_of_lt base num h0 h, List.reverse_singleton]

theorem numeral_le (hb : 1 < base) (h : base ≤ num) :
    numeral base num = numeral base (num / base) ++ [num % base] := by
  have hdiv : num / base ≠ 0 := (Nat.div_pos h (by omega)).ne'
  rw [numeral, if_neg (by omega), Nat.digits_def' hb (by omega), List.reverse_cons, numeral, if_neg hdiv]

/-- The digits are the only ones. -/
theorem numeral_iff (hb : 1 < base) : Numeral base num ds ↔ ds = numeral base num := by
  constructor
  · rintro ⟨hne, hlt, hval, hd⟩
    rcases hd with rfl | hhead
    · rw [← hval]
      exact (numeral_lt (by simpa using Nat.zero_lt_of_lt hb)).symm
    · have hdig := Nat.digits_ofDigits base hb ds.reverse (by simpa using hlt) fun h => by
        rw [List.getLast_reverse]
        intro h0
        exact hhead (by rw [List.head?_eq_some_head hne, h0])
      rw [hval] at hdig
      have hnum : num ≠ 0 := by
        rintro rfl
        rw [Nat.digits_zero] at hdig
        exact hne (List.reverse_eq_nil_iff.mp hdig.symm)
      rw [numeral, if_neg hnum, hdig, List.reverse_reverse]
  · rintro rfl
    unfold numeral
    split_ifs with h0
    · exact ⟨by simp, by simp; omega, by simp [h0], .inl rfl⟩
    · refine ⟨by simpa using Nat.digits_ne_nil_iff_ne_zero.mpr h0, fun d hd => ?_, ?_, Or.inr fun hh => ?_⟩
      · exact Nat.digits_lt_base hb (List.mem_reverse.mp hd)
      · rw [List.reverse_reverse, Nat.ofDigits_digits]
      · rw [List.head?_reverse] at hh
        rw [List.getLast?_eq_some_getLast (Nat.digits_ne_nil_iff_ne_zero.mpr h0)] at hh
        exact Nat.getLast_digit_ne_zero base h0 (Option.some.inj hh)

/-- What `printnum` puts. -/
theorem printnum_eq (hb : 1 < base) (padc : Char) : ∀ (num : ℕ) (width : ℤ),
    printnum base hb num width padc =
      List.replicate (int32 (width - (numeral base num).length)).toNat padc ++ (numeral base num).map digit := by
  intro num
  induction num using Nat.strong_induction_on with
  | _ num ih =>
    intro width
    rw [printnum]
    split_ifs with h
    · rw [ih _ (Nat.div_lt_self (by omega) hb), numeral_le hb h, List.map_append, List.map_singleton, List.append_assoc,
        List.length_append, List.length_singleton]
      congr 3
      unfold int32
      rw [Int.bmod_sub_bmod, Int.sub_sub]
      congr 2
      push_cast
      ring
    · rw [numeral_lt (by omega), Nat.mod_eq_of_lt (by omega)]
      rfl

theorem int32_eq (v : ℤ) : int32 v = if v % 2 ^ 32 < 2 ^ 31 then v % 2 ^ 32 else v % 2 ^ 32 - 2 ^ 32 := rfl

theorem int32_of_lt {v : ℤ} (h0 : -2 ^ 31 ≤ v) (h1 : v < 2 ^ 31) : int32 v = v := by
  rw [int32_eq]
  split_ifs <;> omega

/-! ### Reading -/

theorem digitVal_digit : ∀ d < 16, digitVal (digit d) = some d := by decide

/-- A digit is no sign, no space and no part of a prefix. -/
theorem digit_plain : ∀ d < 16,
    ((digit d = ' ' || digit d = '\t') = false) ∧ digit d ≠ '+' ∧ digit d ≠ '-' ∧ digit d ≠ 'x' := by
  decide

/-- The loop over the digits reads what they are worth, up to what is no digit. -/
theorem strtolDigits_append (hb : base ≤ 16) {rest : List Char} (hrest : ∀ v, strtolDigits base rest v = (v, rest)) :
    ∀ (ds : List ℕ) (v : ℤ), (∀ d ∈ ds, d < base) → strtolDigits base (ds.map digit ++ rest) (int32 v) =
      (int32 (ds.foldl (fun (a : ℤ) (d : ℕ) => d + base * a) v), rest)
  | [], v, _ => hrest _
  | d :: ds, v, hlt => by
    have hd := hlt d List.mem_cons_self
    have hstep : int32 (int32 v * base + d) = int32 (d + base * v) := by
      unfold int32
      rw [← Int.bmod_add_bmod, Int.bmod_mul_bmod, Int.bmod_add_bmod]
      congr 1
      ring
    rw [List.map_cons, List.cons_append, strtolDigits, digitVal_digit d (by omega)]
    dsimp only
    rw [if_neg (by omega), hstep, strtolDigits_append hb hrest ds _ fun x hx => hlt x (.tail _ hx)]
    rfl

theorem foldl_digits (base : ℕ) (ds : List ℕ) :
    ds.foldl (fun (a : ℤ) (d : ℕ) => d + base * a) (0 : ℤ) = (Nat.ofDigits base ds.reverse : ℕ) := by
  rw [Nat.coe_ofDigits, Nat.ofDigits_eq_foldr, List.foldr_reverse]

theorem strtolDigits_digits (hb : base ≤ 16) (hlt : ∀ d ∈ ds, d < base) :
    strtolDigits base (ds.map digit) 0 = (int32 (Nat.ofDigits base ds.reverse : ℕ), []) := by
  have h := @strtolDigits_append base hb [] (fun _ => rfl) ds 0 hlt
  rwa [List.append_nil, foldl_digits] at h

/-- A number without its sign. -/
theorem strtolBase_digits (hb : 1 < base) (h16 : base ≤ 16) (hlt : ∀ d ∈ ds, d < base) :
    strtolBase base (ds.map digit) = (base, ds.map digit) := by
  have hx : (ds.map digit).take 2 ≠ ['0', 'x'] := by
    intro h
    have hmem : 'x' ∈ ds.map digit := List.mem_of_mem_take (by rw [h]; simp : 'x' ∈ (ds.map digit).take 2)
    obtain ⟨d, hd, he⟩ := List.mem_map.mp hmem
    exact (digit_plain d (by have := hlt d hd; omega)).2.2.2 he
  unfold strtolBase
  rw [if_neg (fun h => hx h.2), if_neg (by omega), if_neg (by omega)]

/-- A negative number. -/
theorem strtol_minus (hb : 1 < base) (h16 : base ≤ 16) (hlt : ∀ d ∈ ds, d < base) :
    strtol ('-' :: ds.map digit) base = (int32 (-int32 (Nat.ofDigits base ds.reverse : ℕ)), []) := by
  have hsign : strtolSign ('-' :: ds.map digit) = (true, ds.map digit) := rfl
  unfold strtol
  rw [List.dropWhile_cons_of_neg (by decide), hsign]
  dsimp only
  rw [strtolBase_digits hb h16 hlt]
  dsimp only
  rw [strtolDigits_digits h16 hlt, if_pos rfl]

/-- A number behind spaces. -/
theorem strtol_digits (hb : 1 < base) (h16 : base ≤ 16) (hne : ds ≠ []) (hlt : ∀ d ∈ ds, d < base) (k : ℕ) :
    strtol (List.replicate k ' ' ++ ds.map digit) base = (int32 (Nat.ofDigits base ds.reverse : ℕ), []) := by
  obtain ⟨d, l, rfl⟩ := List.exists_cons_of_ne_nil hne
  obtain ⟨hsp, hplus, hminus, -⟩ := digit_plain d (by have := hlt d List.mem_cons_self; omega)
  have hdrop : (List.replicate k ' ' ++ (d :: l).map digit).dropWhile (fun c => c = ' ' || c = '\t') =
      (d :: l).map digit := by
    rw [List.dropWhile_append_of_pos (by simp +contextual), List.map_cons,
      List.dropWhile_cons_of_neg (by rw [hsp]; simp)]
  have hsign : strtolSign ((d :: l).map digit) = (false, (d :: l).map digit) := by
    rw [List.map_cons, strtolSign, if_neg hplus, if_neg hminus]
  unfold strtol
  rw [hdrop, hsign]
  dsimp only
  rw [strtolBase_digits hb h16 hlt]
  dsimp only
  rw [strtolDigits_digits h16 hlt]
  simp only [Bool.false_eq_true, if_false]

/-- A number behind zeros. -/
theorem strtol_zeros (hb : 1 < base) (h16 : base ≤ 16) (hne : ds ≠ []) (hlt : ∀ d ∈ ds, d < base) (k : ℕ) :
    strtol (List.replicate k '0' ++ ds.map digit) base = (int32 (Nat.ofDigits base ds.reverse : ℕ), []) := by
  have h := @strtol_digits base (List.replicate k 0 ++ ds) hb h16 (by simp [hne]) ?_ 0
  · rw [List.reverse_append, List.reverse_replicate, Nat.ofDigits_append, Nat.ofDigits_replicate_zero, Nat.mul_zero,
      Nat.add_zero, List.map_append, List.map_replicate] at h
    exact h
  · intro d hd
    rcases List.mem_append.mp hd with hd | hd
    · rw [List.eq_of_mem_replicate hd]
      omega
    · exact hlt d hd

end

/-! ### printnum -/

/-- What `printnum` puts is `num` in positional notation, behind what it is padded
with; a number of 32 bits is read back from the digits, and from all of it if it
is padded with spaces or zeros. -/
def Positional (base : ℕ) (hb : 1 < base) (num : ℕ) (width : ℤ) (padc : Char) : Prop :=
  ∃ ds, (∀ ds', Numeral base num ds' ↔ ds' = ds) ∧
    printnum base hb num width padc = List.replicate (max 0 (width - ds.length)).toNat padc ++ ds.map digit ∧
    (num < 2 ^ 32 → ∀ text, text = ds.map digit ∨ (padc = ' ' ∨ padc = '0') ∧ text = printnum base hb num width padc →
      (strtol text base).1 % 2 ^ 32 = num ∧ (strtol text base).2 = [])

section
variable {base num : ℕ} {width : ℤ}

theorem length_numeral (hb : 1 < base) (hnum : num < 2 ^ 64) : (numeral base num).length ≤ 64 := by
  unfold numeral
  split_ifs
  · simp
  · rw [List.length_reverse]
    exact (Nat.digits_length_le_iff hb num).mpr (hnum.trans_le (Nat.pow_le_pow_left hb 64))

theorem positional_of_le (hb : 1 < base) (h16 : base ≤ 16) (h1 : width < 2 ^ 31) (padc : Char)
    (h : -2 ^ 31 + ((numeral base num).length : ℤ) ≤ width) : Positional base hb num width padc := by
  have hnum := (@numeral_iff base num _ hb).mpr rfl
  have htext : printnum base hb num width padc =
      List.replicate (width - (numeral base num).length).toNat padc ++ (numeral base num).map digit := by
    rw [printnum_eq, int32_of_lt (by omega) (by omega)]
  refine ⟨numeral base num, fun ds' => numeral_iff hb, by rw [htext]; congr 2; omega, fun h32 text ht => ?_⟩
  have hread : strtol text base = (int32 num, []) := by
    have h0 := strtol_digits hb h16 hnum.ne hnum.lt 0
    rw [← hnum.value]
    rcases ht with rfl | ⟨rfl | rfl, rfl⟩
    · exact h0
    · rw [htext]
      exact strtol_digits hb h16 hnum.ne hnum.lt _
    · rw [htext]
      exact strtol_zeros hb h16 hnum.ne hnum.lt _
  rw [hread]
  refine ⟨?_, rfl⟩
  dsimp only
  rw [int32_eq]
  split_ifs <;> omega

theorem not_positional_of_lt (hb : 1 < base) (hnum : num < 2 ^ 64) (h0 : -2 ^ 31 ≤ width) (padc : Char)
    (h : width < -2 ^ 31 + ((numeral base num).length : ℤ)) : ¬ Positional base hb num width padc := by
  rintro ⟨ds, hds, htext, -⟩
  obtain rfl := (hds _).mp ((numeral_iff hb).mpr rfl)
  have hlen := length_numeral hb hnum
  have hwrap : int32 (width - (numeral base num).length) = width - (numeral base num).length + 2 ^ 32 := by
    rw [int32_eq]
    split_ifs <;> omega
  have hlens := congrArg List.length htext
  rw [printnum_eq, hwrap] at hlens
  simp only [List.length_append, List.length_replicate, List.length_map] at hlens
  omega

end

/-- `printnum` puts positional notation exactly if the width does not fall below
the least `int` on the way. -/
theorem printnum_positional_iff {base num : ℕ} {width : ℤ} (hbase : base = 8 ∨ base = 10 ∨ base = 16) (hb : 1 < base)
    (hnum : num < 2 ^ 64) (h0 : -2 ^ 31 ≤ width) (h1 : width < 2 ^ 31) (padc : Char) :
    Positional base hb num width padc ↔ -2 ^ 31 + ((numeral base num).length : ℤ) ≤ width := by
  constructor
  · intro h
    by_contra hlt
    exact not_positional_of_lt hb hnum h0 padc (by omega) h
  · exact positional_of_le hb (by omega) h1 padc

theorem hex_is_positional : Positional 16 (by decide) 255 5 ' ' ∧ numeral 16 255 = [15, 15] := by
  have hn : numeral 16 255 = [15, 15] := by simp [numeral]
  refine ⟨?_, hn⟩
  rw [printnum_positional_iff (Or.inr (Or.inr rfl)) (by decide) (by decide) (by decide) (by decide), hn]
  decide

/-- With the least `int` for a width, the digit 0 comes behind 2^31 - 1 spaces. -/
theorem least_width_pads : ¬ Positional 10 (by decide) 0 (-2 ^ 31) ' ' ∧
    printnum 10 (by decide) 0 (-2 ^ 31) ' ' = List.replicate (2 ^ 31 - 1) ' ' ++ ['0'] := by
  have hn : numeral 10 0 = [0] := rfl
  constructor
  · refine not_positional_of_lt (by decide) (by decide) le_rfl ' ' ?_
    rw [hn]
    decide
  · rw [printnum_eq, hn]
    rfl

/-! ### %d -/

/-- The format `%wd`, or `%0wd`. -/
def dFormat (zero : Bool) (w : ℕ) : List Char :=
  '%' :: ((if zero then ['0'] else []) ++ ((numeral 10 w).map digit ++ ['d']))

/-- The plain decimal form of `n`. -/
def decimal (n : ℤ) : List Char := (if n < 0 then ['-'] else []) ++ (numeral 10 n.natAbs).map digit

/-- The word of an argument `n`. -/
def word (n : ℤ) : ℕ := (n % 2 ^ 32).toNat

/-- The text for `n` in a field of `w` characters is as long as it has to be, and
`strtol` reads `n` back from all of it. -/
def ReadsBack (n : ℤ) (w : ℕ) (zero : Bool) : Prop :=
  ∃ text, (∀ mem, vprintfmt mem (dFormat zero w) [word n] ⟨[], []⟩ = .ok () ⟨text, []⟩) ∧ strtol text 10 = (n, []) ∧
    text.length = max w (decimal n).length

theorem digit_leading : ∀ d < 10, d ≠ 0 →
    digit d ≠ '-' ∧ digit d ≠ '0' ∧ ('1' ≤ digit d ∧ digit d ≤ '9') ∧ (digit d).toNat = '0'.toNat + d := by
  decide

theorem escape_d (ap : List ℕ) (f : Spec) : escape ['d'] ap f = (f, ap, some ('d', [])) := by
  rw [escape]
  simp

theorem escape_zero (fmt : List Char) (ap : List ℕ) (f : Spec) :
    escape ('0' :: fmt) ap f = escape fmt ap { f with padc := '0' } := by
  rw [escape]
  simp

/-- The width of a conversion. -/
theorem escape_width {w : ℕ} (h0 : w ≠ 0) (hw : w < 2 ^ 16) (ap : List ℕ) {f : Spec} (hf : f.width < 0)
    (hp : f.precision = -1) :
    escape ((numeral 10 w).map digit ++ ['d']) ap f = ({ f with width := w }, ap, some ('d', [])) := by
  have hn := (@numeral_iff 10 w _ (by decide)).mpr rfl
  obtain ⟨d, ds, hds⟩ := List.exists_cons_of_ne_nil hn.ne
  rw [hds] at hn ⊢
  have hd := hn.lt d List.mem_cons_self
  have hd0 : d ≠ 0 := by
    rintro rfl
    obtain hz | hz := hn.head
    · have := hn.value
      rw [hz] at this
      simp at this
      omega
    · exact hz rfl
  obtain ⟨hminus, hzero, hdig, hval⟩ := digit_leading d hd hd0
  have hstart : ((digit d).toNat : ℤ) - '0'.toNat = int32 d := by
    rw [hval, int32_of_lt (by omega) (by omega)]
    push_cast
    ring
  have hread : strtolDigits 10 (ds.map digit ++ ['d']) ((digit d).toNat - '0'.toNat) = ((w : ℤ), ['d']) := by
    rw [hstart, strtolDigits_append (by decide) (fun _ => rfl) ds _ fun x hx => hn.lt x (.tail _ hx)]
    have hv := foldl_digits 10 (d :: ds)
    rw [hn.value, List.foldl_cons, mul_zero, add_zero] at hv
    rw [hv, int32_of_lt (by omega) (by omega)]
  rw [List.map_cons, List.cons_append, escape, if_neg hminus, if_neg hzero, if_pos hdig, hread, escape_d, Spec.process,
    if_pos hf, ← hp]

theorem convert_d (mem : ℕ → Option Char) (f : Spec) (ap : List ℕ) : convert mem f ap 'd' = (do
    printInt f (getint ap f.lflag).1
    pure (some (getint ap f.lflag).2)) := by
  rw [convert, if_neg (by decide), if_neg (by decide), if_neg (by decide), if_pos rfl]

/-- What `%wd` and `%0wd` put: the sign, the padding and the digits. -/
theorem vprintfmt_d {n : ℤ} (h0 : -2 ^ 31 ≤ n) (h1 : n < 2 ^ 31) {w : ℕ} (hw : w < 2 ^ 16) (zero : Bool)
    (mem : ℕ → Option Char) :
    vprintfmt mem (dFormat zero w) [word n] ⟨[], []⟩ = .ok () ⟨(if n < 0 then ['-'] else []) ++
      (List.replicate (w - (numeral 10 n.natAbs).length) (if zero then '0' else ' ') ++
        (numeral 10 n.natAbs).map digit), []⟩ := by
  have hlen := @length_numeral 10 n.natAbs (by decide) (by omega)
  have hpos := List.length_pos_iff.mpr ((@numeral_iff 10 n.natAbs _ (by decide)).mpr rfl).ne
  obtain ⟨f, hesc, hlf, hwidth, hpad⟩ : ∃ f,
      escape ((if zero then ['0'] else []) ++ ((numeral 10 w).map digit ++ ['d'])) [word n] {} =
        (f, [word n], some ('d', [])) ∧ f.lflag = 0 ∧ f.width = (if w = 0 then -1 else (w : ℤ)) ∧
      (w ≠ 0 → f.padc = if zero then '0' else ' ') := by
    by_cases hw0 : w = 0
    · refine ⟨{ padc := '0' }, ?_, rfl, by rw [if_pos hw0], fun h => absurd hw0 h⟩
      have hn0 : (numeral 10 w).map digit = ['0'] := by
        rw [hw0]
        rfl
      rw [hn0]
      cases zero
      · exact (escape_zero _ _ _).trans (escape_d _ _)
      · exact (escape_zero _ _ _).trans ((escape_zero _ _ _).trans (escape_d _ _))
    · cases zero
      · exact ⟨_, escape_width hw0 hw _ (by decide) rfl, rfl, by rw [if_neg hw0], fun _ => rfl⟩
      · exact ⟨_, (escape_zero _ _ _).trans (escape_width hw0 hw _ (by decide) rfl), rfl, by rw [if_neg hw0],
          fun _ => rfl⟩
  have hint : (getint [word n] f.lflag).1 = n := by
    rw [hlf, getint, if_neg (by decide), List.headD_cons, int32_eq, word]
    split_ifs <;> omega
  have hnum : printnum 10 (by decide) n.natAbs f.width f.padc =
      List.replicate (w - (numeral 10 n.natAbs).length) (if zero then '0' else ' ') ++
        (numeral 10 n.natAbs).map digit := by
    rw [printnum_eq, hwidth]
    by_cases hw0 : w = 0
    · rw [if_pos hw0, int32_of_lt (by omega) (by omega), hw0, Nat.zero_sub, List.replicate_zero,
        show ((-1 : ℤ) - (numeral 10 n.natAbs).length).toNat = 0 by omega, List.replicate_zero]
    · rw [if_neg hw0, int32_of_lt (by omega) (by omega), hpad hw0]
      congr 2
      omega
  rw [vprintfmt, dFormat, List.length_cons, turns, if_neg (by simp), hesc]
  dsimp only
  rw [convert_d, hint, printInt, hnum]
  by_cases hneg : n < 0
  · rw [if_pos hneg, if_pos hneg]
    rfl
  · rw [if_neg hneg, if_neg hneg]
    rfl

/-- What `%wd` and `%0wd` put is read back and has the right length exactly if the
number is not negative or its digits fill the field. -/
theorem reads_back_iff {n : ℤ} (h0 : -2 ^ 31 ≤ n) (h1 : n < 2 ^ 31) {w : ℕ} (hw : w < 2 ^ 16) (zero : Bool) :
    ReadsBack n w zero ↔ 0 ≤ n ∨ w ≤ (numeral 10 n.natAbs).length := by
  have hn := (@numeral_iff 10 n.natAbs _ (by decide)).mpr rfl
  have hput := vprintfmt_d h0 h1 hw zero
  constructor
  · rintro ⟨text, htext, -, hlen⟩
    obtain rfl : _ = text := congrArg Out.text (EStateM.Result.ok.inj ((hput fun _ => none).symm.trans (htext _))).2
    by_contra hc
    rw [not_or, not_le, not_le] at hc
    rw [decimal, if_pos hc.1] at hlen
    simp only [List.length_append, List.length_replicate, List.length_map, List.length_singleton] at hlen
    omega
  · intro hgood
    refine ⟨_, hput, ?_, ?_⟩
    · by_cases hneg : n < 0
      · have hval : int32 (-int32 n.natAbs) = n := by
          rw [int32_eq, int32_eq]
          split_ifs <;> omega
        rw [if_pos hneg, Nat.sub_eq_zero_of_le (by omega), List.replicate_zero, List.nil_append, List.singleton_append,
          strtol_minus (by decide) (by decide) hn.lt, hn.value, hval]
      · have hval : int32 (Nat.ofDigits 10 (numeral 10 n.natAbs).reverse : ℕ) = n := by
          rw [hn.value, int32_of_lt (by omega) (by omega)]
          omega
        rw [if_neg hneg, List.nil_append]
        cases zero
        · exact (strtol_digits (by decide) (by decide) hn.ne hn.lt _).trans (by rw [hval])
        · exact (strtol_zeros (by decide) (by decide) hn.ne hn.lt _).trans (by rw [hval])
    · rw [decimal]
      split_ifs with hneg <;>
      simp only [List.length_append, List.length_replicate, List.length_map, List.length_singleton, List.length_nil] <;>
      omega

theorem zero_padded_reads_back : ReadsBack 42 5 true :=
  (reads_back_iff (by decide) (by decide) (by decide) true).mpr (.inl (by decide))

/-- The number -5 in a field of three characters: the spaces follow the sign. -/
theorem negative_not_read_back : ¬ ReadsBack (-5) 3 false ∧
    (∀ mem, vprintfmt mem (dFormat false 3) [word (-5)] ⟨[], []⟩ = .ok () ⟨['-', ' ', ' ', '5'], []⟩) ∧
    strtol ['-', ' ', ' ', '5'] 10 = (0, [' ', ' ', '5']) := by
  have hput := vprintfmt_d (n := -5) (by decide) (by decide) (w := 3) (by decide) false
  have hn : numeral 10 5 = [5] := by simp [numeral]
  have htext : ∀ mem, vprintfmt mem (dFormat false 3) [word (-5)] ⟨[], []⟩ = .ok () ⟨['-', ' ', ' ', '5'], []⟩ :=
    fun mem => (hput mem).trans (by rw [show (-5 : ℤ).natAbs = 5 from rfl, hn]; rfl)
  refine ⟨?_, htext, by decide⟩
  rintro ⟨text, hx, hread, -⟩
  obtain rfl : _ = text := congrArg Out.text (EStateM.Result.ok.inj ((htext fun _ => none).symm.trans (hx _))).2
  cases hread

end Fmt
end Lib
end Jos
