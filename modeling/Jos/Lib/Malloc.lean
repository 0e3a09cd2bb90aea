/-
# malloc and free

The allocator of the user library works on an arena of virtual pages. A page
that small chunks share has a reference word in its last four bytes; a chunk of
more than a page marks all its pages but the last with PTE_CONTINUED and keeps
its reference in the last one, which later small chunks may share. `mptr` moves
up through the arena; `malloc` itself holds one reference to the page it is in
the middle of.

A page of the arena is mapped by the allocator, with or without the mark, or by
something else, or not at all. Of the contents of the pages only the reference
words are modelled: that no chunk overlaps one is part of what is proved. The
list of live chunks and `held`, the pages to which `malloc` has not dropped its
own reference, are there for the proofs; the code reads neither. How many
pages the kernel can give during a call is a parameter of the call. What the
code does after `mptr` has left the arena is not modelled: the run stops there,
with `out` set.

* `safe_of_run`: chunks are mapped, disjoint from each other and from the
  reference words, and the reference words count them, as long as no reference
  word overflows.
* `counted_round`: chunks of no bytes do not move `mptr`; 2^32 of them make a
  reference word start again at zero, and a live chunk loses its page.
-/
import Mathlib.Data.List.Perm.Basic
import Mathlib.Tactic.Ring
import Jos.Base.Steps

namespace Jos
namespace Lib
namespace Malloc

open Function

abbrev PGSIZE : ℕ := 4096
/-- The largest chunk. -/
abbrev MAXMALLOC : ℕ := 1024 * 1024
abbrev mbegin : ℕ := 0x08000000
abbrev mend : ℕ := 0x10000000

/-- What is mapped at a page: a page of the allocator, with or without
PTE_CONTINUED, or another page. -/
inductive Pte
  | heap (continued : Bool)
  | other
  deriving DecidableEq, Repr

/-- `vpd` and `vpt`: what is mapped at each page number. -/
abbrev Pages := ℕ → Option Pte

/-- A chunk at `v`, of the `n` bytes asked for. -/
structure Chunk where
  v : ℕ
  n : ℕ
  deriving DecidableEq, Repr

/-- `ROUNDUP(n, 4)`, in 32 bits. -/
def roundup4 (n : ℕ) : ℕ := (n + 3) % 2 ^ 32 - (n + 3) % 2 ^ 32 % 4

namespace Chunk

/-- The bytes the chunk takes. -/
def size (c : Chunk) : ℕ := roundup4 c.n

/-- The page of its first byte. -/
def first (c : Chunk) : ℕ := c.v / PGSIZE

/-- The page whose reference word counts it: that of the byte `v + n + 3`. -/
def last (c : Chunk) : ℕ := (c.v + c.size + 3) / PGSIZE

end Chunk

/-- The allocator of an env. -/
structure St where
  vpt : Pages
  /-- The reference word of each page. -/
  ref : ℕ → ℕ
  mptr : ℕ
  live : List Chunk
  /-- The pages to which `malloc` still has its own reference. -/
  held : ℕ → Bool
  /-- `mptr` has left the arena. -/
  out : Bool
  /-- An assertion failed, or an unmapped page was touched. -/
  fault : Bool

namespace St

/-- The live chunks that the reference word of page `q` counts. -/
def count (s : St) (q : ℕ) : ℕ := s.live.countP fun c => c.last = q

end St

/-! ### The code -/

/-- The pages a loop from a page boundary over `n` bytes visits. -/
def pagesOf (n : ℕ) : ℕ := (n + PGSIZE - 1) / PGSIZE

def isfree (vpt : Pages) (v n : ℕ) : Bool :=
  (List.range (pagesOf n)).all fun k =>
    decide (v + k * PGSIZE < mend) && (vpt ((v + k * PGSIZE) / PGSIZE)).isNone

/-- The `while` of `free`: unmap continued pages from page `c` on, `room` pages
below the end of the arena. The result is the first page without the mark, or
nothing if the assertion fails. -/
def unmapContinued : (room c : ℕ) → Pages → Option (ℕ × Pages)
  | 0, _, _ => none
  | room + 1, c, vpt =>
    if vpt c = some (.heap true) then unmapContinued room (c + 1) (update vpt c none)
    else some (c, vpt)

/-- The end of `free`: one reference less to page `c`. -/
def dropRef (c : ℕ) (s : St) : St :=
  match s.vpt c with
  | none => { s with fault := true }
  | some _ =>
    { s with
      ref := update s.ref c ((s.ref c + (2 ^ 32 - 1)) % 2 ^ 32)
      vpt := if (s.ref c + (2 ^ 32 - 1)) % 2 ^ 32 = 0 then update s.vpt c none else s.vpt }

def free (v : ℕ) (s : St) : St :=
  if v = 0 then s
  else if mbegin ≤ v ∧ v < mend then
    match unmapContinued (mend / PGSIZE - v / PGSIZE) (v / PGSIZE) s.vpt with
    | none => { s with fault := true }
    | some (c, vpt) => dropRef c { s with vpt := vpt }
  else { s with fault := true }

/-- The loop of `malloc` that looks for room for `n` bytes, from `mptr` on:
where `mptr` ends, and if there is room. -/
def search (vpt : Pages) (n : ℕ) : (fuel mptr nwrap : ℕ) → Option (ℕ × Bool)
  | 0, _, _ => none
  | fuel + 1, mptr, nwrap =>
    if isfree vpt mptr n then some (mptr, true)
    else if mptr + PGSIZE = mend then
      if nwrap + 1 = 2 then some (mbegin, false) else search vpt n fuel mbegin (nwrap + 1)
    else search vpt n fuel (mptr + PGSIZE) nwrap

/-- Twice the pages of the arena: enough for `search`, see `search_total`. -/
def rounds : ℕ := 2 * ((mend - mbegin) / PGSIZE)

/-- `i` rounds of the loop that allocates pages for `n` bytes from page `p` on. -/
def allocPages (p n : ℕ) : ℕ → Pages → Pages
  | 0, vpt => vpt
  | i + 1, vpt =>
    update (allocPages p n i vpt) (p + i) (some (.heap (decide ((i + 1) * PGSIZE < n))))

/-- The loop that takes them back, pages `p + i`, …, `p`. -/
def unmapPages (p : ℕ) : ℕ → Pages → Pages
  | 0, vpt => update vpt p none
  | i + 1, vpt => unmapPages p i (update vpt (p + (i + 1)) none)

/-- The end of `malloc`: allocate at `mptr`. The kernel has `avail` pages. -/
def allocate (n avail : ℕ) (s : St) : St :=
  let need := roundup4 n + 4
  let p := s.mptr / PGSIZE
  if avail < pagesOf need then
    { s with vpt := unmapPages p avail (allocPages p need avail s.vpt) }
  else
    { s with
      vpt := allocPages p need (pagesOf need) s.vpt
      ref := update s.ref (p + pagesOf need - 1) 2
      held := update s.held (p + pagesOf need - 1) true
      live := ⟨s.mptr, n⟩ :: s.live
      mptr := s.mptr + roundup4 n }

/-- `malloc` from the search on. -/
def findPages (n avail : ℕ) (s : St) : St :=
  if mend ≤ s.mptr then { s with out := true }
  else
    match search s.vpt (roundup4 n + 4) rounds s.mptr 0 with
    | none => { s with fault := true }
    | some (m, false) => { s with mptr := m }
    | some (m, true) => allocate n avail { s with mptr := m }

/-- The chunk goes into the page of `mptr`. -/
def addChunk (n : ℕ) (s : St) : St :=
  match s.vpt (s.mptr / PGSIZE) with
  | none => { s with fault := true }
  | some _ =>
    { s with
      ref := update s.ref (s.mptr / PGSIZE) ((s.ref (s.mptr / PGSIZE) + 1) % 2 ^ 32)
      live := ⟨s.mptr, n⟩ :: s.live
      mptr := s.mptr + roundup4 n }

/-- `malloc` stops working on the page of `mptr`. -/
def leavePage (s : St) : St :=
  { free s.mptr s with
    held := update s.held (s.mptr / PGSIZE) false
    mptr := (s.mptr + PGSIZE) - (s.mptr + PGSIZE) % PGSIZE }

/-- The first lines of `malloc`. -/
def start (s : St) : St := if s.mptr = 0 then { s with mptr := mbegin } else s

def malloc (n avail : ℕ) (s : St) : St :=
  if MAXMALLOC ≤ roundup4 n then start s
  else if (start s).mptr % PGSIZE = 0 then findPages n avail (start s)
  else if (start s).mptr / PGSIZE = ((start s).mptr + roundup4 n + 3) / PGSIZE then addChunk n (start s)
  else findPages n avail (leavePage (start s))

/-- A call: `malloc(n)`, or `free` of a live chunk. -/
inductive Ev
  | malloc (n avail : ℕ)
  | free (k : ℕ)
  deriving DecidableEq, Repr

def step (e : Ev) (s : St) : St :=
  if s.out || s.fault then s
  else
    match e with
    | .malloc n avail => malloc n avail s
    | .free k =>
      match s.live[k]? with
      | none => s
      | some c => free c.v { s with live := s.live.eraseIdx k }

/-- Before the first call: other things may be mapped in the arena. -/
def init (others : ℕ → Bool) : St where
  vpt q := if others q then some .other else none
  ref _ := 0
  mptr := 0
  live := []
  held _ := false
  out := false
  fault := false

/-! ### What the loops compute -/

theorem roundup4_of_lt {n : ℕ} (h : n < MAXMALLOC) : roundup4 n = (n + 3) / 4 * 4 := by
  have hmod : (n + 3) % 2 ^ 32 = n + 3 := Nat.mod_eq_of_lt (by simp only [MAXMALLOC] at h; omega)
  rw [roundup4, hmod]
  omega

theorem roundup4_mod (n : ℕ) : roundup4 n % 4 = 0 := by
  unfold roundup4
  omega

theorem isfree_iff {vpt : Pages} {p n : ℕ} :
    isfree vpt (p * PGSIZE) n = true ↔ ∀ k < pagesOf n, p + k < mend / PGSIZE ∧ vpt (p + k) = none := by
  simp only [isfree, List.all_eq_true, List.mem_range, Bool.and_eq_true, decide_eq_true_eq, Option.isNone_iff_eq_none]
  refine forall₂_congr fun k _ => ?_
  have hpage : (p * PGSIZE + k * PGSIZE) / PGSIZE = p + k := by
    rw [← Nat.add_mul, Nat.mul_div_cancel _ (by decide)]
  rw [hpage]
  refine and_congr_left fun _ => ?_
  show p * 4096 + k * 4096 < 0x10000000 ↔ p + k < 0x10000000 / 4096
  omega

theorem allocPages_apply (p n : ℕ) (vpt : Pages) (q : ℕ) : ∀ i,
    allocPages p n i vpt q =
      if p ≤ q ∧ q < p + i then some (.heap (decide ((q - p + 1) * PGSIZE < n))) else vpt q
  | 0 => by rw [if_neg (by omega), allocPages]
  | i + 1 => by
    rw [allocPages, update_apply, allocPages_apply p n vpt q i]
    by_cases hq : q = p + i
    · subst hq
      rw [if_pos rfl, if_pos (by omega), Nat.add_sub_cancel_left]
    · rw [if_neg hq]
      exact if_congr (by omega) rfl rfl

theorem unmapPages_apply (p q : ℕ) : ∀ (i : ℕ) (vpt : Pages),
    unmapPages p i vpt q = if p ≤ q ∧ q ≤ p + i then none else vpt q
  | 0, vpt => by
    rw [unmapPages, update_apply]
    exact if_congr (by omega) rfl rfl
  | i + 1, vpt => by
    rw [unmapPages, unmapPages_apply p q i, update_apply]
    by_cases hq : q = p + (i + 1)
    · rw [if_pos hq, ite_self, if_pos (by omega)]
    · rw [if_neg hq]
      exact if_congr (by omega) rfl rfl

/-- The `while` of `free` goes over the `d` continued pages of a chunk. -/
theorem unmapContinued_of {d : ℕ} : ∀ {room p : ℕ} {vpt : Pages},
    (∀ q, p ≤ q → q < p + d → vpt q = some (.heap true)) → vpt (p + d) ≠ some (.heap true) → d < room →
    unmapContinued room p vpt = some (p + d, fun q => if p ≤ q ∧ q < p + d then none else vpt q) := by
  induction d with
  | zero =>
    intro room p vpt _ hend hroom
    obtain ⟨room, rfl⟩ := Nat.exists_eq_add_of_lt hroom
    have hnone : (fun q => if p ≤ q ∧ q < p + 0 then none else vpt q) = vpt :=
      funext fun q => if_neg (by omega)
    rw [hnone, Nat.zero_add, unmapContinued, if_neg (by simpa using hend)]
    rfl
  | succ d ih =>
    intro room p vpt hcont hend hroom
    obtain ⟨room, rfl⟩ : ∃ r, room = r + 1 := ⟨room - 1, by omega⟩
    rw [unmapContinued, if_pos (hcont p le_rfl (by omega)), ih]
    · have hpages : (fun q => if p + 1 ≤ q ∧ q < p + 1 + d then none else update vpt p none q) =
          fun q => if p ≤ q ∧ q < p + (d + 1) then none else vpt q := by
        funext q
        by_cases hq : q = p
        · subst hq
          rw [if_neg (by omega), update_self, if_pos (by omega)]
        · rw [update_of_ne hq]
          exact if_congr (by omega) rfl rfl
      rw [hpages, Nat.add_right_comm, Nat.add_assoc p d 1]
    · intro q hq hlt
      rw [update_of_ne (by omega)]
      exact hcont q (by omega) (by omega)
    · rw [update_of_ne (by omega), show p + 1 + d = p + (d + 1) by omega]
      exact hend
    · omega

/-- What the search has found: a page boundary in the arena, with room if it says so. -/
theorem search_spec {vpt : Pages} {n : ℕ} : ∀ {fuel mptr nwrap m : ℕ} {b : Bool},
    mptr % PGSIZE = 0 → mbegin ≤ mptr → mptr < mend → search vpt n fuel mptr nwrap = some (m, b) →
    m % PGSIZE = 0 ∧ mbegin ≤ m ∧ m < mend ∧ (b = true → isfree vpt m n = true)
  | 0, _, _, _, _, _, _, _, h => by simp [search] at h
  | fuel + 1, mptr, nwrap, m, b, hal, hlo, hhi, h => by
    have hbegin : mbegin % PGSIZE = 0 ∧ mbegin ≤ mbegin ∧ mbegin < mend := by decide
    rw [search] at h
    split at h
    · next hfree =>
      cases h
      exact ⟨hal, hlo, hhi, fun _ => hfree⟩
    split at h
    · split at h
      · cases h
        exact ⟨hbegin.1, hbegin.2.1, hbegin.2.2, nofun⟩
      · exact search_spec hbegin.1 hbegin.2.1 hbegin.2.2 h
    · next hne =>
      refine search_spec ?_ ?_ ?_ h <;> simp only [PGSIZE, mbegin, mend] at * <;> omega

/-- The search ends: it passes the end of the arena twice at most. -/
theorem search_total {vpt : Pages} {n : ℕ} : ∀ {fuel mptr nwrap : ℕ},
    mptr % PGSIZE = 0 → mbegin ≤ mptr → mptr < mend → nwrap < 2 →
    (mend - mptr) / PGSIZE + (1 - nwrap) * ((mend - mbegin) / PGSIZE) ≤ fuel →
    (search vpt n fuel mptr nwrap).isSome
  | 0, mptr, nwrap, hal, hlo, hhi, _, hf => by
    simp only [PGSIZE, mbegin, mend] at *
    omega
  | fuel + 1, mptr, nwrap, hal, hlo, hhi, hw, hf => by
    rw [search]
    split
    · rfl
    split
    · next hend =>
      split
      · rfl
      · next hnw =>
        obtain rfl : nwrap = 0 := by omega
        refine search_total (by decide) le_rfl (by decide) (by omega) ?_
        simp only [PGSIZE, mbegin, mend] at *
        omega
    · next hne =>
      refine search_total ?_ ?_ ?_ hw ?_ <;> simp only [PGSIZE, mbegin, mend] at * <;> omega

/-! ### The bookkeeping -/

/-- One of the two chunks ends before the other starts. -/
def Apart (a b : Chunk) : Prop := a.v + a.size ≤ b.v ∨ b.v + b.size ≤ a.v

theorem Apart.symm {a b : Chunk} (h : Apart a b) : Apart b a := Or.symm h

/-- The chunk is in pages of the allocator; all but the last have the mark. -/
structure Placed (vpt : Pages) (c : Chunk) : Prop where
  small : c.n < MAXMALLOC
  low : mbegin ≤ c.v
  aligned : c.v % 4 = 0
  below : c.last < mend / PGSIZE
  whole : c.first < c.last → c.v % PGSIZE = 0
  continued : ∀ q, c.first ≤ q → q < c.last → vpt q = some (.heap true)
  ending : vpt c.last = some (.heap false)

/-- The chunks against the page table and the reference words. -/
structure Book (s : St) : Prop where
  placed : ∀ c ∈ s.live, Placed s.vpt c
  apart : s.live.Pairwise Apart
  refs : ∀ q, s.vpt q = some (.heap false) → s.ref q = s.count q + (s.held q).toNat
  word : ∀ q, s.ref q < 2 ^ 32
  held : ∀ q, s.held q = true → s.vpt q = some (.heap false)

section Placed

variable {vpt vpt' : Pages} {a b c : Chunk} {q : ℕ}

theorem Chunk.first_le_last (c : Chunk) : c.first ≤ c.last :=
  Nat.div_le_div_right (by omega)

theorem Placed.mapped (h : Placed vpt c) (hlo : c.first ≤ q) (hhi : q ≤ c.last) :
    ∃ x, vpt q = some (.heap x) := by
  rcases Nat.lt_or_eq_of_le hhi with hlt | rfl
  · exact ⟨true, h.continued q hlo hlt⟩
  · exact ⟨false, h.ending⟩

/-- A continued page belongs to one chunk only: both of two would have its last byte. -/
theorem Placed.alone (ha : Placed vpt a) (hb : Placed vpt b) (hab : Apart a b) (hlo : a.first ≤ q)
    (hhi : q < a.last) : ¬ (b.first ≤ q ∧ q ≤ b.last) := by
  rintro ⟨hlo', hhi'⟩
  have hne : q ≠ b.last := by
    rintro rfl
    cases (ha.continued _ hlo hhi).symm.trans hb.ending
  have ha4 : a.size % 4 = 0 := roundup4_mod _
  have hb4 : b.size % 4 = 0 := roundup4_mod _
  have hal := ha.aligned
  have hbl := hb.aligned
  simp only [Chunk.first, Chunk.last, PGSIZE] at *
  rcases hab with h | h <;> omega

theorem Placed.congr (h : Placed vpt c) (hq : ∀ q, c.first ≤ q → q ≤ c.last → vpt' q = vpt q) :
    Placed vpt' c :=
  { h with
    continued := fun q hlo hhi => (hq q hlo hhi.le).trans (h.continued q hlo hhi)
    ending := (hq _ c.first_le_last le_rfl).trans h.ending }

end Placed

/-- A reference to page `l` is taken back: the pages `p`, …, `l - 1` are continued
pages that no chunk left needs, and page `l` goes with its last reference. -/
structure Release (s t : St) (p l : ℕ) : Prop where
  continued : ∀ q, p ≤ q → q < l → s.vpt q = some (.heap true)
  ending : s.vpt l = some (.heap false)
  vpt : ∀ q, t.vpt q = if (p ≤ q ∧ q < l) ∨ (q = l ∧ s.ref l = 1) then none else s.vpt q
  ref : t.ref = update s.ref l (s.ref l - 1)
  count : ∀ q, t.count q + (t.held q).toNat + (if q = l then 1 else 0) = s.count q + (s.held q).toNat
  live : t.live.Sublist s.live
  gone : ∀ c ∈ s.live, c ∈ t.live ∨ p ≤ c.first ∧ c.last ≤ l
  held : ∀ q, t.held q = true → s.held q = true
  clear : ∀ c ∈ t.live, ∀ q, p ≤ q → q < l → ¬ (c.first ≤ q ∧ q ≤ c.last)

theorem Book.release {s t : St} {p l : ℕ} (h : Book s) (hr : Release s t p l) : Book t := by
  obtain ⟨hcont, hl, hvpt, href, hcount, hlive, -, hheld, hclear⟩ := hr
  have hrefl := h.refs l hl
  have hcountl := hcount l
  rw [if_pos rfl, ← hrefl] at hcountl
  -- a page that something left uses stays mapped as it was
  have hkeep : ∀ q, s.vpt q = some (.heap false) → 0 < t.count q + (t.held q).toNat → t.vpt q = s.vpt q := by
    intro q hq hpos
    rw [hvpt q, if_neg]
    rintro (⟨hlo, hhi⟩ | ⟨rfl, hone⟩)
    · cases (hcont q hlo hhi).symm.trans hq
    · omega
  refine ⟨fun c hc => ?_, h.apart.sublist hlive, fun q hq => ?_, fun q => ?_, fun q hq => ?_⟩
  · have hplaced := h.placed c (hlive.mem hc)
    refine hplaced.congr fun q hlo hhi => ?_
    rcases Nat.lt_or_eq_of_le hhi with hlt | rfl
    · rw [hvpt q, if_neg]
      rintro (⟨hp, hql⟩ | ⟨rfl, -⟩)
      · exact hclear c hc q hp hql ⟨hlo, hhi⟩
      · cases (hplaced.continued _ hlo hlt).symm.trans hl
    · refine hkeep _ hplaced.ending (Nat.add_pos_left ?_ _)
      exact List.countP_pos_iff.mpr ⟨c, hc, by simp⟩
  · have hq' : s.vpt q = some (.heap false) := by
      rw [hvpt q] at hq
      split at hq
      · cases hq
      · exact hq
    have hc := hcount q
    rw [← h.refs q hq'] at hc
    rw [href, update_apply]
    by_cases hql : q = l
    · subst hql
      rw [if_pos rfl]
      omega
    · rw [if_neg hql] at hc ⊢
      omega
  · rw [href, update_apply]
    have hword := h.word q
    split
    · next hql =>
      subst hql
      omega
    · exact hword
  · have hq' := h.held q (hheld q hq)
    rw [hkeep q hq' (by rw [hq]; simp)]
    exact hq'

/-! ### free -/

theorem free_eq {v l : ℕ} {s : St} (hlo : mbegin ≤ v) (hle : v / PGSIZE ≤ l) (hl : l < mend / PGSIZE)
    (hcont : ∀ q, v / PGSIZE ≤ q → q < l → s.vpt q = some (.heap true))
    (hend : s.vpt l = some (.heap false)) (hpos : 0 < s.ref l) (hword : s.ref l < 2 ^ 32) :
    free v s =
      { s with
        vpt := fun q => if (v / PGSIZE ≤ q ∧ q < l) ∨ (q = l ∧ s.ref l = 1) then none else s.vpt q
        ref := update s.ref l (s.ref l - 1) } := by
  have hv : mbegin ≤ v ∧ v < mend := by
    refine ⟨hlo, ?_⟩
    simp only [PGSIZE, mend] at *
    omega
  have hv0 : v ≠ 0 := by
    rintro rfl
    cases hlo
  obtain ⟨d, rfl⟩ := Nat.exists_eq_add_of_le hle
  have hroom : d < mend / PGSIZE - v / PGSIZE := by omega
  have hloop := unmapContinued_of hcont (by rw [hend]; simp) hroom
  have hdec : (s.ref (v / PGSIZE + d) + (2 ^ 32 - 1)) % 2 ^ 32 = s.ref (v / PGSIZE + d) - 1 := by omega
  rw [free, if_neg hv0, if_pos hv, hloop]
  simp only [dropRef, hend, hdec]
  rw [if_neg (by omega)]
  simp only [St.mk.injEq, and_self, and_true]
  funext q
  by_cases hone : s.ref (v / PGSIZE + d) = 1
  · rw [if_pos (by omega), update_apply]
    by_cases hq : q = v / PGSIZE + d
    · rw [if_pos hq, if_pos (Or.inr ⟨hq, hone⟩)]
    · rw [if_neg hq]
      exact if_congr (by simp [hq]) rfl rfl
  · rw [if_neg (by omega)]
    exact if_congr (by simp [hone]) rfl rfl

/-- `free` of a live chunk. -/
theorem free_release {s : St} {k : ℕ} {c : Chunk} (h : Book s) (hk : s.live[k]? = some c) :
    Release s (free c.v { s with live := s.live.eraseIdx k }) c.first c.last ∧
      (free c.v { s with live := s.live.eraseIdx k }).fault = s.fault := by
  have hperm : s.live.Perm (c :: s.live.eraseIdx k) := by
    obtain ⟨hlt, rfl⟩ := List.getElem?_eq_some_iff.mp hk
    exact (List.getElem_cons_eraseIdx_perm hlt).symm
  have hplaced := h.placed c (List.mem_of_getElem? hk)
  have hcount : ∀ q, s.count q = (s.live.eraseIdx k).countP (fun b => b.last = q) + if q = c.last then 1 else 0 := by
    intro q
    rw [St.count, hperm.countP_eq, List.countP_cons]
    simp [eq_comm]
  have hpos : 0 < s.ref c.last := by
    rw [h.refs _ hplaced.ending, hcount, if_pos rfl]
    omega
  have happ := free_eq (s := { s with live := s.live.eraseIdx k }) hplaced.low c.first_le_last hplaced.below
    hplaced.continued hplaced.ending hpos (h.word _)
  rw [happ]
  refine ⟨⟨hplaced.continued, hplaced.ending, fun q => rfl, rfl, fun q => ?_, List.eraseIdx_sublist _ _, fun b hb => ?_,
    fun q hq => hq, fun b hb q hlo hhi => ?_⟩, rfl⟩
  · rw [hcount q]
    exact Nat.add_right_comm _ _ _
  · rcases List.mem_cons.mp (hperm.mem_iff.mp hb) with rfl | hb
    · exact .inr ⟨le_rfl, le_rfl⟩
    · exact .inl hb
  · have hpair := (hperm.pairwise_iff (fun hab => hab.symm)).mp h.apart
    exact hplaced.alone (h.placed b ((List.eraseIdx_sublist _ _).mem hb))
      ((List.pairwise_cons.mp hpair).1 b hb) hlo hhi

/-! ### malloc -/

/-- Where `mptr` is: at a page boundary, or in the middle of a page to which
`malloc` has its reference, above the chunks there. -/
structure Pointer (s : St) : Prop where
  aligned : s.mptr % 4 = 0
  inside : mbegin ≤ s.mptr ∧ s.mptr < mend
  held : s.mptr % PGSIZE ≠ 0 → s.held (s.mptr / PGSIZE) = true
  above : s.mptr % PGSIZE ≠ 0 → ∀ c ∈ s.live, c.last = s.mptr / PGSIZE → c.v + c.size ≤ s.mptr

theorem Pointer.of_boundary {s : St} (hal : s.mptr % PGSIZE = 0) (hin : mbegin ≤ s.mptr ∧ s.mptr < mend) :
    Pointer s := by
  refine ⟨?_, hin, fun hne => absurd hal hne, fun hne => absurd hal hne⟩
  replace hal : s.mptr % 4096 = 0 := hal
  omega

theorem Pointer.start {s : St} (h : s.mptr = 0 ∨ Pointer s) : Pointer (start s) := by
  rw [Malloc.start]
  rcases h with h | h
  · rw [if_pos h]
    exact .of_boundary (show mbegin % PGSIZE = 0 by decide) (show mbegin ≤ mbegin ∧ mbegin < mend by decide)
  · rw [if_neg]
    · exact h
    · intro h0
      cases h0 ▸ h.inside.1

theorem Book.start {s : St} (h : Book s) : Book (start s) := by
  rw [Malloc.start]
  split
  · exact ⟨h.placed, h.apart, h.refs, h.word, h.held⟩
  · exact h

section Malloc

variable {s : St} {n : ℕ}

/-- A new chunk is apart from the live ones when none of them has a page of it,
except that it may follow them in its last page. -/
theorem Book.apart_new {c : Chunk} (h : Book s)
    (hpages : ∀ b ∈ s.live, b.last = c.first ∧ b.v + b.size ≤ c.v ∨ ∀ q, c.first ≤ q → q ≤ c.last →
      ¬ (b.first ≤ q ∧ q ≤ b.last)) : (c :: s.live).Pairwise Apart := by
  refine List.pairwise_cons.mpr ⟨fun b hb => ?_, h.apart⟩
  rcases hpages b hb with ⟨-, hle⟩ | hno
  · exact .inr hle
  · have hc := hno c.first le_rfl c.first_le_last
    have hb := hno b.first
    have hbl := b.first_le_last
    have hcl := c.first_le_last
    rcases Nat.lt_or_ge c.last b.first with hlt | hge
    · left
      simp only [Chunk.first, Chunk.last, PGSIZE] at hlt
      omega
    · right
      have hlast : b.last < c.first := by omega
      simp only [Chunk.first, Chunk.last, PGSIZE] at hlast
      omega

theorem count_cons (c : Chunk) (l : List Chunk) (q : ℕ) :
    (c :: l).countP (fun b => b.last = q) = l.countP (fun b => b.last = q) + if q = c.last then 1 else 0 := by
  rw [List.countP_cons]
  simp [eq_comm]

/-- `malloc` in the middle of a page with room. -/
theorem addChunk_ok (hb : Book s) (hp : Pointer s) (hn : n < MAXMALLOC) (hmid : s.mptr % PGSIZE ≠ 0)
    (hfit : s.mptr / PGSIZE = (s.mptr + roundup4 n + 3) / PGSIZE)
    (href : s.ref (s.mptr / PGSIZE) + 1 < 2 ^ 32) :
    Book (addChunk n s) ∧ Pointer (addChunk n s) ∧ (addChunk n s).fault = s.fault := by
  have hheld := hp.held hmid
  have hpage := hb.held _ hheld
  have hal := hp.aligned
  have h4 := roundup4_mod n
  have hin : s.mptr < 0x10000000 := hp.inside.2
  have hlast : (Chunk.mk s.mptr n).last = s.mptr / PGSIZE := hfit.symm
  have hfirst : (Chunk.mk s.mptr n).first = s.mptr / PGSIZE := rfl
  simp only [addChunk, hpage, Nat.mod_eq_of_lt href]
  -- a live chunk with a page of the new one ends there, below `mptr`
  have hpages : ∀ b ∈ s.live, b.last = (Chunk.mk s.mptr n).first ∧ b.v + b.size ≤ s.mptr ∨
      ∀ q, (Chunk.mk s.mptr n).first ≤ q → q ≤ (Chunk.mk s.mptr n).last → ¬ (b.first ≤ q ∧ q ≤ b.last) := by
    intro b hbl
    by_cases hbp : b.last = s.mptr / PGSIZE
    · exact .inl ⟨hbp, hp.above hmid b hbl hbp⟩
    · refine .inr fun q hlo hhi hq => ?_
      have hqp : q = s.mptr / PGSIZE := by omega
      subst hqp
      have hcont := (hb.placed b hbl).continued _ hq.1 (by omega)
      cases hcont.symm.trans hpage
  simp only [PGSIZE] at hfit hmid
  have hsame : (s.mptr + roundup4 n) / PGSIZE = s.mptr / PGSIZE := by
    show (s.mptr + roundup4 n) / 4096 = s.mptr / 4096
    omega
  refine ⟨⟨fun b hbl => ?_, hb.apart_new hpages, fun q hq => ?_, fun q => ?_, hb.held⟩,
    ⟨?_, ⟨?_, ?_⟩, fun _ => ?_, fun _ b hbl hlb => ?_⟩, trivial⟩
  · rcases List.mem_cons.mp hbl with rfl | hbl
    · refine ⟨hn, hp.inside.1, hal, ?_, fun hlt => by omega, fun q hlo hhi => by omega, hlast ▸ hpage⟩
      rw [hlast]
      show s.mptr / 4096 < 0x10000000 / 4096
      omega
    · exact hb.placed b hbl
  · have hrefs := hb.refs q hq
    have hcount := count_cons ⟨s.mptr, n⟩ s.live q
    rw [hlast] at hcount
    rw [St.count, hcount]
    dsimp only
    rw [← St.count, update_apply]
    split
    · next hqp =>
      subst hqp
      omega
    · omega
  · dsimp only
    rw [update_apply]
    split
    · exact href
    · exact hb.word q
  · show (s.mptr + roundup4 n) % 4 = 0
    omega
  · exact hp.inside.1.trans (Nat.le_add_right _ _)
  · show s.mptr + roundup4 n < 0x10000000
    omega
  · show s.held ((s.mptr + roundup4 n) / PGSIZE) = true
    rw [hsame]
    exact hheld
  · show b.v + b.size ≤ s.mptr + roundup4 n
    rcases List.mem_cons.mp hbl with rfl | hbl
    · exact le_rfl
    · exact (hp.above hmid b hbl (hlb.trans hsame)).trans (Nat.le_add_right _ _)

/-- A chunk in pages that were not mapped. -/
theorem Book.fresh {t : St} {c : Chunk} (h : Book s) (hn : c.n < MAXMALLOC) (hlo : mbegin ≤ c.v)
    (hal : c.v % PGSIZE = 0) (hfree : ∀ q, c.first ≤ q → q ≤ c.last → q < mend / PGSIZE ∧ s.vpt q = none)
    (hvpt : ∀ q, t.vpt q =
      if c.first ≤ q ∧ q ≤ c.last then some (.heap (decide (q < c.last))) else s.vpt q)
    (href : t.ref = update s.ref c.last 2) (hheld : t.held = update s.held c.last true)
    (hlive : t.live = c :: s.live) : Book t := by
  have hno : ∀ b ∈ s.live, ∀ q, c.first ≤ q → q ≤ c.last → ¬ (b.first ≤ q ∧ q ≤ b.last) := by
    rintro b hb q hlo hhi ⟨hlo', hhi'⟩
    obtain ⟨x, hx⟩ := (h.placed b hb).mapped hlo' hhi'
    cases hx.symm.trans (hfree q hlo hhi).2
  have hend : t.vpt c.last = some (.heap false) := by
    rw [hvpt, if_pos ⟨c.first_le_last, le_rfl⟩, decide_eq_false (lt_irrefl _)]
  refine ⟨fun b hb => ?_, ?_, fun q hq => ?_, fun q => ?_, fun q hq => ?_⟩
  · rw [hlive] at hb
    rcases List.mem_cons.mp hb with rfl | hb
    · refine ⟨hn, hlo, ?_, (hfree _ b.first_le_last le_rfl).1, fun _ => hal, fun q hq hlt => ?_, hend⟩
      · replace hal : b.v % 4096 = 0 := hal
        omega
      rw [hvpt, if_pos ⟨hq, hlt.le⟩, decide_eq_true hlt]
    · refine (h.placed b hb).congr fun q hlo hhi => ?_
      rw [hvpt, if_neg fun hq => hno b hb q hq.1 hq.2 ⟨hlo, hhi⟩]
  · rw [hlive]
    exact h.apart_new fun b hb => .inr (hno b hb)
  · rw [St.count, hlive, count_cons, ← St.count, href, hheld, update_apply, update_apply]
    by_cases hql : q = c.last
    · have hcount : s.count q = 0 := List.countP_eq_zero.mpr fun b hb hbl => by
        have hbl : b.last = c.last := (by simpa using hbl : b.last = q).trans hql
        exact hno b hb _ c.first_le_last le_rfl ⟨hbl ▸ b.first_le_last, hbl.ge⟩
      simp [hql, ← hcount]
    · rw [hvpt] at hq
      rw [if_neg hql, if_neg hql, if_neg hql]
      split at hq
      · next hin => exact absurd hq (by simp; omega)
      · exact h.refs q hq
  · rw [href, update_apply]
    split
    · decide
    · exact h.word q
  · rw [hheld, update_apply] at hq
    split at hq
    · next hql => exact hql ▸ hend
    · have hq' := h.held q hq
      rw [hvpt, if_neg fun hin => nomatch (hq'.symm.trans (hfree q hin.1 hin.2).2)]
      exact hq'

/-- The pages that `allocate` needs are those of the chunk it makes. -/
theorem pagesOf_chunk {v n : ℕ} (hal : v % PGSIZE = 0) :
    (Chunk.mk v n).first + pagesOf (roundup4 n + 4) = (Chunk.mk v n).last + 1 := by
  simp only [Chunk.first, Chunk.last, Chunk.size, pagesOf, PGSIZE] at *
  omega

theorem allocPages_chunk {v n : ℕ} (hal : v % PGSIZE = 0) (vpt : Pages) (q : ℕ) :
    allocPages (v / PGSIZE) (roundup4 n + 4) (pagesOf (roundup4 n + 4)) vpt q =
      if (Chunk.mk v n).first ≤ q ∧ q ≤ (Chunk.mk v n).last then
        some (.heap (decide (q < (Chunk.mk v n).last))) else vpt q := by
  have hpages := pagesOf_chunk (n := n) hal
  rw [allocPages_apply]
  refine if_ctx_congr (and_congr_right fun _ => ?_) (fun hq => ?_) fun _ => rfl
  · rw [← Nat.lt_succ_iff, Nat.succ_eq_add_one, ← hpages]
    rfl
  · have hlt : (q - v / PGSIZE + 1) * PGSIZE < roundup4 n + 4 ↔ q < (Chunk.mk v n).last := by
      simp only [Chunk.first, Chunk.last, Chunk.size, PGSIZE] at *
      omega
    rw [decide_eq_decide.mpr hlt]

/-- `malloc` has found room at `mptr`; the kernel has the pages or not. -/
theorem allocate_cases (avail : ℕ) (hal : s.mptr % PGSIZE = 0) (hfree : isfree s.vpt s.mptr (roundup4 n + 4) = true) :
    (avail < pagesOf (roundup4 n + 4) ∧ allocate n avail s = s) ∨
    (∀ q, (Chunk.mk s.mptr n).first ≤ q → q ≤ (Chunk.mk s.mptr n).last → q < mend / PGSIZE ∧ s.vpt q = none) ∧
      allocate n avail s =
        { s with
          vpt := fun q => if (Chunk.mk s.mptr n).first ≤ q ∧ q ≤ (Chunk.mk s.mptr n).last then
            some (.heap (decide (q < (Chunk.mk s.mptr n).last))) else s.vpt q
          ref := update s.ref (Chunk.mk s.mptr n).last 2
          held := update s.held (Chunk.mk s.mptr n).last true
          live := ⟨s.mptr, n⟩ :: s.live
          mptr := s.mptr + roundup4 n } := by
  have hpages : s.mptr / PGSIZE + pagesOf (roundup4 n + 4) = (Chunk.mk s.mptr n).last + 1 := pagesOf_chunk hal
  have hbase : s.mptr / PGSIZE * PGSIZE = s.mptr := Nat.div_mul_cancel (Nat.dvd_of_mod_eq_zero hal)
  rw [← hbase, isfree_iff] at hfree
  have hfree' : ∀ q, (Chunk.mk s.mptr n).first ≤ q → q ≤ (Chunk.mk s.mptr n).last →
      q < mend / PGSIZE ∧ s.vpt q = none := by
    intro q hlo hhi
    replace hlo : s.mptr / PGSIZE ≤ q := hlo
    have hq := hfree (q - s.mptr / PGSIZE) (by omega)
    rwa [Nat.add_sub_cancel' hlo] at hq
  simp only [allocate]
  by_cases havail : avail < pagesOf (roundup4 n + 4)
  · -- the pages taken back were not mapped before
    have hback : unmapPages (s.mptr / PGSIZE) avail
        (allocPages (s.mptr / PGSIZE) (roundup4 n + 4) avail s.vpt) = s.vpt := by
      funext q
      rw [unmapPages_apply, allocPages_apply]
      split
      · next hq => exact (hfree' q hq.1 (by omega)).2.symm
      · exact if_neg (by omega)
    rw [if_pos havail, hback]
    exact .inl ⟨havail, rfl⟩
  · have hlast : s.mptr / PGSIZE + pagesOf (roundup4 n + 4) - 1 = (Chunk.mk s.mptr n).last :=
      congrArg (· - 1) hpages
    rw [if_neg havail, hlast, funext (allocPages_chunk hal s.vpt)]
    exact .inr ⟨hfree', rfl⟩

theorem allocate_ok {avail : ℕ} (hb : Book s) (hn : n < MAXMALLOC) (hal : s.mptr % PGSIZE = 0)
    (hin : mbegin ≤ s.mptr ∧ s.mptr < mend) (hfree : isfree s.vpt s.mptr (roundup4 n + 4) = true) :
    Book (allocate n avail s) ∧ Pointer (allocate n avail s) ∧ (allocate n avail s).fault = s.fault := by
  have h4 := roundup4_mod n
  rcases allocate_cases avail hal hfree with ⟨-, heq⟩ | ⟨hfree', heq⟩
  · rw [heq]
    exact ⟨hb, .of_boundary hal hin, rfl⟩
  replace hal : s.mptr % 4096 = 0 := hal
  have hpage : (s.mptr + roundup4 n) / PGSIZE = (Chunk.mk s.mptr n).last := by
    show (s.mptr + roundup4 n) / 4096 = (s.mptr + roundup4 n + 3) / 4096
    omega
  rw [heq]
  refine ⟨hb.fresh (c := ⟨s.mptr, n⟩) hn hin.1 hal hfree' (fun q => rfl) rfl rfl rfl,
    ⟨?_, ⟨hin.1.trans (Nat.le_add_right _ _), ?_⟩, fun _ => ?_, fun _ b hbl hlb => ?_⟩, rfl⟩
  · show (s.mptr + roundup4 n) % 4 = 0
    omega
  · have hlt := (hfree' _ (Chunk.first_le_last _) le_rfl).1
    rw [← hpage] at hlt
    simp only [PGSIZE, mend] at *
    omega
  · show update s.held _ true ((s.mptr + roundup4 n) / PGSIZE) = true
    rw [hpage, update_self]
  · show b.v + b.size ≤ s.mptr + roundup4 n
    rcases List.mem_cons.mp hbl with rfl | hbl
    · exact le_rfl
    · have hend := (hb.placed b hbl).ending
      rw [hlb.trans hpage, (hfree' _ (Chunk.first_le_last _) le_rfl).2] at hend
      cases hend

/-- `malloc` leaves the page of `mptr`: its own reference is dropped. -/
theorem leavePage_ok (hb : Book s) (hp : Pointer s) (hmid : s.mptr % PGSIZE ≠ 0) :
    Release s (leavePage s) (s.mptr / PGSIZE) (s.mptr / PGSIZE) ∧ (leavePage s).fault = s.fault ∧ (leavePage s).mptr % PGSIZE = 0 ∧
      mbegin ≤ (leavePage s).mptr := by
  have hheld := hp.held hmid
  have hpage := hb.held _ hheld
  have href := hb.refs _ hpage
  rw [hheld] at href
  have hin := hp.inside
  simp only [mbegin, mend] at hin
  have happ := free_eq (l := s.mptr / PGSIZE) hp.inside.1 le_rfl
    (show s.mptr / 4096 < 0x10000000 / 4096 by omega) (fun q hlo hhi => by omega) hpage (by simp [href]) (hb.word _)
  refine ⟨?_, ?_, ?_, ?_⟩
  · refine ⟨fun q hlo hhi => by omega, hpage, fun q => ?_, ?_, fun q => ?_, ?_, fun c hc => .inl ?_, fun q hq => ?_,
      fun c _ q hlo hhi => by omega⟩
    · rw [leavePage, happ]
    · rw [leavePage, happ]
    · rw [leavePage, happ, St.count]
      dsimp only
      rw [← St.count, update_apply]
      split
      · next hq => simp [hq, hheld]
      · rfl
    · rw [leavePage, happ]
    · rw [leavePage, happ]
      exact hc
    · replace hq : update s.held (s.mptr / PGSIZE) false q = true := hq
      rw [update_apply] at hq
      split at hq
      · cases hq
      · exact hq
  · rw [leavePage, happ]
  · show ((s.mptr + 4096) - (s.mptr + 4096) % 4096) % 4096 = 0
    omega
  · show 0x08000000 ≤ (s.mptr + 4096) - (s.mptr + 4096) % 4096
    omega

/-- `malloc` from the search on, which ends at `m`. -/
theorem findPages_cases (n avail : ℕ) (hal : s.mptr % PGSIZE = 0) (hlo : mbegin ≤ s.mptr) (hhi : s.mptr < mend) :
    ∃ m, m % PGSIZE = 0 ∧ (mbegin ≤ m ∧ m < mend) ∧
      (findPages n avail s = { s with mptr := m } ∧ search s.vpt (roundup4 n + 4) rounds s.mptr 0 = some (m, false) ∨
        findPages n avail s = allocate n avail { s with mptr := m } ∧ isfree s.vpt m (roundup4 n + 4) = true) := by
  have htotal : (search s.vpt (roundup4 n + 4) rounds s.mptr 0).isSome := by
    refine search_total hal hlo hhi (by decide) ?_
    replace hlo : 0x08000000 ≤ s.mptr := hlo
    show (0x10000000 - s.mptr) / 4096 + (1 - 0) * ((0x10000000 - 0x08000000) / 4096) ≤
      2 * ((0x10000000 - 0x08000000) / 4096)
    omega
  obtain ⟨⟨m, found⟩, hsearch⟩ := Option.isSome_iff_exists.mp htotal
  obtain ⟨hmal, hmlo, hmhi, hfree⟩ := search_spec hal hlo hhi hsearch
  rw [findPages, if_neg (not_le.mpr hhi), hsearch]
  cases found with
  | false => exact ⟨m, hmal, ⟨hmlo, hmhi⟩, .inl ⟨rfl, rfl⟩⟩
  | true => exact ⟨m, hmal, ⟨hmlo, hmhi⟩, .inr ⟨rfl, hfree rfl⟩⟩

theorem findPages_ok {avail : ℕ} (hb : Book s) (hn : n < MAXMALLOC) (hal : s.mptr % PGSIZE = 0)
    (hlo : mbegin ≤ s.mptr) (hout : (findPages n avail s).out = false) :
    Book (findPages n avail s) ∧ Pointer (findPages n avail s) ∧ (findPages n avail s).fault = s.fault := by
  by_cases hend : mend ≤ s.mptr
  · rw [findPages, if_pos hend] at hout
    cases hout
  obtain ⟨m, hmal, hmin, hcase⟩ := findPages_cases n avail hal hlo (Nat.lt_of_not_le hend)
  have hbm : Book { s with mptr := m } := ⟨hb.placed, hb.apart, hb.refs, hb.word, hb.held⟩
  rcases hcase with ⟨heq, -⟩ | ⟨heq, hfree⟩ <;> rw [heq]
  · exact ⟨hbm, .of_boundary hmal hmin, rfl⟩
  · exact allocate_ok hbm hn hmal hmin hfree

end Malloc

/-! ### Runs -/

/-- What every call keeps. -/
structure Inv (s : St) : Prop where
  book : Book s
  ptr : s.mptr = 0 ∨ Pointer s
  ok : s.fault = false

/-- Sizes are in range, and the reference word that `malloc` increments has room. -/
def RefFits : Ev → St → Prop
  | .malloc n _, s => n < MAXMALLOC - 4 ∧ (s.mptr % PGSIZE ≠ 0 → s.ref (s.mptr / PGSIZE) < 2 ^ 32 - 1)
  | .free _, _ => True

instance (e : Ev) (s : St) : Decidable (RefFits e s) := by
  cases e <;> unfold RefFits <;> infer_instance

theorem Inv.init (others : ℕ → Bool) : Inv (init others) := by
  refine ⟨⟨nofun, .nil, fun q hq => ?_, fun _ => show 0 < 2 ^ 32 by decide, nofun⟩, .inl rfl, rfl⟩
  rw [Malloc.init] at hq
  dsimp only at hq
  split at hq <;> cases hq

theorem free_mptr (v : ℕ) (s : St) : (free v s).mptr = s.mptr ∧ (free v s).held = s.held ∧
    (free v s).live = s.live ∧ (free v s).out = s.out := by
  rw [free]
  split
  · exact ⟨rfl, rfl, rfl, rfl⟩
  split
  · split
    · exact ⟨rfl, rfl, rfl, rfl⟩
    · rw [dropRef]
      split <;> exact ⟨rfl, rfl, rfl, rfl⟩
  · exact ⟨rfl, rfl, rfl, rfl⟩

/-- `malloc(n)` finds `mptr` in the middle of the last page of the arena, with no room there. -/
def AtEnd (n : ℕ) (s : St) : Prop :=
  s.mptr % PGSIZE ≠ 0 ∧ s.mptr / PGSIZE + 1 = mend / PGSIZE ∧ s.mptr / PGSIZE ≠ (s.mptr + roundup4 n + 3) / PGSIZE

/-- What `malloc` does: it adds the chunk to its page, or it searches from a page
boundary on, which is in the arena unless `AtEnd`. -/
theorem malloc_cases {s : St} {n : ℕ} (h : Inv s) (hn : n < MAXMALLOC - 4) (avail : ℕ) :
    (Pointer s ∧ s.mptr % PGSIZE ≠ 0 ∧ s.mptr / PGSIZE = (s.mptr + roundup4 n + 3) / PGSIZE ∧
      malloc n avail s = addChunk n s) ∨
    ∃ t, malloc n avail s = findPages n avail t ∧ Book t ∧ t.mptr % PGSIZE = 0 ∧ mbegin ≤ t.mptr ∧
      t.live = s.live ∧ t.out = s.out ∧ t.fault = false ∧ (mend ≤ t.mptr → AtEnd n s) ∧
      (t = start s ∧ s.mptr % PGSIZE = 0 ∨ t = leavePage s ∧ Release s t (s.mptr / PGSIZE) (s.mptr / PGSIZE) ∧
        s.mptr / PGSIZE ≠ (s.mptr + roundup4 n + 3) / PGSIZE) := by
  have hb := h.book.start
  have hp := Pointer.start h.ptr
  have hsmall : ¬ MAXMALLOC ≤ roundup4 n := by
    rw [roundup4_of_lt (hn.trans_le (Nat.sub_le _ _))]
    replace hn : n < 1024 * 1024 - 4 := hn
    show ¬ 1024 * 1024 ≤ (n + 3) / 4 * 4
    omega
  rw [malloc, if_neg hsmall]
  by_cases hal : (start s).mptr % PGSIZE = 0
  · rw [if_pos hal]
    have hsame : (start s).live = s.live ∧ (start s).out = s.out ∧ (start s).fault = false := by
      rw [start]
      split <;> exact ⟨rfl, rfl, h.ok⟩
    refine .inr ⟨_, rfl, hb, hal, hp.inside.1, hsame.1, hsame.2.1, hsame.2.2,
      fun hge => absurd hp.inside.2 (not_lt.mpr hge), .inl ⟨rfl, ?_⟩⟩
    by_cases h0 : s.mptr = 0
    · rw [h0, Nat.zero_mod]
    · rwa [start, if_neg h0] at hal
  have hs : start s = s := by
    rw [start, if_neg]
    intro h0
    rw [start, if_pos h0] at hal
    exact hal (show mbegin % PGSIZE = 0 by decide)
  rw [if_neg hal]
  rw [hs] at hb hp hal ⊢
  by_cases hfit : s.mptr / PGSIZE = (s.mptr + roundup4 n + 3) / PGSIZE
  · exact .inl ⟨hp, hal, hfit, if_pos hfit⟩
  · rw [if_neg hfit]
    obtain ⟨hrel, hokl, hall, hlol⟩ := leavePage_ok hb hp hal
    obtain ⟨-, -, hlive, hout⟩ := free_mptr s.mptr s
    refine .inr ⟨leavePage s, rfl, hb.release hrel, hall, hlol, by rw [leavePage, hlive], by rw [leavePage, hout],
      hokl.trans h.ok, fun hge => ⟨hal, ?_, hfit⟩, .inr ⟨rfl, hrel, hfit⟩⟩
    have hin : s.mptr < 0x10000000 := hp.inside.2
    replace hge : 0x10000000 ≤ (s.mptr + 4096) - (s.mptr + 4096) % 4096 := hge
    show s.mptr / 4096 + 1 = 0x10000000 / 4096
    omega

theorem Inv.malloc {s : St} {n avail : ℕ} (h : Inv s) (hC : RefFits (.malloc n avail) s)
    (hout : (malloc n avail s).out = false) : Inv (malloc n avail s) ∧ Pointer (malloc n avail s) := by
  have hn : n < MAXMALLOC := hC.1.trans_le (Nat.sub_le _ _)
  rcases malloc_cases h hC.1 avail with ⟨hp, hmid, hfit, heq⟩ | ⟨t, heq, hb, hal, hlo, -, -, hok, -, -⟩
  · rw [heq]
    have href : s.ref (s.mptr / PGSIZE) + 1 < 2 ^ 32 := by
      have := hC.2 hmid
      omega
    obtain ⟨hb', hp', hok'⟩ := addChunk_ok h.book hp hn hmid hfit href
    exact ⟨⟨hb', .inr hp', hok'.trans h.ok⟩, hp'⟩
  · rw [heq] at hout ⊢
    obtain ⟨hb', hp', hok'⟩ := findPages_ok hb hn hal hlo hout
    exact ⟨⟨hb', .inr hp', hok'.trans hok⟩, hp'⟩

theorem step_eq {s : St} (e : Ev) (hout : s.out = false) (hok : s.fault = false) :
    step e s =
      match e with
      | .malloc n avail => malloc n avail s
      | .free k =>
        match s.live[k]? with
        | none => s
        | some c => free c.v { s with live := s.live.eraseIdx k } := by
  rw [step.eq_def, hout, hok]
  rfl

theorem Inv.free {s : St} {k : ℕ} {c : Chunk} (h : Inv s) (hk : s.live[k]? = some c) :
    Inv (free c.v { s with live := s.live.eraseIdx k }) := by
  obtain ⟨hrel, hok⟩ := free_release h.book hk
  obtain ⟨hptr, hheld, hlive, -⟩ := free_mptr c.v { s with live := s.live.eraseIdx k }
  refine ⟨h.book.release hrel, ?_, hok.trans h.ok⟩
  rcases h.ptr with h0 | hp
  · exact .inl (hptr.trans h0)
  · refine .inr ⟨?_, ?_, ?_, ?_⟩ <;> simp only [hptr, hheld, hlive]
    · exact hp.aligned
    · exact hp.inside
    · exact hp.held
    · exact fun hmid b hbl => hp.above hmid b ((List.eraseIdx_sublist _ _).mem hbl)

/-- Once `mptr` is out the run stands still, so `out` was false before. -/
theorem out_of_step {e : Ev} {s : St} (h : (step e s).out = false) : s.out = false := by
  by_contra hout
  rw [Bool.not_eq_false] at hout
  rw [step.eq_def, hout, Bool.true_or, if_pos rfl] at h
  cases hout.symm.trans h

theorem Inv.step {e : Ev} {s : St} (h : Inv s) (hC : RefFits e s) (hout : (step e s).out = false) :
    Inv (step e s) := by
  have heq := step_eq e (out_of_step hout) h.ok
  rw [heq] at hout ⊢
  cases e with
  | malloc n avail => exact (h.malloc hC hout).1
  | free k =>
    cases hk : s.live[k]? with
    | none => simpa only [hk] using h
    | some c => simpa only [hk] using h.free hk

/-- Chunks are mapped, apart from each other and from the reference words, and counted. -/
structure Safe (s : St) : Prop where
  ok : s.fault = false
  sized : ∀ c ∈ s.live, c.n ≤ c.size
  mapped : ∀ c ∈ s.live, ∀ a, c.v ≤ a → a < c.v + c.size → ∃ x, s.vpt (a / PGSIZE) = some (.heap x)
  apart : s.live.Pairwise Apart
  words : ∀ c ∈ s.live, ∀ q, s.vpt q = some (.heap false) →
    c.v + c.size ≤ q * PGSIZE + (PGSIZE - 4) ∨ (q + 1) * PGSIZE ≤ c.v
  counted : ∀ q, s.vpt q = some (.heap false) → s.ref q = s.count q + (s.held q).toNat

theorem Inv.safe {s : St} (h : Inv s) : Safe s := by
  refine ⟨h.ok, fun c hc => ?_, fun c hc a hlo hhi => ?_, h.book.apart, fun c hc q hq => ?_, h.book.refs⟩
  · rw [Chunk.size, roundup4_of_lt (h.book.placed c hc).small]
    omega
  · refine (h.book.placed c hc).mapped (Nat.div_le_div_right hlo) (Nat.div_le_div_right ?_)
    omega
  · have hp := h.book.placed c hc
    have hnot : ¬ (c.first ≤ q ∧ q < c.last) := fun hin =>
      nomatch ((hp.continued q hin.1 hin.2).symm.trans hq)
    replace hnot : ¬ (c.v / 4096 ≤ q ∧ q < (c.v + c.size + 3) / 4096) := hnot
    show c.v + c.size ≤ q * 4096 + (4096 - 4) ∨ (q + 1) * 4096 ≤ c.v
    omega

theorem Inv.of_run {others : ℕ → Bool} {es : List Ev} (hC : Throughout Malloc.step RefFits es (Malloc.init others))
    (hin : (exec Malloc.step es (Malloc.init others)).out = false) : Inv (exec Malloc.step es (Malloc.init others)) :=
  exec_invariant_of (I := fun s => s.out = false → Inv s)
    (fun _ _ h hC hout => (h (out_of_step hout)).step hC hout) es (fun _ => Inv.init others) hC hin

/-- **malloc hands out disjoint memory.** As long as `mptr` is in the arena and
no reference word overflows, the chunks are safe after every sequence of calls,
and a page that the next call unmaps has no byte of a chunk that is then live. -/
theorem safe_of_run {others : ℕ → Bool} {es : List Ev}
    (hC : Throughout step RefFits es (init others)) (hin : (exec step es (init others)).out = false) :
    Safe (exec step es (init others)) ∧
      ∀ e, RefFits e (exec step es (init others)) → (step e (exec step es (init others))).out = false →
        ∀ q, (step e (exec step es (init others))).vpt q = none →
          ∀ c ∈ (step e (exec step es (init others))).live, ∀ a, c.v ≤ a → a < c.v + c.size →
            a / PGSIZE ≠ q := by
  have hinv := Inv.of_run hC hin
  refine ⟨hinv.safe, fun e he hout q hq c hc a hlo hhi ha => ?_⟩
  obtain ⟨x, hx⟩ := (hinv.step he hout).safe.mapped c hc a hlo hhi
  rw [ha, hq] at hx
  cases hx

/-- Two chunks share a page, a large one takes three more, and one goes. -/
theorem safe_of_run_three :
    Safe (exec step [.malloc 100 9, .malloc 10 9, .malloc 10000 9, .free 2] (init fun _ => false)) :=
  (safe_of_run (by decide +kernel) (by decide +kernel)).1

/-! ### A reference word that starts again -/

/-- The state after one chunk of four bytes and `k` of none. -/
structure Crowded (k : ℕ) (s : St) : Prop where
  page : s.vpt (mbegin / PGSIZE) = some (.heap false)
  ref : s.ref (mbegin / PGSIZE) = (2 + k) % 2 ^ 32
  mptr : s.mptr = mbegin + 4
  live : s.live = List.replicate k ⟨mbegin + 4, 0⟩ ++ [⟨mbegin, 4⟩]
  out : s.out = false
  ok : s.fault = false

theorem Crowded.step {k : ℕ} {s : St} (h : Crowded k s) : Crowded (k + 1) (step (.malloc 0 1) s) := by
  have hstart : start s = s := by rw [start, if_neg (by rw [h.mptr]; decide)]
  have hpage : s.mptr / PGSIZE = mbegin / PGSIZE := by rw [h.mptr]; decide
  have hadd : malloc 0 1 s = addChunk 0 s := by
    rw [malloc, if_neg (by decide), hstart, if_neg (by rw [h.mptr]; decide), if_pos (by rw [h.mptr]; decide)]
  rw [step_eq _ h.out h.ok]
  simp only [hadd, addChunk, hpage, h.page]
  refine ⟨h.page, ?_, h.mptr, ?_, h.out, h.ok⟩
  · dsimp only
    rw [update_self, h.ref]
    omega
  · dsimp only
    rw [h.live, h.mptr, List.replicate_succ]
    rfl

theorem Crowded.run {k : ℕ} {s : St} (h : Crowded k s) :
    ∀ m, Crowded (k + m) (exec Malloc.step (List.replicate m (.malloc 0 1)) s)
  | 0 => h
  | m + 1 => by
    rw [List.replicate_succ', exec_append]
    exact (h.run m).step

/-- When the word is back at one, a chunk of no bytes takes the page with it. -/
theorem Crowded.free {k : ℕ} {s : St} (h : Crowded (k + 1) s) (hk : (2 + (k + 1)) % 2 ^ 32 = 1) :
    (Malloc.step (.free 0) s).out = false ∧ ⟨mbegin, 4⟩ ∈ (Malloc.step (.free 0) s).live ∧
      (Malloc.step (.free 0) s).vpt (mbegin / PGSIZE) = none := by
  have hone : s.ref (mbegin / PGSIZE) = 1 := h.ref.trans hk
  have hlive := h.live
  rw [List.replicate_succ, List.cons_append] at hlive
  have hhead : s.live[0]? = some ⟨mbegin + 4, 0⟩ := by rw [hlive]; rfl
  have happ := free_eq (v := mbegin + 4) (l := mbegin / PGSIZE) (s := { s with live := s.live.eraseIdx 0 })
    (Nat.le_add_right _ _) (by decide) (by decide)
    (fun q hlo hhi => nomatch (lt_of_le_of_lt hlo hhi)) h.page (by simp [hone]) (by simp [hone])
  rw [step_eq _ h.out h.ok]
  simp only [hhead, happ]
  refine ⟨h.out, ?_, if_pos (.inr ⟨trivial, hone⟩)⟩
  simp [hlive]

/-- A chunk of four bytes, then 2^32 - 1 of none, then one of these is freed:
the reference word is zero and the page of the chunk is unmapped. -/
theorem counted_round :
    ∃ es : List Ev, (∀ n avail, .malloc n avail ∈ es → n < MAXMALLOC - 4) ∧
      (exec step es (init fun _ => false)).out = false ∧
      ⟨mbegin, 4⟩ ∈ (exec step es (init fun _ => false)).live ∧
      (exec step es (init fun _ => false)).vpt (mbegin / PGSIZE) = none ∧
      ¬ Safe (exec step es (init fun _ => false)) := by
  -- the number of chunks stays a variable, so that no list of that length is evaluated
  obtain ⟨k, hk⟩ : ∃ k, (2 + (k + 1)) % 2 ^ 32 = 1 := ⟨2 ^ 32 - 2, by decide⟩
  have h1 : Crowded 0 (exec step [.malloc 4 1] (init fun _ => false)) := by
    constructor <;> decide +kernel
  have h2 := h1.run (k + 1)
  rw [Nat.zero_add] at h2
  obtain ⟨hout, hlive, hpage⟩ := h2.free hk
  refine ⟨.malloc 4 1 :: (List.replicate (k + 1) (.malloc 0 1) ++ [.free 0]), ?_, ?_⟩
  · intro n avail hmem
    simp only [List.mem_cons, List.mem_append, List.mem_replicate, Ev.malloc.injEq, reduceCtorEq, List.not_mem_nil,
      or_false] at hmem
    rcases hmem with ⟨rfl, -⟩ | ⟨-, rfl, -⟩ <;> decide
  · rw [exec, exec_append]
    refine ⟨hout, hlive, hpage, fun hsafe => ?_⟩
    obtain ⟨x, hx⟩ := hsafe.mapped _ hlive mbegin le_rfl (by decide)
    cases hpage.symm.trans hx

end Malloc
end Lib
end Jos
