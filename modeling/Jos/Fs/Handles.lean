/-
# Adding handles to a transaction

The specifications of the functions of `fs/jbd.c` that find, allocate and fill
the handle blocks of one transaction. They change the cache only, but for the
bitmap (`Logged`), and they fail only when the disk or the transaction is full.

Key definitions: `TInv`, `Ext`, `JFresh`.
Key theorems: `transactionGetHandle_run`, `transactionGetHandle_alloc_run`,
`mergeLoop_run`, `appendHandle_run`, `addHandle_run`.
-/
import Jos.Fs.Log
import Jos.Fs.Server

namespace Jos
namespace Fs

open Block Function

/-- The invariant of the files and of transaction `t`, which has `n` handles. -/
structure TInv (L : Layout) (own : ℕ → Use) (jown : ℕ → JUse) (n t : ℕ) (m : Disk) : Prop where
  inv : FInv L own m
  jrn : Jrn L jown
  ok : TransOk jown n m t

/-- Transaction `t` got more blocks. -/
structure Ext (L L' : Layout) (jown jown' : ℕ → JUse) (t : ℕ) : Prop where
  nb : L'.nb = L.nb
  D : L'.D = L.D
  ext : ∀ b, jown' b = jown b ∨ (jown b = .none ∧ (jown' b).trans = some t)

/-- Block `b` was allocated for transaction `t` and cleared. -/
structure JFresh (L : Layout) (own : ℕ → Use) (jown : ℕ → JUse) (t b : ℕ) (s s' : FsSt) : Prop where
  inv : FInv L own s'.mem
  gt : 3 < b
  lt : b < L.nb
  unowned : own b = .none
  unused : jown b = .none
  inUse : bitSet s'.mem b = false
  zero : ∀ i < 4096, s'.mem b i = 0
  mem : ∀ c, c ≠ b → c ≠ 2 → s'.mem c = s.mem c
  bits : ∀ c < L.nb, c ≠ b → bitSet s'.mem c = bitSet s.mem c
  logged : Logged L own jown t s s'
  taken : .taken b ∈ s'.trace

/-- The blocks allocated for transactions on the way are those in `B`. -/
def Takes (B : ℕ → Prop) (s s' : FsSt) : Prop := ∃ evs, s'.trace = evs ++ s.trace ∧ ∀ b, .taken b ∈ evs ↔ B b

/-- Transaction `t` got a block for its handle `n`, and a handle indirect block
if it had none. -/
structure Enlisted (n t : ℕ) (s s' : FsSt) : Prop where
  taken : Takes (fun b => b = hblk s'.mem t n ∨ (tHandlei s.mem t = 0 ∧ b = tHandlei s'.mem t)) s s'
  tab : tHandlei s.mem t ≠ 0 → tHandlei s'.mem t = tHandlei s.mem t
  old : ∀ j < n, hblk s'.mem t j = hblk s.mem t j

/-- Block `b` is the handle indirect block or a handle of transaction `t`. -/
def Lists (d : Disk) (t b : ℕ) : Prop := b ≠ 0 ∧ (b = tHandlei d t ∨ ∃ k < tNhandles d t, b = hblk d t k)

/-- The last of the first `k` handles of `t` that is a write to the file of `h`. -/
def lastWrite (m : Disk) (t : ℕ) (h : Block) : (k : ℕ) → Option ℕ
  | 0 => none
  | k + 1 =>
    if hOper (m (hblk m t k)) = JBD_WRITE ∧ strEq (m (hblk m t k)) 8 (hFilename h) then some k else lastWrite m t h k

/-- The write `g` with the bytes of `h` in it. -/
def mergeInto (g h : Block) : Block :=
  (g.write (HANDLE_HDRSIZE + 8 + (hOff h - hOff g).toNat) (hDsize h) (hData h)).put32 (HANDLE_HDRSIZE + 4)
    (hDsize g + hDsize h)

/-- There is room in the write `g` for the bytes of `h`. -/
def Fitting (g h : Block) : Prop := (hOff h - hOff g).toNat + hDsize h ≤ HANDLE_DATASIZE

/-- What the search for a write to merge into comes to. -/
inductive Merges (t : ℕ) (h : Block) (k : ℕ) (m m' : Disk) : Merge → Prop
  | dropped (hlast : lastWrite m t h k = none) (hm : m' = m) : Merges t h k m m' .dropped
  | append (j : ℕ) (hlast : lastWrite m t h k = some j) (hfit : ¬ Fitting (m (hblk m t j)) h) (hm : m' = m) :
      Merges t h k m m' .append
  | merged (j : ℕ) (hj : j < k) (hlast : lastWrite m t h k = some j) (hle : hOff (m (hblk m t j)) ≤ hOff h)
      (hfit : Fitting (m (hblk m t j)) h)
      (hm : m' = update m (hblk m t j) (mergeInto (m (hblk m t j)) h)) : Merges t h k m m' .merged

/-- The handles of `t` once `h` was added: there is one more, the last write to
the same file has its bytes, or nothing was logged. -/
inductive Logs (t : ℕ) (h : Block) (m m' : Disk) : Prop
  | append (g : Block) (hg : ∀ i, 4 ≤ i → i < 4096 → g i = h i) (hs : handlesOf m' t = handlesOf m t ++ [g])
      (hno : hOper h = JBD_WRITE → 0 < tNhandles m t →
        ∃ j, lastWrite m t h (tNhandles m t) = some j ∧ ¬ Fitting (m (hblk m t j)) h)
  | merged (j : ℕ) (hop : hOper h = JBD_WRITE) (hj : j < tNhandles m t) (hlast : lastWrite m t h (tNhandles m t) = some j)
      (hle : hOff (m (hblk m t j)) ≤ hOff h) (hfit : Fitting (m (hblk m t j)) h)
      (hs : handlesOf m' t = (handlesOf m t).set j (mergeInto (m (hblk m t j)) h))
  | dropped (hop : hOper h = JBD_WRITE) (hpos : 0 < tNhandles m t) (hlast : lastWrite m t h (tNhandles m t) = none)
      (hs : handlesOf m' t = handlesOf m t)

section
variable {L L' L'' : Layout} {own : ℕ → Use} {jown jown' jown'' : ℕ → JUse} {n t b : ℕ} {m m' : Disk} {s s' : FsSt}

theorem Ext.refl (L : Layout) (jown : ℕ → JUse) (t : ℕ) : Ext L L jown jown t := ⟨rfl, rfl, fun _ => .inl rfl⟩

theorem Ext.trans (h : Ext L L' jown jown' t) (h' : Ext L' L'' jown' jown'' t) : Ext L L'' jown jown'' t := by
  refine ⟨h'.nb.trans h.nb, h'.D.trans h.D, fun b => ?_⟩
  rcases h'.ext b with h1 | ⟨h1, h2⟩
  · rw [h1]
    exact h.ext b
  · rcases h.ext b with h3 | ⟨h3, -⟩
    · exact .inr ⟨h3 ▸ h1, h2⟩
    · exact .inr ⟨h3, h2⟩

theorem Ext.others (h : Ext L L' jown jown' t) : Others own jown' t = Others own jown t := by
  funext b
  unfold Others
  rcases h.ext b with h1 | ⟨h1, h2⟩
  · rw [h1]
  · rw [h1, h2]
    simp [JUse.trans, eq_comm]

theorem Ext.logged (h : Ext L L' jown jown' t) (hl : Logged L' own jown' t s s') : Logged L own jown t s s' := by
  obtain ⟨h1, h2, h3, h4, h5, h6, h7⟩ := hl
  rw [h.others] at h1
  rw [h.nb] at h4 h6 h7
  exact ⟨h1, h2, h3, h4, h5, h6, h7⟩

theorem takes_of_eq {B : ℕ → Prop} (h : s'.trace = s.trace) (hB : ∀ b, ¬ B b) : Takes B s s' :=
  ⟨[], h, fun b => ⟨fun hb => absurd hb List.not_mem_nil, fun hb => absurd hb (hB b)⟩⟩

theorem Takes.trans {B B' : ℕ → Prop} {s'' : FsSt} (h : Takes B s s') (h' : Takes B' s' s'') :
    Takes (fun b => B' b ∨ B b) s s'' := by
  obtain ⟨e, ht, he⟩ := h
  obtain ⟨e', ht', he'⟩ := h'
  exact ⟨e' ++ e, by rw [ht', ht, List.append_assoc], fun b => by rw [List.mem_append, he, he']⟩

/-- Nothing is logged before or after. -/
theorem Takes.congr {B : ℕ → Prop} {u u' : FsSt} (h : Takes B s s') (hu : s.trace = u.trace)
    (hu' : u'.trace = s'.trace) : Takes B u u' := by
  obtain ⟨e, ht, he⟩ := h
  exact ⟨e, by rw [hu', ht, hu], he⟩

/-- A block of nobody goes to transaction `t`. -/
theorem exists_ext (h : FInv L own m) (hj : Jrn L jown) (hgt : 3 < b) (hlt : b < L.nb) (hown : own b = .none)
    (hjown : jown b = .none) (hbit : bitSet m b = false) {u : JUse} (hu : u.trans = some t) :
    ∃ L', Ext L L' jown (update jown b u) t ∧ FInv L' own m ∧ Jrn L' (update jown b u) := by
  have hsmall := hj.small
  have hblk : ∀ c, c = 3 ∨ update jown b u c ≠ .none →
      c < L.nb ∧ c ≠ 1 ∧ (c < 2 ∨ 2 + (L.nb + 32767) / 32768 ≤ c) := by
    intro c hc
    by_cases hcb : c = b
    · omega
    · rw [update_of_ne hcb] at hc
      exact L.journal c ((hj.journal c).mpr hc)
  refine ⟨jLayout L (update jown b u) hblk, ⟨rfl, rfl, fun c => ?_⟩, ⟨h.nblocks, h.used, ?_, ?_, h.rootDir⟩,
    ⟨hj.small, ?_, ?_, fun c => .rfl⟩⟩
  · by_cases hcb : c = b
    · subst hcb
      rw [update_self]
      exact .inr ⟨hjown, hu⟩
    · exact .inl (update_of_ne hcb _ _)
  · rintro c (hc | hc)
    · exact h.fixed c (.inl hc)
    · by_cases hcb : c = b
      · subst hcb
        exact ⟨hown, hbit⟩
      · have hc' : c = 3 ∨ update jown b u c ≠ .none := hc
        rw [update_of_ne hcb] at hc'
        exact h.fixed c (.inr ((hj.journal c).mpr hc'))
  · exact fun a ha => ⟨(h.recOk a ha).ptr, (h.recOk a ha).ind, (h.recOk a ha).size, (h.recOk a ha).dead,
      (h.recOk a ha).dirSize⟩
  · rw [update_of_ne (by omega)]
    exact hj.zero
  · rw [update_of_ne (by omega)]
    exact hj.three

/-- Allocating a block for a transaction, clearing it and going on. -/
theorem jalloc_run {β : Type} {f : ℕ → FsM β} {R : β → FsSt → Prop} {E : Fault → FsSt → Prop}
    (h : FInv L own s.mem) (hj : Jrn L jown)
    (hf : ∀ b s', JFresh L own jown t b s s' → Takes (· = b) s s' → Run (f b) s' R E)
    (hfull : Full s → E (.err .noDisk) (s.log .full)) :
    Run (allocBlock >>= fun b => (modify fun s => s.log (.taken b)) >>= fun _ => clearBlock b >>= fun _ => f b)
      s R E := by
  have hbm : ∀ c < s.nblocks, Here s (bitBlk c) := by
    intro c hc
    rw [h.nblocks_eq] at hc
    rw [bitBlk_small hj hc]
    exact h.here_two
  refine .step (allocBlock_ok hbm h.two_lt) ?_ ?_
  · rintro e s' ⟨rfl, rfl, hF⟩
    exact hfull hF
  rintro b s1 ⟨h0, hlt, hfree, hm⟩
  rw [h.nblocks_eq] at hlt
  have hl1 : Logged L own jown t s s1 := logged_of_marked h hj hlt hfree hm
  have hi1 := hl1.inv h
  have hnf : ¬ L.Fixed b := fun hfx => by
    rw [(h.fixed b hfx).2] at hfree
    cases hfree
  have hgt : 3 < b := not_le.mp fun hle => hnf (.inl (.inl hle))
  have hown : own b = .none := by
    by_contra hc
    rw [(h.used b hc).2] at hfree
    cases hfree
  have hjown : jown b = .none := by
    by_contra hc
    exact hnf (.inr ((hj.journal b).mpr (.inr hc)))
  have hin : bitSet s1.mem b = false := by rw [hm.bit, if_pos rfl]
  have hhere : Here (s1.log (.taken b)) b := by
    refine ⟨h0, ?_, hin⟩
    rwa [show (s1.log (.taken b)).nblocks = s1.nblocks from rfl, hi1.nblocks_eq]
  refine .modifyBind (g := fun s : FsSt => s.log (.taken b)) (.bind (clearBlock_ok hhere) ?_)
  intro _ s2 h2
  have hno : ¬ Others own jown t b := by
    rintro (hc | hc | ⟨t', -, hc⟩)
    · omega
    · exact hc hown
    · rw [hjown] at hc
      exact absurd hc (by simp [JUse.trans])
  have hl2 : Logged L own jown t (s1.log (.taken b)) s2 :=
    logged_of_stored hi1 hj h2 hno (by omega) fun hc => by omega
  have hl := (hl1.trans (logged_log_taken hi1 hj)).trans hl2
  refine hf b s2 ⟨hl.inv h, hgt, hlt, hown, hjown, hl2.bits b hlt hin, ?_, ?_, ?_, hl, ?_⟩ ?_
  · intro i hi
    rw [h2.mem, update_self, write_in (by omega) (by simpa using hi)]
  · intro c hcb hc2
    rw [h2.mem, update_of_ne hcb, show (s1.log (.taken b)).mem = s1.mem from rfl,
      hm.mem c (by rw [bitBlk_small hj hlt]; exact hc2)]
  · intro c hc hcb
    rw [bitSet_congr (m := s1.mem), hm.bit, if_neg hcb]
    rw [h2.mem, bitBlk_small hj hc, update_of_ne (show 2 ≠ b by omega)]
    rfl
  · rw [h2.trace]
    exact List.mem_cons_self ..
  · obtain ⟨e, ht, he⟩ := hm.evs
    refine ⟨.taken b :: e, by rw [h2.trace]; exact congrArg _ ht, fun c => ?_⟩
    have hno : Event.taken c ∉ e := fun hc => by rcases he _ hc with hx | ⟨hx, -⟩ <;> cases hx
    simp [hno]

/-- No blocks but two, of the first `N`, were taken or freed. -/
def TakesTwo (N : ℕ) (s s' : FsSt) : Prop := ∃ b c, ∀ d < N, d ≠ b → d ≠ c → bitSet s'.mem d = bitSet s.mem d

/-- There is no room for one more handle of `t`: the disk is full, or has one
free block where two are needed. -/
def Cramped (t : ℕ) (s : FsSt) : Prop :=
  Full s ∨ (tHandlei s.mem t = 0 ∧ ∃ b, ∀ c, c ≠ 0 → c ≠ b → c < s.nblocks → bitSet s.mem c = false)

/-! ### Finding a handle -/

theorem TInv.tab_here (h : TInv L own jown n t s.mem) (hi : tHandlei s.mem t ≠ 0) : Here s (tHandlei s.mem t) :=
  h.inv.here h.jrn (h.ok.tab_ne hi)

theorem TInv.handle_here (h : TInv L own jown n t s.mem) {k : ℕ} (hk : k < n) : Here s (hblk s.mem t k) :=
  h.inv.here h.jrn (h.ok.handle_ne hk)

theorem TransOk.handlei_ne (h : TransOk jown n m t) {k : ℕ} (hk : k < n) : tHandlei m t ≠ 0 := fun h0 => by
  rw [h.zero h0] at hk
  omega

/-- `transaction_handle_walk` of a transaction with a handle indirect block. -/
theorem transactionHandleWalk_run {k : ℕ} {al : Bool} {E : Fault → FsSt → Prop} (hk : k < 1024)
    (hi : Here s (tHandlei s.mem t)) :
    Run (transactionHandleWalk t k al) s (fun p s' => p = ⟨tHandlei s.mem t, 4 * k⟩ ∧ s' = s) E := by
  unfold transactionHandleWalk
  rw [if_neg (by simp only [MAX_NHANDLES_INTRANS, BLKSIZE]; omega)]
  refine .getBind ?_
  dsimp only
  rw [if_neg hi.1, hi.not_free, if_neg (by simp)]
  refine .getBind (.bind (diskaddr_ok hi.1 hi.2.1) ?_)
  rintro _ s2 ⟨rfl, rfl⟩
  exact .pure ⟨rfl, rfl⟩

/-- `transaction_get_handle` of a handle that is there. -/
theorem transactionGetHandle_run {k : ℕ} {al : Bool} {E : Fault → FsSt → Prop} (h : TInv L own jown n t s.mem)
    (hk : k < n) :
    Run (transactionGetHandle t k al) s (fun r s' => r = hblk s.mem t k ∧ Loaded s s') E := by
  have hk' : k < 1024 := by have := h.ok.le; omega
  have hi := h.ok.handlei_ne hk
  have hh := h.handle_here hk
  unfold transactionGetHandle
  rw [if_neg (by simp only [MAX_NHANDLES_INTRANS, BLKSIZE]; omega)]
  refine .bind (transactionHandleWalk_run hk' (h.tab_here hi)) ?_
  rintro p s0 ⟨rfl, rfl⟩
  refine .bind (load32_ok (h.tab_here hi)) ?_
  rintro b s1 ⟨rfl, h1⟩
  have hh1 : Here s1 ((s0.mem (tHandlei s0.mem t)).le32 (4 * k)) := h1.here.mpr hh
  refine .getBind ?_
  dsimp only
  rw [if_neg hh1.1, hh1.not_free, if_neg (by simp)]
  refine .bind (load32_ok (h1.here.mpr (h.tab_here hi))) ?_
  rintro b s2 ⟨rfl, h2⟩
  rw [h1.mem]
  have hh2 := h2.here.mpr hh1
  refine (diskaddr_ok hh2.1 hh2.2.1).post ?_
  rintro r s3 ⟨rfl, hs3⟩
  rw [hs3]
  exact ⟨rfl, h1.trans h2⟩

/-! ### Allocating a handle -/

/-- A store into the record of the transaction. -/
theorem logged_of_rec {o k : ℕ} {src : ℕ → UInt8} (h : FInv L own s.mem) (hj : Jrn L jown)
    (hs : Stored 3 (tOff t + o) k src s s') (ho : o + k ≤ 32) : Logged L own jown t s s' :=
  logged_of_stored h hj hs (fun hc => (hc.lt h hj).2.2 rfl) (by omega) fun _ => ⟨by omega, by omega⟩

/-- The first handle indirect block of a transaction. -/
theorem TransOk.of_fresh (h : TransOk jown n m t) (h0 : tHandlei m t = 0) (hgt : b ≠ 0) (hi : tHandlei m' t = b)
    (hz : ∀ i < 4096, m' b i = 0) : TransOk (update jown b (.tab t)) n m' t := by
  have hn := h.zero h0
  refine ⟨fun _ => ?_, fun hc => absurd (hi ▸ hc) hgt, h.le, fun k hk => by omega, fun _ k hk _ => ?_⟩
  · rw [hi, update_self]
  · have hword : (m' b).le32 (4 * k) = Block.zero.le32 0 := le32_congr fun i hi4 => hz _ (by omega)
    rw [hblk, hi, hword, le32_zero]

/-- `transaction_handle_walk` for the next handle. -/
theorem transactionHandleWalk_alloc_run {k : ℕ} (h : TInv L own jown n t s.mem) (hk : k < 1024) :
    Run (transactionHandleWalk t k true) s
      (fun p s' => ∃ L' jown', Ext L L' jown jown' t ∧ TInv L' own jown' n t s'.mem ∧ tHandlei s'.mem t ≠ 0 ∧
        p = ⟨tHandlei s'.mem t, 4 * k⟩ ∧ Logged L own jown t s s' ∧
        (∀ i < 16, s'.mem 3 (tOff t + i) = s.mem 3 (tOff t + i)) ∧
        (∀ b, jown' b ≠ jown b → .taken b ∈ s'.trace) ∧
        ((tHandlei s.mem t ≠ 0 ∧ s' = s) ∨
          (tHandlei s.mem t = 0 ∧ ∃ b, ∀ c < L.nb, c ≠ b → bitSet s'.mem c = bitSet s.mem c)) ∧
        Takes (fun b => tHandlei s.mem t = 0 ∧ b = tHandlei s'.mem t) s s')
      (fun e s' => e = .err .noDisk ∧ s' = s.log .full ∧ Full s) := by
  by_cases h0 : tHandlei s.mem t = 0
  · unfold transactionHandleWalk
    rw [if_neg (by simp only [MAX_NHANDLES_INTRANS, BLKSIZE]; omega)]
    refine .getBind ?_
    dsimp only
    rw [if_pos h0, if_pos rfl]
    refine jalloc_run (t := t) h.inv h.jrn ?_ fun hF => ⟨rfl, rfl, hF⟩
    intro b s1 hf htk
    refine .bind (store_ok hf.inv.here_three _ _ _) ?_
    intro _ s2 h2
    have hl2 : Logged L own jown t s1 s2 := logged_of_rec hf.inv h.jrn h2 (by omega)
    have hi2 := hl2.inv hf.inv
    have hlt32 : b < 2 ^ 32 := by have := h.jrn.small; have := hf.lt; omega
    have hti : tHandlei s2.mem t = b := by
      rw [tHandlei, h2.mem, update_self]
      exact (le32_put32 _ _ _).trans (Nat.mod_eq_of_lt hlt32)
    have hz : ∀ i < 4096, s2.mem b i = 0 := by
      intro i hi
      have := hf.gt
      rw [h2.mem, update_of_ne (show b ≠ 3 by omega), hf.zero i hi]
    have hok := h.ok.of_fresh h0 (by have := hf.gt; omega) hti hz
    obtain ⟨L', hext, hinv', hjrn'⟩ := exists_ext hi2 h.jrn hf.gt hf.lt hf.unowned hf.unused
      (hl2.bits b hf.lt hf.inUse) (u := .tab t) rfl
    have hhere : Here s2 b := ⟨by have := hf.gt; omega, by rw [hi2.nblocks_eq]; exact hf.lt,
      hl2.bits b hf.lt hf.inUse⟩
    refine .getBind ?_
    rw [hti]
    refine .bind (diskaddr_ok hhere.1 hhere.2.1) ?_
    rintro va s3 ⟨hva, hs3⟩
    rw [hva, hs3]
    refine .pure ⟨L', _, hext, ⟨hinv', hjrn', hok⟩, by rw [hti]; exact hhere.1, by rw [hti],
      hf.logged.trans hl2, fun i hi => ?_, fun c hc => ?_, .inr ⟨h0, b, fun c hc hcb => ?_⟩, ?_⟩
    · have := hf.gt
      rw [h2.mem, update_self, write_out (by omega), hf.mem 3 (by omega) (by omega)]
    · obtain rfl : c = b := by
        by_contra hne
        exact hc (update_of_ne hne _ _)
      rw [h2.trace]
      exact hf.taken
    · rw [← hf.bits c hc hcb]
      exact bitSet_small h.jrn hc (by rw [h2.mem, update_of_ne (by omega)])
    · simp only [h0, hti, true_and]
      exact htk.congr rfl h2.trace
  · refine (transactionHandleWalk_run hk (h.tab_here h0)).post ?_
    rintro p s' ⟨rfl, hs'⟩
    rw [hs']
    exact ⟨L, jown, Ext.refl L jown t, h, h0, rfl, Logged.refl L own jown t s, fun _ _ => rfl,
      fun b hb => absurd rfl hb, .inl ⟨h0, rfl⟩, takes_of_eq rfl fun _ hb => h0 hb.1⟩

/-- One more handle. -/
theorem TransOk.of_next (h : TransOk jown n m t) (h0 : tHandlei m t ≠ 0) (hn : n < 1024) (hb : jown b = .none)
    (hne : b ≠ 0) (hlt : b < 2 ^ 32) (hi : tHandlei m' t = tHandlei m t)
    (htab : m' (tHandlei m t) = (m (tHandlei m t)).put32 (4 * n) b) :
    TransOk (update jown b (.handle t n)) (n + 1) m' t := by
  have hne' : ∀ c, jown c ≠ .none → update jown b (.handle t n) c = jown c := by
    intro c hc
    refine update_of_ne ?_ _ _
    rintro rfl
    exact hc hb
  have hsame : ∀ k, k ≠ n → hblk m' t k = hblk m t k := by
    intro k hk
    rw [hblk, hblk, hi, htab, le32_put32_out (by omega)]
  have hnew : hblk m' t n = b := by
    rw [hblk, hi, htab, le32_put32, Nat.mod_eq_of_lt hlt]
  refine ⟨fun _ => ?_, fun hc => absurd (hi ▸ hc) h0, hn, fun k hk => ?_, fun _ k hk hle => ?_⟩
  · rw [hi, hne' _ (h.tab_ne h0), h.tab h0]
  · by_cases hkn : k = n
    · rw [hkn, hnew, update_self]
      exact ⟨hne, rfl⟩
    · obtain ⟨h1, h2⟩ := h.handle k (by omega)
      rw [hsame k hkn, hne' _ (by rw [h2]; simp)]
      exact ⟨h1, h2⟩
  · rw [hsame k (by omega)]
    exact h.rest h0 k hk (by omega)

variable (h : TInv L own jown n t s.mem)
include h

/-- `transaction_get_handle` for the next handle. -/
theorem transactionGetHandle_alloc_run :
    Run (transactionGetHandle t n true) s
      (fun r s' => ∃ L' jown', Ext L L' jown jown' t ∧ TInv L' own jown' (n + 1) t s'.mem ∧
        r = hblk s'.mem t n ∧ Logged L own jown t s s' ∧
        (∀ i < 16, s'.mem 3 (tOff t + i) = s.mem 3 (tOff t + i)) ∧
        (∀ b, jown' b ≠ jown b → .taken b ∈ s'.trace) ∧
        (∀ j < n, s'.mem (hblk s'.mem t j) = s.mem (hblk s.mem t j)) ∧ TakesTwo L.nb s s' ∧ Enlisted n t s s')
      (fun e s' => (∃ er, e = .err er) ∧ Logged L own jown t s s' ∧ (1024 ≤ n ∨ Cramped t s)) := by
  unfold transactionGetHandle
  by_cases hn : 1024 ≤ n
  · rw [if_pos (show MAX_NHANDLES_INTRANS ≤ n from hn)]
    exact .throw ⟨⟨_, rfl⟩, Logged.refl L own jown t s, .inl hn⟩
  rw [if_neg (show ¬ MAX_NHANDLES_INTRANS ≤ n from hn)]
  rw [not_le] at hn
  refine .step (transactionHandleWalk_alloc_run h hn) ?_ ?_
  · rintro e s' ⟨rfl, rfl, hF⟩
    exact ⟨⟨_, rfl⟩, logged_log_full, .inr (.inl hF)⟩
  rintro p s1 ⟨L1, jown1, hext1, h1, hi1, rfl, hl1, hh1, ht1, hwalk, htk1⟩
  refine .bind (load32_ok (h1.tab_here hi1)) ?_
  rintro b0 s2 ⟨hb0, hld⟩
  have h2 : TInv L1 own jown1 n t s2.mem := by rwa [hld.mem]
  have hi2 : tHandlei s2.mem t ≠ 0 := by rwa [hld.mem]
  have hb0 : b0 = 0 := by
    rw [hb0]
    exact h1.ok.rest hi1 n hn le_rfl
  refine .getBind ?_
  dsimp only
  rw [if_pos hb0, if_pos rfl, ← hld.mem]
  refine jalloc_run (t := t) h2.inv h2.jrn ?_ ?_
  · intro b s3 hf htk3
    have hltab := h2.jrn.blk (h2.ok.tab_ne hi2)
    have hbt : tHandlei s2.mem t ≠ b := by
      intro he
      have := hf.unused
      rw [← he, h2.ok.tab hi2] at this
      cases this
    have hgt := hf.gt
    have hlt32 : b < 2 ^ 32 := by have := h2.jrn.small; have := hf.lt; omega
    have hm3 : s3.mem 3 = s2.mem 3 := hf.mem 3 (by omega) (by omega)
    have hi3 : tHandlei s3.mem t = tHandlei s2.mem t := by rw [tHandlei, hm3, tHandlei]
    have htab3 : Here s3 (tHandlei s2.mem t) := hf.inv.here h2.jrn (h2.ok.tab_ne hi2)
    refine .bind (store_ok htab3 _ _ _) ?_
    intro _ s4 h4
    have hl4 : Logged L1 own jown1 t s3 s4 := logged_of_stored hf.inv h2.jrn h4
      (not_others hf.inv h2.jrn (by rw [h2.ok.tab hi2]; rfl)) (by omega) fun hc => by omega
    have hm4 : s4.mem 3 = s2.mem 3 := by rw [h4.mem, update_of_ne (by omega), hm3]
    have hi4 : tHandlei s4.mem t = tHandlei s2.mem t := by rw [tHandlei, hm4, tHandlei]
    have htab4 : s4.mem (tHandlei s2.mem t) = (s2.mem (tHandlei s2.mem t)).put32 (4 * n) b := by
      rw [h4.mem, update_self, hf.mem _ hbt (by omega)]
      rfl
    have hok := h2.ok.of_next hi2 hn hf.unused (by omega) hlt32 hi4 htab4
    have hinv4 := hl4.inv hf.inv
    obtain ⟨L', hext, hinv', hjrn'⟩ := exists_ext hinv4 h2.jrn hf.gt hf.lt hf.unowned hf.unused
      (hl4.bits b hf.lt hf.inUse) (u := .handle t n) rfl
    have hT : TInv L' own (update jown1 b (.handle t n)) (n + 1) t s4.mem := ⟨hinv', hjrn', hok⟩
    have hv : (s4.mem (tHandlei s2.mem t)).le32 (4 * n) = hblk s4.mem t n := by rw [hblk, hi4]
    refine .bind (load32_ok (by rw [← hi4]; exact hT.tab_here (by rwa [hi4]))) ?_
    rintro b1 s5 ⟨rfl, h5⟩
    rw [hv]
    have hh5 := h5.here.mpr (hT.handle_here (Nat.lt_succ_self n))
    refine (diskaddr_ok hh5.1 hh5.2.1).post ?_
    rintro r s6 ⟨rfl, hs6⟩
    rw [hs6]
    -- a transaction with a handle has its handle indirect block
    have hs1 : tHandlei s.mem t ≠ 0 → s1 = s := fun h0 => hwalk.elim And.right fun hc => absurd hc.1 h0
    have hi5 : tHandlei s5.mem t = tHandlei s1.mem t := by rw [h5.mem, hi4, hld.mem]
    have hsame : ∀ j < n, hblk s4.mem t j = hblk s2.mem t j := by
      intro j hj
      rw [hblk, hi4, htab4, le32_put32_out (by omega), hblk]
    refine ⟨L', _, hext1.trans hext, by rwa [h5.mem], by rw [h5.mem], ?_, ?_, ?_, fun j hj => ?_, ?_,
      ⟨?_, fun h0 => ?_, fun j hj => ?_⟩⟩
    · exact ((hl1.trans (hext1.logged (hld.logged.trans (hf.logged.trans hl4)))).trans h5.logged)
    · intro i hi
      rw [h5.mem, hm4, hld.mem, hh1 i hi]
    · intro c hc
      obtain ⟨e4, ht4, -⟩ := (hf.logged.trans hl4).evs
      rw [h5.trace]
      by_cases hcb : c = b
      · rw [hcb, h4.trace]
        exact hf.taken
      · rw [update_of_ne hcb] at hc
        rw [ht4, hld.trace]
        exact List.mem_append_right _ (ht1 c hc)
    · obtain ⟨-, hu⟩ := h2.ok.handle j hj
      have hbj := h2.jrn.blk (b := hblk s2.mem t j) (by rw [hu]; simp)
      have hjt : hblk s2.mem t j ≠ tHandlei s2.mem t := by
        intro he
        rw [he, h2.ok.tab hi2] at hu
        cases hu
      have hjb : hblk s2.mem t j ≠ b := by
        rintro rfl
        rw [hf.unused] at hu
        cases hu
      rw [h5.mem, hsame j hj, h4.mem, update_of_ne hjt, hf.mem _ hjb (by omega), hld.mem,
        hs1 (h.ok.handlei_ne hj)]
    · have hbit : ∀ d < L.nb, d ≠ b → bitSet s5.mem d = bitSet s1.mem d := by
        intro d hd hdb
        have hd1 : d < L1.nb := by rwa [hext1.nb]
        rw [h5.mem, ← hld.mem, ← hf.bits d hd1 hdb]
        exact bitSet_small h2.jrn hd1 (by rw [h4.mem, update_of_ne (by omega)])
      rcases hwalk with ⟨-, hs1⟩ | ⟨-, b0, hb0'⟩
      · exact ⟨b, b, fun d hd hdb _ => by rw [hbit d hd hdb, hs1]⟩
      · exact ⟨b, b0, fun d hd hdb hdb0 => by rw [hbit d hd hdb, hb0' d hd hdb0]⟩
    · have hvb : hblk s5.mem t n = b := by
        rw [h5.mem, hblk, hi4, htab4]
        exact (le32_put32 _ _ _).trans (Nat.mod_eq_of_lt hlt32)
      rw [hvb, hi5]
      exact htk1.trans (htk3.congr hld.trace (h5.trace.trans h4.trace))
    · rw [hi5, hs1 h0]
    · rw [h5.mem, hsame j hj, hld.mem, hs1 (h.ok.handlei_ne hj)]
  · intro hF
    refine ⟨⟨_, rfl⟩, hl1.trans (hld.logged.trans logged_log_full), .inr ?_⟩
    rcases hwalk with ⟨-, hs1⟩ | ⟨h0, b, hb⟩
    · refine .inl fun c hc0 hlt => ?_
      have := hF c hc0 (by rwa [FsSt.nblocks, hld.mem, hs1])
      rwa [hld.mem, hs1] at this
    · refine .inr ⟨h0, b, fun c hc0 hcb hlt => ?_⟩
      rw [h.inv.nblocks_eq] at hlt
      rw [← hb c hlt hcb, ← hld.mem]
      refine hF c hc0 ?_
      rwa [h2.inv.nblocks_eq, hext1.nb]

/-! ### `add_handle_to_transaction` -/

/-- A store into a handle block of the transaction. -/
theorem TInv.of_stored_handle {k : ℕ} (hk : k < n) {off len : ℕ} {src : ℕ → UInt8}
    (hs : Stored (hblk s.mem t k) off len src s s') :
    TInv L own jown n t s'.mem ∧ Logged L own jown t s s' ∧ s'.mem 3 = s.mem 3 ∧
      ∀ j, hblk s'.mem t j = hblk s.mem t j := by
  obtain ⟨hne, hu⟩ := h.ok.handle k hk
  have hb := h.jrn.blk (b := hblk s.mem t k) (by rw [hu]; simp)
  have hi := h.ok.handlei_ne hk
  have hl : Logged L own jown t s s' := logged_of_stored h.inv h.jrn hs
    (not_others h.inv h.jrn (by rw [hu]; rfl)) (by omega) fun hc => by omega
  have hm3 : s'.mem 3 = s.mem 3 := by rw [hs.mem, update_of_ne (by omega)]
  have hi' : tHandlei s'.mem t = tHandlei s.mem t := by rw [tHandlei, hm3, tHandlei]
  have htab : s'.mem (tHandlei s.mem t) = s.mem (tHandlei s.mem t) := by
    rw [hs.mem, update_of_ne]
    intro he
    rw [← he, h.ok.tab hi] at hu
    cases hu
  exact ⟨⟨hl.inv h.inv, h.jrn, h.ok.congr hi' (fun _ => htab) fun _ _ => rfl⟩, hl, hm3,
    fun j => by rw [hblk, hblk, hi', htab]⟩

/-- The handles after a store into one of them. -/
theorem TInv.read_stored_handle {k : ℕ} (hk : k < n) {off len : ℕ} {src : ℕ → UInt8}
    (hs : Stored (hblk s.mem t k) off len src s s') {j : ℕ} (hj : j < n) :
    s'.mem (hblk s'.mem t j) =
      if j = k then (s.mem (hblk s.mem t k)).write off len src else s.mem (hblk s.mem t j) := by
  obtain ⟨-, -, -, hb⟩ := h.of_stored_handle hk hs
  rw [hb j, hs.mem]
  split_ifs with hjk
  · rw [hjk, update_self]
  · refine update_of_ne (fun he => hjk ?_) _ _
    have hu := (h.ok.handle j hj).2
    rw [he, (h.ok.handle k hk).2] at hu
    exact (JUse.handle.inj hu).2.symm

/-- A store into a handle takes no block. -/
theorem TInv.bits_stored_handle {k : ℕ} (hk : k < n) {off len : ℕ} {src : ℕ → UInt8}
    (hs : Stored (hblk s.mem t k) off len src s s') {d : ℕ} (hd : d < L.nb) : bitSet s'.mem d = bitSet s.mem d := by
  have hb := h.jrn.blk (h.ok.handle_ne hk)
  exact bitSet_small h.jrn hd (by rw [hs.mem, update_of_ne (by omega)])

omit h

theorem handlesOf_eq (m : Disk) (t : ℕ) : handlesOf m t = (List.range (tNhandles m t)).map fun k => m (hblk m t k) :=
  rfl

theorem attempt_getHandle {k : ℕ} {al : Bool} {E : Fault → FsSt → Prop} (hT : TInv L own jown n t s.mem) (hk : k < n) :
    Run (attempt (transactionGetHandle t k al)) s (fun r s' => r = .ok (hblk s.mem t k) ∧ Loaded s s') E := by
  refine (attempt_run (transactionGetHandle_run (E := fun _ _ => False) hT hk)).mono ?_ fun _ _ h => h.2.elim
  rintro r s' (⟨b, rfl, rfl, hl⟩ | ⟨e, -, he⟩)
  · exact ⟨rfl, hl⟩
  · exact he.elim

/-- The search for a write to merge into. -/
theorem mergeLoop_run (h : Block) : ∀ (k : ℕ) {s : FsSt}, TInv L own jown n t s.mem → k ≤ n →
    Run (mergeLoop t h k) s
      (fun r s' => TInv L own jown n t s'.mem ∧ Logged L own jown t s s' ∧ s'.mem 3 = s.mem 3 ∧ s'.trace = s.trace ∧
        Merges t h k s.mem s'.mem r)
      (fun e s' => (e = .panic .writeOrder ∧
        ∃ j, lastWrite s.mem t h k = some j ∧ hOff h < hOff (s.mem (hblk s.mem t j))) ∧ Logged L own jown t s s')
  | 0, s, hT, _ => .pure ⟨hT, Logged.refl L own jown t s, rfl, rfl, .dropped rfl rfl⟩
  | k + 1, s, hT, hk => by
    have hk' : k < n := by omega
    unfold mergeLoop
    refine .bind (attempt_getHandle hT hk') ?_
    rintro r s1 ⟨rfl, hl1⟩
    dsimp only
    refine .bind (touch_ok (hl1.here.mpr (hT.handle_here hk'))) ?_
    intro _ s2 hl2
    have hl := hl1.trans hl2
    have hT2 : TInv L own jown n t s2.mem := by rwa [hl.mem]
    have hlg : Logged L own jown t s s2 := hl.logged
    have hm3 : s2.mem 3 = s.mem 3 := by rw [hl.mem]
    refine .getBind ?_
    have hstep : lastWrite s.mem t h (k + 1) =
        if hOper (s.mem (hblk s.mem t k)) = JBD_WRITE ∧ strEq (s.mem (hblk s.mem t k)) 8 (hFilename h) then some k
        else lastWrite s.mem t h k := rfl
    rw [hl.mem]
    split_ifs with h1 h2 h3
    · exact .throw ⟨⟨rfl, k, by rw [hstep, if_pos h1], h2⟩, hlg⟩
    · rw [← hl.mem]
      refine .bind (store_ok (hT2.handle_here hk') _ _ _) ?_
      intro _ s3 hs3
      obtain ⟨hT3, hl3, h33, hb3⟩ := hT2.of_stored_handle hk' hs3
      rw [← hb3 k]
      refine .bind (store_ok (hT3.handle_here hk') _ _ _) ?_
      intro _ s4 hs4
      obtain ⟨hT4, hl4, h34, -⟩ := hT3.of_stored_handle hk' hs4
      refine .pure ⟨hT4, hlg.trans (hl3.trans hl4), by rw [h34, h33, hm3], by rw [hs4.trace, hs3.trace, hl.trace], ?_⟩
      have hmem : s4.mem = update s.mem (hblk s.mem t k) (mergeInto (s.mem (hblk s.mem t k)) h) := by
        rw [hs4.mem, hb3 k, hs3.mem, update_self, update_idem, hl.mem]
        rfl
      rw [hl.mem]
      exact .merged k (Nat.lt_succ_self k) (by rw [hstep, if_pos h1]) (not_lt.mp h2) h3 hmem
    · exact .pure ⟨hT2, hlg, hm3, hl.trace, .append k (by rw [hstep, if_pos h1]) h3 hl.mem⟩
    · refine (mergeLoop_run h k hT2 (by omega)).mono ?_ ?_
      · rintro r s3 ⟨h5, h6, h7, h9, h8⟩
        refine ⟨h5, hlg.trans h6, h7.trans hm3, h9.trans hl.trace, ?_⟩
        rw [hl.mem] at h8
        cases h8 with
        | dropped hn hm => exact .dropped (by rw [hstep, if_neg h1, hn]) hm
        | append j hs hfit hm => exact .append j (by rw [hstep, if_neg h1, hs]) hfit hm
        | merged j hj hs hle hfit hm => exact .merged j (by omega) (by rw [hstep, if_neg h1, hs]) hle hfit hm
      · rintro e s3 ⟨⟨h5, j, h6, h7⟩, h8⟩
        rw [hl.mem] at h6 h7
        exact ⟨⟨h5, j, by rw [hstep, if_neg h1, h6], h7⟩, hlg.trans h8⟩

/-- What adding a handle does: the record's first words stay, and every new
block was allocated for it. -/
structure Added (L : Layout) (own : ℕ → Use) (jown : ℕ → JUse) (t : ℕ) (s s' : FsSt) : Prop where
  logged : Logged L own jown t s s'
  head : ∀ i < 12, s'.mem 3 (tOff t + i) = s.mem 3 (tOff t + i)
  inv : ∃ L' jown', Ext L L' jown jown' t ∧ TInv L' own jown' (tNhandles s'.mem t) t s'.mem ∧
    ∀ b, jown' b ≠ jown b → .taken b ∈ s'.trace
  bits : TakesTwo L.nb s s'
  lists : ∃ B, Takes B s s' ∧ ∀ b, Lists s'.mem t b ↔ B b ∨ Lists s.mem t b

/-- How adding a handle stops the server. -/
def AddPanic (L : Layout) (own : ℕ → Use) (jown : ℕ → JUse) (t : ℕ) (s : FsSt) (e : Fault) (s' : FsSt) : Prop :=
  (e = .panic .writeOrder ∨ ∃ er, e = .panic (.addHandle er)) ∧ Logged L own jown t s s'

/-- The last write to the file of `h` starts after it. -/
def Disordered (t : ℕ) (h : Block) (m : Disk) : Prop :=
  ∃ j, lastWrite m t h (tNhandles m t) = some j ∧ hOff h < hOff (m (hblk m t j))

/-- `t` cannot have one more handle. -/
def Overfull (t : ℕ) (s : FsSt) : Prop := 1024 ≤ tNhandles s.mem t ∨ Cramped t s

/-- A store into the journal superblock makes no room. -/
theorem Cramped.of_three (hT : TInv L own jown n t s.mem) (h3 : ∀ c, c ≠ 3 → s'.mem c = s.mem c)
    (hi : tHandlei s'.mem t = tHandlei s.mem t) (hc : Cramped t s') : Cramped t s := by
  have hnb : s'.nblocks = s.nblocks := by rw [FsSt.nblocks, h3 1 (by omega), FsSt.nblocks]
  have hbit : ∀ c < s.nblocks, bitSet s'.mem c = bitSet s.mem c := fun c hlt => by
    rw [hT.inv.nblocks_eq] at hlt
    exact bitSet_small hT.jrn hlt (h3 2 (by omega))
  rcases hc with hF | ⟨h0, b, hb⟩
  · exact .inl fun c hc hlt => by
      rw [← hbit c hlt]
      exact hF c hc (by rwa [hnb])
  · exact .inr ⟨by rw [← hi, h0], b, fun c hc hcb hlt => by
      rw [← hbit c hlt]
      exact hb c hc hcb (by rwa [hnb])⟩

theorem TransOk.lists_congr (h : TransOk jown (tNhandles m t) m t) (hi : tHandlei m' t = tHandlei m t)
    (hn : tNhandles m' t = tNhandles m t) (htab : tHandlei m t ≠ 0 → m' (tHandlei m t) = m (tHandlei m t)) :
    Lists m' t b ↔ Lists m t b := by
  have hk : ∀ k < tNhandles m t, hblk m' t k = hblk m t k := fun k hk => by
    rw [hblk, hi, htab (h.handlei_ne hk), hblk]
  unfold Lists
  rw [hi, hn]
  refine and_congr_right fun _ => or_congr_right ⟨?_, ?_⟩
  · rintro ⟨k, hlt, rfl⟩
    exact ⟨k, hlt, hk k hlt⟩
  · rintro ⟨k, hlt, rfl⟩
    exact ⟨k, hlt, (hk k hlt).symm⟩

/-- The list of a transaction with one more handle. -/
theorem Enlisted.lists (h : Enlisted n t s s') (hn : tNhandles s.mem t = n) (hn' : tNhandles s'.mem t = n + 1)
    (hok : TransOk jown (n + 1) s'.mem t) :
    Lists s'.mem t b ↔ (b = hblk s'.mem t n ∨ (tHandlei s.mem t = 0 ∧ b = tHandlei s'.mem t)) ∨ Lists s.mem t b := by
  unfold Lists
  rw [hn, hn']
  constructor
  · rintro ⟨hb, rfl | ⟨k, hk, rfl⟩⟩
    · by_cases h0 : tHandlei s.mem t = 0
      · exact .inl (.inr ⟨h0, rfl⟩)
      · exact .inr ⟨hb, .inl (h.tab h0)⟩
    · rcases Nat.lt_succ_iff_lt_or_eq.mp hk with hlt | rfl
      · exact .inr ⟨hb, .inr ⟨k, hlt, h.old k hlt⟩⟩
      · exact .inl (.inl rfl)
  · rintro ((rfl | ⟨h0, rfl⟩) | ⟨hb, rfl | ⟨k, hk, rfl⟩⟩)
    · exact ⟨(hok.handle n (Nat.lt_succ_self n)).1, .inr ⟨n, Nat.lt_succ_self n, rfl⟩⟩
    · exact ⟨hok.handlei_ne (Nat.lt_succ_self n), .inl rfl⟩
    · exact ⟨hb, .inl (h.tab hb).symm⟩
    · exact ⟨hb, .inr ⟨k, Nat.lt_succ_of_lt hk, (h.old k hk).symm⟩⟩

/-- One more handle, and the blocks it takes. -/
theorem appendHandle_run (h : Block) (hT : TInv L own jown n t s.mem) (hn : tNhandles s.mem t = n) :
    Run (appendHandle t h) s
      (fun _ s' => Added L own jown t s s' ∧
        ∃ g, handlesOf s'.mem t = handlesOf s.mem t ++ [g] ∧ ∀ i, 4 ≤ i → i < 4096 → g i = h i)
      (fun e s' => AddPanic L own jown t s e s' ∧ Overfull t s) := by
  have hle := hT.ok.le
  unfold appendHandle
  refine .getBind ?_
  dsimp only
  rw [hn]
  refine .bind (store_ok hT.inv.here_three _ _ _) ?_
  intro _ s1 h1
  have hl1 : Logged L own jown t s s1 := logged_of_rec hT.inv hT.jrn h1 (by omega)
  have hi1 : tHandlei s1.mem t = tHandlei s.mem t := by
    rw [tHandlei, h1.mem, update_self, tHandlei, le32_write_out (by omega)]
  have hn1 : tNhandles s1.mem t = n + 1 := by
    rw [tNhandles, h1.mem, update_self]
    exact (le32_put32 _ _ _).trans (Nat.mod_eq_of_lt (by omega))
  have hm1 : ∀ c, c ≠ 3 → s1.mem c = s.mem c := fun c hc => by rw [h1.mem, update_of_ne hc]
  have htab1 : tHandlei s.mem t ≠ 0 → s1.mem (tHandlei s.mem t) = s.mem (tHandlei s.mem t) := by
    intro h0
    have := hT.jrn.blk (hT.ok.tab_ne h0)
    exact hm1 _ (by omega)
  have hT1 : TInv L own jown n t s1.mem :=
    ⟨hl1.inv hT.inv, hT.jrn, hT.ok.congr hi1 htab1 fun _ _ => rfl⟩
  have hread1 : ∀ j < n, s1.mem (hblk s1.mem t j) = s.mem (hblk s.mem t j) := by
    intro j hj
    have := hT.jrn.blk (hT.ok.handle_ne hj)
    rw [show hblk s1.mem t j = hblk s.mem t j by rw [hblk, hi1, htab1 (hT.ok.handlei_ne hj), hblk], hm1 _ (by omega)]
  have hh1 : ∀ i < 12, s1.mem 3 (tOff t + i) = s.mem 3 (tOff t + i) := by
    intro i hi
    rw [h1.mem, update_self, write_out (by omega)]
  refine .step (attempt_run (transactionGetHandle_alloc_run hT1)) ?_ ?_
  · rintro e s2 ⟨⟨p, rfl⟩, ⟨er, hc⟩, -⟩
    cases hc
  rintro r s2 (⟨a, rfl, L', jown', hx, hT2, rfl, hl2, hh2, htk, hread, ⟨b, c, hbc⟩, hen⟩ | ⟨e, rfl, -, hl2, hov⟩)
  · dsimp only
    have hnlt := Nat.lt_succ_self n
    refine .bind (store_ok (hT2.handle_here hnlt) _ _ _) ?_
    intro _ s3 h3
    obtain ⟨hT3, hl3, h33, hb3⟩ := hT2.of_stored_handle hnlt h3
    refine .getBind ?_
    rw [← hb3 n]
    refine (store_ok (hT3.handle_here hnlt) _ _ _).post ?_
    intro _ s4 h4
    obtain ⟨hT4, hl4, h34, hb4⟩ := hT3.of_stored_handle hnlt h4
    have hm4 : s4.mem 3 = s2.mem 3 := h34.trans h33
    have hi4 : tHandlei s4.mem t = tHandlei s2.mem t := by rw [tHandlei, hm4, tHandlei]
    have hb42 : ∀ j, hblk s4.mem t j = hblk s2.mem t j := fun j => (hb4 j).trans (hb3 j)
    have hn4 : tNhandles s4.mem t = n + 1 := by
      rw [← hn1, tNhandles, tNhandles, hm4]
      refine le32_congr fun i hi => ?_
      rw [Nat.add_assoc]
      exact hh2 _ (by omega)
    have hen4 : Enlisted n t s s4 := by
      refine ⟨?_, fun h0 => ?_, fun j hj => ?_⟩
      · rw [hb42, hi4, ← hi1]
        exact hen.taken.congr h1.trace (h4.trace.trans h3.trace)
      · rw [hi4, hen.tab (by rwa [hi1]), hi1]
      · rw [hb42, hen.old j hj, hblk, hi1, htab1 (hT.ok.handlei_ne hj), hblk]
    refine ⟨⟨(hl1.trans hl2).trans (hx.logged (hl3.trans hl4)), fun i hi => ?_, ⟨L', jown', hx, by rwa [hn4], fun b hb => ?_⟩,
      ⟨b, c, fun d hd hdb hdc => ?_⟩, _, hen4.taken, fun b => hen4.lists hn hn4 hT4.ok⟩, s4.mem (hblk s4.mem t n), ?_,
      fun i h4i hi => ?_⟩
    · rw [hm4, hh2 i (by omega), hh1 i hi]
    · rw [h4.trace, h3.trace]
      exact htk b hb
    · have hd' : d < L'.nb := by rwa [hx.nb]
      rw [← bitSet_small hT.jrn hd (hm1 2 (by omega)), ← hbc d hd hdb hdc, hT3.bits_stored_handle hnlt h4 hd',
        hT2.bits_stored_handle hnlt h3 hd']
    · rw [handlesOf_eq, handlesOf_eq, hn4, hn, List.range_succ, List.map_append, List.map_singleton]
      refine congrArg (· ++ _) (List.map_congr_left fun j hj => ?_)
      have hj := List.mem_range.mp hj
      rw [hT3.read_stored_handle hnlt h4 (by omega), if_neg (by omega),
        hT2.read_stored_handle hnlt h3 (by omega), if_neg (by omega), hread j hj, hread1 j hj]
    · rw [hT3.read_stored_handle hnlt h4 hnlt, if_pos rfl, write_out (by omega),
        hT2.read_stored_handle hnlt h3 hnlt, if_pos rfl, write_in (by omega) (by simpa using hi), Nat.sub_zero]
  · exact .throw ⟨⟨.inr ⟨e, rfl⟩, hl1.trans hl2⟩, hov.imp (fun hle => by rwa [hn]) fun hc => hc.of_three hT hm1 hi1⟩

/-- The handles after the search for a write to merge into. -/
theorem TInv.handlesOf_merged (hT : TInv L own jown n t m) (hn : tNhandles m t = n) {j : ℕ} (hj : j < n) (g : Block)
    (hm : m' = update m (hblk m t j) g) : handlesOf m' t = (handlesOf m t).set j g := by
  have hlab : ∀ k < n, hblk m t k ≠ 3 ∧ hblk m t k ≠ tHandlei m t ∧ (hblk m t k = hblk m t j → k = j) := by
    intro k hk
    have hu := (hT.ok.handle k hk).2
    have hb := hT.jrn.blk (b := hblk m t k) (by rw [hu]; simp)
    refine ⟨by omega, fun he => ?_, fun he => ?_⟩
    · rw [he, hT.ok.tab (hT.ok.handlei_ne hk)] at hu
      cases hu
    · rw [he, (hT.ok.handle j hj).2] at hu
      exact (JUse.handle.inj hu).2.symm
  obtain ⟨h3, htab, -⟩ := hlab j hj
  have hm3 : m' 3 = m 3 := by rw [hm, update_of_ne h3.symm]
  have hi : tHandlei m' t = tHandlei m t := by rw [tHandlei, hm3, tHandlei]
  have hn' : tNhandles m' t = n := by rw [tNhandles, hm3, ← tNhandles, hn]
  have hblk' : ∀ k, hblk m' t k = hblk m t k := fun k => by
    rw [hblk, hi, hm, update_of_ne htab.symm, hblk]
  refine List.ext_getElem (by simp [handlesOf_eq, hn, hn']) fun k hk _ => ?_
  have hk : k < n := by simpa [handlesOf_eq, hn'] using hk
  rw [List.getElem_set]
  simp only [handlesOf_eq, List.getElem_map, List.getElem_range, hblk']
  rw [hm]
  split_ifs with hjk
  · rw [hjk, update_self]
  · exact update_of_ne (fun he => hjk ((hlab k hk).2.2 he).symm) _ _

/-- `add_handle_to_transaction` on a transaction. -/
theorem addHandle_run (h : Block) (hT : TInv L own jown (tNhandles s.mem t) t s.mem) :
    Run (addHandle t h) s (fun _ s' => Added L own jown t s s' ∧ Logs t h s.mem s'.mem)
      (fun e s' => AddPanic L own jown t s e s' ∧ ((hOper h = JBD_WRITE ∧ Disordered t h s.mem) ∨ Overfull t s)) := by
  have happ : ∀ {s1}, TInv L own jown (tNhandles s.mem t) t s1.mem → Logged L own jown t s s1 → s1.mem = s.mem →
      s1.trace = s.trace → (hOper h = JBD_WRITE → 0 < tNhandles s.mem t →
        ∃ j, lastWrite s.mem t h (tNhandles s.mem t) = some j ∧ ¬ Fitting (s.mem (hblk s.mem t j)) h) →
      Run (appendHandle t h) s1 (fun _ s' => Added L own jown t s s' ∧ Logs t h s.mem s'.mem)
        (fun e s' => AddPanic L own jown t s e s' ∧ ((hOper h = JBD_WRITE ∧ Disordered t h s.mem) ∨ Overfull t s)) := by
    intro s1 hT1 hl1 hm htr hno
    refine (appendHandle_run h hT1 (by rw [hm])).mono ?_ ?_
    · rintro _ s2 ⟨⟨hl2, hh2, hi2, hb2, B, hB, hlist⟩, g, hs, hg⟩
      rw [hm] at hh2 hs hlist
      rw [TakesTwo, hm] at hb2
      exact ⟨⟨hl1.trans hl2, hh2, hi2, hb2, B, hB.congr htr rfl, hlist⟩, .append g hg hs hno⟩
    · rintro e s2 ⟨⟨he, hl2⟩, hov⟩
      refine ⟨⟨he, hl1.trans hl2⟩, .inr ?_⟩
      rwa [Overfull, Cramped, Full, FsSt.nblocks, hm] at hov
  unfold addHandle
  refine .getBind ?_
  split_ifs with h1
  · refine .step (mergeLoop_run h _ hT le_rfl) ?_ ?_
    · rintro e s' ⟨⟨rfl, hd⟩, hl⟩
      exact ⟨⟨.inl rfl, hl⟩, .inl ⟨h1.1, hd⟩⟩
    rintro r s1 ⟨hT1, hl1, h31, htr, hmerge⟩
    have hn1 : tNhandles s1.mem t = tNhandles s.mem t := by rw [tNhandles, h31, tNhandles]
    have hadd : (∀ d < L.nb, bitSet s1.mem d = bitSet s.mem d) → (∀ b, Lists s1.mem t b ↔ Lists s.mem t b) →
        Added L own jown t s s1 := fun hb hl =>
      ⟨hl1, fun i _ => by rw [h31], ⟨L, jown, Ext.refl L jown t, by rwa [hn1], fun b hb => absurd rfl hb⟩, ⟨0, 0,
        fun d hd _ _ => hb d hd⟩, fun _ => False, takes_of_eq htr fun _ h => h, fun b => by rw [hl, false_or]⟩
    cases hmerge with
    | append j hlast hfit hm => exact happ hT1 hl1 hm htr fun _ _ => ⟨j, hlast, hfit⟩
    | merged j hj hlast hle hfit hm =>
      refine .pure ⟨hadd (fun d hd => ?_) fun b => hT.ok.lists_congr (by rw [tHandlei, h31, tHandlei]) hn1 fun h0 => ?_,
        .merged j h1.1 hj hlast hle hfit (hT.handlesOf_merged rfl hj _ hm)⟩
      · have hb := hT.jrn.blk (hT.ok.handle_ne hj)
        exact bitSet_small hT.jrn hd (by rw [hm, update_of_ne (by omega)])
      · rw [hm, update_of_ne]
        intro hc
        have hu := (hT.ok.handle j hj).2
        rw [← hc, hT.ok.tab h0] at hu
        cases hu
    | dropped hlast hm =>
      exact .pure ⟨hadd (fun d _ => by rw [hm]) fun b => by rw [hm], .dropped h1.1 h1.2 hlast (by rw [hm])⟩
  · exact happ hT (Logged.refl L own jown t s) rfl rfl fun hop hpos => absurd ⟨hop, hpos⟩ h1

end

end Fs
end Jos
