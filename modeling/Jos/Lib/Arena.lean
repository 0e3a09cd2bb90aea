/-
# The arena of malloc

`malloc` searches from `mptr` on and starts again at the bottom; it sees the end
of the arena when a step of one page reaches it. `mptr` is there before the first
step if the last page was left because a chunk did not fit: then nothing
stops it. Short of that, two passes give the answer.

A page goes with its last reference. `malloc` drops its own when it leaves the
middle of a page; after a chunk that ends at a page boundary it is in the middle
of none, and the page of the reference word stays for good.

* `malloc_in_arena`: no call is made at the end of the arena; `end_passed`: one is.
* `one_page_left`: no chunk ends at a boundary; `page_left_each_time`: all do.

Key definitions: `InArena`, `Answered`, `Midway`, `Tight`.
-/
import Jos.Lib.Malloc

namespace Jos
namespace Lib
namespace Malloc

open Function

/-! ### The search -/

/-- The call does not overflow a reference word, and does not find `mptr` at the end. -/
def InArena : Ev → St → Prop
  | .malloc n avail, s => RefFits (.malloc n avail) s ∧ ¬ AtEnd n s
  | .free _, _ => True

instance (n : ℕ) (s : St) : Decidable (AtEnd n s) := inferInstanceAs (Decidable (_ ∧ _))

instance (e : Ev) (s : St) : Decidable (InArena e s) :=
  match e with
  | .malloc _ _ => inferInstanceAs (Decidable (_ ∧ _))
  | .free _ => inferInstanceAs (Decidable True)

/-- `malloc(n)` makes a chunk, or it returns nothing: the kernel has not the
pages, or there is no room for them anywhere. -/
def Answered (n avail : ℕ) (s s' : St) : Prop :=
  (∃ v, s'.live = ⟨v, n⟩ :: s.live) ∨ (s'.live = s.live ∧ (avail < pagesOf (roundup4 n + 4) ∨
    ∀ v, mbegin ≤ v → v < mend → v % PGSIZE = 0 → isfree s'.vpt v (roundup4 n + 4) = false))

/-- A search that fails has seen every page from `mptr` on, and all of the arena on the first pass. -/
theorem search_fails {vpt : Pages} {n m : ℕ} : ∀ {fuel mptr nwrap : ℕ}, mbegin ≤ mptr → mptr % PGSIZE = 0 →
    search vpt n fuel mptr nwrap = some (m, false) → ∀ v, (nwrap = 0 ∧ mbegin ≤ v ∨ mptr ≤ v) → v < mend →
    v % PGSIZE = 0 → isfree vpt v n = false
  | 0, _, _, _, _, h => by simp [search] at h
  | fuel + 1, mptr, nwrap, hlo, hal, h => by
    intro v hv hlt hval
    rw [search] at h
    split at h
    · cases h
    next hfree =>
    replace hfree : isfree vpt mptr n = false := by simpa using hfree
    by_cases hvm : v = mptr
    · rwa [hvm]
    simp only [PGSIZE, mend, mbegin] at *
    split at h
    · split at h
      · omega
      · exact search_fails le_rfl (by decide) h v (.inr (show 0x08000000 ≤ v by omega)) hlt hval
    · exact search_fails (show 0x08000000 ≤ _ by omega) (show _ % 4096 = 0 by omega) h v
        (by simp only [mbegin]; omega) hlt hval

theorem Placed.inside {vpt : Pages} {c : Chunk} (h : Placed vpt c) : mbegin ≤ c.v ∧ c.v + c.n + 4 ≤ mend := by
  have hsize : c.n ≤ c.size := by
    rw [Chunk.size, roundup4_of_lt h.small]
    omega
  have hbelow : (c.v + c.size + 3) / 4096 < 0x10000000 / 4096 := h.below
  exact ⟨h.low, show c.v + c.n + 4 ≤ 0x10000000 by omega⟩

section
variable {s : St} {e : Ev} {n avail : ℕ}

theorem findPages_answers (hal : s.mptr % PGSIZE = 0) (hlo : mbegin ≤ s.mptr) (hhi : s.mptr < mend) :
    (findPages n avail s).out = s.out ∧ Answered n avail s (findPages n avail s) := by
  obtain ⟨m, hmal, -, ⟨heq, hfail⟩ | ⟨heq, hfree⟩⟩ := findPages_cases n avail hal hlo hhi <;> rw [heq]
  · exact ⟨rfl, .inr ⟨rfl, .inr fun v hv => search_fails hlo hal hfail v (.inl ⟨rfl, hv⟩)⟩⟩
  · rcases allocate_cases (s := { s with mptr := m }) avail hmal hfree with ⟨hav, heq⟩ | ⟨-, heq⟩ <;> rw [heq]
    · exact ⟨rfl, .inr ⟨rfl, .inl hav⟩⟩
    · exact ⟨rfl, .inl ⟨m, rfl⟩⟩

theorem malloc_answers (h : Inv s) (hout : s.out = false) (hC : InArena (.malloc n avail) s) :
    (malloc n avail s).out = false ∧ Answered n avail s (malloc n avail s) := by
  rcases malloc_cases h hC.1.1 avail with ⟨hp, hmid, -, heq⟩ | ⟨t, heq, -, hal, hlo, hlive, hto, -, hend, -⟩ <;> rw [heq]
  · simp only [addChunk, h.book.held _ (hp.held hmid)]
    exact ⟨hout, .inl ⟨_, rfl⟩⟩
  · obtain ⟨ho, ha⟩ : (findPages n avail t).out = t.out ∧ Answered n avail t (findPages n avail t) :=
      findPages_answers hal hlo (not_le.mp fun hge => hC.2 (hend hge))
    refine ⟨ho.trans (hto.trans hout), ?_⟩
    rwa [Answered, hlive] at ha

/-- What a run in the arena keeps. -/
theorem stays (h : Inv s ∧ s.out = false) (hC : InArena e s) : Inv (step e s) ∧ (step e s).out = false := by
  obtain ⟨h, hout⟩ := h
  cases e with
  | malloc n avail =>
    rw [step_eq _ hout h.ok]
    obtain ⟨ho, -⟩ := malloc_answers h hout hC
    exact ⟨(h.malloc hC.1 ho).1, ho⟩
  | free k =>
    have ho : (step (.free k) s).out = false := by
      rw [step_eq _ hout h.ok]
      dsimp only
      split
      · exact hout
      · exact (free_mptr ..).2.2.2.trans hout
    exact ⟨h.step (e := .free k) trivial ho, ho⟩

end

/-- The arena holds one page, page `j`; `refs` chunks or `malloc` have it. -/
structure Alone (j refs : ℕ) (s : St) : Prop where
  vpt : ∀ q, s.vpt q = if q = j then some (.heap false) else none
  ref : s.ref j = refs
  mptr : s.mptr = j * PGSIZE + 4092
  out : s.out = false
  ok : s.fault = false

section
variable {s : St}

theorem Alone.free {j : ℕ} (h : Alone j 2 s) (hlo : mbegin / PGSIZE ≤ j) (hhi : j < mend / PGSIZE)
    (hlive : s.live = [⟨j * PGSIZE, 4092⟩]) :
    Alone j 1 (step (.free 0) s) ∧ (step (.free 0) s).live = [] := by
  have hdiv : j * PGSIZE / PGSIZE = j := Nat.mul_div_cancel _ (by decide)
  have hhead : s.live[0]? = some ⟨j * PGSIZE, 4092⟩ := by rw [hlive]; rfl
  have happ := free_eq (v := j * PGSIZE) (l := j) (s := { s with live := s.live.eraseIdx 0 })
    (by simp only [PGSIZE, mbegin] at *; omega) hdiv.le hhi
    (fun q hq hlt => absurd (hdiv ▸ hq) (Nat.not_le_of_lt hlt)) ((h.vpt j).trans (if_pos rfl))
    (by simp [h.ref]) (by simp [h.ref])
  rw [step_eq _ h.out h.ok]
  simp only [hhead, happ]
  refine ⟨⟨fun q => ?_, ?_, h.mptr, h.out, h.ok⟩, by rw [hlive]; rfl⟩
  · rw [← h.vpt q]
    exact if_neg (by simp only [h.ref]; omega)
  · dsimp only
    rw [update_self, h.ref]

/-- In an empty arena the chunk gets the page at `mptr`. -/
theorem findPages_alone {p : ℕ} (hvpt : ∀ q, s.vpt q = none) (hmptr : s.mptr = p * PGSIZE)
    (hhi : p < mend / PGSIZE) (hlive : s.live = []) (hout : s.out = false) (hok : s.fault = false) :
    Alone p 2 (findPages 4092 1 s) ∧ (findPages 4092 1 s).live = [⟨p * PGSIZE, 4092⟩] := by
  have hdiv : s.mptr / PGSIZE = p := by rw [hmptr, Nat.mul_div_cancel _ (by decide)]
  have hin : ¬ mend ≤ s.mptr := by
    simp only [PGSIZE, mend] at *
    omega
  have hfree : isfree s.vpt s.mptr (roundup4 4092 + 4) = true := by
    rw [hmptr, isfree_iff]
    intro k hk
    have hk0 : k = 0 := Nat.lt_one_iff.mp hk
    exact ⟨hk0 ▸ hhi, hvpt _⟩
  have hsearch : search s.vpt (roundup4 4092 + 4) rounds s.mptr 0 = some (s.mptr, true) := by
    rw [show rounds = 65535 + 1 from rfl, search, if_pos hfree]
  rw [findPages, if_neg hin, hsearch]
  have hone : pagesOf (roundup4 4092 + 4) = 1 := by decide
  simp only [allocate, hone, hdiv, lt_irrefl, if_false]
  refine ⟨⟨fun q => ?_, ?_, ?_, hout, hok⟩, by rw [hlive, hmptr]⟩
  · show allocPages p (roundup4 4092 + 4) 1 s.vpt q = _
    rw [allocPages_apply, hvpt q]
    refine if_ctx_congr (by omega) (fun hq => ?_) fun _ => rfl
    rw [hq, Nat.sub_self]
    decide
  · show update s.ref (p + 1 - 1) 2 p = 2
    rw [Nat.add_sub_cancel, update_self]
  · show s.mptr + roundup4 4092 = p * PGSIZE + 4092
    rw [hmptr]
    rfl

/-- The next chunk does not fit into the page. -/
theorem Alone.leaves {j refs : ℕ} (h : Alone j refs s) : s.mptr / PGSIZE = j ∧
    Malloc.malloc 4092 1 s = findPages 4092 1 (leavePage s) ∧ (leavePage s).mptr = (j + 1) * PGSIZE := by
  have hmptr := h.mptr
  have hround : roundup4 4092 = 4092 := by decide
  have hstart : start s = s := by rw [start, if_neg (by omega)]
  have hptr : (leavePage s).mptr = (s.mptr + PGSIZE) - (s.mptr + PGSIZE) % PGSIZE := rfl
  rw [hptr, Malloc.malloc, hstart, hround]
  simp only [PGSIZE] at *
  rw [if_neg (by decide), if_neg (by omega), if_neg (by omega)]
  exact ⟨by omega, rfl, by omega⟩

theorem Alone.malloc {j : ℕ} (h : Alone j 1 s) (hlive : s.live = []) (hlo : mbegin / PGSIZE ≤ j)
    (hhi : j + 1 < mend / PGSIZE) :
    Alone (j + 1) 2 (step (.malloc 4092 1) s) ∧ (step (.malloc 4092 1) s).live = [⟨(j + 1) * PGSIZE, 4092⟩] := by
  obtain ⟨hdiv, hleave, hptr⟩ := h.leaves
  have happ := free_eq (v := s.mptr) (l := j) (s := s)
    (by simp only [PGSIZE, mbegin] at *; omega) hdiv.le (by omega)
    (fun q hq hlt => absurd (hdiv ▸ hq) (Nat.not_le_of_lt hlt)) ((h.vpt j).trans (if_pos rfl))
    (by simp [h.ref]) (by simp [h.ref])
  rw [step_eq _ h.out h.ok]
  show Alone (j + 1) 2 (Malloc.malloc 4092 1 s) ∧ (Malloc.malloc 4092 1 s).live = _
  rw [hleave]
  refine findPages_alone (fun q => ?_) hptr hhi ?_ ?_ ?_ <;> rw [leavePage, happ]
  · dsimp only
    rw [h.vpt q, h.ref]
    split
    · rfl
    · exact if_neg (by omega)
  · exact hlive
  · exact h.out
  · exact h.ok

end

/-- A chunk of most of a page, freed and asked for again `t` times. -/
def climb : ℕ → List Ev
  | 0 => [.malloc 4092 1]
  | t + 1 => climb t ++ [.free 0, .malloc 4092 1]

theorem climb_alone : ∀ t, mbegin / PGSIZE + t < mend / PGSIZE →
    Alone (mbegin / PGSIZE + t) 2 (exec step (climb t) (init fun _ => false)) ∧
      (exec step (climb t) (init fun _ => false)).live = [⟨(mbegin / PGSIZE + t) * PGSIZE, 4092⟩]
  | 0, h => by
    have hmalloc : exec step (climb 0) (init fun _ => false) =
        findPages 4092 1 { init fun _ => false with mptr := mbegin } := by
      simp only [climb, exec, step_eq, init, malloc, start, if_pos]
      rw [if_neg (by decide), if_pos (by decide)]
    rw [hmalloc]
    exact findPages_alone (fun _ => rfl) rfl h rfl rfl rfl
  | t + 1, h => by
    obtain ⟨hm, hlive⟩ := climb_alone t (by omega)
    obtain ⟨hf, hempty⟩ := hm.free (Nat.le_add_right _ _) (by omega) hlive
    rw [climb, exec_append]
    exact hf.malloc hempty (Nat.le_add_right _ _) h

theorem climb_small : ∀ {t n avail : ℕ}, .malloc n avail ∈ climb t → n = 4092
  | 0, _, _, h => by
    simp only [climb, List.mem_singleton, Ev.malloc.injEq] at h
    exact h.1
  | t + 1, _, _, h => by
    simp only [climb, List.mem_append, List.mem_cons, reduceCtorEq, Ev.malloc.injEq, List.not_mem_nil] at h
    rcases h with h | h | h | h
    · exact climb_small h
    · exact h.elim
    · exact h.1
    · exact h.elim

/-- A search that starts at the end of the arena goes on. -/
theorem search_beyond {vpt : Pages} {n nwrap : ℕ} (hn : 0 < n) : ∀ {fuel mptr : ℕ}, mend ≤ mptr →
    search vpt n fuel mptr nwrap = none
  | 0, _, _ => rfl
  | fuel + 1, mptr, h => by
    have hfree : ¬ isfree vpt mptr n = true := by
      intro hc
      have h0 := List.all_eq_true.mp hc 0 (List.mem_range.mpr (Nat.div_pos (by omega) (by decide)))
      simp only [Bool.and_eq_true, decide_eq_true_eq] at h0
      omega
    have hne : mptr + PGSIZE ≠ mend := by
      simp only [PGSIZE]
      omega
    rw [search, if_neg hfree, if_neg hne, search_beyond hn (h.trans (Nat.le_add_right _ _))]

/-- The chunk does not end at a page boundary, or goes into the page of `mptr`. -/
def Midway : Ev → St → Prop
  | .malloc n avail, s => InArena (.malloc n avail) s ∧ (roundup4 n % PGSIZE = 0 →
      s.mptr % PGSIZE ≠ 0 ∧ s.mptr / PGSIZE = (s.mptr + roundup4 n + 3) / PGSIZE)
  | .free _, _ => True

instance (e : Ev) (s : St) : Decidable (Midway e s) :=
  match e with
  | .malloc _ _ => inferInstanceAs (Decidable (_ ∧ _))
  | .free _ => inferInstanceAs (Decidable True)

/-- A page of the allocator has a reference or is a continued page of a chunk. -/
def Used (s : St) : Prop := ∀ q x, s.vpt q = some (.heap x) →
  0 < s.count q + (s.held q).toNat ∨ ∃ c ∈ s.live, c.first ≤ q ∧ q < c.last

/-- Every page is used, and `malloc` has its reference to the page it is in the middle of only. -/
structure Tight (s : St) : Prop where
  used : Used s
  held : ∀ q, s.held q = true → s.mptr % PGSIZE ≠ 0 ∧ q = s.mptr / PGSIZE

theorem Used.release {s t : St} {p l : ℕ} (h : Used s) (hb : Book s) (hr : Release s t p l) : Used t := by
  intro q x hq
  have hcount := hr.count q
  rw [hr.vpt q] at hq
  split at hq
  · cases hq
  next hno =>
  by_cases hql : q = l
  · subst hql
    have href := hb.refs q hr.ending
    rw [if_pos rfl] at hcount
    left
    omega
  rw [if_neg hql] at hcount
  rcases h q x hq with hpos | ⟨c, hc, hlo, hhi⟩
  · left
    omega
  · rcases hr.gone c hc with hc | ⟨hp, hl⟩
    · exact .inr ⟨c, hc, hlo, hhi⟩
    · exact absurd (.inl ⟨by omega, by omega⟩) hno

section
variable {s : St} {e : Ev} {n avail : ℕ}

/-- A new chunk uses its own pages. -/
theorem Used.cons {c : Chunk} {t : St} (h : Used s) (hlive : t.live = c :: s.live)
    (hheld : ∀ q, s.held q = true → t.held q = true) (hvpt : ∀ q x, t.vpt q = some (.heap x) →
      s.vpt q = some (.heap x) ∨ t.held q = true ∨ c.first ≤ q ∧ q < c.last) : Used t := by
  intro q x hq
  rw [St.count, hlive, count_cons, ← St.count]
  rcases hvpt q x hq with hq | hq | hq
  · rcases h q x hq with hpos | ⟨b, hb, hin⟩
    · by_cases hs : s.held q = true
      · simp [hheld q hs]
      · rw [Bool.eq_false_iff.mpr hs, Bool.toNat_false] at hpos
        omega
    · exact .inr ⟨b, List.mem_cons_of_mem _ hb, hin⟩
  · simp [hq]
  · exact .inr ⟨c, .head _, hq⟩

/-- The search starts without a reference. -/
theorem Tight.findPages (hu : Used s) (hno : ∀ q, s.held q = false) (hal : s.mptr % PGSIZE = 0) (hlo : mbegin ≤ s.mptr)
    (hhi : s.mptr < mend) (hn : roundup4 n % PGSIZE ≠ 0) : Tight (findPages n avail s) := by
  obtain ⟨m, hmal, -, ⟨heq, -⟩ | ⟨heq, hfree⟩⟩ := findPages_cases n avail hal hlo hhi <;> rw [heq]
  · exact ⟨hu, fun q hq => absurd hq (by simp [hno])⟩
  · rcases allocate_cases (s := { s with mptr := m }) avail hmal hfree with ⟨-, heq⟩ | ⟨-, heq⟩ <;> rw [heq]
    · exact ⟨hu, fun q hq => absurd hq (by simp [hno])⟩
    · refine ⟨Used.cons (s := { s with mptr := m }) hu rfl (fun q hq => absurd hq (by simp [hno])) fun q x hq => ?_,
        fun q hq => ?_⟩
      · dsimp only at hq ⊢
        split at hq
        · next hin =>
          rcases Nat.lt_or_eq_of_le hin.2 with hlt | rfl
          · exact .inr (.inr ⟨hin.1, hlt⟩)
          · exact .inr (.inl (update_self ..))
        · exact .inl hq
      · dsimp only at hq ⊢
        rw [update_apply] at hq
        split at hq
        · next hql =>
          rw [hql]
          have h4 := roundup4_mod n
          simp only [Chunk.last, Chunk.size, PGSIZE] at *
          omega
        · exact absurd hq (by simp [hno])

theorem Tight.step (h : Tight s) (hi : Inv s ∧ s.out = false) (hC : Midway e s) : Tight (step e s) := by
  obtain ⟨hi, hout⟩ := hi
  rw [step_eq _ hout hi.ok]
  cases e with
  | malloc n avail =>
    rcases malloc_cases hi hC.1.1.1 avail with ⟨hp, hmid, hfit, heq⟩ | ⟨t, heq, -, hal, hlo, -, -, -, hend, ht⟩
    · simp only [heq, addChunk, hi.book.held _ (hp.held hmid)]
      refine ⟨h.used.cons rfl (fun _ hq => hq) fun _ _ hq => .inl hq, fun q hq => ?_⟩
      have hq := h.held q hq
      simp only [PGSIZE] at *
      omega
    simp only [heq]
    have hhi := not_le.mp fun hge => hC.1.2 (hend hge)
    rcases ht with ⟨rfl, hs⟩ | ⟨rfl, hrel, hfit⟩
    · have hsame : (start s).vpt = s.vpt ∧ (start s).live = s.live ∧ (start s).held = s.held := by
        rw [start]
        split <;> exact ⟨rfl, rfl, rfl⟩
      refine Tight.findPages ?_ (fun q => ?_) hal hlo hhi fun hn => (hC.2 hn).1 hs
      · simpa only [Used, St.count, hsame.1, hsame.2.1, hsame.2.2] using h.used
      · rw [hsame.2.2, Bool.eq_false_iff]
        exact fun hq => (h.held q hq).1 hs
    · refine Tight.findPages (h.used.release hi.book hrel) (fun q => ?_) hal hlo hhi fun hn => hfit (hC.2 hn).2
      show update s.held _ false q = false
      rw [update_apply]
      split
      · rfl
      · next hq => exact Bool.eq_false_iff.mpr fun hh => hq (h.held q hh).2
  | free k =>
    cases hk : s.live[k]? with
    | none => simpa only [hk] using h
    | some c =>
      simp only [hk]
      obtain ⟨hptr, hheld, -⟩ := free_mptr c.v { s with live := s.live.eraseIdx k }
      refine ⟨h.used.release hi.book (free_release hi.book hk).1, ?_⟩
      rw [hptr, hheld]
      exact h.held

end

/-- **malloc keeps one page at most.** After every run of calls whose chunks do not end at a page boundary, when all
chunks are freed: a page of the allocator is the page of `mptr`. -/
theorem one_page_left {others : ℕ → Bool} {es : List Ev} (hC : Throughout step Midway es (init others))
    (hlive : (exec step es (init others)).live = []) {q : ℕ} {x : Bool}
    (hq : (exec step es (init others)).vpt q = some (.heap x)) : q = (exec step es (init others)).mptr / PGSIZE := by
  have hstep : ∀ e s, (Inv s ∧ s.out = false) ∧ Tight s → Midway e s →
      (Inv (step e s) ∧ (step e s).out = false) ∧ Tight (step e s) := fun e s ⟨hi, ht⟩ hC =>
    ⟨stays hi (by cases e with | malloc n avail => exact hC.1 | free k => trivial), ht.step hi hC⟩
  have hinit : Tight (init others) := by
    refine ⟨fun q x hq => ?_, nofun⟩
    dsimp only [init] at hq
    split at hq <;> cases hq
  have ht := (exec_invariant_of hstep es ⟨⟨Inv.init others, rfl⟩, hinit⟩ hC).2
  rcases ht.used q x hq with hpos | ⟨c, hc, -⟩
  · refine (ht.held q ?_).2
    rw [St.count, hlive] at hpos
    by_contra hf
    rw [Bool.eq_false_iff.mpr hf] at hpos
    cases hpos
  · rw [hlive] at hc
    cases hc

/-- Three chunks are freed, and the page of the last one is left. -/
theorem one_page_left_three : 0x8001 = (exec step [.malloc 100 9, .malloc 10 9, .malloc 100 9, .malloc 4000 9, .free 0,
    .free 0, .free 0, .free 0] (init fun _ => false)).mptr / PGSIZE :=
  one_page_left (x := false) (by decide +kernel) (by decide +kernel) (by decide +kernel)

/-- A page of memory is asked for and freed, twice, as `thread_create` and `thread_clean` do with a stack:
two pages are left. -/
theorem page_left_each_time : ∃ es : List Ev, (∀ n avail, .malloc n avail ∈ es → n < MAXMALLOC - 4) ∧
    (exec step es (init fun _ => false)).live = [] ∧
    (exec step es (init fun _ => false)).vpt 0x8001 = some (.heap false) ∧
    (exec step es (init fun _ => false)).vpt 0x8003 = some (.heap false) :=
  ⟨[.malloc 4096 9, .free 0, .malloc 4096 9, .free 0], by simp [MAXMALLOC], by decide +kernel⟩

end Malloc
end Lib
end Jos
