/-
# Page tables as a map

What `page_lookup` finds in a directory is a map from the pages below `UTOP`:
`page_insert` and `page_remove` change it at one page, and `pgdir_walk` does not
change it, whether it makes a table or not. It needs that the tables of the
directory are different pages, that none is the directory itself, and that none of
them is on the free list, from which new tables come with what they held before.

Key definitions: `KernSt.look`, `PageDir`.
Key theorems: `PageDir.walk`, `PageDir.insert`, `tables_refine_map`.
-/
import Jos.Kern.Ids
import Jos.Kern.Progress

namespace Jos
namespace Kern

open Fs (PGSIZE)
open Function

/-- What `page_lookup` finds: `none` if it panics, else the page and the low bits of
its entry, if there is one. -/
def KernSt.look (k : KernSt) (d va : ℕ) : Option (Option (ℕ × ℕ)) :=
  (returned (pageLookup d va) k).map fun r => r.map fun q => (q.1, (k.word q.2.1 q.2.2).perm)

/-- The tables below `UTOP` of the directory `d` are different pages, and they and the
directory are not on the free list. -/
structure PageDir (k : KernSt) (d : ℕ) : Prop where
  ne : ∀ i < pdx UTOP, (k.word d i).present = true → (k.word d i).ppn ≠ d
  inj : ∀ i < pdx UTOP, ∀ j < pdx UTOP, (k.word d i).present = true → (k.word d j).present = true →
    (k.word d i).ppn = (k.word d j).ppn → i = j
  free : ∃ l, k.freeList.Holds l ∧ d ∉ l ∧ ∀ i < pdx UTOP, (k.word d i).present = true → (k.word d i).ppn ∉ l

section
variable {k k' : KernSt} {d va va' p perm t : ℕ} {pte : Pte}

/-! ### Lookups -/

theorem kaddr_spec (p : ℕ) (k : KernSt) :
    Run (kaddr p) k (fun _ k' => k' = k ∧ p < k.npage) fun f _ => f.IsPanic ∧ k.npage ≤ p := by
  unfold kaddr
  refine .getBind ?_
  split
  next h => exact .throw ⟨⟨_, rfl⟩, h⟩
  next h => exact .pure ⟨rfl, by omega⟩

theorem pa2page_spec (p : ℕ) (k : KernSt) :
    Run (pa2page p) k (fun r k' => (r = p ∧ k' = k) ∧ p < k.npage) fun f _ => f.IsPanic ∧ k.npage ≤ p := by
  unfold pa2page
  refine .getBind ?_
  split
  next h => exact .throw ⟨⟨_, rfl⟩, h⟩
  next h => exact .pure ⟨⟨rfl, rfl⟩, by omega⟩

/-- A walk to a table that is there. -/
theorem pgdirWalk_present (h : (k.word d (pdx va)).present = true) (create : Bool) :
    Run (pgdirWalk d va create) k
      (fun r k' => (r = some ((k.word d (pdx va)).ppn, ptx va) ∧ k' = k) ∧ (k.word d (pdx va)).ppn < k.npage)
      fun f _ => f.IsPanic ∧ k.npage ≤ (k.word d (pdx va)).ppn := by
  unfold pgdirWalk walkEntry
  refine .getBind ?_
  rw [if_pos h]
  refine .bind (kaddr_spec _ k) ?_
  rintro _ k' ⟨rfl, hlt⟩
  exact .pure ⟨⟨rfl, rfl⟩, hlt⟩

theorem pgdirWalk_absent (h : (k.word d (pdx va)).present = false) :
    Run (pgdirWalk d va false) k (fun r k' => r = none ∧ k' = k) fun _ _ => False := by
  unfold pgdirWalk
  refine .getBind ?_
  dsimp only
  rw [if_neg (by simp [h]), if_pos (by simp)]
  exact .pure ⟨rfl, rfl⟩

/-- What an entry is worth to `page_lookup`. -/
def KernSt.read (k : KernSt) (pte : Pte) : Option (Option (ℕ × ℕ)) :=
  if pte.present then if k.npage ≤ pte.ppn then none else some (some (pte.ppn, pte.perm)) else some none

/-- The entry at an address, if its table is there. -/
def KernSt.entry (k : KernSt) (d va : ℕ) : Pte := k.word (k.word d (pdx va)).ppn (ptx va)

theorem pageLookup_spec (h : (k.word d (pdx va)).present = true) :
    Run (pageLookup d va) k
      (fun r k' => k' = k ∧ (k.word d (pdx va)).ppn < k.npage ∧
        if (k.entry d va).present then r = some ((k.entry d va).ppn, (k.word d (pdx va)).ppn, ptx va) ∧ (k.entry d va).ppn < k.npage
        else r = none)
      fun f _ => f.IsPanic ∧ (k.npage ≤ (k.word d (pdx va)).ppn ∨ (k.entry d va).present = true ∧ k.npage ≤ (k.entry d va).ppn) := by
  unfold pageLookup
  refine .step (pgdirWalk_present h false) (fun _ _ h => ⟨h.1, .inl h.2⟩) ?_
  rintro _ k' ⟨⟨rfl, rfl⟩, hlt⟩
  refine .getBind ?_
  show Run (if (!(k'.entry d va).present) = true then _ else _) k' _ _
  by_cases hp : (k'.entry d va).present = true
  · rw [if_neg (by simp [hp])]
    refine .step (pa2page_spec _ k') (fun _ _ h => ⟨h.1, .inr ⟨hp, h.2⟩⟩) ?_
    rintro _ k1 ⟨⟨rfl, rfl⟩, hlt'⟩
    exact .pure ⟨rfl, hlt, by rw [if_pos hp]; exact ⟨rfl, hlt'⟩⟩
  · rw [if_pos (by simpa using hp)]
    exact .pure ⟨rfl, hlt, by rw [if_neg hp]⟩

/-- What a lookup depends on. -/
theorem look_eq (k : KernSt) (d va : ℕ) : k.look d va =
    if (k.word d (pdx va)).present then if k.npage ≤ (k.word d (pdx va)).ppn then none else k.read (k.entry d va)
    else some none := by
  unfold KernSt.look returned
  by_cases h : (k.word d (pdx va)).present = true
  · rw [if_pos h]
    have hspec := pageLookup_spec h
    unfold KernSt.read
    cases hx : pageLookup d va k with
    | ok r k' =>
      obtain ⟨-, hlt, hr⟩ := hspec.of_ok hx
      rw [if_neg (by omega)]
      by_cases hp : (k.entry d va).present = true
      · rw [if_pos hp] at hr ⊢
        obtain ⟨rfl, hlt'⟩ := hr
        rw [if_neg (by omega)]
        rfl
      · rw [if_neg hp] at hr ⊢
        rw [hr]
        rfl
    | error f k' =>
      obtain ⟨-, hn | ⟨hp, hn⟩⟩ := hspec.of_error hx
      · rw [if_pos hn]
        rfl
      · rw [if_pos hp, if_pos hn]
        simp
  · rw [if_neg h]
    have hrun : Run (pageLookup d va) k (fun r _ => r = none) fun _ _ => False := by
      refine .bind (pgdirWalk_absent (by simpa using h)) ?_
      rintro _ k' ⟨rfl, rfl⟩
      exact .pure rfl
    obtain ⟨r, k', hx, rfl⟩ := hrun.exists_ok
    rw [hx]
    rfl

theorem look_absent (h : (k.word d (pdx va)).present = false) : k.look d va = some none := by
  rw [look_eq, if_neg (by simp [h])]

theorem look_present (h : (k.word d (pdx va)).present = true) (hlt : (k.word d (pdx va)).ppn < k.npage) :
    k.look d va = k.read (k.entry d va) := by
  rw [look_eq, if_pos h, if_neg (Nat.not_le.mpr hlt)]

theorem look_congr (hn : k'.npage = k.npage) (hd : k'.word d (pdx va) = k.word d (pdx va))
    (ht : (k.word d (pdx va)).present = true → k'.entry d va = k.entry d va) : k'.look d va = k.look d va := by
  rw [look_eq, look_eq, hd, hn]
  by_cases h : (k.word d (pdx va)).present = true
  · rw [if_pos h, if_pos h, ht h]
    unfold KernSt.read
    rw [hn]
  · rw [if_neg h, if_neg h]

/-! ### Entries -/

theorem pdx_lt (h : va < UTOP) : pdx va < pdx UTOP := entry_va (e := 0) h

/-- Addresses on different pages differ in one of the indices. -/
theorem index_ne (hva : va < UTOP) (hva' : va' < UTOP) (hne : va' / PGSIZE ≠ va / PGSIZE) (hd : pdx va' = pdx va) :
    ptx va' ≠ ptx va := fun ht => hne (by rw [← vpn_eq hva', ← vpn_eq hva, hd, ht])

/-- An entry is written. -/
theorem PageDir.setWord (h : PageDir k d) (hva : va < UTOP) (hp : (k.word d (pdx va)).present = true) (pte : Pte) :
    PageDir (k.setWord (k.word d (pdx va)).ppn (ptx va) pte) d ∧
      ∀ i, (k.setWord (k.word d (pdx va)).ppn (ptx va) pte).word d i = k.word d i := by
  have hw : (k.setWord (k.word d (pdx va)).ppn (ptx va) pte).word d = k.word d :=
    setWord_ne (h.ne _ (pdx_lt hva) hp).symm
  refine ⟨⟨?_, ?_, ?_⟩, fun i => by rw [hw]⟩
  · rw [hw]
    exact h.ne
  · rw [hw]
    exact h.inj
  · rw [hw]
    exact h.free

theorem PageDir.look_setWord (h : PageDir k d) (hva : va < UTOP) (hp : (k.word d (pdx va)).present = true)
    (hlt : (k.word d (pdx va)).ppn < k.npage) (pte : Pte) :
    (k.setWord (k.word d (pdx va)).ppn (ptx va) pte).look d va = k.read pte := by
  obtain ⟨-, hw⟩ := h.setWord hva hp pte
  have hent : (k.setWord (k.word d (pdx va)).ppn (ptx va) pte).entry d va = pte := by
    unfold KernSt.entry
    rw [hw, setWord_self]
  rw [look_present (by rw [hw]; exact hp) (by rw [hw]; exact hlt), hent]
  rfl

theorem PageDir.look_setWord_ne (h : PageDir k d) (hva : va < UTOP) (hva' : va' < UTOP) (hne : va' / PGSIZE ≠ va / PGSIZE)
    (hp : (k.word d (pdx va)).present = true) (pte : Pte) :
    (k.setWord (k.word d (pdx va)).ppn (ptx va) pte).look d va' = k.look d va' := by
  obtain ⟨-, hw⟩ := h.setWord hva hp pte
  refine look_congr rfl (hw _) fun hp' => ?_
  unfold KernSt.entry
  rw [hw]
  by_cases hd : pdx va' = pdx va
  · rw [hd, setWord_self_ne (index_ne hva hva' hne hd)]
  · rw [setWord_ne fun hc => hd (h.inj _ (pdx_lt hva') _ (pdx_lt hva) hp' hp hc)]

/-! ### Walking -/

/-- The state after `pgdir_walk` has found or made the table `t`. -/
structure Walked (k : KernSt) (d va t : ℕ) (k' : KernSt) : Prop where
  dir : PageDir k' d
  npage : k'.npage = k.npage
  present : (k'.word d (pdx va)).present = true
  table : (k'.word d (pdx va)).ppn = t
  lt : t < k.npage
  look : ∀ v < UTOP, k'.look d v = k.look d v

/-- A page of the free list becomes a table. -/
theorem PageDir.newTable {q : Queue} {l : List ℕ} {f : ℕ → ℕ} (h : PageDir k d)
    (hp : (k.word d (pdx va)).present = false) (hl : k.freeList.Holds (t :: l)) (hq : q.Holds l) (hlt : t < k.npage) :
    Walked k d va t ((({ k with freeList := q, ref := f } : KernSt).zeroPage t).setWord d (pdx va) ⟨t, PTE_W ||| PTE_U ||| PTE_P⟩) := by
  obtain ⟨l', hl', hd, hfree⟩ := h.free
  obtain rfl := hl.unique hl'
  have htd : t ≠ d := fun hc => hd (hc ▸ .head _)
  have htl := (List.nodup_cons.mp hl.2).1
  generalize hK : (({ k with freeList := q, ref := f } : KernSt).zeroPage t).setWord d (pdx va) ⟨t, PTE_W ||| PTE_U ||| PTE_P⟩ = K
  have hpres : (⟨t, PTE_W ||| PTE_U ||| PTE_P⟩ : Pte).present = true := Pte.or_present ..
  have hself : K.word d (pdx va) = ⟨t, PTE_W ||| PTE_U ||| PTE_P⟩ := by rw [← hK, setWord_self]
  have hother : ∀ i, i ≠ pdx va → K.word d i = k.word d i := fun i hi => by
    rw [← hK, setWord_self_ne hi]
    exact congrFun (update_of_ne htd.symm ..) i
  have htable : ∀ x, x ≠ d → x ≠ t → K.word x = k.word x := fun x hxd hxt => by
    rw [← hK, setWord_ne hxd]
    exact update_of_ne hxt ..
  have hzero : K.word t = fun _ => .zero := by
    rw [← hK, setWord_ne htd]
    exact update_self ..
  have hnp : K.npage = k.npage := by rw [← hK]; rfl
  have hnew : ∀ {i}, i < pdx UTOP → (K.word d i).present = true → i ≠ pdx va → (k.word d i).present = true ∧
      (k.word d i).ppn ≠ t ∧ (k.word d i).ppn ∉ l := fun hi hpi hne => by
    rw [hother _ hne] at hpi
    have := hfree _ hi hpi
    rw [List.mem_cons, not_or] at this
    exact ⟨hpi, this⟩
  refine ⟨⟨fun i hi hpi => ?_, fun i hi j hj hpi hpj hij => ?_, l, ?_, fun hc => hd (.tail _ hc), fun i hi hpi => ?_⟩,
    hnp, by rw [hself]; exact hpres, by rw [hself], hlt, fun v hv => ?_⟩
  · by_cases hii : i = pdx va
    · rw [hii, hself]
      exact htd
    · rw [hother i hii]
      exact h.ne i hi (hnew hi hpi hii).1
  · by_cases hii : i = pdx va <;> by_cases hjj : j = pdx va
    · rw [hii, hjj]
    · rw [hii, hself, hother j hjj] at hij
      exact absurd hij.symm (hnew hj hpj hjj).2.1
    · rw [hjj, hself, hother i hii] at hij
      exact absurd hij (hnew hi hpi hii).2.1
    · rw [hother i hii, hother j hjj] at hij
      exact h.inj i hi j hj (hnew hi hpi hii).1 (hnew hj hpj hjj).1 hij
  · rw [← hK]
    exact hq
  · by_cases hii : i = pdx va
    · rw [hii, hself]
      exact htl
    · rw [hother i hii]
      exact (hnew hi hpi hii).2.2
  · by_cases hvv : pdx v = pdx va
    · rw [look_absent (k := k) (by rw [hvv]; exact hp),
        look_present (k := K) (by rw [hvv, hself]; exact hpres) (by rw [hvv, hself, hnp]; exact hlt)]
      unfold KernSt.read KernSt.entry
      rw [hvv, hself, hzero, if_neg (by simp)]
    · refine look_congr hnp (hother _ hvv) fun hpv => ?_
      unfold KernSt.entry
      have hpv' : (K.word d (pdx v)).present = true := by rw [hother _ hvv]; exact hpv
      rw [hother _ hvv, htable _ (h.ne _ (pdx_lt hv) hpv) (hnew (pdx_lt hv) hpv' hvv).2.1]

theorem PageDir.walk (h : PageDir k d) (va : ℕ) (create : Bool) :
    Run (pgdirWalk d va create) k
      (fun r k' => (r = none ∧ k' = k ∧ (k.word d (pdx va)).present = false ∧ (create = true → k.freeList.Holds [])) ∨
        ∃ t, r = some (t, ptx va) ∧ Walked k d va t k')
      fun f _ => f.IsPanic := by
  by_cases hp : (k.word d (pdx va)).present = true
  · refine (pgdirWalk_present hp create).mono ?_ fun _ _ hf => hf.1
    rintro _ k' ⟨⟨rfl, rfl⟩, hlt⟩
    exact .inr ⟨_, rfl, h, rfl, hp, rfl, hlt, fun _ _ => rfl⟩
  · have hpf : (k.word d (pdx va)).present = false := by simpa using hp
    cases create with
    | false =>
      refine (pgdirWalk_absent hpf).mono ?_ fun _ _ hf => hf.elim
      rintro _ k' ⟨rfl, rfl⟩
      exact .inl ⟨rfl, rfl, hpf, by simp⟩
    | true =>
      obtain ⟨l, hl, -, -⟩ := h.free
      unfold pgdirWalk
      refine .getBind ?_
      rw [if_neg hp, if_neg (by simp)]
      refine .step (pageAlloc_run hl) (fun _ _ hf => hf.elim) ?_
      rintro _ _ (⟨rfl, rfl, rfl⟩ | ⟨t, l, q, rfl, rfl, hq, rfl⟩)
      · exact .pure (.inl ⟨rfl, rfl, hpf, fun _ => hl⟩)
      · show Run (Kern.newTable d va t) _ _ _
        unfold Kern.newTable walkEntry
        refine .modifyBind (.bind (.mono (kaddr_spec t _) (fun _ _ hk => hk) fun _ _ hf => hf.1) ?_)
        rintro _ k1 ⟨rfl, hlt⟩
        refine .modifyBind (.modifyBind (.bind (.mono (kaddr_spec t _) (fun _ _ hk => hk) fun _ _ hf => hf.1) ?_))
        rintro _ k2 ⟨rfl, -⟩
        exact .pure (.inr ⟨t, rfl, h.newTable hpf hl hq hlt⟩)

/-! ### Removing and inserting -/

theorem look_of_word (hw : k'.word = k.word) (hn : k'.npage = k.npage) (va : ℕ) : k'.look d va = k.look d va :=
  look_congr hn (by rw [hw]) fun _ => by
    unfold KernSt.entry
    rw [hw]

/-- A mapping that is there is cleared, and else nothing changes. -/
theorem pageRemove_spec (d va : ℕ) (k : KernSt) :
    Run (pageRemove d va) k (fun _ k' => k'.npage = k.npage ∧
      if (k.word d (pdx va)).present = true ∧ (k.entry d va).present = true then
        (k.word d (pdx va)).ppn < k.npage ∧ k'.word = (k.setWord (k.word d (pdx va)).ppn (ptx va) .zero).word
      else k' = k ∧ k.look d va = some none) fun f _ => f.IsPanic := by
  unfold pageRemove
  by_cases hp : (k.word d (pdx va)).present = true
  · refine .step (pageLookup_spec hp) (fun _ _ hf => hf.1) ?_
    rintro r k1 ⟨rfl, hlt, hr⟩
    by_cases hpte : (k1.entry d va).present = true
    · rw [if_pos hpte] at hr
      obtain ⟨rfl, hlt'⟩ := hr
      simp only [hp, hpte, and_self, if_true]
      refine .getBind ?_
      split
      · exact .throw ⟨_, rfl⟩
      · unfold pageDecref pageFree
        simp only [bind_assoc]
        refine .modifyBind (.getBind ?_)
        split
        · exact .modifyBind (.modify ⟨rfl, hlt, rfl⟩)
        · exact .modify ⟨rfl, hlt, rfl⟩
    · rw [if_neg hpte] at hr
      simp only [hr, hpte, Bool.false_eq_true, and_false, if_false]
      refine .pure ⟨rfl, rfl, ?_⟩
      rw [look_present hp hlt, KernSt.read, if_neg hpte]
  · have hpf : (k.word d (pdx va)).present = false := by simpa using hp
    have hrun : Run (pageLookup d va) k (fun r k' => r = none ∧ k' = k) fun f _ => f.IsPanic := by
      refine .step (pgdirWalk_absent hpf) (fun _ _ hf => hf.elim) ?_
      rintro _ k' ⟨rfl, rfl⟩
      exact .pure ⟨rfl, rfl⟩
    refine .bind hrun ?_
    rintro _ k1 ⟨rfl, rfl⟩
    simp only [hp, Bool.false_eq_true, false_and, if_false]
    exact .pure ⟨rfl, rfl, look_absent hpf⟩

/-- `page_remove` as a change of the map. -/
theorem PageDir.remove (h : PageDir k d) (hva : va < UTOP) :
    Run (pageRemove d va) k (fun _ k' => k'.look d va = some none ∧
      ∀ va' < UTOP, va' / PGSIZE ≠ va / PGSIZE → k'.look d va' = k.look d va') fun f _ => f.IsPanic := by
  refine (pageRemove_spec d va k).mono ?_ fun _ _ hf => hf
  rintro _ k' ⟨hn, hk'⟩
  split at hk'
  next hc =>
    obtain ⟨hlt, hw⟩ := hk'
    refine ⟨?_, fun va' hva' hne => ?_⟩
    · rw [look_of_word hw hn, h.look_setWord hva hc.1 hlt, KernSt.read, if_neg (by simp)]
    · rw [look_of_word hw hn, h.look_setWord_ne hva hva' hne hc.1]
  next =>
    obtain ⟨rfl, hlook⟩ := hk'
    exact ⟨hlook, fun _ _ _ => rfl⟩

/-- `page_insert` as a change of the map, or that it fails. -/
theorem PageDir.insert (h : PageDir k d) (hva : va < UTOP) (hpp : p < k.npage) (hperm : perm < PGSIZE) :
    Run (pageInsert d p va perm) k (fun r k' =>
      (r = false ∧ k' = k ∧ (k.word d (pdx va)).present = false ∧ k.freeList.Holds []) ∨
      r = true ∧ k'.look d va = some (some (p, perm ||| PTE_P)) ∧
        ∀ va' < UTOP, va' / PGSIZE ≠ va / PGSIZE → k'.look d va' = k.look d va') fun f _ => f.IsPanic := by
  unfold pageInsert
  refine .bind (h.walk va true) ?_
  rintro _ k1 (⟨rfl, rfl, hpf, hl⟩ | ⟨t, rfl, hw⟩)
  · exact .pure (.inl ⟨rfl, rfl, hpf, hl rfl⟩)
  · -- whatever was there, the entry is written over
    have hend : ∀ {k' : KernSt}, k'.npage = k1.npage → k'.word = (k1.setWord t (ptx va) ⟨p, perm ||| PTE_P⟩).word →
        k'.look d va = some (some (p, perm ||| PTE_P)) ∧
          ∀ va' < UTOP, va' / PGSIZE ≠ va / PGSIZE → k'.look d va' = k.look d va' := by
      intro k' hn hword
      rw [← hw.table] at hword
      refine ⟨?_, fun va' hva' hne => ?_⟩
      · rw [look_of_word hword hn, hw.dir.look_setWord hva hw.present (by rw [hw.table, hw.npage]; exact hw.lt), KernSt.read,
          if_pos (Pte.or_present ..), hw.npage, if_neg (Nat.not_le.mpr hpp)]
      · rw [look_of_word hword hn, hw.dir.look_setWord_ne hva hva' hne hw.present, hw.look va' hva']
    have hlink : ∀ {k2 : KernSt}, k2.npage = k1.npage → (k2.setWord t (ptx va) ⟨p, perm ||| PTE_P⟩).word =
        (k1.setWord t (ptx va) ⟨p, perm ||| PTE_P⟩).word → Run (linkPage p t (ptx va) perm) k2 (fun r k' =>
      (r = false ∧ k' = k ∧ (k.word d (pdx va)).present = false ∧ k.freeList.Holds []) ∨
      r = true ∧ k'.look d va = some (some (p, perm ||| PTE_P)) ∧
        ∀ va' < UTOP, va' / PGSIZE ≠ va / PGSIZE → k'.look d va' = k.look d va') fun f _ => f.IsPanic := fun hn hword => by
      unfold linkPage
      rw [Pte.of_eq hperm]
      exact .modifyBind (.modifyBind (.pure (.inr ⟨rfl, hend hn hword⟩)))
    refine .getBind ?_
    dsimp only
    have hent : k1.word t (ptx va) = k1.entry d va := by
      unfold KernSt.entry
      rw [hw.table]
    split
    next hpte =>
      refine .step (pa2page_spec _ k1) (fun _ _ hf => hf.1) ?_
      rintro old k2 ⟨⟨rfl, rfl⟩, -⟩
      split
      next hold =>
        rw [hold, Pte.of_eq hperm]
        exact .modifyBind (.pure (.inr ⟨rfl, hend rfl rfl⟩))
      next =>
        refine .bind (pageRemove_spec d va k2) ?_
        rintro _ k3 ⟨hn, hk3⟩
        rw [if_pos ⟨hw.present, by rw [← hent]; exact hpte⟩, hw.table] at hk3
        refine hlink hn ?_
        unfold KernSt.setWord at hk3 ⊢
        dsimp only at hk3 ⊢
        rw [hk3.2]
        simp
    next => exact hlink rfl rfl

theorem pageInsert_noMem (hp : (k.word d (pdx va)).present = false) (hf : k.freeList.Holds []) :
    Run (pageInsert d p va perm) k (fun r k' => r = false ∧ k' = k) fun _ _ => False := by
  have hwalk : Run (pgdirWalk d va true) k (fun r k' => r = none ∧ k' = k) fun _ _ => False := by
    refine .getBind ?_
    dsimp only
    rw [if_neg (by simp [hp]), if_neg (by simp)]
    refine .bind (pageAlloc_run hf) ?_
    rintro _ _ (⟨rfl, rfl, -⟩ | ⟨_, _, _, -, hc, -⟩)
    · exact .pure ⟨rfl, rfl⟩
    · cases hc
  refine .bind hwalk ?_
  rintro _ _ ⟨rfl, rfl⟩
  exact .pure ⟨rfl, rfl⟩

end

theorem smallMachine_pageDir : PageDir smallMachine 256 := by
  have hw : ∀ i < pdx UTOP, (smallMachine.word 256 i).present = false := by decide +kernel
  have hno : ∀ {P : Prop} {i}, i < pdx UTOP → (smallMachine.word 256 i).present = true → P := fun hi hp => by
    rw [hw _ hi] at hp
    cases hp
  refine ⟨fun i hi hp => hno hi hp, fun i hi j hj hp _ _ => hno hi hp, pageList 256 300, pageInit_holds 256 300, fun hc => ?_,
    fun i hi hp => hno hi hp⟩
  exact absurd (mem_pageList.mp hc).2 (by decide)

/-- The page tables of a directory as a map: `page_insert` and `page_remove` change it at
one page, and `pgdir_walk` does not change it; `page_insert` fails if and only if
there is no table and no page for one, and then nothing changes at all. -/
theorem tables_refine_map {k : KernSt} {d : ℕ} (va p perm : ℕ) (h : PageDir k d) (hva : va < UTOP) (hp : p < k.npage)
    (hperm : perm < PGSIZE) :
    (∀ k', pageInsert d p va perm k = .ok true k' → k'.look d va = some (some (p, perm ||| PTE_P)) ∧
      ∀ va' < UTOP, va' / PGSIZE ≠ va / PGSIZE → k'.look d va' = k.look d va') ∧
    (∀ k', pageRemove d va k = .ok () k' → k'.look d va = some none ∧
      ∀ va' < UTOP, va' / PGSIZE ≠ va / PGSIZE → k'.look d va' = k.look d va') ∧
    (∀ r k', pgdirWalk d va false k = .ok r k' → k' = k) ∧
    (∀ r k', pgdirWalk d va true k = .ok r k' → ∀ va' < UTOP, k'.look d va' = k.look d va') ∧
    (returned (pageInsert d p va perm) k = some false ↔ (k.word d (pdx va)).present = false ∧ k.freeList.first = none) ∧
    ∀ k', pageInsert d p va perm k = .ok false k' → k' = k := by
  have hins := h.insert hva hp hperm
  refine ⟨fun k' hk => ?_, fun k' hk => (h.remove hva).of_ok hk, fun r k' hk => ?_, fun r k' hk => ?_, ⟨fun hr => ?_, fun hc => ?_⟩,
    fun k' hk => ?_⟩
  · obtain ⟨hc, -⟩ | ⟨-, hlook⟩ := hins.of_ok hk
    · cases hc
    · exact hlook
  · by_cases hpr : (k.word d (pdx va)).present = true
    · exact ((pgdirWalk_present hpr false).of_ok hk).1.2
    · exact ((pgdirWalk_absent (by simpa using hpr)).of_ok hk).2
  · obtain ⟨-, rfl, -⟩ | ⟨t, -, hw⟩ := (h.walk va true).of_ok hk
    · exact fun _ _ => rfl
    · exact hw.look
  · obtain ⟨k', hk⟩ : ∃ k', pageInsert d p va perm k = .ok false k' := by
      unfold returned at hr
      cases hx : pageInsert d p va perm k with
      | ok b k' =>
        rw [hx] at hr
        exact ⟨k', by rw [Option.some.inj hr]⟩
      | error f k' =>
        rw [hx] at hr
        cases hr
    obtain ⟨-, -, hpf, hl⟩ | ⟨hc, -⟩ := hins.of_ok hk
    · exact ⟨hpf, hl.first⟩
    · cases hc
  · obtain ⟨l, hl, -⟩ := h.free
    obtain rfl : l = [] := List.head?_eq_none_iff.mp (hl.first.symm.trans hc.2)
    exact ((pageInsert_noMem hc.1 hl).post fun _ _ h => h.1).returned_eq
  · obtain ⟨-, hk', -⟩ | ⟨hc, -⟩ := hins.of_ok hk
    · exact hk'
    · cases hc

set_option maxRecDepth 8000 in
/-- A page is inserted in an empty directory. -/
theorem tables_of_insert : ∃ k', pageInsert 256 260 0x800000 7 smallMachine = .ok true k' ∧
    k'.look 256 0x800000 = some (some (260, 7)) ∧ k'.look 256 0x801000 = smallMachine.look 256 0x801000 := by
  obtain ⟨b, hx, hb⟩ := exists_of_returned (p := fun b => b) (x := pageInsert 256 260 0x800000 7) (s := smallMachine) (by decide +kernel)
  obtain rfl : b = true := hb
  have h := (tables_refine_map 0x800000 260 7 smallMachine_pageDir (by decide) (by decide) (by decide)).1 _ hx
  exact ⟨_, hx, h.1, h.2 0x801000 (by decide) (by decide)⟩

end Kern
end Jos
