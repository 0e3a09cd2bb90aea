/-
# The page functions keep the roles

Each function of `kern/pmap.c` on a state in which the roles are right: what it
returns, the roles after it, and which mappings it changes. None of them stops
the kernel there; `page_remove` needs that the page it takes a mapping of has
fewer than 2 ^ 16, or `pp_ref` may say that there is none left.

Key theorems: `pageAlloc_typed`, `pgdirWalk_typed`, `pageRemove_typed`,
`pageInsert_typed`.
-/
import Jos.Kern.Account

namespace Jos
namespace Kern

open Fs (NENV PGSIZE)
open Function

section
variable {k k' : KernSt} {role role' : ℕ → Role} {l l' : List ℕ} {o : Option ℕ} {e v p t d i j va perm : ℕ} {pte : Pte}

/-- The roles of pages that are handed out. -/
def Role.Used : Role → Prop
  | .user | .table _ _ | .dir (some _) => True
  | _ => False

theorem Role.Used.ne_free {r : Role} (h : r.Used) : r ≠ .free := by
  rintro rfl
  exact h

theorem Role.Used.ne_reserved {r : Role} (h : r.Used) : r ≠ .reserved := by
  rintro rfl
  exact h

theorem Role.Used.ne_boot {r : Role} (h : r.Used) : r ≠ .dir none := by
  rintro rfl
  exact h

namespace Typed

theorem lt_npage (h : Typed k role l) (h1 : role p ≠ .reserved) (h2 : role p ≠ .dir none) : p < k.npage := by
  have hm : k.managed p = true := by
    rw [← Bool.not_eq_false]
    exact fun hc => ((h.managed p).mp hc).elim h1 h2
  unfold KernSt.managed at hm
  simp only [Bool.and_eq_true, decide_eq_true_eq] at hm
  exact hm.1

theorem mapCount_eq_zero (h : Typed k role l) (hp : role p ≠ .user) : k.mapCount p = 0 :=
  KernSt.mapCount_eq_zero fun _ _ hv ht => hp (h.user_of_target hv ht)

/-- The roles of one page changed between those of pages that are given out. -/
theorem managed_update (h : Typed k role l) {r : Role} (h1 : role p ≠ .reserved) (h2 : role p ≠ .dir none)
    (h3 : r ≠ .reserved) (h4 : r ≠ .dir none) (q : ℕ) :
    k.managed q = false ↔ update role p r q = .reserved ∨ update role p r q = .dir none := by
  rw [update_eq_iff h1 h3, update_eq_iff h2 h4]
  exact h.managed q

/-- No mapping changes, and only the count of a page that has another role now. -/
theorem refs_update (h : Typed k role l) {r : Role} (ht : k.SameMaps k')
    (hr : ∀ x, x ≠ p → k'.ref x = k.ref x) (hp : k'.ref p = refsOf k p r % 2 ^ 16) (x : ℕ) :
    k'.ref x = refsOf k' x (update role p r x) % 2 ^ 16 := by
  rw [refsOf_congr ht]
  by_cases hx : x = p
  · rw [hx, update_self, hp]
  · rw [update_of_ne hx, hr x hx, h.refs x]

/-- `page_alloc` takes a page off the list. -/
theorem alloc {q : Queue} (h : Typed k role (p :: l)) (hq : q.Holds l) :
    Typed { k with freeList := q, ref := update k.ref p 0 } (update role p .user) l := by
  have hpl := (List.nodup_cons.mp h.queue.2).1
  have hp : role p = .free := (h.free p).mp List.mem_cons_self
  have hs : Shape { k with freeList := q, ref := update k.ref p 0 } (update role p .user) :=
    (h.toShape.recast (.inl hp) (.inr rfl) (by simp)).congr rfl rfl rfl (fun _ _ _ => rfl) fun _ _ _ _ => rfl
  refine ⟨hs, hq, fun x => ?_, h.managed_update (by rw [hp]; simp) (by rw [hp]; simp) (by simp) (by simp),
    h.refs_update (fun _ _ _ => rfl) (fun x hx => update_of_ne hx ..) ?_⟩
  · by_cases hx : x = p
    · subst hx
      rw [update_self]
      exact ⟨fun hc => absurd hc hpl, fun hc => by cases hc⟩
    · rw [update_of_ne hx, ← h.free, List.mem_cons, or_iff_right hx]
  · show update k.ref p 0 p = k.mapCount p % 2 ^ 16
    rw [update_self, h.mapCount_eq_zero (by rw [hp]; simp), Nat.zero_mod]

/-- `page_free` of a page that is not mapped. -/
theorem release (h : Typed k role l) (hp : role p = .user) (hm : k.mapCount p = 0) :
    Typed { k with freeList := k.freeList.insertHead p } (update role p .free) (p :: l) := by
  have hpl : p ∉ l := fun hc => by
    have := (h.free p).mp hc
    rw [hp] at this
    cases this
  have hs : Shape { k with freeList := k.freeList.insertHead p } (update role p .free) :=
    (h.toShape.recast (.inr hp) (.inl rfl) fun _ => KernSt.target_ne_of_mapCount hm).congr rfl rfl rfl
      (fun _ _ _ => rfl) fun _ _ _ _ => rfl
  refine ⟨hs, h.queue.insertHead hpl, fun x => ?_, h.managed_update (by rw [hp]; simp) (by rw [hp]; simp) (by simp) (by simp),
    h.refs_update (fun _ _ _ => rfl) (fun _ _ => rfl) ?_⟩
  · by_cases hx : x = p
    · subst hx
      rw [update_self]
      exact ⟨fun _ => rfl, fun _ => .head _⟩
    · rw [update_of_ne hx, ← h.free, List.mem_cons, or_iff_right hx]
  · show k.ref p = 0 % 2 ^ 16
    rw [h.refs p, hp, ← hm]
    rfl

/-- A page in use gets another use. -/
theorem retype (h : Typed k role l) {r : Role} (hp : (role p).Used) (hr : r.Used)
    (hs : Shape k' (update role p r)) (hq : k'.freeList = k.freeList) (hn : k'.npage = k.npage)
    (hf : k'.freemem = k.freemem) (ht : k.SameMaps k')
    (href : k'.ref = update k.ref p (refsOf k p r % 2 ^ 16)) : Typed k' (update role p r) l := by
  refine ⟨hs, by rw [hq]; exact h.queue, fun x => ?_, fun x => ?_, h.refs_update ht (fun x hx => ?_) ?_⟩
  · rw [update_eq_iff hp.ne_free hr.ne_free]
    exact h.free x
  · rw [show k'.managed x = k.managed x by unfold KernSt.managed; rw [hn, hf]]
    exact h.managed_update hp.ne_reserved hp.ne_boot hr.ne_reserved hr.ne_boot x
  · rw [href, update_of_ne hx]
  · rw [href, update_self]

/-- A page that is not mapped becomes a page table. -/
theorem newTable (h : Typed k role l) (hp : role p = .user) (hm : k.mapCount p = 0) (hd : k.dirOf o = some d)
    (hi : Entry o i) (hn : (k.word d i).present = false) {f : ℕ} (hf : (⟨p, f⟩ : Pte).present = true)
    (hf' : (⟨p, f⟩ : Pte).writable = true) :
    Typed (((k.setRef p 1).zeroPage p).setWord d i ⟨p, f⟩) (update role p (.table o i)) l ∧
      k.SameMaps (((k.setRef p 1).zeroPage p).setWord d i ⟨p, f⟩) := by
  have hdp := h.ne_of_user hp hd
  have hw : ∀ q, q ≠ p → q ≠ d → (((k.setRef p 1).zeroPage p).setWord d i ⟨p, f⟩).word q = k.word q := fun q hqp hqd => by
    rw [setWord_ne hqd]
    exact update_of_ne hqp ..
  have hwd : ∀ i', i' ≠ i → (((k.setRef p 1).zeroPage p).setWord d i ⟨p, f⟩).word d i' = k.word d i' := fun i' hii => by
    rw [setWord_self_ne hii]
    exact congrFun (update_of_ne hdp ..) _
  have hz : ∀ j, ((((k.setRef p 1).zeroPage p).setWord d i ⟨p, f⟩).word p j).present = false := fun j => by
    rw [setWord_ne hdp.symm, show ((k.setRef p 1).zeroPage p).word p = fun _ => .zero from update_self ..]
    exact Pte.zero_present
  have ht := fun e v (hv : v < NUPAGES) =>
    h.pteAt_newTable (e := e) (v := v) hp hd hn hw hwd rfl hz (by rw [setWord_self]) hv
  refine ⟨h.retype (by rw [hp]; trivial) trivial ?_ rfl rfl rfl ht rfl, ht⟩
  exact h.toShape.newTable hp hd hn hw hwd rfl rfl rfl hz (by rw [setWord_self]) (by rw [setWord_self]; exact hf)
    (by rw [setWord_self]; exact hf') hi
    (KernSt.target_ne_of_mapCount hm)

/-- A table without mappings is taken out of its directory. -/
theorem delTable (h : Typed k role l) (hp : role p = .table (some e) i) (hd : k.dirOf (some e) = some d)
    (hm : ∀ v < NUPAGES, v / NPTENTRIES = i → k.pteAt e v = none) :
    Typed ((k.setWord d i .zero).setRef p 0) (update role p .user) l ∧
      k.SameMaps ((k.setWord d i .zero).setRef p 0) := by
  have hw : ∀ q, q ≠ d → ((k.setWord d i .zero).setRef p 0).word q = k.word q := fun q hq => setWord_ne hq
  have hwd : ∀ i', i' ≠ i → ((k.setWord d i .zero).setRef p 0).word d i' = k.word d i' := fun i' hi => setWord_self_ne hi
  have hkd : (((k.setWord d i .zero).setRef p 0).word d i).present = false := by
    rw [show ((k.setWord d i .zero).setRef p 0).word d i = .zero from setWord_self]
    exact Pte.zero_present
  have ht : k.SameMaps ((k.setWord d i .zero).setRef p 0) :=
    fun _ _ hv => h.pteAt_delTable hd hw hwd hkd hm rfl hv
  refine ⟨h.retype (by rw [hp]; trivial) trivial (h.toShape.delTable hp hd hw hwd hkd hm rfl rfl rfl) rfl rfl rfl ht ?_, ht⟩
  show update k.ref p 0 = update k.ref p (k.mapCount p % 2 ^ 16)
  rw [h.mapCount_eq_zero (by rw [hp]; simp), Nat.zero_mod]

/-- An entry of a table is written; the counts are those of the new mappings. -/
theorem setPte (h : Typed k role l) (ht : role t = .table o i) (hj : j < NPTENTRIES)
    (hp : o ≠ none → pte.present = true → role pte.ppn = .user) {f : ℕ → ℕ}
    (hf : ∀ x, f x = refsOf (k.setWord t j pte) x (role x) % 2 ^ 16) : Typed { k.setWord t j pte with ref := f } role l := by
  refine ⟨(h.toShape.setPte ht hj hp).congr rfl rfl rfl (fun _ _ _ => rfl) fun _ _ _ _ => rfl, h.queue, h.free, h.managed,
    fun x => ?_⟩
  rw [refsOf_congr (k := k.setWord t j pte)]
  · exact hf x
  · exact fun _ _ _ => rfl

end Typed

/-! ### Functions -/

/-- What the page functions leave alone. -/
structure Same (k k' : KernSt) : Prop where
  envs : k'.envs = k.envs
  boot : k'.bootPgdir = k.bootPgdir
  npage : k'.npage = k.npage
  freemem : k'.freemem = k.freemem
  envFree : k'.envFree = k.envFree

theorem Same.refl (k : KernSt) : Same k k := ⟨rfl, rfl, rfl, rfl, rfl⟩

theorem Same.trans {k'' : KernSt} (h : Same k k') (h' : Same k' k'') : Same k k'' :=
  ⟨h'.envs.trans h.envs, h'.boot.trans h.boot, h'.npage.trans h.npage, h'.freemem.trans h.freemem, h'.envFree.trans h.envFree⟩

/-- The directories and tables that are not of `o` are not written to. -/
def Frame (o : Option ℕ) (k : KernSt) (role : ℕ → Role) (k' : KernSt) : Prop :=
  ∀ q o', o' ≠ o → role q = .dir o' ∨ (∃ i, role q = .table o' i) → k'.word q = k.word q

theorem Frame.refl : Frame o k role k := fun _ _ _ _ => rfl

theorem Same.dirOf (h : Same k k') : k'.dirOf o = k.dirOf o := by
  unfold KernSt.dirOf
  rw [h.envs, h.boot]

theorem kaddr_run (h : p < k.npage) : Run (kaddr p) k (fun _ k' => k' = k) fun _ _ => False := by
  unfold kaddr
  refine .getBind ?_
  rw [if_neg (Nat.not_le.mpr h)]
  exact .pure rfl

theorem pa2page_run (h : p < k.npage) : Run (pa2page p) k (fun r k' => r = p ∧ k' = k) fun _ _ => False := by
  unfold pa2page
  refine .getBind ?_
  rw [if_neg (Nat.not_le.mpr h)]
  exact .pure ⟨rfl, rfl⟩

theorem pageAlloc_run (hl : k.freeList.Holds l) : Run pageAlloc k
    (fun r k' => (r = none ∧ k' = k ∧ l = []) ∨ ∃ p l' q, r = some p ∧ l = p :: l' ∧ q.Holds l' ∧
      k' = { k with freeList := q, ref := update k.ref p 0 }) fun _ _ => False := by
  refine .getBind ?_
  rw [hl.first]
  cases l with
  | nil => exact .pure (.inl ⟨rfl, rfl, rfl⟩)
  | cons p l =>
    obtain ⟨q, hq, hq'⟩ := hl.remove
    dsimp only [List.head?_cons]
    rw [hq]
    exact .setBind (.pure (.inr ⟨p, l, _, rfl, rfl, hq'.clear (List.nodup_cons.mp hl.2).1, rfl⟩))

theorem pageAlloc_typed (h : Typed k role l) : Run pageAlloc k
    (fun r k' => (r = none ∧ k' = k ∧ l = []) ∨ ∃ p l', r = some p ∧ l = p :: l' ∧ Same k k' ∧ k'.word = k.word ∧
      Typed k' (update role p .user) l') fun _ _ => False := by
  refine (pageAlloc_run h.queue).post fun r k' => .imp_right ?_
  rintro ⟨p, l, q, rfl, rfl, hq, rfl⟩
  exact ⟨p, l, rfl, rfl, ⟨rfl, rfl, rfl, rfl, rfl⟩, rfl, h.alloc hq⟩

/-! ### Walking -/

theorem walkEntry_run {pgde : Pte} (h : pgde.ppn < k.npage) :
    Run (walkEntry pgde va) k (fun r k' => r = some (pgde.ppn, ptx va) ∧ k' = k) fun _ _ => False := by
  unfold walkEntry
  refine .bind (kaddr_run h) fun _ k' hk => ?_
  subst hk
  exact .pure ⟨rfl, rfl⟩

/-- `pgdir_walk` at an entry for a table: the table, which it makes if it has
to and may, or none. -/
theorem pgdirWalk_typed (h : Typed k role l) (hd : k.dirOf o = some d) (hi : Entry o (pdx va)) (create : Bool) :
    Run (pgdirWalk d va create) k
      (fun r k' =>
        (r = none ∧ k' = k ∧ (k.word d (pdx va)).present = false ∧ (create = true → l = [])) ∨
        (r = some ((k.word d (pdx va)).ppn, ptx va) ∧ k' = k ∧ (k.word d (pdx va)).present = true) ∨
        ∃ t l', create = true ∧ r = some (t, ptx va) ∧ l = t :: l' ∧ (k.word d (pdx va)).present = false ∧ Same k k' ∧
          Typed k' (update role t (.table o (pdx va))) l' ∧ (∀ j, (k'.word t j).present = false) ∧
          k.SameMaps k' ∧ ∀ q, q ≠ t → q ≠ d → k'.word q = k.word q)
      fun _ _ => False := by
  unfold pgdirWalk
  refine .getBind ?_
  by_cases hp : (k.word d (pdx va)).present = true
  · rw [if_pos hp]
    have hrole := h.table_of hd hi hp
    refine (walkEntry_run (h.lt_npage (by rw [hrole]; simp) (by rw [hrole]; simp))).mono ?_ fun _ _ hc => hc
    rintro r k' ⟨rfl, rfl⟩
    exact .inr (.inl ⟨rfl, rfl, hp⟩)
  · rw [if_neg hp]
    have hpf : (k.word d (pdx va)).present = false := by simpa using hp
    cases create with
    | false => exact .pure (.inl ⟨rfl, rfl, hpf, by simp⟩)
    | true =>
      refine .bind (pageAlloc_typed h) fun r k1 hr => ?_
      rcases hr with ⟨rfl, rfl, hl⟩ | ⟨t, l', rfl, rfl, hsame, hw, ht⟩
      · exact .pure (.inl ⟨rfl, rfl, hpf, fun _ => hl⟩)
      · have hut : update role t .user t = .user := update_self ..
        have hm : k1.mapCount t = 0 := by
          rw [KernSt.mapCount_congr (k := k)]
          · have hfree := (h.free t).mp List.mem_cons_self
            exact h.mapCount_eq_zero (by rw [hfree]; simp)
          · exact fun e v hv => h.pteAt_congr hsame.envs (fun q _ _ => congrFun hw q) (fun q _ _ _ => congrFun hw q) hv
        obtain ⟨hnew, htar⟩ := ht.newTable hut hm (f := PTE_W ||| PTE_U ||| PTE_P) (by rw [hsame.dirOf]; exact hd) hi
          (by rw [hw]; exact hpf) (Pte.or_present ..)
          (show ((PTE_W ||| PTE_U ||| PTE_P) &&& PTE_W != 0) = true by decide)
        rw [update_idem] at hnew
        have hlt : t < k1.npage := ht.lt_npage (by rw [hut]; simp) (by rw [hut]; simp)
        dsimp only
        unfold newTable
        refine .modifyBind (.bind (kaddr_run hlt) fun _ k2 hk2 => ?_)
        subst hk2
        refine .modifyBind (.modifyBind ?_)
        refine .mono (walkEntry_run hlt) ?_ fun _ _ hc => hc
        rintro r k' ⟨rfl, rfl⟩
        refine .inr (.inr ⟨t, l', rfl, rfl, rfl, hpf, hsame.trans ⟨rfl, rfl, rfl, rfl, rfl⟩, hnew, fun j => ?_, fun e v hv => ?_,
          fun q hqt hqd => ?_⟩)
        · have hdt := ht.ne_of_user hut (by rw [hsame.dirOf]; exact hd)
          rw [setWord_ne hdt.symm, show ((k1.setRef t 1).zeroPage t).word t = fun _ => .zero from update_self ..]
          exact Pte.zero_present
        · rw [htar e v hv]
          exact h.pteAt_congr hsame.envs (fun q _ _ => congrFun hw q) (fun q _ _ _ => congrFun hw q) hv
        · rw [setWord_ne hqd, ← hw]
          exact update_of_ne hqt ..

/-! ### Looking up and removing -/

theorem vpn_lt (h : va < UTOP) : va / PGSIZE < NUPAGES := Nat.div_lt_div_of_lt_of_dvd (by decide) h

theorem pdx_eq (h : va < UTOP) : pdx va = va / PGSIZE / NPTENTRIES := by
  simp only [pdx, PTSIZE, PGSIZE, NPTENTRIES, UTOP, UENVS, UPAGES, UVPT, ULIM, KSTACKTOP, VPT, KERNBASE] at *
  omega

theorem entry_va (h : va < UTOP) : Entry (some e) (pdx va) := by
  rw [pdx_eq h]
  exact entry_of_lt (vpn_lt h)

theorem ptx_lt (va : ℕ) : ptx va < NPTENTRIES := Nat.mod_lt _ (by decide)

theorem vpn_eq (h : va < UTOP) : pdx va * NPTENTRIES + ptx va = va / PGSIZE := by
  rw [pdx_eq h, ptx]
  exact Nat.div_add_mod' _ _

/-- The entry at an address, when the directory has a table for it. -/
theorem pteAt_va (hd : k.dirOf (some e) = some d) (hva : va < UTOP) (hp : (k.word d (pdx va)).present = true) :
    k.pteAt e (va / PGSIZE) = if (k.word (k.word d (pdx va)).ppn (ptx va)).present = true then
      some (k.word (k.word d (pdx va)).ppn (ptx va)) else none := by
  have h := KernSt.pteAt_of_table (v := va / PGSIZE) hd (by rw [← pdx_eq hva]; exact hp)
  rw [← pdx_eq hva] at h
  exact h

theorem pageLookup_typed (h : Typed k role l) (hd : k.dirOf (some e) = some d) (hva : va < UTOP) :
    Run (pageLookup d va) k
      (fun r k' => k' = k ∧ ((r = none ∧ k.pteAt e (va / PGSIZE) = none) ∨
        ∃ t, r = some ((k.word t (ptx va)).ppn, t, ptx va) ∧ k.pteAt e (va / PGSIZE) = some (k.word t (ptx va)) ∧
          role t = .table (some e) (pdx va)))
      fun _ _ => False := by
  unfold pageLookup
  refine .bind (pgdirWalk_typed h hd (entry_va hva) false) fun r k' hr => ?_
  rcases hr with ⟨rfl, rfl, hp, -⟩ | ⟨rfl, rfl, hp⟩ | ⟨_, _, hc, -⟩
  · refine .pure ⟨rfl, .inl ⟨rfl, Shape.pteAt_eq_none_of_entry hd ?_⟩⟩
    rw [← pdx_eq hva]
    exact hp
  · have ht := h.table_of hd (entry_va hva) hp
    have htar := pteAt_va hd hva hp
    dsimp only
    refine .getBind ?_
    by_cases hpte : (k'.word (k'.word d (pdx va)).ppn (ptx va)).present = true
    · rw [if_pos hpte] at htar
      have hu := h.user e _ (vpn_lt hva) _ htar
      rw [hpte]
      refine .bind (pa2page_run (h.lt_npage (by rw [hu]; simp) (by rw [hu]; simp))) fun r k'' hr => ?_
      obtain ⟨rfl, rfl⟩ := hr
      exact .pure ⟨rfl, .inr ⟨_, rfl, htar, ht⟩⟩
    · rw [if_neg hpte] at htar
      rw [show (k'.word (k'.word d (pdx va)).ppn (ptx va)).present = false by simpa using hpte]
      exact .pure ⟨rfl, .inl ⟨rfl, htar⟩⟩
  · cases hc

theorem entry_lt (hi : Entry (some e) i) (hj : j < NPTENTRIES) : i * NPTENTRIES + j < NUPAGES := by
  have h1 : i < pdx UTOP := hi
  have h2 : pdx UTOP = 955 := by decide
  have h3 : NUPAGES = 955 * 1024 := by decide
  simp only [NPTENTRIES] at hj ⊢
  omega

/-- The counts after an entry is written. -/
theorem Shape.refsOf_setPte (h : Shape k role) (pte : Pte) (ht : role t = .table (some e) i) (hj : j < NPTENTRIES)
    (hp : pte.present = true → role pte.ppn = .user) (x : ℕ) :
    refsOf (k.setWord t j pte) x (role x) + (if k.target e (i * NPTENTRIES + j) = some x then 1 else 0) =
      refsOf k x (role x) + (if pte.present = true ∧ pte.ppn = x then 1 else 0) := by
  obtain ⟨hi, d, hd, -⟩ := (h.table _ _ _).mp ht
  have hv := entry_lt hi hj
  have hnew : (k.setWord t j pte).target e (i * NPTENTRIES + j) = if pte.present then some pte.ppn else none := by
    unfold KernSt.target
    rw [h.pteAt_setWord ht hj hv, if_pos ⟨rfl, rfl⟩]
    cases pte.present <;> rfl
  by_cases hx : role x = .user
  · have hc := @KernSt.mapCount_of_agree k (k.setWord t j pte) e _ (KernSt.dirOf_some.mp hd).1 hv (fun e' v' hv' hne => by
      rw [h.pteAt_setWord ht hj hv', if_neg]
      exact fun hc => hne ⟨(Option.some.inj hc.1).symm, hc.2⟩) x
    rw [hnew] at hc
    rw [hx]
    show (k.setWord t j pte).mapCount x + _ = k.mapCount x + _
    rw [hc]
    congr 1
    by_cases hpp : pte.present = true <;> simp [hpp]
  · have h1 : k.target e (i * NPTENTRIES + j) ≠ some x := fun hc => hx (h.user_of_target hv hc)
    have h2 : ¬ (pte.present = true ∧ pte.ppn = x) := fun hc => hx (hc.2 ▸ hp hc.1)
    rw [if_neg h1, if_neg h2]
    cases hr : role x with
    | user => exact absurd hr hx
    | dir o => cases o <;> rfl
    | _ => rfl

/-- The last mapping of a page goes with its count; a page keeps its role as
long as it is mapped. -/
theorem Typed.unlink (h : Typed k role l) (ht : role t = .table (some e) i) (hj : j < NPTENTRIES)
    (hp : k.target e (i * NPTENTRIES + j) = some p) (hu : role p = .user) (hb : k.mapCount p < 2 ^ 16) :
    Typed { k.setWord t j .zero with ref := update k.ref p (k.ref p - 1) } role l ∧ 0 < k.ref p ∧
      (k.setWord t j .zero).mapCount p = k.ref p - 1 := by
  have href : k.ref p = k.mapCount p := by
    rw [h.refs p, hu]
    exact Nat.mod_eq_of_lt hb
  have hc : ∀ x, refsOf (k.setWord t j .zero) x (role x) + (if some p = some x then 1 else 0) = refsOf k x (role x) := by
    intro x
    have := h.refsOf_setPte .zero ht hj (by simp) x
    rw [hp] at this
    simpa using this
  have hcp : (k.setWord t j .zero).mapCount p + 1 = k.mapCount p := by
    have := hc p
    rw [hu, if_pos rfl] at this
    exact this
  refine ⟨h.setPte ht hj (by simp) fun x => ?_, by omega, by omega⟩
  by_cases hx : x = p
  · subst hx
    rw [update_self, hu]
    show k.ref x - 1 = (k.setWord t j .zero).mapCount x % 2 ^ 16
    rw [Nat.mod_eq_of_lt (by omega)]
    omega
  · have := hc x
    rw [if_neg fun he => hx (Option.some.inj he).symm, Nat.add_zero] at this
    rw [update_of_ne hx, h.refs x, this]

/-- What `page_remove` at `va` in env `e` does: the mapping goes, and the page is
freed if it was the last one. -/
structure Removed (e va : ℕ) (k : KernSt) (role : ℕ → Role) (l : List ℕ) (k' : KernSt) (role' : ℕ → Role)
    (l' : List ℕ) : Prop where
  typed : Typed k' role' l'
  same : Same k k'
  kept : ∀ q, role q ≠ .user → role' q = role q
  others : ∀ q, k.target e (va / PGSIZE) ≠ some q → role' q = role q
  users : ∀ q, role q = .user → role' q = .user ∨ role' q = .free
  pteAt : ∀ e', ∀ v < NUPAGES, k'.pteAt e' v = if e' = e ∧ v = va / PGSIZE then none else k.pteAt e' v
  words : ∀ q, role q ≠ .table (some e) (pdx va) → k'.word q = k.word q
  room : l.length ≤ l'.length

theorem Removed.frame (h : Removed e va k role l k' role' l') : Frame (some e) k role k' := by
  intro q o' ho hq
  refine h.words q fun hc => ?_
  rcases hq with hq | ⟨i, hq⟩ <;> rw [hc] at hq <;> cases hq
  exact ho rfl

theorem pageRemove_typed (h : Typed k role l) (hd : k.dirOf (some e) = some d) (hva : va < UTOP)
    (hb : ∀ p, k.target e (va / PGSIZE) = some p → k.mapCount p < 2 ^ 16) :
    Run (pageRemove d va) k (fun _ k' => ∃ role' l', Removed e va k role l k' role' l') fun _ _ => False := by
  unfold pageRemove
  refine .bind (pageLookup_typed h hd hva) fun r k' hr => ?_
  obtain ⟨rfl, ⟨rfl, hnone⟩ | ⟨t, rfl, hpte, ht⟩⟩ := hr
  · refine .pure ⟨role, l, h, .refl _, fun _ _ => rfl, fun _ _ => rfl, fun _ hq => .inl hq, fun e' v _ => ?_,
      fun _ _ => rfl, le_rfl⟩
    split_ifs with hc
    · rw [hc.1, hc.2, hnone]
    · rfl
  · obtain ⟨p, hpp⟩ : ∃ p, (k'.word t (ptx va)).ppn = p := ⟨_, rfl⟩
    have hp : k'.target e (va / PGSIZE) = some p := KernSt.target_eq_some.mpr ⟨_, hpte, hpp⟩
    have hu := h.user_of_target (vpn_lt hva) hp
    rw [hpp]
    rw [← vpn_eq hva] at hp
    obtain ⟨hty, hpos, hcount⟩ := h.unlink ht (ptx_lt va) hp hu (hb p (by rw [← vpn_eq hva]; exact hp))
    have hpteAt : ∀ e', ∀ v < NUPAGES, (k'.setWord t (ptx va) .zero).pteAt e' v =
        if e' = e ∧ v = va / PGSIZE then none else k'.pteAt e' v := by
      intro e' v hv
      rw [h.pteAt_setWord ht (ptx_lt va) hv, vpn_eq hva]
      simp [eq_comm (a := e)]
    have hwords : ∀ q, role q ≠ .table (some e) (pdx va) → (k'.setWord t (ptx va) .zero).word q = k'.word q := fun q hq =>
      setWord_ne fun hc => hq (by rw [hc, ht])
    have hdec : (k'.ref p + (2 ^ 16 - 1)) % 2 ^ 16 = k'.ref p - 1 := by
      have : k'.ref p < 2 ^ 16 := by
        rw [h.refs p]
        exact Nat.mod_lt _ (by decide)
      omega
    dsimp only
    refine .getBind ?_
    rw [if_neg (by omega)]
    unfold pageDecref
    simp only [bind_assoc]
    refine .modifyBind (.getBind ?_)
    have hself : (k'.setRef p ((k'.ref p + (2 ^ 16 - 1)) % 2 ^ 16)).ref p = k'.ref p - 1 := by
      rw [hdec]
      exact update_self ..
    rw [hself]
    by_cases h1 : k'.ref p - 1 = 0
    · rw [if_pos h1]
      unfold pageFree
      refine .modifyBind (.modify ?_)
      have hrel := hty.release hu (by rw [← h1, ← hcount]; exact KernSt.mapCount_congr fun _ _ _ => rfl)
      refine ⟨update role p .free, p :: l, ?_, ⟨rfl, rfl, rfl, rfl, rfl⟩, fun q hq => ?_, fun q hq => ?_,
        fun q hq => ?_, hpteAt, hwords, Nat.le_succ _⟩
      · rw [hdec]
        exact hrel
      · have hne : q ≠ p := fun he => hq (by rw [he]; exact hu)
        exact update_of_ne hne ..
      · have hne : q ≠ p := fun he => hq (by rw [← vpn_eq hva, hp, he])
        exact update_of_ne hne ..
      · by_cases hqp : q = p
        · rw [hqp, update_self]
          exact .inr rfl
        · rw [update_of_ne hqp]
          exact .inl hq
    · rw [if_neg h1, pure_bind]
      refine .modify ⟨role, l, ?_, ⟨rfl, rfl, rfl, rfl, rfl⟩, fun _ _ => rfl, fun _ _ => rfl,
        fun _ hq => .inl hq, hpteAt, hwords, le_rfl⟩
      rw [hdec]
      exact hty

/-! ### Inserting -/

/-- What `page_insert` of page `p` at `va` in env `e` does. -/
structure Inserted (e va p perm : ℕ) (r : Bool) (k : KernSt) (role : ℕ → Role) (l : List ℕ) (k' : KernSt)
    (role' : ℕ → Role) (l' : List ℕ) : Prop where
  typed : Typed k' role' l'
  same : Same k k'
  tables : ∀ q o i, role q = .table o i → role' q = .table o i
  user : role' p = .user
  users : ∀ q, role q = .user → role' q = .user ∨ role' q = .free
  pteAt : ∀ e', ∀ v < NUPAGES, k'.pteAt e' v =
    if r = true ∧ e' = e ∧ v = va / PGSIZE then some ⟨p, perm ||| PTE_P⟩ else k.pteAt e' v
  words : ∀ q, role q ≠ .dir (some e) → role' q ≠ .table (some e) (pdx va) → k'.word q = k.word q
  failed : r = false → k' = k
  full : r = false ↔ l = [] ∧ ∀ t, role t ≠ .table (some e) (pdx va)
  room : l.length ≤ l'.length + 1
  spares : (∃ t, role t = .table (some e) (pdx va)) → l.length ≤ l'.length

theorem Inserted.frame {r : Bool} (h : Inserted e va p perm r k role l k' role' l') (hs : Shape k role) :
    Frame (some e) k role k' := by
  intro q o ho hq
  have hq' : role' q = .dir o ∨ ∃ i, role' q = .table o i := by
    refine hq.imp (fun hd => ?_) fun ⟨i, ht⟩ => ⟨i, h.tables q o i ht⟩
    rw [h.typed.dir, h.same.dirOf, ← hs.dir, hd]
  refine h.words q (fun hc => ?_) fun hc => ?_
  · rcases hq with hq | ⟨i, hq⟩ <;> rw [hc] at hq <;> cases hq
    exact ho rfl
  · rcases hq' with hq | ⟨i, hq⟩ <;> rw [hc] at hq <;> cases hq
    exact ho rfl

theorem Typed.link (h : Typed k role l) (perm : ℕ) (ht : role t = .table (some e) i) (hj : j < NPTENTRIES)
    (hn : k.pteAt e (i * NPTENTRIES + j) = none) (hu : role p = .user) :
    Typed ((k.setWord t j ⟨p, perm ||| PTE_P⟩).setRef p ((k.ref p + 1) % 2 ^ 16)) role l := by
  refine h.setPte ht hj (fun _ _ => hu) fun x => ?_
  have hn' : k.target e (i * NPTENTRIES + j) = none := by
    unfold KernSt.target
    rw [hn]
    rfl
  have hc := h.refsOf_setPte ⟨p, perm ||| PTE_P⟩ ht hj (fun _ => hu) x
  rw [hn', if_neg (by simp), Nat.add_zero] at hc
  rw [hc]
  show update k.ref p _ x = _
  by_cases hx : x = p
  · subst hx
    rw [update_self, if_pos ⟨Pte.or_present .., rfl⟩, h.refs x]
    omega
  · rw [update_of_ne hx, if_neg fun hc => hx hc.2.symm, Nat.add_zero, h.refs x]

/-- The end of `page_insert`. -/
theorem linkPage_typed (h : Typed k role l) (ht : role t = .table (some e) (pdx va)) (hva : va < UTOP)
    (hn : k.pteAt e (va / PGSIZE) = none) (hu : role p = .user) (hperm : perm < PGSIZE) :
    Run (linkPage p t (ptx va) perm) k
      (fun r k' => r = true ∧ Typed k' role l ∧ Same k k' ∧ (∀ q, q ≠ t → k'.word q = k.word q) ∧
        ∀ e', ∀ v < NUPAGES, k'.pteAt e' v = if e' = e ∧ v = va / PGSIZE then some ⟨p, perm ||| PTE_P⟩ else k.pteAt e' v)
      fun _ _ => False := by
  unfold linkPage
  rw [Pte.of_eq hperm]
  refine .modifyBind (.modifyBind (.pure
    ⟨rfl, ?_, ⟨rfl, rfl, rfl, rfl, rfl⟩, fun _ hq => setWord_ne hq, fun e' v hv => ?_⟩))
  · exact h.link perm ht (ptx_lt va) (by rw [vpn_eq hva]; exact hn) hu
  · have hst : (k.setWord t (ptx va) ⟨p, perm ||| PTE_P⟩).pteAt e' v = _ := h.pteAt_setWord ht (ptx_lt va) hv
    rw [vpn_eq hva, Pte.or_present, if_pos rfl] at hst
    simp only [Option.some.injEq, eq_comm (a := e)] at hst
    exact hst

/-- The entry of a page is written again, with other permissions. -/
theorem Typed.relink (h : Typed k role l) (perm : ℕ) (ht : role t = .table (some e) i) (hj : j < NPTENTRIES)
    (hp : k.target e (i * NPTENTRIES + j) = some p) : Typed (k.setWord t j ⟨p, perm ||| PTE_P⟩) role l := by
  obtain ⟨hi, -⟩ := (h.table _ _ _).mp ht
  have hv : i * NPTENTRIES + j < NUPAGES := entry_lt hi hj
  have hu := h.user_of_target hv hp
  refine h.setPte ht hj (fun _ _ => hu) fun x => ?_
  have hc := h.refsOf_setPte ⟨p, perm ||| PTE_P⟩ ht hj (fun _ => hu) x
  rw [hp] at hc
  simp only [Option.some.injEq, Pte.or_present, true_and, Nat.add_right_cancel_iff] at hc
  rw [hc]
  exact h.refs x

/-- A directory has a table for an entry if the entry is present. -/
theorem Shape.table_iff (h : Shape k role) (hd : k.dirOf o = some d) (hi : Entry o i) :
    (∃ t, role t = .table o i) ↔ (k.word d i).present = true := by
  constructor
  · rintro ⟨t, ht⟩
    obtain ⟨-, d', hd', hp, -⟩ := (h.table _ _ _).mp ht
    obtain rfl := Option.mem_unique hd hd'
    exact hp
  · exact fun hp => ⟨_, h.table_of hd hi hp⟩

theorem pageInsert_typed (h : Typed k role l) (hd : k.dirOf (some e) = some d) (hva : va < UTOP) (hu : role p = .user)
    (hperm : perm < PGSIZE) (hb : ∀ q, k.target e (va / PGSIZE) = some q → k.mapCount q < 2 ^ 16) :
    Run (pageInsert d p va perm) k (fun r k' => ∃ role' l', Inserted e va p perm r k role l k' role' l')
      fun _ _ => False := by
  unfold pageInsert
  refine .bind (pgdirWalk_typed h hd (entry_va hva) true) fun r k1 hr => ?_
  rcases hr with ⟨rfl, rfl, hpr, hl⟩ | ⟨rfl, rfl, hpr⟩ | ⟨t, l', -, rfl, rfl, hpr, hsame, hty, hz, htar, hfr⟩
  · -- no table, and no page for one
    have hno : ∀ t, role t ≠ .table (some e) (pdx va) := fun t ht => by
      rw [(h.table_iff hd (entry_va hva)).mp ⟨t, ht⟩] at hpr
      cases hpr
    exact .pure ⟨role, l, h, .refl _, fun _ _ _ hq => hq, hu, fun _ hq => .inl hq, fun _ _ _ => by simp,
      fun _ _ _ => rfl, fun _ => rfl, iff_of_true rfl ⟨hl rfl, hno⟩, Nat.le_succ _, fun _ => le_rfl⟩
  · have ht := h.table_of hd (entry_va hva) hpr
    have htar := pteAt_va hd hva hpr
    have hfull : true = false ↔ l = [] ∧ ∀ t, role t ≠ .table (some e) (pdx va) :=
      iff_of_false (by simp) fun hc => hc.2 _ ht
    dsimp only
    refine .getBind ?_
    by_cases hpte : (k1.word (k1.word d (pdx va)).ppn (ptx va)).present = true
    · rw [if_pos hpte] at htar
      have hold := h.user e _ (vpn_lt hva) _ htar
      rw [if_pos hpte]
      refine .bind (pa2page_run (h.lt_npage (by rw [hold]; simp) (by rw [hold]; simp))) fun r k2 hr => ?_
      obtain ⟨rfl, rfl⟩ := hr
      split_ifs with hpp
      · -- the page is there already
        have htp : k2.target e (va / PGSIZE) = some p := KernSt.target_eq_some.mpr ⟨_, htar, hpp⟩
        rw [hpp, Pte.of_eq hperm]
        have hty := h.relink perm ht (ptx_lt va) (by rw [vpn_eq hva]; exact htp)
        refine .modifyBind (.pure ⟨role, l, hty, ⟨rfl, rfl, rfl, rfl, rfl⟩, fun _ _ _ hq => hq, hu, fun _ hq => .inl hq,
          fun e' v hv => ?_, fun q _ hq => setWord_ne fun hc => hq (by rw [hc, ht]), by simp, hfull, Nat.le_succ _,
          fun _ => le_rfl⟩)
        rw [h.pteAt_setWord ht (ptx_lt va) hv, vpn_eq hva, Pte.or_present, if_pos rfl]
        simp [eq_comm (a := e)]
      · -- another page makes room
        refine .bind (pageRemove_typed h hd hva hb) fun _ k3 hk3 => ?_
        obtain ⟨role3, l3, hrm⟩ := hk3
        have ht3 := (hrm.kept _ (by rw [ht]; simp)).trans ht
        have hne : k2.target e (va / PGSIZE) ≠ some p := fun hc => by
          obtain ⟨pte, h1, h2⟩ := KernSt.target_eq_some.mp hc
          rw [htar] at h1
          exact hpp (by rw [← h2, ← Option.some.inj h1])
        have hu3 := (hrm.others p hne).trans hu
        have hnone : k3.pteAt e (va / PGSIZE) = none := by
          rw [hrm.pteAt e _ (vpn_lt hva), if_pos ⟨rfl, rfl⟩]
        refine (linkPage_typed hrm.typed ht3 hva hnone hu3 hperm).mono ?_ fun _ _ hc => hc
        rintro r k' ⟨rfl, hty', hsame', hfr', hst'⟩
        refine ⟨role3, l3, hty', hrm.same.trans hsame', fun q o i hq => ?_, hu3, hrm.users, fun e' v hv => ?_,
          fun q _ hq => ?_, by simp, hfull, Nat.le_succ_of_le hrm.room, fun _ => hrm.room⟩
        · rw [hrm.kept q (by rw [hq]; simp), hq]
        · rw [hst' e' v hv, hrm.pteAt e' v hv]
          by_cases hc : e' = e ∧ v = va / PGSIZE <;> simp [hc]
        · rw [hfr' q fun hc => hq (by rw [hc, ht3]), hrm.words q fun hc => hq (by rw [hrm.kept q (by rw [hc]; simp), hc])]
    · rw [if_neg hpte] at htar
      rw [if_neg hpte]
      refine (linkPage_typed h ht hva htar hu hperm).mono ?_ fun _ _ hc => hc
      rintro r k' ⟨rfl, hty', hsame', hfr', hst'⟩
      refine ⟨role, l, hty', hsame', fun _ _ _ hq => hq, hu, fun _ hq => .inl hq, fun e' v hv => ?_,
        fun q _ hq => hfr' q fun hc => hq (by rw [hc, ht]), by simp, hfull, Nat.le_succ _, fun _ => le_rfl⟩
      rw [hst' e' v hv]
      simp
  · -- a new table
    have hfree : role t = .free := (h.free t).mp List.mem_cons_self
    have hkeep : ∀ {q x}, role q = x → x ≠ .free → update role t (.table (some e) (pdx va)) q = x := fun hq hx => by
      rw [update_of_ne fun hc => hx (by rw [← hq, hc, hfree]), hq]
    have hu1 := hkeep hu (by simp)
    have ht1 : update role t (.table (some e) (pdx va)) t = .table (some e) (pdx va) := update_self ..
    have hnone : k1.pteAt e (va / PGSIZE) = none := by
      rw [htar e _ (vpn_lt hva)]
      exact Shape.pteAt_eq_none_of_entry hd (by rw [← pdx_eq hva]; exact hpr)
    dsimp only
    refine .getBind ?_
    rw [hz, if_neg (by simp)]
    refine (linkPage_typed hty ht1 hva hnone hu1 hperm).mono ?_ fun _ _ hc => hc
    rintro r k' ⟨rfl, hty', hsame', hfr', hst'⟩
    refine ⟨_, l', hty', hsame.trans hsame', fun q o i hq => hkeep hq (by simp), hu1,
      fun q hq => .inl (hkeep hq (by simp)), fun e' v hv => ?_, fun q hqd hqt => ?_, by simp, by simp, by simp,
      fun ht' => ?_⟩
    · rw [hst' e' v hv, htar e' v hv]
      simp
    · have hne : q ≠ t := fun hc => hqt (by rw [hc, ht1])
      rw [hfr' q hne, hfr q hne fun hc => hqd (by rw [hc, h.dir_of hd])]
    · rw [(h.table_iff hd (entry_va hva)).mp ht'] at hpr
      cases hpr

end

end Kern
end Jos
