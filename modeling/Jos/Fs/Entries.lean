/-
# Entries that stay

Which records stay in the tree when one of them is changed: a change that
takes no entry in use from a directory (`Kept`) leaves every record where it
is, and a new file is in the directory it was created in.

Key definitions: `Kept`.
Key theorems: `Edit.node_kept`, `Edit.node_old`, `Resized.kept`, `Resized.sameTree`, `Stretched.inTree`, `Created.inTree`.
-/
import Jos.Fs.ReadWrite

namespace Jos
namespace Fs

section
variable {L : Layout} {own own' : ℕ → Use} {s s' : FsSt} {a f : Ptr}

/-- A change of the record `a`, seen from the tree: its entries in use stay,
and so do its blocks but for those freed. It leaves the tree only without
entries. -/
structure Kept (own' : ℕ → Use) (a : Ptr) (m m' : Disk) : Prop where
  type : Live m a → fType m' a = fType m a
  child : ∀ k c, fType m a = 1 → child m a k = some c → own' c.blk ≠ .none ∧ ptr m' a (k / 16) = ptr m a (k / 16)
  names : ∀ r b, r.file = a → Live m a → Names m r b → own' b ≠ .none → Names m' r b ∧ Live m' a
  dies : Live m a → ¬ Live m' a → fType m a = 1 → ∀ k, Fs.child m a k = none

theorem Edit.cut_of_ne (h : Edit L own own' a s s') {b : ℕ} (hb : own' b ≠ .none) : own' b = own b :=
  (h.cut b).resolve_right fun hc => hb hc.2

/-- A record in the tree stays one. -/
theorem Edit.isRec_of_kept (h : Edit L own own' a s s') (hi : FInv L own s.mem) (hk : Kept own' a s.mem s'.mem)
    {f : Ptr} (hf : InTree s.mem f) : IsRec own' f := by
  obtain ⟨sp, hsp⟩ := hf
  cases sp with
  | nil =>
    obtain rfl : root = f := Option.some.inj hsp
    exact .inl rfl
  | cons k sp =>
    obtain ⟨g, hg, ht, hc⟩ := node_cons.mp hsp
    obtain ⟨h1, h2⟩ := hi.own_child (hi.node_rec hg).1 ht hc
    refine .inr ⟨g, k / 16, k % 16, ?_, Nat.mod_lt _ (by omega), h2⟩
    rcases h.cut f.blk with h3 | ⟨h3, -⟩
    · rw [h3, h1]
    · rw [h1] at h3
      obtain rfl : g = a := Option.some.inj h3
      rw [h.cut_of_ne (hk.child k f ht hc).1, h1]

/-- What is in the tree stays there, `a` itself if it is still in use. -/
theorem Edit.node_kept (h : Edit L own own' a s s') (hi : FInv L own s.mem) (ha : IsRec own a)
    (hk : Kept own' a s.mem s'.mem) {sp : List ℕ} {g : Ptr} (hsp : node s.mem sp = some g)
    (hg : ¬ (g = a ∧ ¬ Live s'.mem a)) : node s'.mem sp = some g := by
  have hrec : ∀ f, InTree s.mem f → IsRec own' f := fun f hf => h.isRec_of_kept hi hk hf
  refine node_mono (X := fun g => g = a ∧ ¬ Live s'.mem a) ?_ hsp hg
  intro f c k hf hft hc hX
  obtain ⟨h1, h2, h3, rfl⟩ := child_some.mp hc
  have hct : InTree s.mem (entryAt s.mem f k) := .child hf hft hc
  have hfa : f = a → Live s'.mem a := by
    rintro rfl
    by_contra hd
    have := hk.dies (hi.live hf) hd hft k
    rw [hc] at this
    cases this
  have hname : fName s'.mem (entryAt s.mem f k) 0 ≠ 0 := by
    have hl : Live s'.mem (entryAt s.mem f k) := by
      by_cases he : entryAt s.mem f k = a
      · by_contra hd
        exact hX ⟨he, he ▸ hd⟩
      · rw [Live, (h.sameFile hi ha (hi.isRec hct) (hrec _ hct) he).1.fName (by omega)]
        exact .inr h3
    refine hl.resolve_left fun hr => ?_
    have := hi.own_entry (hi.isRec hf) hft h1 h2
    rw [hr, show root.blk = 1 from rfl, hi.own_one] at this
    cases this
  refine ⟨fun hx => hx.2 (hfa hx.1), ?_, ?_⟩
  · by_cases he : f = a
    · rw [he, hk.type (he ▸ hi.live hf), ← he, hft]
    · rw [(h.sameFile hi ha (hi.isRec hf) (hrec f hf) he).1.fType, hft]
  · have hp : ptr s'.mem f (k / 16) = ptr s.mem f (k / 16) := by
      by_cases he : f = a
      · subst he
        exact (hk.child k _ hft hc).2
      · exact (h.sameFile hi ha (hi.isRec hf) (hrec f hf) he).ptr _
    exact child_some.mpr ⟨h1, by rwa [hp], hname, by rw [entryAt, entryAt, hp]⟩

/-- Resizing a file keeps its entries if none in use is past the new size. -/
theorem Resized.kept {n : ℤ} (hr : Resized own' a n s s') (h : FInv L own' s'.mem) (ha : IsRec own' a)
    (hent : ∀ k c, fType s.mem a = 1 → child s.mem a k = some c → k / 16 < blocksUp n) :
    Kept own' a s.mem s'.mem := by
  have hlive : Live s'.mem a ↔ Live s.mem a := by rw [Live, Live, hr.name 0 (by omega)]
  refine ⟨fun _ => hr.type, ?_, ?_, ?_⟩
  · intro k c ht hc
    obtain ⟨h1, h2, -, rfl⟩ := child_some.mp hc
    have hp : Fs.ptr s'.mem a (k / 16) = Fs.ptr s.mem a (k / 16) := by rw [hr.ptr _ h1, if_pos (hent k _ ht hc)]
    have := h.own_ptr_ne ha h1 (by rwa [hp])
    rw [hp] at this
    exact ⟨this, hp⟩
  · rintro (⟨f, k⟩ | f) b hf hl hn hb
    · obtain rfl : f = a := hf
      obtain ⟨hk, rfl, h0⟩ := hn
      refine ⟨⟨hk, ?_, h0⟩, hlive.mpr hl⟩
      rw [hr.ptr k hk, if_pos]
      by_contra hc
      exact hb (hr.freed k hk (by omega))
    · obtain rfl : f = a := hf
      obtain ⟨rfl, h0⟩ := hn
      exact ⟨⟨hr.ind.resolve_right hb, h0⟩, hlive.mpr hl⟩
  · exact fun hl hd => absurd (hlive.mpr hl) hd

theorem Edit.isRec_old (h : Edit L own own' a s s') (hf : IsRec own' f) : IsRec own f := by
  refine hf.imp_right ?_
  rintro ⟨g, k, j, hd, hj, ho⟩
  exact ⟨g, k, j, by rw [← h.cut_of_ne (by simp [hd]), hd], hj, ho⟩

/-- Nothing gets into the tree when the record `a` gets no new blocks and no name. -/
theorem Edit.node_old (h : Edit L own own' a s s') (hi : FInv L own s.mem) (ha : IsRec own a)
    (htype : fType s'.mem a = fType s.mem a) (hname : fName s'.mem a 0 ≠ 0 → fName s.mem a 0 ≠ 0)
    (hptr : ∀ k < 1034, ptr s'.mem a k ≠ 0 → ptr s'.mem a k = ptr s.mem a k) {sp : List ℕ} {g : Ptr}
    (hsp : node s'.mem sp = some g) : node s.mem sp = some g := by
  refine node_mono (X := fun _ => False) ?_ hsp id
  intro f c k hf hft hc _
  obtain ⟨h1, h2, h3, rfl⟩ := child_some.mp hc
  have hf' := h.inv.isRec hf
  have hc' := h.inv.isRec (.child hf hft hc)
  have hp : ptr s'.mem f (k / 16) = ptr s.mem f (k / 16) := by
    by_cases he : f = a
    · subst he
      exact hptr _ h1 h2
    · exact (h.sameFile hi ha (h.isRec_old hf') hf' he).ptr _
  refine ⟨id, ?_, child_some.mpr ⟨h1, by rwa [← hp], ?_, by rw [entryAt, entryAt, hp]⟩⟩
  · by_cases he : f = a
    · subst he
      rwa [← htype]
    · rwa [← (h.sameFile hi ha (h.isRec_old hf') hf' he).1.fType]
  · by_cases he : entryAt s'.mem f k = a
    · rw [he] at h3 ⊢
      exact hname h3
    · rwa [← (h.sameFile hi ha (h.isRec_old hc') hc' he).1.fName (by omega)]

/-- Resizing a regular file leaves the directories as they are. -/
theorem Resized.sameTree {n : ℤ} (hr : Resized own' a n s s') (h : Edit L own own' a s s') (hi : FInv L own s.mem)
    (ha : InTree s.mem a) (hreg : fType s.mem a ≠ 1) : SameTree s.mem s'.mem := by
  have har := hi.isRec ha
  have hk := hr.kept h.inv (h.isRec har (hi.not_self ha)).1 fun k c ht => absurd ht hreg
  have hrec : ∀ f, InTree s.mem f → IsRec own' f := fun f hf => h.isRec_of_kept hi hk hf
  have hsame : ∀ f, InTree s.mem f → f ≠ a → SameFile s.mem s'.mem f := fun f hf he =>
    h.sameFile hi har (hi.isRec hf) (hrec f hf) he
  have hdir : ∀ f, fType s.mem f = 1 → f ≠ a := by
    rintro f ht rfl
    exact hreg ht
  refine ⟨fun f hf => ?_, fun f hf => ?_, fun f hf ht => (hsame f hf (hdir f ht)).1.fSize, fun f k hf ht => ?_⟩
  · by_cases he : f = a
    · rw [he, hr.type]
    · exact (hsame f hf he).1.fType
  · by_cases he : f = a
    · rw [he]
      exact cstr_congr hr.name
    · exact cstr_congr fun i hi => (hsame f hf he).1.fName hi
  · have hs := hsame f hf (hdir f ht)
    have hent : ∀ j, j / 16 < 1034 → Fs.ptr s.mem f (j / 16) ≠ 0 →
        fName s'.mem (entryAt s.mem f j) 0 = fName s.mem (entryAt s.mem f j) 0 := by
      intro j hj hp
      by_cases he : entryAt s.mem f j = a
      · rw [he]
        exact hr.name 0 (by omega)
      · have hown := hi.own_entry (hi.isRec hf) ht hj hp
        have hcut := (h.cut (entryAt s.mem f j).blk).resolve_right fun hc => by
          rw [hown] at hc
          exact hdir f ht (Option.some.inj hc.1)
        have hrj : IsRec own' (entryAt s.mem f j) :=
          .inr ⟨f, j / 16, j % 16, by rw [hcut, hown], Nat.mod_lt _ (by omega), rfl⟩
        exact (h.sameFile hi har (hi.isRec_entry (hi.isRec hf) ht hj hp) hrj he).1.fName (by omega)
    exact child_congr (fun k _ _ => hs.ptr k) (fun k _ h0 h1 => absurd (by rw [hs.ptr, h0]) h1) hent

/-- Growing takes no entry away. -/
theorem entries_lt {n : ℤ} {own1 : ℕ → Use} {s1 : FsSt} (hr : Resized own1 a n s s1) (hi : FInv L own1 s.mem)
    (ha : InTree s.mem a) (k : ℕ) (c : Ptr) (ht : fType s.mem a = 1) (hc : child s.mem a k = some c) :
    k / 16 < blocksUp n := by
  obtain ⟨hk, hp, -, -⟩ := child_some.mp hc
  by_contra hlt
  have hne : own1 (ptr s.mem a (k / 16)) ≠ .none := by
    rw [((hi.recOk a (hi.isRec ha)).ptr _ hk hp).1, useOf]
    simp [ht]
  exact hne (hr.freed _ hk (not_lt.mp hlt))

theorem Stretched.inTree {n : ℤ} (h : Stretched L own own' a n s s') (ha : InTree s.mem a)
    (hf : InTree s.mem f) : InTree s'.mem f := by
  obtain ⟨own1, s1, s2, h1, h2, h3, h4⟩ := h
  have ha1 := h1.inTree.mpr ha
  obtain ⟨sp, hsp⟩ := h1.inTree.mpr hf
  have hr1 := h1.inv.isRec ha1
  have hlive : Live s2.mem a := by
    rw [Live, h3.name 0 (by omega)]
    exact h1.inv.live ha1
  have hk := h3.kept h2.inv hr1 (entries_lt h3 h1.inv ha1)
  exact h4.inTree.mpr ⟨sp, h2.node_kept h1.inv hr1 hk hsp fun hx => hx.2 hlive⟩

/-- A new file is in the tree. -/
theorem Created.inTree {dir : Ptr} {name : List UInt8} {type k : ℕ} (hc : Created own f name type s s')
    (h : Edit L own own f s s') (hi : FInv L own s.mem) (hdir : InTree s.mem dir)
    (hdt : fType s.mem dir = 1) (hk : k / 16 < 1034) (hp : Fs.ptr s.mem dir (k / 16) ≠ 0) (hf : f = entryAt s.mem dir k)
    (hdead : fName s.mem f 0 = 0) (hname : name ≠ []) : InTree s'.mem f := by
  have hfr : IsRec own f := hf ▸ hi.isRec_entry (hi.isRec hdir) hdt hk hp
  have hroot : f ≠ root := by
    rintro rfl
    have := hi.own_entry (hi.isRec hdir) hdt hk hp
    rw [← hf, show root.blk = 1 from rfl, hi.own_one] at this
    cases this
  have hnl : ¬ Live s.mem f := fun hl => hl.elim hroot fun hn => hn hdead
  have hsame : ∀ g, InTree s.mem g → SameFile s.mem s'.mem g := fun g hg =>
    h.sameFile hi hfr (hi.isRec hg) (hi.isRec hg) fun he => hnl (he ▸ hi.live hg)
  obtain ⟨sp, hsp⟩ := hdir
  have hdir' : node s'.mem sp = some dir := by
    refine node_mono (X := fun _ => False) ?_ hsp id
    rintro g c j hg hgt hch -
    obtain ⟨h1, h2, h3, rfl⟩ := child_some.mp hch
    have hsg := hsame g hg
    have hsc := hsame _ (.child hg hgt hch)
    refine ⟨id, by rw [hsg.1.fType, hgt], child_some.mpr ⟨h1, by rwa [hsg.ptr], ?_, ?_⟩⟩
    · rwa [hsc.1.fName (by omega)]
    · rw [entryAt, entryAt, hsg.ptr]
  have hsd := hsame dir ⟨sp, hsp⟩
  refine ⟨k :: sp, node_cons.mpr ⟨dir, hdir', by rw [hsd.1.fType, hdt], child_some.mpr ⟨hk, ?_, ?_, ?_⟩⟩⟩
  · rwa [hsd.ptr]
  · exact fName_of_nameOf (by rw [hc.name]; exact hname)
  · rw [hf, entryAt, entryAt, hsd.ptr]

/-- A new file in the directory it was made for. -/
theorem Slot.inTree {dir : Ptr} {path name : List UInt8} {type k : ℕ} {s1 : FsSt} (hs : Slot L own own' dir k s s1)
    (hi : FInv L own s.mem) (hp : 0 ∉ path) (hw : PathTo s.mem path (.ok (.missing dir name)))
    (h : Edit L own' own' (entryAt s1.mem dir k) s1 s') (hc : Created own' (entryAt s1.mem dir k) name type s1 s') :
    InTree s'.mem (entryAt s1.mem dir k) := by
  obtain ⟨hdir, hdt, -, -, -, -, hne⟩ := PathTo.result hw hp
  exact hc.inTree h hs.stretched.moved.inv (hs.stretched.inTree hdir hdir)
    (by rw [hs.stretched.fType (hi.isRec hdir), hdt]) hs.lt hs.ptr rfl hs.blank hne

end

end Fs
end Jos
