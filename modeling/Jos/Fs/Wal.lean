/-
# The file system and its journal between two writes

`FsInv` is the invariant of the server's block cache and disk, files, journal
and history together. `a` is the transaction that is active on the disk, if
any: there is one from the end of `commit_transaction` to the start of
`clear_transaction`.

What is proved of a run is about its history: in every image written, a
transaction that is active has its handles on the disk (`Wal`); the records of
the transactions in it are empty but for one (`ImgOk`); and `end_transaction`
is called in states with some property (`Rules.E`). The last two hold of runs
that keep to rules of their own, which are parameters here.

Key definitions: `Wal`, `Rules`, `ImgOk`, `FsInv`.
Key theorems: `FsInv.of_moved`, `FsInv.of_added`, `FsInv.of_committed`, `FsInv.of_cleared`.
-/
import Jos.Fs.Clear
import Jos.Fs.Ops

namespace Jos
namespace Fs

open Block Function

/-! ### Properties of the history -/

/-- The last transaction committed, with its handles. -/
def lastCommit : List Event → Option (ℕ × List Block)
  | [] => none
  | .commit t hs :: _ => some (t, hs)
  | _ :: evs => lastCommit evs

/-- At most one transaction is active in the image `d`; its blocks are in use
and hold the handles it was committed with. -/
structure WalAt (d : Disk) (evs : List Event) : Prop where
  one : ∀ t < 112, ∀ t' < 112, 0 < tActive d t → 0 < tActive d t' → t' = t
  logged : ∀ t < 112, 0 < tActive d t → lastCommit evs = some (t, handlesOf d t) ∧
    bitSet d (tHandlei d t) = false ∧ ∀ k < tNhandles d t, bitSet d (hblk d t k) = false

/-- Every image written is in order. -/
def Wal : List Event → Prop
  | [] => True
  | .write d :: evs => WalAt d evs ∧ Wal evs
  | _ :: evs => Wal evs

/-- The record of transaction `t` has no handles. -/
def Quiet (d : Disk) (t : ℕ) : Prop := tHandlei d t = 0 ∧ tNhandles d t = 0

/-- The directories and indirect blocks of the tree are not dirty. -/
structure CleanTree (m : Disk) (y : ℕ → Bool) : Prop where
  super : y 1 = false
  ind : ∀ f, InTree m f → fIndirect m f ≠ 0 → y (fIndirect m f) = false
  dir : ∀ f k, InTree m f → fType m f = 1 → k < 1034 → ptr m f k ≠ 0 → y (ptr m f k) = false

/-- What the runs considered keep to. -/
structure Rules where
  /-- A sector of the journal is written only if no other transaction in it has handles. -/
  Z : Prop
  /-- What holds of the cache when a transaction is ended. -/
  E : ℕ → Disk → (ℕ → Bool) → Prop

/-- The records in the image `d`: at most one lists blocks, and these were
allocated for a transaction. If no transaction was ended with the tree not on
the disk, no file has them. -/
structure ImgOk (nb : ℕ) (tr : List Event) (d : Disk) : Prop where
  nblocks : (d 1).le32 4 = nb
  two : bitSet d 2 = false
  three : bitSet d 3 = false
  one : ∀ t < 112, ∀ t' < 112, ¬ Quiet d t → ¬ Quiet d t' → t' = t
  listed : ∀ t < 112, ¬ Quiet d t → 3 < tHandlei d t ∧ tHandlei d t < nb ∧ tNhandles d t ≤ 1024 ∧
    ∀ k < tNhandles d t, 3 < hblk d t k ∧ hblk d t k < nb ∧ hblk d t k ≠ tHandlei d t
  taken : ∀ t < 112, ∀ b, Lists d t b → .taken b ∈ tr
  apart : (∀ t m y, .ending t m y ∈ tr → CleanTree m y) → ∀ t < 112, tActive d t = 0 → ∀ b, Lists d t b → ∀ r : Ref, InTree d r.file → ¬ Names d r b

/-- The history is in order. -/
structure TrOk (R : Rules) (nb : ℕ) (tr : List Event) : Prop where
  wal : Wal tr
  imgs : R.Z → ∀ d, .write d ∈ tr → ImgOk nb tr d
  ends : ∀ t m y, .ending t m y ∈ tr → R.E t m y

/-- Transaction `t` is on the disk as it is in the cache, and was committed
last. -/
structure OnDisk (t : ℕ) (s : FsSt) : Prop where
  lt : t < 112
  active : tActive s.mem t = 1
  pos : 0 < tNhandles s.mem t
  rec32 : ∀ i < 32, s.disk 3 (tOff t + i) = s.mem 3 (tOff t + i)
  tab : s.dirty (tHandlei s.mem t) = false
  handles : ∀ k < tNhandles s.mem t, s.dirty (hblk s.mem t k) = false
  last : lastCommit s.trace = some (t, handlesOf s.mem t)

/-- The invariant, with the transaction `a` active. -/
structure FsInv (R : Rules) (L : Layout) (own : ℕ → Use) (jown : ℕ → JUse) (a : Option ℕ) (s : FsSt) : Prop where
  inv : FInv L own s.mem
  jrn : Jrn L jown
  ok : ∀ t < 112, TransOk jown (tNhandles s.mem t) s.mem t
  coh : Coh s
  bitmap : s.dirty 2 = false
  sized : Sized L.nb s
  quiet : ∀ t < 112, a ≠ some t → tActive s.mem t = 0 ∧ tActive s.disk t = 0
  active : ∀ t, a = some t → OnDisk t s
  blank : R.Z → ∀ t < 112, a ≠ some t → Quiet s.disk t
  taken : ∀ b, jown b ≠ .none → .taken b ∈ s.trace
  tr : TrOk R L.nb s.trace

section
variable {R : Rules} {L L' : Layout} {own own' : ℕ → Use} {jown jown' : ℕ → JUse} {a : Option ℕ} {t n : ℕ}
  {m d : Disk} {s s' : FsSt} {evs tr : List Event}

theorem lastCommit_append (h : ∀ e ∈ evs, ∀ t hs, e ≠ .commit t hs) : lastCommit (evs ++ tr) = lastCommit tr := by
  induction evs with
  | nil => rfl
  | cons e evs ih =>
    have hih := ih fun e' he' => h e' (.tail _ he')
    cases e with
    | commit t hs => exact absurd rfl (h _ (List.mem_cons_self ..) t hs)
    | _ => exact hih

/-- A history goes on without a commit. -/
theorem wal_append (h : Wal tr) (hc : ∀ e ∈ evs, ∀ t hs, e ≠ .commit t hs)
    (hw : ∀ d, .write d ∈ evs → ∀ tr', lastCommit tr' = lastCommit tr → WalAt d tr') : Wal (evs ++ tr) := by
  induction evs with
  | nil => exact h
  | cons e evs ih =>
    have hc' : ∀ e ∈ evs, ∀ t hs, e ≠ .commit t hs := fun e' he' => hc e' (.tail _ he')
    have hih := ih hc' fun d hd => hw d (.tail _ hd)
    cases e with
    | write d => exact ⟨hw d (List.mem_cons_self ..) _ (lastCommit_append hc'), hih⟩
    | _ => exact hih

theorem walAt_of_quiet (h : ∀ t < 112, tActive d t = 0) : WalAt d tr :=
  ⟨fun t ht t' _ h1 _ => absurd h1 (by rw [h t ht]; omega), fun t ht h1 => absurd h1 (by rw [h t ht]; omega)⟩

theorem ImgOk.mono {nb : ℕ} (h : ImgOk nb tr d) (ht : ∀ e ∈ tr, e ∈ evs) : ImgOk nb evs d :=
  ⟨h.nblocks, h.two, h.three, h.one, h.listed, fun t ht' b hb => ht _ (h.taken t ht' b hb),
    fun hc => h.apart fun t m y hm => hc t m y (ht _ hm)⟩

theorem Quiet.not_lists {b : ℕ} (h : Quiet d t) : ¬ Lists d t b := by
  rintro ⟨h0, h1 | ⟨k, hk, -⟩⟩
  · exact h0 (h1.trans h.1)
  · rw [h.2] at hk
    omega

/-- An image in which only `t` may have handles, and has them as in `m`. -/
theorem imgOk_of_trans (hj : Jrn L jown) (htk : ∀ b, jown b ≠ .none → .taken b ∈ tr) (hn : (d 1).le32 4 = L.nb)
    (h2 : bitSet d 2 = false) (h3 : bitSet d 3 = false) (hq : ∀ t' < 112, t' ≠ t → Quiet d t')
    (ht : Quiet d t ∨ (TransOk jown n m t ∧ tHandlei d t = tHandlei m t ∧ tNhandles d t = n ∧
      (tHandlei m t ≠ 0 → d (tHandlei m t) = m (tHandlei m t))))
    (hK : (∀ t m y, .ending t m y ∈ tr → CleanTree m y) → ¬ Quiet d t → tActive d t = 0 → ∀ b, Mine jown t b → ∀ r : Ref, InTree d r.file → ¬ Names d r b) :
    ImgOk L.nb tr d := by
  have hlist : ∀ t' < 112, ¬ Quiet d t' → t' = t := fun t' hlt hnq => by
    by_contra hne
    exact hnq (hq t' hlt hne)
  have hk : tHandlei d t = tHandlei m t → (tHandlei m t ≠ 0 → d (tHandlei m t) = m (tHandlei m t)) →
      tHandlei m t ≠ 0 → ∀ k, hblk d t k = hblk m t k := fun h1 h2 h0 k => by rw [hblk, hblk, h1, h2 h0]
  have hmine : ∀ t' < 112, ∀ b, Lists d t' b → t' = t ∧ Mine jown t b := by
    intro t' hlt b hb
    obtain rfl := hlist t' hlt fun hq' => hq'.not_lists hb
    refine ⟨rfl, ?_⟩
    obtain ⟨hok, h4, h5, h6⟩ := ht.resolve_left fun hq' => hq'.not_lists hb
    obtain ⟨h0, h1 | ⟨k, hkn, h1⟩⟩ := hb
    · rw [Mine, h1, h4, hok.tab (by rwa [← h4, ← h1])]
      rfl
    · rw [h5] at hkn
      rw [Mine, h1, hk h4 h6 (hok.handlei_ne hkn), (hok.handle k hkn).2]
      rfl
  refine ⟨hn, h2, h3, fun t1 h1 t2 h2 hn1 hn2 => (hlist t2 h2 hn2).trans (hlist t1 h1 hn1).symm, fun t' hlt hnq => ?_,
    fun t' hlt b hb => htk b ?_, fun hK' t' hlt hact b hb r hr => ?_⟩
  · obtain rfl := hlist t' hlt hnq
    obtain ⟨hok, h4, h5, h6⟩ := ht.resolve_left hnq
    have h0 : tHandlei m t' ≠ 0 := fun h0 => hnq ⟨by rw [h4, h0], by rw [h5, hok.zero h0]⟩
    have htab := hj.blk (hok.tab_ne h0)
    refine ⟨by omega, by omega, by rw [h5]; exact hok.le, fun k hkn => ?_⟩
    rw [h5] at hkn
    obtain ⟨-, hu⟩ := hok.handle k hkn
    have hb := hj.blk (b := hblk m t' k) (by rw [hu]; simp)
    rw [hk h4 h6 h0, h4]
    refine ⟨hb.1, hb.2, fun he => ?_⟩
    rw [he, hok.tab h0] at hu
    cases hu
  · exact (hmine t' hlt b hb).2.ne
  · obtain ⟨rfl, hm⟩ := hmine t' hlt b hb
    exact hK hK' (fun hq' => hq'.not_lists hb) hact b hm r hr

/-! ### The disk's bitmap -/

variable (h : FsInv R L own jown a s)
include h

/-- What is in use in the cache is in use on the disk. -/
theorem FsInv.inUse {b : ℕ} (hlt : b < L.nb) (hb : bitSet s.mem b = false) :
    InUse s b := by
  refine ⟨hb, ?_⟩
  rwa [bitSet_small h.jrn hlt (h.coh 2 h.bitmap).symm]

theorem FsInv.inUse_fixed {b : ℕ} (hb : L.Fixed b) : InUse s b :=
  h.inUse (Layout.fixed_lt hb) (h.inv.fixed b hb).2

theorem FsInv.inUse_mine {b : ℕ} (hb : jown b ≠ .none) : InUse s b :=
  h.inUse_fixed (.inr ((h.jrn.journal b).mpr (.inr hb)))

theorem FsInv.tinv (ht : t < 112) : TInv L own jown (tNhandles s.mem t) t s.mem :=
  ⟨h.inv, h.jrn, h.ok t ht⟩

/-! ### Files change -/

omit h in
theorem handlesOf_congr {m' : Disk} (hi : tHandlei m' t = tHandlei m t) (hn : tNhandles m' t = tNhandles m t)
    (htab : m' (tHandlei m t) = m (tHandlei m t)) (hk : ∀ k < tNhandles m t, m' (hblk m t k) = m (hblk m t k)) :
    handlesOf m' t = handlesOf m t := by
  rw [handlesOf, handlesOf, hn]
  refine List.map_congr_left fun k hkn => ?_
  rw [hi, htab]
  exact hk k (List.mem_range.mp hkn)

theorem FsInv.j3 : L.J 3 := (h.jrn.journal 3).mpr (.inl rfl)

theorem FsInv.j_mine {b : ℕ} (hb : jown b ≠ .none) : L.J b :=
  (h.jrn.journal b).mpr (.inr hb)

omit h in
/-- The blocks of a transaction that is on the disk, in an image that has them. -/
theorem OnDisk.image (ha : OnDisk t s) (h : FsInv R L own jown a s) (hd : ∀ b, L.J b → d b = s.disk b) :
    tActive d t = 1 ∧ tHandlei d t = tHandlei s.mem t ∧ tNhandles d t = tNhandles s.mem t ∧
      d (tHandlei s.mem t) = s.mem (tHandlei s.mem t) ∧ (∀ k, hblk d t k = hblk s.mem t k) ∧
      ∀ k < tNhandles s.mem t, d (hblk s.mem t k) = s.mem (hblk s.mem t k) := by
  have h3 : ∀ i < 32, d 3 (tOff t + i) = s.mem 3 (tOff t + i) := fun i hi => by
    rw [hd 3 h.j3, ha.rec32 i hi]
  have hok := h.ok t ha.lt
  have hi0 : tHandlei s.mem t ≠ 0 := hok.handlei_ne ha.pos
  have hi := tHandlei_congr h3
  have htab : d (tHandlei s.mem t) = s.mem (tHandlei s.mem t) := by
    rw [hd _ (h.j_mine (hok.tab_ne hi0)), h.coh _ ha.tab]
  refine ⟨by rw [tActive_congr h3, ha.active], hi, tNhandles_congr h3, htab, fun k => by rw [hblk, hblk, hi, htab],
    fun k hk => ?_⟩
  rw [hd _ (h.j_mine (hok.handle_ne hk)), h.coh _ (ha.handles k hk)]

theorem FsInv.walAt_of_spares (hd : Spares L.J s d)
    (htr : lastCommit tr = lastCommit s.trace) : WalAt d tr := by
  have hact : ∀ t < 112, 0 < tActive d t → a = some t := by
    intro t ht hpos
    by_contra hne
    have he : tActive d t = tActive s.disk t := by rw [tActive, hd.same 3 h.j3, tActive]
    have := (h.quiet t ht hne).2
    omega
  refine ⟨fun t ht t' ht' h1 h2 => ?_, fun t ht h1 => ?_⟩
  · have := (hact t ht h1).symm.trans (hact t' ht' h2)
    exact (Option.some.inj this).symm
  · have ha := h.active t (hact t ht h1)
    obtain ⟨-, hi, hn, htab, hk, hh⟩ := ha.image h hd.same
    have hok := h.ok t ht
    refine ⟨?_, ?_, fun k hkn => ?_⟩
    · rw [htr, ha.last, handlesOf_congr hi hn htab hh]
    · have hne := hok.tab_ne (hok.handlei_ne ha.pos)
      rw [hi]
      exact hd.inUse _ (.inl (h.j_mine hne)) (h.inUse_mine hne)
    · rw [hn] at hkn
      have hne := hok.handle_ne hkn
      rw [hk]
      exact hd.inUse _ (.inl (h.j_mine hne)) (h.inUse_mine hne)

theorem FsInv.two : InUse s 2 := h.inUse_fixed (.inl (.inl (by omega)))

theorem FsInv.three : InUse s 3 := h.inUse_fixed (.inl (.inl le_rfl))

/-- An image in which no record lists anything. -/
theorem FsInv.imgOk_of_quiet (hn : (d 1).le32 4 = L.nb) (h2 : bitSet d 2 = false)
    (h3 : bitSet d 3 = false) (hq : ∀ t < 112, Quiet d t) : ImgOk L.nb s.trace d :=
  imgOk_of_trans (t := 0) (n := 0) (m := d) h.jrn h.taken hn h2 h3 (fun t ht _ => hq t ht)
    (.inl (hq 0 (by omega))) fun _ hnq => absurd (hq 0 (by omega)) hnq

theorem FsInv.imgOk_of_spares (hd : Spares L.J s d) (hZ : R.Z) :
    ImgOk L.nb s.trace d := by
  have hn := hd.sized _ h.sized
  have h2 := hd.inUse 2 (.inr rfl) h.two
  have h3 := hd.inUse 3 (.inl h.j3) h.three
  have hq : ∀ t < 112, a ≠ some t → Quiet d t := fun t ht hne => by
    have := h.blank hZ t ht hne
    rwa [Quiet, tHandlei, tNhandles, hd.same 3 h.j3]
  cases ha : a with
  | none => exact h.imgOk_of_quiet hn h2 h3 fun t ht => hq t ht (by rw [ha]; simp)
  | some t =>
    have hod := h.active t ha
    obtain ⟨hact, hi, hnh, htab, -, -⟩ := hod.image h hd.same
    refine imgOk_of_trans (t := t) h.jrn h.taken hn h2 h3 (fun t' ht' hne => hq t' ht' ?_)
      (.inr ⟨h.ok t hod.lt, hi, hnh, fun _ => htab⟩) fun _ _ h0 => ?_
    · rw [ha]
      exact fun he => hne (Option.some.inj he).symm
    · rw [hact] at h0
      exact absurd h0 (by omega)

/-- The history of a step that writes images in order and neither commits nor
ends a transaction. -/
theorem FsInv.history {P : Event → Prop} (he : Evs P s s')
    (hc : ∀ t hs, ¬ P (.commit t hs)) (hend : ∀ t m y, ¬ P (.ending t m y))
    (hwal : ∀ d, P (.write d) → ∀ tr', lastCommit tr' = lastCommit s.trace → WalAt d tr')
    (himg : R.Z → ∀ d, P (.write d) → ImgOk L.nb s.trace d) :
    (∀ e ∈ s.trace, e ∈ s'.trace) ∧ lastCommit s'.trace = lastCommit s.trace ∧ TrOk R L.nb s'.trace := by
  obtain ⟨evs, ht, hP⟩ := he
  have hsub : ∀ e ∈ s.trace, e ∈ s'.trace := fun e hm => by
    rw [ht]
    exact List.mem_append_right _ hm
  have hnc : ∀ e ∈ evs, ∀ t hs, e ≠ .commit t hs := fun e hm t hs hec => hc t hs (hec ▸ hP e hm)
  refine ⟨hsub, by rw [ht, lastCommit_append hnc], ?_, fun hZ d hd => ?_, fun t m y hm => ?_⟩
  · rw [ht]
    exact wal_append h.tr.wal hnc fun d hd => hwal d (hP _ hd)
  · rw [ht] at hd
    rcases List.mem_append.mp hd with hd | hd
    · exact (himg hZ d (hP _ hd)).mono hsub
    · exact (h.tr.imgs hZ d hd).mono hsub
  · rw [ht] at hm
    rcases List.mem_append.mp hm with hm | hm
    · exact absurd (hP _ hm) (hend t m y)
    · exact h.tr.ends t m y hm

theorem FsInv.history_of_keeps (hk : Keeps L.J s s') :
    (∀ e ∈ s.trace, e ∈ s'.trace) ∧ lastCommit s'.trace = lastCommit s.trace ∧ TrOk R L.nb s'.trace :=
  h.history hk.evs (fun _ _ => id) (fun _ _ _ => id) (fun _ hd _ htr => h.walAt_of_spares hd htr)
    fun hZ _ hd => h.imgOk_of_spares hd hZ

/-- A function of the file system. -/
theorem FsInv.of_moved (hm : Moved L own own' s s') : FsInv R L own' jown a s' := by
  have hk := hm.keeps
  obtain ⟨hsub, hlast, htr⟩ := h.history_of_keeps hk
  have hm3 : s'.mem 3 = s.mem 3 := hk.mem 3 h.j3
  have hd3 : s'.disk 3 = s.disk 3 := hk.disk 3 h.j3
  have hi : ∀ t, tHandlei s'.mem t = tHandlei s.mem t := fun t => by rw [tHandlei, hm3, tHandlei]
  have hn : ∀ t, tNhandles s'.mem t = tNhandles s.mem t := fun t => by rw [tNhandles, hm3, tNhandles]
  have htab : ∀ t < 112, tHandlei s.mem t ≠ 0 → s'.mem (tHandlei s.mem t) = s.mem (tHandlei s.mem t) :=
    fun t ht h0 => hk.mem _ (h.j_mine ((h.ok t ht).tab_ne h0))
  refine ⟨hm.inv, h.jrn, fun t ht => ?_, hk.coh h.coh, hm.bitmap h.bitmap, hk.sized _ h.sized, fun t ht hne => ?_,
    fun t ha => ?_, fun hZ t ht hne => ?_, fun b hb => hsub _ (h.taken b hb), htr⟩
  · rw [hn]
    exact (h.ok t ht).congr (hi t) (htab t ht) fun _ _ => rfl
  · rw [tActive, tActive, hm3, hd3]
    exact h.quiet t ht hne
  · have hod := h.active t ha
    have hok := h.ok t hod.lt
    have h0 := hok.handlei_ne hod.pos
    have hkk : ∀ k, hblk s'.mem t k = hblk s.mem t k := fun k => by rw [hblk, hblk, hi, htab t hod.lt h0]
    have hJ : ∀ k < tNhandles s.mem t, L.J (hblk s.mem t k) := fun k hk' =>
      h.j_mine (hok.handle_ne hk')
    refine ⟨hod.lt, by rw [tActive, hm3]; exact hod.active, by rw [hn]; exact hod.pos, ?_, ?_, ?_, ?_⟩
    · rw [hm3, hd3]
      exact hod.rec32
    · rw [hi, hk.dirty _ (h.j_mine (hok.tab_ne h0))]
      exact hod.tab
    · intro k hkn
      rw [hn] at hkn
      rw [hkk, hk.dirty _ (hJ k hkn)]
      exact hod.handles k hkn
    · rw [hlast, hod.last, handlesOf_congr (hi t) (hn t) (htab t hod.lt h0) fun k hkn => hk.mem _ (hJ k hkn)]
  · rw [Quiet, tHandlei, tNhandles, hd3]
    exact h.blank hZ t ht hne

/-! ### A transaction changes in the cache -/

omit h

theorem FsInv.history_of_logged (h : FsInv R L own jown none s) (hl : Logged L own jown t s s') :
    (∀ e ∈ s.trace, e ∈ s'.trace) ∧ lastCommit s'.trace = lastCommit s.trace ∧ TrOk R L.nb s'.trace := by
  refine h.history hl.evs ?_ ?_ ?_ ?_
  · rintro t hs (hc | ⟨b, hc⟩ | ⟨d, hc, -⟩) <;> cases hc
  · rintro t m y (hc | ⟨b, hc⟩ | ⟨d, hc, -⟩) <;> cases hc
  · rintro d (hc | ⟨b, hc⟩ | ⟨d', hc, hd, -⟩) tr' - <;> cases hc
    refine walAt_of_quiet fun t ht => ?_
    rw [tActive, hd 3 (by omega)]
    exact (h.quiet t ht (by simp)).2
  · rintro hZ d (hc | ⟨b, hc⟩ | ⟨d', hc, hd, hb⟩) <;> cases hc
    have := L.nb3
    refine h.imgOk_of_quiet ?_ (hb 2 (by omega) h.two) (hb 3 (by omega) h.three) fun t ht => ?_
    · rw [hd 1 (by omega)]
      exact h.sized.2
    · rw [Quiet, tHandlei, tNhandles, hd 3 (by omega)]
      exact h.blank hZ t ht (by simp)

/-- The record of transaction `t` changed, and it may have got blocks. -/
theorem FsInv.of_logged (h : FsInv R L own jown none s) (hl : Logged L own jown t s s') (hx : Ext L L' jown jown' t)
    (hT : TInv L' own jown' (tNhandles s'.mem t) t s'.mem) (hact : tActive s'.mem t = 0)
    (htk : ∀ b, jown' b ≠ jown b → .taken b ∈ s'.trace) : FsInv R L' own jown' none s' := by
  obtain ⟨hsub, -, htr⟩ := h.history_of_logged hl
  have hrec : ∀ t', t' ≠ t → ∀ i < 32, s'.mem 3 (tOff t' + i) = s.mem 3 (tOff t' + i) := fun t' hne i hi =>
    hl.three _ (tOff_disjoint hne hi)
  have hd3 : s'.disk 3 = s.disk 3 := hl.disk 3 (by omega)
  refine ⟨hT.inv, hT.jrn, fun t' ht' => ?_, hl.keeps.coh h.coh, hl.bitmap h.bitmap,
    hx.nb ▸ hl.keeps.sized _ h.sized, fun t' ht' _ => ?_, (by simp), fun hZ t' ht' _ => ?_, fun b hb => ?_,
    hx.nb ▸ htr⟩
  · by_cases hne : t' = t
    · rw [hne]
      exact hT.ok
    · rw [tNhandles_congr (hrec t' hne)]
      have hok := h.ok t' ht'
      refine hok.congr (tHandlei_congr (hrec t' hne)) (fun h0 => hl.keeps.mem _ ?_) fun b hb => ?_
      · exact .inr (.inr ⟨t', hne, by rw [hok.tab h0]; rfl⟩)
      · refine (hx.ext b).resolve_right fun hc => ?_
        rw [hc.1] at hb
        exact absurd hb (by simp [JUse.trans])
  · refine ⟨?_, by rw [tActive, hd3]; exact (h.quiet t' ht' (by simp)).2⟩
    by_cases hne : t' = t
    · rw [hne, hact]
    · rw [tActive_congr (hrec t' hne)]
      exact (h.quiet t' ht' (by simp)).1
  · rw [Quiet, tHandlei, tNhandles, hd3]
    exact h.blank hZ t' ht' (by simp)
  · by_cases he : jown' b = jown b
    · exact hsub _ (h.taken b (he ▸ hb))
    · exact htk b he

/-- `add_handle_to_transaction`. -/
theorem FsInv.of_added (h : FsInv R L own jown none s) (ht : t < 112) (hA : Added L own jown t s s') :
    ∃ L' jown', L'.nb = L.nb ∧ L'.D = L.D ∧ FsInv R L' own jown' none s' := by
  obtain ⟨L', jown', hx, hT, htk⟩ := hA.inv
  refine ⟨L', jown', hx.nb, hx.D, h.of_logged hA.logged hx hT ?_ htk⟩
  rw [← (h.quiet t ht (by simp)).1, tActive, tActive]
  exact le32_congr fun i hi => hA.head i (by omega)

/-- A word of the record other than the count and the handle indirect block is
stored. -/
theorem FsInv.of_stored_rec (h : FsInv R L own jown none s) (ht : t < 112) {o v : ℕ} (ho : 4 ≤ o ∧ o ≤ 8)
    (hs : Stored 3 (tOff t + o) 4 (bytes32 v) s s') : FsInv R L own jown none s' := by
  have hl : Logged L own jown t s s' := logged_of_rec h.inv h.jrn hs (by omega)
  have hw : ∀ o', o' + 4 ≤ o ∨ o + 4 ≤ o' → (s'.mem 3).le32 (tOff t + o') = (s.mem 3).le32 (tOff t + o') :=
    fun o' ho' => by rw [hs.mem, update_self, le32_write_out (by omega)]
  have hi : tHandlei s'.mem t = tHandlei s.mem t := hw 16 (by omega)
  have hn : tNhandles s'.mem t = tNhandles s.mem t := hw 12 (by omega)
  have hok := h.ok t ht
  refine h.of_logged hl (Ext.refl L jown t) ⟨hl.inv h.inv, h.jrn, ?_⟩ ((hw 0 (by omega)).trans (h.quiet t ht (by simp)).1)
    fun b hb => absurd rfl hb
  rw [hn]
  refine hok.congr hi (fun h0 => ?_) fun _ _ => rfl
  have := h.jrn.blk (hok.tab_ne h0)
  rw [hs.mem, update_of_ne (by omega)]

/-! ### A transaction is committed -/

/-- The disk is written as it is. -/
theorem FsInv.of_write (h : FsInv R L own jown a s) : FsInv R L own jown a (s.log (.write s.disk)) := by
  refine h.of_moved ⟨h.inv, keeps_log ⟨fun _ _ => rfl, fun b _ hb => hb.2, fun _ hn => hn.2⟩, id,
    fun _ _ h1 h2 => ⟨h1, h2⟩⟩

/-- The state `commit_transaction` starts from. -/
theorem FsInv.of_commit_log (h : FsInv R L own jown none s) (t : ℕ) (hs : List Block) :
    FsInv R L own jown none (s.log (.commit t hs)) := by
  refine ⟨h.inv, h.jrn, h.ok, h.coh, h.bitmap, h.sized, h.quiet, by simp, h.blank,
    fun b hb => .tail _ (h.taken b hb), h.tr.wal, fun hZ d hd => ?_, fun t' m y hm => ?_⟩
  · refine (h.tr.imgs hZ d ?_).mono fun e he => .tail _ he
    simpa [FsSt.log] using hd
  · refine h.tr.ends t' m y ?_
    simpa [FsSt.log] using hm

theorem Jrn.mine (hj : Jrn L jown) {b : ℕ} (hb : Mine jown t b) : 3 < b ∧ b < L.nb := hj.blk hb.ne

/-- No other record in the sector of `t` has handles. -/
def Alone (m : Disk) (t : ℕ) : Prop := ∀ t' < 112, t' ≠ t → t' / 16 = t / 16 → Quiet m t'

/-- A record of the journal block after a sector was written. -/
theorem sector_disk {c x : Block} (hd : d 3 = sector c x t) (t' : ℕ) :
    (t' / 16 = t / 16 ∧ ∀ i < 32, d 3 (tOff t' + i) = x (tOff t' + i)) ∨
      (t' / 16 ≠ t / 16 ∧ ∀ i < 32, d 3 (tOff t' + i) = c (tOff t' + i)) := by
  by_cases hs : t' / 16 = t / 16
  · exact .inl ⟨hs, fun i hi => by rw [hd, sector_rec _ _ _ _ hi, if_pos hs]⟩
  · exact .inr ⟨hs, fun i hi => by rw [hd, sector_rec _ _ _ _ hi, if_neg hs]⟩

theorem quiet_congr {m' : Disk} (h : ∀ i < 32, m' 3 (tOff t + i) = m 3 (tOff t + i)) : Quiet m' t ↔ Quiet m t := by
  rw [Quiet, Quiet, tHandlei_congr h, tNhandles_congr h]

/-- What `commit_transaction` changes in the cache. -/
theorem Committed.words (hc : Committed jown n t s s') : tActive s'.mem t = 1 ∧
    tHandlei s'.mem t = tHandlei s.mem t ∧ tNhandles s'.mem t = tNhandles s.mem t ∧
    (∀ c, c ≠ 3 → s'.mem c = s.mem c) ∧ ∀ t', t' ≠ t → ∀ i < 32, s'.mem 3 (tOff t' + i) = s.mem 3 (tOff t' + i) := by
  have h3 : s'.mem 3 = (s.mem 3).put32 (tOff t) 1 := by rw [hc.mem, update_self]
  have hword : ∀ o, 4 ≤ o → (s'.mem 3).le32 (tOff t + o) = (s.mem 3).le32 (tOff t + o) := fun o ho => by
    rw [h3, le32_put32_out (by omega)]
  refine ⟨?_, hword 16 (by omega), hword 12 (by omega), fun c hc3 => ?_, fun t' hne i hi => ?_⟩
  · rw [tActive, h3, le32_put32]
    rfl
  · rw [hc.mem, update_of_ne hc3]
  · have := tOff_disjoint hne hi
    rw [h3, put32_out (by omega)]

theorem FsInv.ok_of_committed (h : FsInv R L own jown a s) (hc : Committed jown n t s s') :
    ∀ t' < 112, TransOk jown (tNhandles s'.mem t') s'.mem t' := by
  intro t' ht'
  obtain ⟨-, hi, hn, hmem, hrec⟩ := hc.words
  have hok := h.ok t' ht'
  have hsame : tHandlei s'.mem t' = tHandlei s.mem t' ∧ tNhandles s'.mem t' = tNhandles s.mem t' := by
    by_cases hne : t' = t
    · rw [hne]
      exact ⟨hi, hn⟩
    · exact ⟨tHandlei_congr (hrec t' hne), tNhandles_congr (hrec t' hne)⟩
  rw [hsame.2]
  refine hok.congr hsame.1 (fun h0 => hmem _ ?_) fun _ _ => rfl
  have := h.jrn.blk (hok.tab_ne h0)
  omega

/-- The transaction is on the disk. -/
theorem FsInv.onDisk_of_committed (h : FsInv R L own jown a s) (ht : t < 112) (h0 : 0 < tNhandles s.mem t)
    (hc : Committed jown (tNhandles s.mem t) t s s') (hlast : lastCommit s'.trace = some (t, handlesOf s.mem t)) :
    OnDisk t s' := by
  obtain ⟨hact, hi, hn, hmem, -⟩ := hc.words
  have hok := h.ok t ht
  have hi0 : tHandlei s.mem t ≠ 0 := hok.handlei_ne h0
  have htab : s'.mem (tHandlei s.mem t) = s.mem (tHandlei s.mem t) := by
    have := h.jrn.blk (hok.tab_ne hi0)
    exact hmem _ (by omega)
  have hhs : ∀ k < tNhandles s.mem t, s'.mem (hblk s.mem t k) = s.mem (hblk s.mem t k) := fun k hk => by
    have := h.jrn.blk (hok.handle_ne hk)
    exact hmem _ (by omega)
  refine ⟨ht, hact, by rwa [hn], fun i hi' => ?_, by rw [hi]; exact hc.clean.1, fun k hk => ?_, ?_⟩
  · rw [hc.disk3, sector_rec _ _ _ _ hi', if_pos rfl]
  · rw [hn] at hk
    rw [hblk, hi, htab]
    exact hc.clean.2 k hk
  · rw [hlast, handlesOf_congr hi hn htab hhs]

/-- Before its last write `commit_transaction` only writes blocks of the
transaction. -/
theorem FsInv.history_of_saved {evs : List Event} (h : FsInv R L own jown none s) (ht : s'.trace = evs ++ s.trace)
    (he : ∀ e ∈ evs, ∃ d, e = .write d ∧ ∀ c, ¬ Mine jown t c → d c = s.disk c) :
    (∀ e ∈ s.trace, e ∈ s'.trace) ∧ lastCommit s'.trace = lastCommit s.trace ∧ TrOk R L.nb s'.trace := by
  have hlow : ∀ d : Disk, (∀ c, ¬ Mine jown t c → d c = s.disk c) → ∀ c ≤ 3, d c = s.disk c := fun d hd c hle =>
    hd c fun hm => by
      have := h.jrn.mine hm
      omega
  have hbit : ∀ (d : Disk) b, (∀ c, ¬ Mine jown t c → d c = s.disk c) → b < L.nb → InUse s b → bitSet d b = false :=
    fun d b hd hlt hb => by
      rw [bitSet_small h.jrn hlt (hlow d hd 2 (by omega))]
      exact hb.2
  have := L.nb3
  refine h.history ⟨evs, ht, he⟩ (by simp) (by simp) ?_ ?_
  · rintro d ⟨d', hdd, hd⟩ tr' -
    cases hdd
    refine walAt_of_quiet fun t' ht' => ?_
    rw [tActive, hlow d hd 3 le_rfl]
    exact (h.quiet t' ht' (by simp)).2
  · rintro hZ d ⟨d', hdd, hd⟩
    cases hdd
    refine h.imgOk_of_quiet ?_ (hbit d 2 hd (by omega) h.two) (hbit d 3 hd (by omega) h.three) fun t' ht' => ?_
    · rw [hlow d hd 1 (by omega)]
      exact h.sized.2
    · rw [Quiet, tHandlei, tNhandles, hlow d hd 3 le_rfl]
      exact h.blank hZ t' ht' (by simp)

/-- `commit_transaction` with handles to write. -/
theorem FsInv.of_committed (h : FsInv R L own jown none s) (ht : t < 112) (h0 : 0 < tNhandles s.mem t)
    (hZ : R.Z → Alone s.mem t)
    (hc : Committed jown (tNhandles s.mem t) t (s.log (.commit t (handlesOf s.mem t))) s') :
    FsInv R L own jown (some t) s' := by
  have hl := h.of_commit_log t (handlesOf s.mem t)
  obtain ⟨-, -, -, hmem, hrec⟩ := hc.words
  obtain ⟨evs, htr, hevs⟩ := hc.evs
  have hne' : ∀ t', some t ≠ some t' → t' ≠ t := fun t' hc he => hc (by rw [he])
  have hsec := sector_disk (c := s.disk 3) hc.disk3
  -- the history up to the write of the sector
  let s0 : FsSt := { s' with trace := evs ++ (s.log (.commit t (handlesOf s.mem t))).trace }
  have he : s' = s0.log (.write s0.disk) := by
    cases s'
    exact congrArg _ htr
  have ht0 : s0.trace = evs ++ (s.log (.commit t (handlesOf s.mem t))).trace := rfl
  obtain ⟨hsub, hlast, hTr⟩ := hl.history_of_saved ht0 hevs
  have hok := hl.ok_of_committed hc
  have hlast' : lastCommit s0.trace = lastCommit s'.trace := by
    rw [htr]
    rfl
  have hod := hl.onDisk_of_committed ht h0 hc (hlast'.symm.trans hlast)
  have hc2 : ¬ Mine jown t 2 ∧ ¬ Mine jown t 1 :=
    ⟨fun hm => by have := h.jrn.mine hm; omega, fun hm => by have := h.jrn.mine hm; omega⟩
  rw [he]
  refine .of_write ⟨h.inv.of_frame (fun c hc' => hmem c ?_) fun b hb hbit => ?_, h.jrn, hok, hc.coh h.coh,
    ?_, ⟨?_, ?_⟩, fun t' ht' hne => ⟨?_, ?_⟩, fun t' hsome => ?_, fun hz t' ht' hne => ?_,
    fun b hb => hsub _ (hl.taken b hb), hTr⟩
  · rintro rfl
    exact hc'.elim (by omega) fun hu => hu (h.inv.fixed 3 (.inl (.inl le_rfl))).1
  · have hlt : b < L.nb := hb.elim (fun hu => (h.inv.used b hu).1) Layout.fixed_lt
    exact (bitSet_small h.jrn hlt (hmem 2 (by omega))).trans hbit
  · exact (hc.dirty 2 (by omega) hc2.1).trans h.bitmap
  · show (s'.mem 1).le32 4 = L.nb
    rw [hmem 1 (by omega)]
    exact h.sized.1
  · show (s'.disk 1).le32 4 = L.nb
    rw [hc.disk 1 (by omega) hc2.2]
    exact h.sized.2
  · exact (tActive_congr (hrec t' (hne' t' hne))).trans (h.quiet t' ht' (by simp)).1
  · rcases hsec t' with ⟨-, hs⟩ | ⟨-, hs⟩
    · exact (tActive_congr hs).trans ((tActive_congr (hrec t' (hne' t' hne))).trans (h.quiet t' ht' (by simp)).1)
    · exact (tActive_congr hs).trans (h.quiet t' ht' (by simp)).2
  · obtain rfl := Option.some.inj hsome
    exact ⟨hod.lt, hod.active, hod.pos, hod.rec32, hod.tab, hod.handles, hlast'.trans hod.last⟩
  · have hnet := hne' t' hne
    rcases hsec t' with ⟨hs', hs⟩ | ⟨-, hs⟩
    · exact (quiet_congr hs).mpr ((quiet_congr (hrec t' hnet)).mpr (hZ hz t' ht' hnet hs'))
    · exact (quiet_congr hs).mpr (h.blank hz t' ht' (by simp))

end

end Fs
end Jos
