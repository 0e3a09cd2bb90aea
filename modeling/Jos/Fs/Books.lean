/-
# The blocks of the journal

Which blocks are in use for journaling is a matter of the history: those taken
for a transaction and not freed since (`journaled`). The functions on files and
on transactions keep them accounted for: they are the blocks the records of the
journal list (`Books`). `end_transaction` frees the blocks listed for its
transaction, all of them and no others (`Closed`).

Key definitions: `journaled`, `Held`, `Books`, `Closed`, `Settled`.
Key theorems: `Sound.books_done`, `Sound.books_addHandle`, `Sound.closed_clear`.
-/
import Jos.Fs.Sound

namespace Jos
namespace Fs

open Block

/-! ### The blocks in use for journaling -/

/-- Block `b` was taken for a transaction and not freed since. -/
def journaled : List Event → ℕ → Bool
  | [], _ => false
  | .taken c :: evs, b => b == c || journaled evs b
  | .freed c :: evs, b => b != c && journaled evs b
  | _ :: evs, b => journaled evs b

/-- The blocks in use for journaling are those the records list. -/
def Held (s : FsSt) : Prop := ∀ b, journaled s.trace b = true ↔ ∃ t < 112, Lists s.mem t b

def NotEnding (e : Event) : Prop := ∀ t m y, e ≠ .ending t m y

/-- The blocks in use for journaling stay accounted for, and no transaction is
ended. -/
structure Books (s s' : FsSt) : Prop where
  held : Held s → Held s'
  evs : Evs NotEnding s s'

/-- Only the journal superblock changes, and no list of handles in it. -/
structure Light (m m' : Disk) : Prop where
  mem : ∀ c, c ≠ 3 → m' c = m c
  words : ∀ t o, 8 ≤ o → o ≤ 28 → (m' 3).le32 (tOff t + o) = (m 3).le32 (tOff t + o)

theorem Light.refl (m : Disk) : Light m m := ⟨fun _ _ => rfl, fun _ _ _ _ => rfl⟩

theorem Light.trans {m m' m'' : Disk} (h : Light m m') (h' : Light m' m'') : Light m m'' :=
  ⟨fun c hc => (h'.mem c hc).trans (h.mem c hc), fun t o h8 h28 => (h'.words t o h8 h28).trans (h.words t o h8 h28)⟩

section
variable {R : Rules} {L L' : Layout} {own own' : ℕ → Use} {jown jown' : ℕ → JUse} {a : Option ℕ} {N n t b : ℕ}
  {m m' : Disk} {s s' s'' g g' g'' : FsSt} {evs tr : List Event}

theorem journaled_append_of_untaken (h : ∀ c, .taken c ∉ evs) :
    journaled (evs ++ tr) b = true ↔ journaled tr b = true ∧ .freed b ∉ evs := by
  induction evs with
  | nil => simp
  | cons e evs ih =>
    have ih := ih fun c hc => h c (.tail _ hc)
    cases e with
    | taken c => exact absurd (List.mem_cons_self ..) (h c)
    | freed c =>
      simp only [List.cons_append, journaled, Bool.and_eq_true, bne_iff_ne, ih, List.mem_cons, Event.freed.injEq]
      tauto
    | _ => simpa [journaled] using ih

theorem journaled_append_of_unfreed (h : ∀ c, .freed c ∉ evs) :
    journaled (evs ++ tr) b = true ↔ .taken b ∈ evs ∨ journaled tr b = true := by
  induction evs with
  | nil => simp
  | cons e evs ih =>
    have ih := ih fun c hc => h c (.tail _ hc)
    cases e with
    | freed c => exact absurd (List.mem_cons_self ..) (h c)
    | taken c => simp [journaled, ih, or_assoc]
    | _ => simpa [journaled] using ih

theorem Books.refl (s : FsSt) : Books s s := ⟨id, Evs.refl⟩

theorem Books.trans (h : Books s s') (h' : Books s' s'') : Books s s'' :=
  ⟨h'.held ∘ h.held, h.evs.trans h'.evs⟩

/-! ### Lists that read the same -/

theorem FsInv.mine_of_lists (h : FsInv R L own jown a s) (ht : t < 112) (hb : Lists s.mem t b) : Mine jown t b := by
  have hok := h.ok t ht
  obtain ⟨h0, rfl | ⟨k, hk, rfl⟩⟩ := hb
  · rw [Mine, hok.tab h0]
    rfl
  · rw [Mine, (hok.handle k hk).2]
    rfl

/-- The journal's blocks read the same. -/
theorem FsInv.lists_of_same (h : FsInv R L own jown a s) (ht : t < 112) (hm : ∀ b, L.J b → m' b = s.mem b) :
    Lists m' t b ↔ Lists s.mem t b := by
  have h3 := hm 3 h.j3
  refine (h.ok t ht).lists_congr (by rw [tHandlei, h3, tHandlei]) (by rw [tNhandles, h3, tNhandles]) fun h0 => ?_
  exact hm _ (h.j_mine ((h.ok t ht).tab_ne h0))

/-- Only words of the records that are not about handles change. -/
theorem FsInv.lists_of_light (h : FsInv R L own jown a s) (ht : t < 112) (hm : Light s.mem m') :
    Lists m' t b ↔ Lists s.mem t b := by
  refine (h.ok t ht).lists_congr (hm.words t 16 (by omega) (by omega)) (hm.words t 12 (by omega) (by omega)) fun h0 => ?_
  have := h.jrn.blk ((h.ok t ht).tab_ne h0)
  exact hm.mem _ (by omega)

/-- The lists stay, no block is taken, and none of theirs freed. -/
theorem Held.of_same (h : Held s) (ht : s'.trace = evs ++ s.trace) (hno : ∀ c, .taken c ∉ evs)
    (hl : ∀ t < 112, ∀ b, Lists s'.mem t b ↔ Lists s.mem t b) (hf : ∀ t < 112, ∀ b, Lists s.mem t b → .freed b ∉ evs) :
    Held s' := by
  intro b
  rw [ht, journaled_append_of_untaken hno, h b]
  constructor
  · rintro ⟨⟨t, hlt, hb⟩, -⟩
    exact ⟨t, hlt, (hl t hlt b).mpr hb⟩
  · rintro ⟨t, hlt, hb⟩
    have hb := (hl t hlt b).mp hb
    exact ⟨⟨t, hlt, hb⟩, hf t hlt b hb⟩

/-! ### What keeps the lists -/

/-- The blocks of the journal are left alone. -/
theorem FsInv.books_of_keeps (h : FsInv R L own jown a s) (hk : Keeps L.J s s') : Books s s' := by
  obtain ⟨e, ht, he⟩ := hk.evs
  refine ⟨fun hH => hH.of_same ht (fun c hc => ?_) (fun t hlt b => h.lists_of_same hlt hk.mem) fun t hlt b hb hc => ?_,
    e, ht, fun x hx => ?_⟩
  · exact he _ hc h.j3
  · exact he _ hc (h.j_mine (h.mine_of_lists hlt hb).ne)
  · rintro t m y rfl
    exact he _ hx

/-- Nothing but images written is added to the history. -/
theorem FsInv.books_of_writes (h : FsInv R L own jown a s) (hl : Light s.mem s'.mem)
    (ht : Evs (fun e => (∃ d, e = .write d) ∨ ∃ t hs, e = .commit t hs) s s') : Books s s' := by
  obtain ⟨e, ht, he⟩ := ht
  refine ⟨fun hH => hH.of_same ht (fun c hc => ?_) (fun t hlt b => h.lists_of_light hlt hl) fun t hlt b hb hc => ?_,
    e, ht, fun x hx => ?_⟩
  · rcases he _ hc with ⟨d, hd⟩ | ⟨t, hs, hd⟩ <;> cases hd
  · rcases he _ hc with ⟨d, hd⟩ | ⟨t, hs, hd⟩ <;> cases hd
  · rintro t m y rfl
    rcases he _ hx with ⟨d, hd⟩ | ⟨t, hs, hd⟩ <;> cases hd

/-- A call of the file system. -/
theorem Sound.books_done (h : Sound R N a g) {op : Op} (hf : op.Fits g.mem) (hd : op.Done g g') : Books g g' := by
  obtain ⟨L, own, jown, -, -, hi⟩ := h
  obtain ⟨r, hd⟩ := hd
  rcases (attempt_run (moved_of_op hi.inv hf.1 hf.2.1 fun _ => hf.2.2)).of_ok hd with
    ⟨_, -, own', hm⟩ | ⟨e, -, ⟨p, he, -⟩ | ⟨er, own', -, hm⟩⟩
  · exact hi.books_of_keeps hm.keeps
  · cases he
  · exact hi.books_of_keeps hm.keeps

theorem Sound.books_flush {f : Ptr} (h : Sound R N a g) (hf : InTree g.mem f) :
    Run (Fs.fileFlush f) g (fun _ g' => Books g g') (fun e _ => ∃ p, e = .panic p) := by
  obtain ⟨L, own, jown, -, -, hi⟩ := h
  refine (fileFlush_run hi.inv (hi.inv.isRec hf)).post ?_
  rintro _ g' ⟨hw, -⟩
  exact hi.books_of_keeps (hw.moved hi.inv).keeps

theorem Sound.books_sync (h : Sound R N a g) :
    Run fsSync g (fun _ g' => Books g g') (fun _ _ => False) := by
  obtain ⟨L, own, jown, -, -, hi⟩ := h
  have hpos : 0 < g.nblocks := by
    rw [hi.inv.nblocks_eq]
    have := L.nb3
    omega
  refine (fsSync_run hpos).post (fun _ g' hs => ?_)
  refine hi.books_of_writes (by rw [hs.mem]; exact .refl _) (hs.evs.mono ?_)
  rintro e ⟨d, rfl, -⟩
  exact .inl ⟨d, rfl⟩

/-- What `commit_transaction` writes. -/
theorem Committed.writes (h : Committed jown n t (s.log (.commit t (handlesOf s.mem t))) s') :
    Evs (fun e => (∃ d, e = .write d) ∨ ∃ t hs, e = .commit t hs) s s' := by
  obtain ⟨e, ht, he⟩ := h.evs
  refine ⟨.write s'.disk :: (e ++ [.commit t (handlesOf s.mem t)]), ?_, fun x hx => ?_⟩
  · rw [ht]
    simp [FsSt.log]
  · simp only [List.mem_cons, List.mem_append, List.not_mem_nil, or_false] at hx
    rcases hx with rfl | hx | rfl
    · exact .inl ⟨_, rfl⟩
    · obtain ⟨d, hd, -⟩ := he x hx
      exact .inl ⟨d, hd⟩
    · exact .inr ⟨_, _, rfl⟩

/-! ### Adding a handle -/

/-- `add_handle_to_transaction` on the transaction `t`. -/
theorem Sound.books_addHandle (h : Sound R N none g) (ht : t < 112) (hb : Block) :
    Run (Fs.addHandle t hb) g (fun _ g' => Books g g') (fun e _ => ∃ p, e = .panic p) := by
  obtain ⟨L, own, jown, -, -, hi⟩ := h
  refine (addHandle_run hb (hi.tinv ht)).mono ?_ ?_
  swap
  · rintro e g' ⟨⟨rfl | ⟨er, rfl⟩, -⟩, -⟩
    · exact ⟨_, rfl⟩
    · exact ⟨_, rfl⟩
  rintro _ g' ⟨hA, -⟩
  obtain ⟨B, ⟨e, htr, he⟩, hl⟩ := hA.lists
  obtain ⟨e', htr', hev⟩ := hA.logged.evs
  obtain rfl : e = e' := List.append_cancel_right (htr.symm.trans htr')
  have hunfreed : ∀ c, .freed c ∉ e := by
    intro c hc
    rcases hev _ hc with hx | ⟨_, hx⟩ | ⟨_, hx, -⟩ <;> cases hx
  have hother : ∀ t' < 112, t' ≠ t → ∀ b, Lists g'.mem t' b ↔ Lists g.mem t' b := by
    intro t' ht' hne b
    have hrec : ∀ i < 32, g'.mem 3 (tOff t' + i) = g.mem 3 (tOff t' + i) := fun i hi32 =>
      hA.logged.three _ (tOff_disjoint hne hi32)
    refine (hi.ok t' ht').lists_congr (tHandlei_congr hrec) (tNhandles_congr hrec) fun h0 => ?_
    exact hA.logged.keeps.mem _ (.inr (.inr ⟨t', hne, by rw [(hi.ok t' ht').tab h0]; rfl⟩))
  refine ⟨fun hH b => ?_, e, htr, fun x hx => ?_⟩
  · rw [htr, journaled_append_of_unfreed hunfreed, he, hH b]
    constructor
    · rintro (hB | ⟨t', ht', hb'⟩)
      · exact ⟨t, ht, (hl b).mpr (.inl hB)⟩
      · by_cases hne : t' = t
        · exact ⟨t, ht, (hl b).mpr (.inr (hne ▸ hb'))⟩
        · exact ⟨t', ht', (hother t' ht' hne b).mpr hb'⟩
    · rintro ⟨t', ht', hb'⟩
      by_cases hne : t' = t
      · exact ((hl b).mp (hne ▸ hb')).imp_right fun hb => ⟨t, ht, hb⟩
      · exact .inr ⟨t', ht', (hother t' ht' hne b).mp hb'⟩
  · rintro t' m y rfl
    rcases hev _ hx with hx | ⟨_, hx⟩ | ⟨_, hx, -⟩ <;> cases hx

/-! ### `end_transaction` -/

/-- Transaction `t` was ended: its blocks were freed, all of them and no others. -/
structure Closed (t : ℕ) (g g' : FsSt) : Prop where
  trace : ∃ l, g'.trace = l ++ .ending t g.mem g.dirty :: g.trace ∧ (∀ b, .freed b ∈ l ↔ Lists g.mem t b) ∧
    ∀ e ∈ l, (∃ b, e = .freed b) ∨ ∃ d, e = .write d
  bits : ∀ b < g.nblocks, (bitSet g'.mem b = true ↔ bitSet g.mem b = true ∨ Lists g.mem t b)
  held : Held g → Held g'

theorem Clearable.lists {F : ℕ → Prop} (h : Clearable F t s) : Clearable (Lists s.mem t) t s := by
  refine h.imp_right fun ⟨hl, _⟩ => ⟨⟨hl.here, hl.gt, hl.le, fun j h0 hj => ?_⟩, hl.here.1, .inl rfl⟩
  refine (hl.entry j h0 hj).imp_right fun ⟨_, h3, h4, h5⟩ => ⟨⟨by omega, .inr ⟨j, hj, rfl⟩⟩, h3, h4, h5⟩

/-- `clear_transaction` of the transaction `t`, at the end of `end_transaction`. -/
theorem Sound.closed_clear {E : Fault → FsSt → Prop} (h : Sound R N a g) (ht : t < 112) (hE : R.E t g.mem g.dirty) :
    Run (clearTransaction t) (g.log (.ending t g.mem g.dirty)) (fun _ g' => Closed t g g') E := by
  obtain ⟨L, own, jown, -, -, hi⟩ := h
  have hl := hi.of_ending hE
  refine (clearTransaction_frees hl.rooted (hl.clearable ht).lists).post ?_
  rintro _ g' ⟨hc, hfr⟩
  obtain ⟨-, hq, hrec⟩ := hc.words
  obtain ⟨l, htr, hev⟩ := hc.evs
  obtain ⟨l', htr', hall⟩ := hfr.evs
  obtain rfl : l = l' := List.append_cancel_right (htr.symm.trans htr')
  have hfreed : ∀ b, .freed b ∈ l ↔ Lists g.mem t b := by
    refine fun b => ⟨fun hb => ?_, hall b⟩
    rcases hev _ hb with ⟨c, hx, hF⟩ | ⟨d, hx, -⟩
    · exact Event.freed.inj hx ▸ hF
    · cases hx
  have hkind : ∀ e ∈ l, (∃ b, e = .freed b) ∨ ∃ d, e = .write d := fun e he =>
    (hev e he).imp (fun ⟨b, hb, _⟩ => ⟨b, hb⟩) fun ⟨d, hd, _⟩ => ⟨d, hd⟩
  have hsmall := hi.jrn.small
  refine ⟨⟨l, htr, hfreed, hkind⟩, fun b hb => ?_, fun hH b => ?_⟩
  · have hlt : b < 32768 := by
      rw [hi.inv.nblocks_eq] at hb
      omega
    by_cases hL : Lists g.mem t b
    · exact ⟨fun _ => .inr hL, fun _ => hfr.bits b hlt (.inl hL)⟩
    · rw [hc.bits b hlt hL, or_iff_left hL]
      rfl
  · have hother : ∀ t' < 112, t' ≠ t → (Lists g'.mem t' b ↔ Lists g.mem t' b) := by
      intro t' ht' hne
      have hok := hi.ok t' ht'
      refine hok.lists_congr (tHandlei_congr (hrec t' hne)) (tNhandles_congr (hrec t' hne)) fun h0 => ?_
      have htab := hok.tab h0
      have := hi.jrn.blk (b := tHandlei g.mem t') (by rw [htab]; simp)
      refine hc.mem _ (by omega) (by omega) fun he => ?_
      have he : tHandlei g.mem t' = tHandlei g.mem t := he
      rw [he, (hi.ok t ht).tab (by omega), JUse.tab.injEq] at htab
      exact hne htab.symm
    rw [htr, journaled_append_of_untaken, hfreed]
    · show journaled g.trace b = true ∧ _ ↔ _
      rw [hH b]
      constructor
      · rintro ⟨⟨t', ht', hb⟩, hnot⟩
        have hne : t' ≠ t := by
          rintro rfl
          exact hnot hb
        exact ⟨t', ht', (hother t' ht' hne).mpr hb⟩
      · rintro ⟨t', ht', hb⟩
        have hne : t' ≠ t := by
          rintro rfl
          exact hq.not_lists hb
        have hb := (hother t' ht' hne).mp hb
        refine ⟨⟨t', ht', hb⟩, fun hb' => hne ?_⟩
        have hm := hi.mine_of_lists ht' hb
        rw [Mine, hi.mine_of_lists ht hb'] at hm
        exact (Option.some.inj hm).symm
    · intro c hc'
      rcases hkind _ hc' with ⟨_, hx⟩ | ⟨_, hx⟩ <;> cases hx

/-- Transactions were worked on, and at the end one may have been ended. -/
def Settled (R : Rules) (N : ℕ) (g g' : FsSt) : Prop :=
  Books g g' ∨ ∃ t g1, Books g g1 ∧ (∃ a, Sound R N a g1) ∧ Closed t g1 g'

theorem Books.settled (h : Books g g') (h' : Settled R N g' g'') : Settled R N g g'' := by
  rcases h' with h' | ⟨t, g1, h1, hc⟩
  · exact .inl (h.trans h')
  · exact .inr ⟨t, g1, h.trans h1, hc⟩

end

end Fs
end Jos
