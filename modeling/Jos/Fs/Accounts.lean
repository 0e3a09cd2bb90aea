/-
# The blocks of the journal in a run

Between requests the blocks in use for journaling are those the records of the
journal list, and the list of a transaction has no block twice, none of another
transaction and none of a file (`Accounted`). `end_transaction` frees the blocks
listed for its transaction, all of them and no others (`GivesBack`).

Key definitions: `Accounted`, `GivesBack`.
Key theorems: `step_settles`, `blocks_accounted_of_run`.
-/
import Jos.Fs.WriteAhead

namespace Jos
namespace Fs

open Block

theorem step_settles {N : ℕ} {s s' : Srv} {a : Act} {rep : Reply} (h : Fit plain N none s) (hf : a.Fits s)
    (hx : step a s = .ok rep s') : Settled plain N s.fs s'.fs := by
  have hsame : Fixes Srv.fs (step a) → Settled plain N s.fs s'.fs := fun hfx => by
    rw [(hfx s).of_ok hx]
    exact .inl (Books.refl _)
  cases a with
  | req envid r =>
    rcases (step_req h hf.ok).of_ok hx with rfl | ht
    · exact .inl (Books.refl _)
    · exact ht.settled
  | seek i off => exact hsame (.bind (.modify fun s => by split_ifs <;> rfl) fun _ => .pure _)
  | share i e => exact hsame (.bind (.modify fun s => by split_ifs <;> rfl) fun _ => .pure _)
  | drop i e => exact hsame (.bind (.modify fun _ => rfl) fun _ => .pure _)
  | exit e => exact hsame (.bind (.modify fun _ => rfl) fun _ => .pure _)
  | alloc e => exact hsame (.bind (.modify fun s => by split_ifs <;> rfl) fun _ => .pure _)

/-- The accounts of the journal, with the history `tr` and the cache `m`. -/
structure Accounted (tr : List Event) (m : Disk) : Prop where
  /-- The blocks in use for journaling are those the records list. -/
  held : ∀ b, journaled tr b = true ↔ ∃ t < MAX_NTRANS, tHandlei m t ≠ 0 ∧
    (b = tHandlei m t ∨ ∃ k < tNhandles m t, b = hblk m t k)
  inUse : ∀ b, journaled tr b = true → b < (m 1).le32 4 ∧ bitSet m b = false
  /-- No list has a block twice. -/
  distinct : ∀ t < MAX_NTRANS, ∀ k < tNhandles m t, hblk m t k ≠ 0 ∧ hblk m t k ≠ tHandlei m t ∧
    ∀ j < tNhandles m t, hblk m t j = hblk m t k → j = k
  /-- Two lists have no block in common. -/
  apart : ∀ t < MAX_NTRANS, ∀ t' < MAX_NTRANS, t' ≠ t → ∀ b, Lists m t b → ¬ Lists m t' b
  /-- No file has a block of a list. -/
  files : ∀ t < MAX_NTRANS, ∀ b, Lists m t b → ∀ r : Ref, InTree m r.file → ¬ Names m r b

/-- What was done to the blocks since transaction `t` was ended, with `m` in the
cache: those it had listed are free, and nothing else changed. -/
structure GivesBack (t : ℕ) (m : Disk) (l : List Event) (m' : Disk) : Prop where
  freed : ∀ b, .freed b ∈ l ↔ Lists m t b
  untaken : ∀ b, .taken b ∉ l
  bits : ∀ b < (m 1).le32 4, (bitSet m' b = true ↔ bitSet m b = true ∨ Lists m t b)

/-- An element apart from the others is at one place only. -/
theorem append_cons_inj {α : Type} {p : α → Prop} : ∀ {l l' e e' : List α} {x y : α}, (∀ z ∈ l, ¬ p z) →
    (∀ z ∈ e, ¬ p z) → p x → p y → l ++ x :: e = l' ++ y :: e' → l = l' ∧ x = y ∧ e = e'
  | [], [], _, _, _, _, _, _, _, _, h => ⟨rfl, List.cons.inj h⟩
  | [], z :: l', e, e', x, y, _, he, _, hy, h => by
    rw [(List.cons.inj h).2] at he
    exact absurd hy (he y (by simp))
  | z :: l, [], e, e', x, y, hl, _, _, hy, h => by
    rw [(List.cons.inj h).1] at hl
    exact absurd hy (hl y (by simp))
  | z :: l, z' :: l', e, e', x, y, hl, he, hx, hy, h => by
    obtain ⟨rfl, hrest⟩ := List.cons.inj h
    obtain ⟨rfl, hxy⟩ := append_cons_inj (fun z hz => hl z (.tail _ hz)) he hx hy hrest
    exact ⟨rfl, hxy⟩

section
variable {R : Rules} {L : Layout} {own : ℕ → Use} {jown : ℕ → JUse} {a : Option ℕ} {N : ℕ} {g g' : FsSt} {s : Srv}
  {f : FsSt} {envs : ℕ → Env} {as : List Act}

theorem FsInv.accounted (h : FsInv R L own jown a g) (hH : Held g) : Accounted g.trace g.mem := by
  have hne : ∀ {t b}, t < 112 → Lists g.mem t b → jown b ≠ .none := fun ht hb => (h.mine_of_lists ht hb).ne
  refine ⟨fun b => (hH b).trans ?_, fun b hb => ?_, fun t ht k hk => ?_, fun t ht t' ht' hne' b hb hb' => hne' ?_,
    fun t ht b hb r hr hn => ?_⟩
  · constructor
    · rintro ⟨t, ht, hb, hl⟩
      refine ⟨t, ht, fun h0 => ?_, hl⟩
      have := (h.ok t ht).zero h0
      rcases hl with rfl | ⟨k, hk, -⟩
      · exact hb h0
      · omega
    · rintro ⟨t, ht, h0, hl⟩
      refine ⟨t, ht, ?_, hl⟩
      rcases hl with rfl | ⟨k, hk, rfl⟩
      · exact h0
      · exact ((h.ok t ht).handle k hk).1
  · obtain ⟨t, ht, hb⟩ := (hH b).mp hb
    have hj := hne ht hb
    exact ⟨h.inv.nblocks ▸ (h.jrn.blk hj).2, (h.inv.own_jown h.jrn hj).2⟩
  · have hok := h.ok t ht
    obtain ⟨h0, hu⟩ := hok.handle k hk
    refine ⟨h0, fun he => ?_, fun j hj he => ?_⟩
    · rw [he, hok.tab (hok.handlei_ne hk)] at hu
      cases hu
    · rw [← he, (hok.handle j hj).2] at hu
      exact (JUse.handle.inj hu).2
  · have hm := h.mine_of_lists ht hb
    rw [Mine, h.mine_of_lists ht' hb'] at hm
    exact Option.some.inj hm
  · have hj := hne ht hb
    have := h.jrn.blk hj
    exact (h.inv.own_ofTree (.inr ⟨r, hr, hn⟩)).elim (by omega) fun hc => hc (h.inv.own_jown h.jrn hj).1

theorem Sound.accounted (h : Sound R N a g) (hH : Held g) : Accounted g.trace g.mem := by
  obtain ⟨L, own, jown, -, -, hi⟩ := h
  exact hi.accounted hH

theorem Settled.held (h : Settled plain N g g') (hH : Held g) : Held g' := by
  rcases h with h | ⟨t, g1, h1, -, hc⟩
  · exact h.held hH
  · exact hc.held (h1.held hH)

/-- The end of a transaction, where it is in the history. -/
theorem Settled.ended (h : Settled plain N g g') (hH : Held g) {l l0 : List Event} {t : ℕ} {m : Disk} {y : ℕ → Bool}
    (ht : g'.trace = l ++ .ending t m y :: (l0 ++ g.trace)) : Accounted (l0 ++ g.trace) m ∧ GivesBack t m l g'.mem := by
  rcases h with h | ⟨t', g1, h1, ⟨a, hs⟩, hc⟩
  · obtain ⟨e, hte, he⟩ := h.evs
    have hmem : e = l ++ .ending t m y :: l0 := List.append_cancel_right (by rw [← hte, ht]; simp)
    exact absurd rfl (he (.ending t m y) (by simp [hmem]) t m y)
  · obtain ⟨e, hte, he⟩ := h1.evs
    obtain ⟨l', htr, hfreed, hkind⟩ := hc.trace
    have hsplit : l' ++ .ending t' g1.mem g1.dirty :: e = l ++ .ending t m y :: l0 := by
      apply (List.append_left_inj g.trace).mp
      rw [List.append_assoc, List.cons_append, List.append_assoc, List.cons_append, ← hte, ← htr, ht]
    obtain ⟨rfl, hev, rfl⟩ := append_cons_inj (p := fun e => ∃ t m y, e = .ending t m y)
      (fun z hz => by
        rintro ⟨_, _, _, rfl⟩
        rcases hkind _ hz with ⟨_, hx⟩ | ⟨_, hx⟩ <;> cases hx)
      (fun z hz => by
        rintro ⟨_, _, _, rfl⟩
        exact he _ hz _ _ _ rfl) ⟨_, _, _, rfl⟩ ⟨_, _, _, rfl⟩ hsplit
    obtain ⟨rfl, rfl, -⟩ := Event.ending.inj hev
    rw [← hte]
    refine ⟨hs.accounted (h1.held hH), hfreed, fun b hb => ?_, hc.bits⟩
    rcases hkind _ hb with ⟨_, hx⟩ | ⟨_, hx⟩ <;> cases hx

theorem Ready.held (h : Ready f) : Held f := by
  intro b
  rw [h.trace]
  refine ⟨fun hc => absurd hc (by simp [journaled]), ?_⟩
  rintro ⟨t, ht, hb⟩
  exact absurd hb (h.blank t ht).2.2.not_lists

theorem held_of_run (h : Ready f) (he : EnvsOk envs) (hok : AlongS (fun s a => a.Fits s) as (serverInit f envs)) :
    Run (run as) (serverInit f envs) (fun _ s => Fit plain f.nblocks none s ∧ Held s.fs) fun _ _ => True := by
  refine run_keeps (fun s a hi ha => ?_) ⟨h.fit he, h.held⟩ hok
  refine (step_fit hi.1 ha.ok).with_eq.mono ?_ fun _ _ _ => trivial
  rintro rep s' ⟨hx, hfit⟩
  exact ⟨hfit, (step_settles hi.1 ha hx).held hi.2⟩

/-- In every state of a run that fits, the blocks in use for journaling are
those the records of the journal list. They are listed once, and no file has
them. In every step that ends a transaction the blocks it listed are freed, all
of them and no others. -/
theorem blocks_accounted_of_run (h : Ready f) (he : EnvsOk envs) (hok : AlongS (fun s a => a.Fits s) as (serverInit f envs))
    (hrun : run as (serverInit f envs) = .ok () s) : Accounted s.fs.trace s.fs.mem ∧
      ∀ a rep s', a.Fits s → step a s = .ok rep s' → ∀ l t m y l0,
        s'.fs.trace = l ++ .ending t m y :: (l0 ++ s.fs.trace) →
        Accounted (l0 ++ s.fs.trace) m ∧ GivesBack t m l s'.fs.mem := by
  obtain ⟨hfit, hH⟩ := (held_of_run h he hok).of_ok hrun
  exact ⟨hfit.fs.accounted hH, fun a rep s' ha hx l t m y l0 ht => (step_settles hfit ha hx).ended hH ht⟩

end

/-! ### A small server -/

/-- A client opens "a" and writes to it. -/
def openWriteA : List Act := [.req 4098 (.open (bytes [97]) O_RDWR), .req 4098 (.write 1024 2 (bytes [1, 2]))]

/-- The state after it. -/
def withOpenA : Srv := after (run openWriteA) (serverInit (boot twoFiles) someEnvs)

theorem openWriteA_fits : AlongS (fun s a => a.Fits s) openWriteA (serverInit (boot twoFiles) someEnvs) ∧
    (Act.req 4098 (.flush 1024)).Fits withOpenA := by
  obtain ⟨h1, hrest⟩ := writeA_fits
  refine ⟨⟨h1, fun r s hx => ⟨(hrest r s hx).1, fun _ _ _ => trivial⟩⟩, fun _ _ f hf => ?_⟩
  obtain rfl : (⟨4, 0⟩ : Ptr) = f := by
    refine Option.some.inj (Eq.trans ?_ hf)
    decide +kernel
  exact ⟨[0], by decide +kernel⟩

/-- The write takes two blocks, and the flush gives them back. -/
theorem openWriteA_accounted : run openWriteA (serverInit (boot twoFiles) someEnvs) = .ok () withOpenA ∧
    (List.range 16).filter (journaled withOpenA.fs.trace) = [7, 8] ∧
    Accounted withOpenA.fs.trace withOpenA.fs.mem ∧
    ∃ rep s', step (.req 4098 (.flush 1024)) withOpenA = .ok rep s' ∧
      (List.range 16).filter (journaled s'.fs.trace) = [] ∧
      ∀ l t m y l0, s'.fs.trace = l ++ .ending t m y :: (l0 ++ withOpenA.fs.trace) →
        Accounted (l0 ++ withOpenA.fs.trace) m ∧ GivesBack t m l s'.fs.mem := by
  have hrun : run openWriteA (serverInit (boot twoFiles) someEnvs) = .ok () withOpenA :=
    eq_ok_of_returns (by decide +kernel)
  obtain ⟨hacc, hend⟩ := blocks_accounted_of_run twoFiles_ready someEnvs_ok openWriteA_fits.1 hrun
  obtain ⟨rep, hx, -⟩ := exists_of_returned (x := step (.req 4098 (.flush 1024))) (s := withOpenA)
    (p := fun _ => true) (by decide +kernel)
  exact ⟨hrun, by decide +kernel, hacc, rep, _, hx, by decide +kernel, hend _ rep _ openWriteA_fits.2 hx⟩

/-- The client then writes an entry "x" into the root directory whose block is
the one that lists the handles. -/
def forgeTab : List Act := openWriteA ++ [.req 4098 (.open (bytes [47]) O_RDWR), .seek 1 512,
  .req 4098 (.write 1025 256 (withFile Block.zero 0 [120] 0 4096 7))]

def withForged : Srv := after (run forgeTab) (serverInit (boot twoFiles) someEnvs)

/-- A file has a block of the journal after a run that writes to a directory. -/
theorem shared_block_of_dir_write : ∃ f envs as s, Ready f ∧ EnvsOk envs ∧ run as (serverInit f envs) = .ok () s ∧
    ¬ Accounted s.fs.trace s.fs.mem := by
  refine ⟨boot twoFiles, someEnvs, forgeTab, withForged, twoFiles_ready, someEnvs_ok,
    eq_ok_of_returns (by decide +kernel), fun h => ?_⟩
  exact h.files 0 (by decide) 7 ⟨by decide, .inl (by decide +kernel)⟩ (.block ⟨4, 512⟩ 0)
    ⟨[2], by decide +kernel⟩ ⟨by decide, by decide +kernel, by decide⟩

end Fs
end Jos
