/-
# The transactions of the envs

`Fit` adds the env table to what is known of the file system: the slot of an
open transaction has the id of its env in it. `Turn` is what the work for one
env does, `Finished` the same with the end of a transaction.

Key definitions: `Fit`, `Turn`, `Finished`, `SFails`, `Started`.
Key theorems: `startTransaction_fit`, `addHandleToTransaction_fit`,
`commitTransaction_fit`, `endTransaction_fit`.
-/
import Jos.Fs.Books

namespace Jos
namespace Fs

open Block Function

/-- The server while it works for an env. -/
structure Fit (R : Rules) (N : ℕ) (a : Option ℕ) (s : Srv) : Prop where
  fs : Sound R N a s.fs
  ip : s.transReplayIp = false
  trans : ∀ e t, (s.envs e).trans = some t → t < 112 ∧ tEnvid s.fs.mem t = (s.envs e).id
  ids : ∀ e, (s.envs e).live = true ∨ (s.envs e).trans ≠ none →
    (s.envs e).id % 1024 = e ∧ 0 < (s.envs e).id ∧ (s.envs e).id < 2 ^ 31
  fds : ∀ i, (s.fds i).mapped = false → (s.fds i).clients = []

/-- The work for the env in slot `e`, which stays there: no calls but those of
`C` are made, the blocks of the journal stay accounted for, and no transaction
is ended. -/
structure Turn (C : Op → Prop) (e : ℕ) (s s' : Srv) : Prop where
  same : (s'.envs e).id = (s.envs e).id ∧ (s'.envs e).live = (s.envs e).live
  acts : Acts C s.fs s'.fs
  books : Books s.fs s'.fs

/-- The work for the env in slot `e`, at the end of which a transaction may have
been ended. -/
structure Finished (R : Rules) (N : ℕ) (C : Op → Prop) (e : ℕ) (s s' : Srv) : Prop where
  same : (s'.envs e).id = (s.envs e).id ∧ (s'.envs e).live = (s.envs e).live
  acts : Acts C s.fs s'.fs
  settled : Settled R N s.fs s'.fs

/-- How the work for the env in slot `e` fails: an error is sent back, or the
server stops. -/
def SFails (R : Rules) (N : ℕ) (C : Op → Prop) (e : ℕ) (s : Srv) : Fault → Srv → Prop
  | .err _, s' => Fit R N none s' ∧ Finished R N C e s s'
  | .panic p, s' => TrOk R N s'.fs.trace ∧ p ≠ .dirSize

section
variable {R : Rules} {C : Op → Prop} {N e : ℕ} {a a' : Option ℕ} {s s' s'' : Srv} {t : ℕ} {f : FsSt}

theorem Turn.refl (e : ℕ) (s : Srv) : Turn C e s s := ⟨⟨rfl, rfl⟩, .refl, Books.refl _⟩

/-- The live env of id `whom`, as `envid2env` finds it. -/
def Srv.Alive (s : Srv) (whom : ℕ) : Prop := (s.envs (envx whom)).live = true ∧ (s.envs (envx whom)).id = whom

theorem Turn.alive {envid : ℕ} (h : Turn C (envx envid) s s') (hl : s.Alive envid) : s'.Alive envid :=
  ⟨h.same.2.trans hl.1, h.same.1.trans hl.2⟩

theorem Turn.trans (h : Turn C e s s') (h' : Turn C e s' s'') : Turn C e s s'' where
  same := ⟨h'.same.1.trans h.same.1, h'.same.2.trans h.same.2⟩
  acts := h.acts.trans h'.acts
  books := h.books.trans h'.books

theorem Turn.finished (h : Turn C e s s') : Finished R N C e s s' := ⟨h.same, h.acts, .inl h.books⟩

theorem Turn.andThen (h : Turn C e s s') (h' : Finished R N C e s' s'') : Finished R N C e s s'' where
  same := ⟨h'.same.1.trans h.same.1, h'.same.2.trans h.same.2⟩
  acts := h.acts.trans h'.acts
  settled := h.books.settled h'.settled

theorem SFails.of_turn (h : Turn C e s s') {fa : Fault} (hf : SFails R N C e s' fa s'') : SFails R N C e s fa s'' := by
  cases fa with
  | err er => exact ⟨hf.1, h.andThen hf.2⟩
  | panic p => exact hf

/-- The next call of a turn that has come to `s'`. -/
theorem Turn.step {α β : Type} {x : SrvM α} {k : α → SrvM β} {Q : α → Srv → Prop} {Q' : β → Srv → Prop}
    (h : Turn C e s s') (hx : Run x s' Q (SFails R N C e s'))
    (hk : ∀ a s'', Q a s'' → Run (k a) s'' Q' (SFails R N C e s)) : Run (x >>= k) s' Q' (SFails R N C e s) :=
  .step hx (fun _ _ he => he.of_turn h) hk

/-- The file system moves on, and the records keep their envs. -/
theorem Fit.of_fs (h : Fit R N a s) (hf : Sound R N a' f) (he : ∀ t, tEnvid f.mem t = tEnvid s.fs.mem t) :
    Fit R N a' { s with fs := f } :=
  ⟨hf, h.ip, fun e t ht => by rw [he]; exact h.trans e t ht, h.ids, h.fds⟩

theorem Turn.of_fs (ha : Acts C s.fs f) (hb : Books s.fs f) : Turn C e s { s with fs := f } := ⟨⟨rfl, rfl⟩, ha, hb⟩

theorem tEnvid_of_mem3 {g : FsSt} (h : f.mem 3 = g.mem 3) (t : ℕ) : tEnvid f.mem t = tEnvid g.mem t := by
  rw [tEnvid, h, tEnvid]

/-- A function of the file system, called by the server with no transaction
active. -/
theorem Fit.lift {α : Type} {x : FsM α} {P : α → FsSt → Prop} (h : Fit R N none s) (op : Op)
    (hop : op.Runs x) (hc : C op) (hfit : op.Fits s.fs.mem)
    (hx : Run x s.fs (fun r f => Sound R N none f ∧ f.mem 3 = s.fs.mem 3 ∧ P r f) (Failed R N none s.fs)) :
    Run (liftFs x) s (fun r s' => ∃ f, s' = { s with fs := f } ∧ Fit R N none s' ∧ Turn C e s s' ∧ P r f)
      (SFails R N C e s) := by
  have hcall : ∀ f, _ → Turn C e s { s with fs := f } := fun f hd =>
    .of_fs (Acts.refl.call h.fs.tidy hc hfit (hop s.fs f hd)) (h.fs.books_done hfit (hop s.fs f hd))
  refine (liftFs_run hx.with_eq).mono ?_ ?_
  · rintro r _ ⟨f, rfl, hrun, h1, h2, h3⟩
    exact ⟨f, rfl, h.of_fs h1 (tEnvid_of_mem3 h2), hcall f (.inl ⟨r, hrun⟩), h3⟩
  · rintro _ _ ⟨f, rfl, hrun, ⟨er, rfl⟩, h1, h2⟩
    exact ⟨h.of_fs h1 (tEnvid_of_mem3 h2), (hcall f (.inr ⟨er, hrun⟩)).finished⟩

theorem Fit.trOk (h : Fit R N a s) : TrOk R N s.fs.trace := by
  obtain ⟨L, own, jown, rfl, -, hi⟩ := h.fs
  exact hi.tr

/-! ### `start_transaction` -/

theorem Light.quiet {m m' : Disk} (h : Light m m') (t : ℕ) : Quiet m' t ↔ Quiet m t := by
  have h1 : tHandlei m' t = tHandlei m t := h.words t 16 (by omega) (by omega)
  have h2 : tNhandles m' t = tNhandles m t := h.words t 12 (by omega) (by omega)
  rw [Quiet, Quiet, h1, h2]

theorem Light.alone {m m' : Disk} (h : Light m m') (ha : Alone m t) : Alone m' t := fun t' ht' hne hs =>
  (h.quiet t').mpr (ha t' ht' hne hs)

/-- The handles read the same. -/
theorem Sound.handlesOf_light {g : FsSt} (h : Sound R N a g) (ht : t < 112) {m' : Disk} (hm : Light g.mem m') :
    handlesOf m' t = handlesOf g.mem t := by
  obtain ⟨L, own, jown, -, -, hi⟩ := h
  have hok := hi.ok t ht
  have hn : tNhandles m' t = tNhandles g.mem t := hm.words t 12 (by omega) (by omega)
  have hh : tHandlei m' t = tHandlei g.mem t := hm.words t 16 (by omega) (by omega)
  have hJ : ∀ b, jown b ≠ .none → b ≠ 3 := fun b hb => by
    have := hi.jrn.blk hb
    omega
  by_cases h0 : tHandlei g.mem t = 0
  · rw [handlesOf, handlesOf, hn, hok.zero h0]
    rfl
  · exact handlesOf_congr hh hn (hm.mem _ (hJ _ (hok.tab_ne h0)))
      fun k hk => hm.mem _ (hJ _ (hok.handle_ne hk))

/-- The transaction the env in slot `e` will use. -/
def slotOf (s : Srv) (e : ℕ) : ℕ := (s.envs e).trans.getD (nextTrans s.fs.mem)

/-- `start_transaction` took the slot: its id is stored, and nothing else. -/
structure Started (R : Rules) (C : Op → Prop) (N e : ℕ) (s s' : Srv) : Prop where
  fit : Fit R N none s'
  turn : Turn C e s s'
  tabs : s'.opentab = s.opentab ∧ s'.fds = s.fds
  trans : (s'.envs e).trans = some (slotOf s e)
  aside : Aside s.fs s'.fs
  light : Light s.fs.mem s'.fs.mem

theorem pastLast_spec (p : ℕ → Prop) [DecidablePred p] (n : ℕ) :
    let k := (List.range n).foldl (fun next i => if p i then i + 1 else next) 0
    k ≤ n ∧ (∀ i < n, k ≤ i → ¬ p i) ∧ (k ≠ 0 → p (k - 1)) := by
  induction n with
  | zero => simp
  | succ n ih =>
    simp only [List.range_succ, List.foldl_append, List.foldl_cons, List.foldl_nil] at ih ⊢
    obtain ⟨h1, h2, h3⟩ := ih
    split_ifs with hp
    · exact ⟨le_rfl, fun i hi hle => by omega, fun _ => hp⟩
    · refine ⟨by omega, fun i hi hle => ?_, h3⟩
      by_cases hin : i = n
      · rwa [hin]
      · exact h2 i (by omega) hle

/-- The slot `start_transaction` takes is free, and so are those after it. -/
theorem nextTrans_spec (m : Disk) : nextTrans m ≤ 112 ∧ (∀ i < 112, nextTrans m ≤ i → tEnvid m i ≤ 0) ∧
    (nextTrans m ≠ 0 → 0 < tEnvid m (nextTrans m - 1)) := by
  obtain ⟨h1, h2, h3⟩ := pastLast_spec (fun i => 0 < tEnvid m i) 112
  exact ⟨h1, fun i hi hle => not_lt.mp (h2 i hi hle), h3⟩

theorem Sound.aside_of_three {g g' : FsSt} (h : Sound R N a g) (hm : ∀ c, c ≠ 3 → g'.mem c = g.mem c)
    (hd : ∀ c, c ≠ 3 → g'.dirty c = g.dirty c) : Aside g g' := by
  obtain ⟨L, own, jown, -, -, hi⟩ := h
  intro b hb
  have h3 : b ≠ 3 := by
    rintro rfl
    exact (hi.inv.own_ofTree hb).elim (by omega) fun hu => hu (hi.inv.fixed 3 (.inl (.inl le_rfl))).1
  exact ⟨hm b h3, hd b h3⟩

/-- The id of the env goes into the record. -/
theorem Sound.store_envid {g : FsSt} (h : Sound R N none g) (ht : t < 112) (v : ℕ) {E : Fault → FsSt → Prop} :
    Run (store32 jblk (tOff t + 4) v) g (fun _ g' => Sound R N none g' ∧ Aside g g' ∧ Light g.mem g'.mem ∧ Books g g' ∧
      tEnvid g'.mem t = toInt32 (v % 2 ^ 32) ∧ ∀ t', t' ≠ t → tEnvid g'.mem t' = tEnvid g.mem t') E := by
  have hs := h
  obtain ⟨L, own, jown, hN, hD, hi⟩ := h
  refine (store_ok hi.inv.here_three _ _ _).post ?_
  intro _ g' hst
  have h3 : g'.mem 3 = (g.mem 3).put32 (tOff t + 4) v := by rw [hst.mem, update_self]; rfl
  have hm : ∀ c, c ≠ 3 → g'.mem c = g.mem c := fun c hc => by rw [hst.mem, update_of_ne hc]
  have hl : Light g.mem g'.mem := by
    refine ⟨hm, fun t' o h8 h28 => ?_⟩
    rw [h3, le32_put32_out]
    simp only [tOff]
    omega
  refine ⟨⟨L, own, jown, hN, hD, hi.of_stored_rec ht (o := 4) (by omega) hst⟩,
    hs.aside_of_three hm fun c hc => by rw [hst.dirty, update_of_ne hc], hl,
    hi.books_of_writes hl (evs_of_eq hst.trace), ?_, fun t' hne => ?_⟩
  · rw [tEnvid, h3, le32_put32]
  · rw [tEnvid, h3, le32_put32_out, tEnvid]
    simp only [tOff]
    omega

/-- The slot `t` is taken for the env in slot `e`, whose id is in its record. -/
theorem Fit.of_taken (h : Fit R N none s) (hl : (s.envs e).live = true) (ht : t = nextTrans s.fs.mem) (hlt : t < 112)
    (hf : Sound R N none f) (hid : tEnvid f.mem t = (s.envs e).id)
    (hother : ∀ t', t' ≠ t → tEnvid f.mem t' = tEnvid s.fs.mem t') :
    Fit R N none { s.setEnv e { s.envs e with trans := some t } with fs := f } := by
  have hfree : tEnvid s.fs.mem t ≤ 0 := (nextTrans_spec s.fs.mem).2.1 t hlt ht.ge
  have hself := s.setEnv_envs e { s.envs e with trans := some t }
  have hne : ∀ e', e' ≠ e → (s.setEnv e { s.envs e with trans := some t }).envs e' = s.envs e' := fun e' he =>
    s.setEnv_envs_ne _ he
  refine ⟨hf, h.ip, fun e' t' ht' => ?_, fun e' he' => ?_, h.fds⟩
  · by_cases he : e' = e
    · subst he
      rw [hself] at ht' ⊢
      obtain rfl : t = t' := Option.some.inj ht'
      exact ⟨hlt, hid⟩
    · rw [hne e' he] at ht' ⊢
      obtain ⟨h1, h2⟩ := h.trans e' t' ht'
      have hpos := (h.ids e' (.inr (by rw [ht']; simp))).2.1
      rw [hother t' (by rintro rfl; omega)]
      exact ⟨h1, h2⟩
  · by_cases he : e' = e
    · subst he
      rw [hself]
      exact h.ids e' (.inl hl)
    · rw [hne e' he] at he' ⊢
      exact h.ids e' he'

/-- `start_transaction`. -/
theorem startTransaction_fit {envid : ℕ} (h : Fit R N none s) (hl : s.Alive envid) :
    Run (startTransaction envid) s (fun _ s' => Started R C N (envx envid) s s')
      (SFails R N C (envx envid) s) := by
  unfold startTransaction
  refine .getBind ?_
  by_cases htr : (s.envs (envx envid)).trans = none
  · rw [if_neg (by simp [h.ip, htr])]
    by_cases hfull : MAX_NTRANS ≤ nextTrans s.fs.mem
    · rw [if_pos hfull]
      exact .throw ⟨h.trOk, by simp⟩
    · rw [if_neg hfull]
      have hlt : nextTrans s.fs.mem < 112 := not_le.mp hfull
      refine .modifyBind ?_
      rw [if_pos ⟨hl.1, hl.2⟩]
      refine .getBind ?_
      rw [Srv.setEnv_envs]
      dsimp only
      have hpos := h.ids _ (.inl hl.1)
      rw [hl.2] at hpos
      refine .step (liftFs_run (s := s.setEnv (envx envid) _)
        (h.fs.store_envid (E := fun _ _ => False) hlt envid)) (fun _ _ ⟨_, _, h⟩ => h.elim) ?_
      rintro _ s' ⟨g, rfl, hf, has, hlt', hb, henv, hother⟩
      rw [Nat.mod_eq_of_lt (by omega), toInt32_of_lt hpos.2.2, ← hl.2] at henv
      have hfit := h.of_taken hl.1 rfl hlt hf henv hother
      refine .getBind ?_
      split_ifs
      · refine .pure ⟨hfit, ⟨?_, .of_aside has, hb⟩, ⟨rfl, rfl⟩, ?_, has, hlt'⟩
        · rw [Srv.setEnv_envs]
          exact ⟨rfl, rfl⟩
        · rw [slotOf, htr, Srv.setEnv_envs, Option.getD_none]
      · exact .throw ⟨hfit.trOk, by simp⟩
  · obtain ⟨t, ht⟩ := Option.ne_none_iff_exists'.mp htr
    rw [if_pos (by simp [ht])]
    exact .pure ⟨h, .refl _ s, ⟨rfl, rfl⟩, by rw [ht, slotOf, ht]; rfl, .refl _, .refl _⟩

/-! ### The other functions on a transaction -/

variable {g g' : FsSt} {fa : Fault}

/-- `add_handle_to_transaction` on the transaction `t`. -/
theorem Sound.addHandle (h : Sound R N none g) (ht : t < 112) (hb : Block) :
    Run (addHandle t hb) g (fun _ g' => Sound R N none g' ∧ Aside g g' ∧
      (∀ t', tEnvid g'.mem t' = tEnvid g.mem t') ∧ ∀ t', t' ≠ t → (Quiet g'.mem t' ↔ Quiet g.mem t'))
      (Stops R N) := by
  obtain ⟨L, own, jown, rfl, hD, hi⟩ := h
  refine (addHandle_run hb (hi.tinv ht)).mono ?_ ?_
  · rintro _ g' ⟨hA, -⟩
    obtain ⟨L', jown', hnb, hD', hi'⟩ := hi.of_added ht hA
    have hrec : ∀ t', t' ≠ t → ∀ i < 32, g'.mem 3 (tOff t' + i) = g.mem 3 (tOff t' + i) := fun t' hne i hi =>
      hA.logged.three _ (tOff_disjoint hne hi)
    refine ⟨⟨L', own, jown', hnb, hD' ▸ hD, hi'⟩, hA.logged.aside hi.inv, fun t' => ?_, fun t' hne =>
      quiet_congr (hrec t' hne)⟩
    by_cases hne : t' = t
    · rw [hne, tEnvid, tEnvid, le32_congr fun i hi => ?_]
      rw [Nat.add_assoc]
      exact hA.head (4 + i) (by omega)
    · exact tEnvid_congr (hrec t' hne)
  · rintro e g' ⟨⟨he, hl⟩, -⟩
    have htr := (hi.history_of_logged hl).2.2
    rcases he with rfl | ⟨er, rfl⟩
    · exact ⟨_, rfl, htr, by simp⟩
    · exact ⟨_, rfl, htr, by simp⟩

/-- Transaction `t` is active, or has nothing to commit. -/
def Committing (t : ℕ) (a : Option ℕ) (m : Disk) : Prop := a = some t ∨ (a = none ∧ Quiet m t)

/-- `commit_transaction` on the transaction `t`. -/
theorem Sound.commit (h : Sound R N none g) (ht : t < 112) (hZ : R.Z → Alone g.mem t) :
    Run (commit t) g (fun _ g' => (∃ a, Committing t a g'.mem ∧ Sound R N a g') ∧ Aside g g' ∧
      (∀ t', tEnvid g'.mem t' = tEnvid g.mem t') ∧ Light g.mem g'.mem ∧ Books g g') (Stops R N) := by
  obtain ⟨L, own, jown, rfl, hD, hi⟩ := h
  have hl := hi.of_commit_log t (handlesOf g.mem t)
  refine (commit_run (hi.tinv ht) rfl ?_).post ?_
  · exact fun _ _ => ⟨_, rfl, hl.tr, by simp⟩
  · rintro _ g' (⟨h0, h1, rfl⟩ | ⟨hpos, hc⟩)
    · exact ⟨⟨none, .inr ⟨rfl, h1, h0⟩, L, own, jown, rfl, hD, hl⟩, fun _ _ => ⟨rfl, rfl⟩, fun _ => rfl, .refl _,
        hi.books_of_writes (.refl _) ⟨[_], rfl, fun e he => .inr ⟨t, _, List.mem_singleton.mp he⟩⟩⟩
    · obtain ⟨-, -, -, hm, hrec⟩ := hc.words
      have h3 : g'.mem 3 = (g.mem 3).put32 (tOff t) 1 := by
        rw [hc.mem, update_self]
        rfl
      have hlight : Light g.mem g'.mem := by
        refine ⟨hm, fun t' o h8 h28 => ?_⟩
        rw [h3, le32_put32_out]
        simp only [tOff]
        omega
      refine ⟨⟨some t, .inl rfl, L, own, jown, rfl, hD, hi.of_committed ht hpos hZ hc⟩, hc.aside hi.inv hi.jrn,
        fun t' => ?_, hlight, hi.books_of_writes hlight hc.writes⟩
      by_cases hne : t' = t
      · rw [hne, tEnvid, tEnvid, h3, le32_put32_out (by omega)]
      · exact tEnvid_congr (hrec t' hne)

/-- `end_transaction` on the transaction `t`. -/
theorem Sound.clear {E : Fault → FsSt → Prop} (h : Sound R N a g) (ht : t < 112) (ha : Committing t a g.mem)
    (hE : R.E t g.mem g.dirty) (hZ : R.Z → Alone g.mem t) :
    Run (clearTransaction t) (g.log (.ending t g.mem g.dirty)) (fun _ g' => Sound R N none g' ∧ Aside g g' ∧
      tEnvid g'.mem t = 0 ∧ ∀ t', t' ≠ t → tEnvid g'.mem t' = tEnvid g.mem t') E := by
  obtain ⟨L, own, jown, rfl, hD, hi⟩ := h
  have hl := hi.of_ending hE
  refine (clearTransaction_run hl.rooted (hl.clearable ht)).post ?_
  intro _ g' hc
  obtain ⟨L', hnb, hD', hi'⟩ := hl.of_cleared ht ha hZ (List.mem_cons_self ..) hc
  refine ⟨⟨L', own, _, hnb, hD' ▸ hD, hi'⟩, hc.aside hl ht, ?_, fun t' hne => tEnvid_congr (hc.words.2.2 t' hne)⟩
  rw [tEnvid, hc.mem3, le32_put32_out (by omega), le32_put32_out (by omega), halfCleared, le32_put32]
  rfl

theorem Stops.fails (h : Stops R N fa g) : SFails R N C e s fa { s with fs := g } := by
  obtain ⟨p, rfl, htr, hp⟩ := h
  exact ⟨htr, hp.1⟩

/-- `add_handle_to_transaction`. -/
theorem addHandleToTransaction_fit {envid : ℕ} (h : Fit R N none s) (hb : Block) :
    Run (addHandleToTransaction envid hb) s (fun _ s' => ∃ g, s' = { s with fs := g } ∧ Fit R N none s' ∧
      Turn C e s s' ∧ Aside s.fs g ∧
      ∀ t', (s.envs (envx envid)).trans ≠ some t' → (Quiet g.mem t' ↔ Quiet s.fs.mem t')) (SFails R N C e s) := by
  unfold addHandleToTransaction
  refine .getBind ?_
  rw [if_neg (by simp [h.ip])]
  cases ht : (s.envs (envx envid)).trans with
  | none => exact .throw ⟨h.trOk, by simp⟩
  | some t =>
    have hlt := (h.trans _ t ht).1
    refine (liftFs_run ((h.fs.addHandle hlt hb).and (h.fs.books_addHandle hlt hb))).mono ?_ ?_
    · rintro _ _ ⟨g, rfl, ⟨h1, h2, h3, h4⟩, h5⟩
      exact ⟨g, rfl, h.of_fs h1 h3, .of_fs (.of_aside h2) h5, h2, fun t' hne => h4 t' fun he => hne (by rw [he])⟩
    · rintro fa _ ⟨g, rfl, hs, -⟩
      exact hs.fails

/-- `commit_transaction`. -/
theorem commitTransaction_fit {envid : ℕ} (h : Fit R N none s) (ht : (s.envs (envx envid)).trans = some t)
    (hZ : R.Z → Alone s.fs.mem t) :
    Run (commitTransaction envid false) s (fun _ s' => ∃ g, s' = { s with fs := g } ∧
      (∃ a, Committing t a g.mem ∧ Fit R N a s') ∧ Turn C e s s' ∧ Aside s.fs g ∧ Light s.fs.mem g.mem)
      (SFails R N C e s) := by
  unfold commitTransaction
  refine .getBind ?_
  rw [if_neg (by simp [h.ip])]
  dsimp only
  rw [Bool.and_false, if_neg (by simp)]
  refine .getBind ?_
  rw [ht]
  refine (liftFs_run (h.fs.commit (h.trans _ t ht).1 hZ)).mono ?_ ?_
  · rintro _ _ ⟨g, rfl, ⟨a, ha, h1⟩, h2, h3, h4, h5⟩
    exact ⟨g, rfl, ⟨a, ha, h.of_fs h1 h3⟩, .of_fs (.of_aside h2) h5, h2, h4⟩
  · rintro fa _ ⟨g, rfl, hs⟩
    exact hs.fails

/-- The slot `t` of the env in slot `e` is given back. -/
theorem Fit.of_released (h : Fit R N a s) (ht : (s.envs e).trans = some t) (hf : Sound R N none f)
    (hother : ∀ t', t' ≠ t → tEnvid f.mem t' = tEnvid s.fs.mem t') :
    Fit R N none ({ s with fs := f }.setEnv e { s.envs e with trans := none }) := by
  have hself := Srv.setEnv_envs { s with fs := f } e { s.envs e with trans := none }
  have hne : ∀ e', e' ≠ e → ({ s with fs := f }.setEnv e { s.envs e with trans := none }).envs e' = s.envs e' :=
    fun e' he => Srv.setEnv_envs_ne _ _ he
  refine ⟨hf, h.ip, fun e' t' ht' => ?_, fun e' he' => ?_, h.fds⟩
  · by_cases he : e' = e
    · subst he
      rw [hself] at ht'
      cases ht'
    · rw [hne e' he] at ht' ⊢
      obtain ⟨h1, h2⟩ := h.trans e' t' ht'
      refine ⟨h1, (hother t' ?_).trans h2⟩
      -- two envs with one slot would have one id
      rintro rfl
      have h3 := (h.trans e t' ht).2
      have h4 := (h.ids e (.inr (by rw [ht]; simp))).1
      have h5 := (h.ids e' (.inr (by rw [ht']; simp))).1
      omega
  · by_cases he : e' = e
    · subst he
      rw [hself]
      exact h.ids e' (.inr (by rw [ht]; simp))
    · rw [hne e' he] at he' ⊢
      exact h.ids e' he'

/-- `end_transaction`. -/
theorem endTransaction_fit {envid : ℕ} (h : Fit R N a s) (hl : s.Alive envid) (ht : (s.envs (envx envid)).trans = some t)
    (ha : Committing t a s.fs.mem) (hE : R.E t s.fs.mem s.fs.dirty) (hZ : R.Z → Alone s.fs.mem t)
    {E : Fault → Srv → Prop} :
    Run (endTransaction envid) s (fun _ s' => Fit R N none s' ∧ Finished R N C (envx envid) s s' ∧
      (s'.envs (envx envid)).trans = none ∧ s'.opentab = s.opentab ∧ s'.fds = s.fds) E := by
  unfold endTransaction
  refine .getBind ?_
  rw [if_neg (by simp [h.ip]), ht]
  dsimp only
  refine .step (liftFs_run (Q := fun _ g => g = s.fs.log (.ending t s.fs.mem s.fs.dirty)) (E := fun _ _ => False)
    (.modify rfl)) (fun _ _ ⟨_, _, h⟩ => h.elim) ?_
  rintro _ _ ⟨_, rfl, rfl⟩
  have hlt := (h.trans _ t ht).1
  refine .step (liftFs_run ((h.fs.clear (E := fun _ _ => False) hlt ha hE hZ).and
    (h.fs.closed_clear (E := fun _ _ => True) hlt hE))) (fun _ _ ⟨_, _, h, _⟩ => h.elim) ?_
  rintro _ _ ⟨g, rfl, ⟨hs, has, -, hother⟩, hc⟩
  refine .modify ?_
  dsimp only
  rw [if_pos ⟨hl.1, hl.2⟩]
  refine ⟨h.of_released ht hs hother, ⟨?_, .of_aside has, .inr ⟨t, _, Books.refl _, ⟨a, h.fs⟩, hc⟩⟩,
    congrArg Env.trans (Srv.setEnv_envs ..), rfl, rfl⟩
  rw [Srv.setEnv_envs]
  exact ⟨rfl, rfl⟩

end

end Fs
end Jos
