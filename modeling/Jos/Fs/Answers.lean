/-
# Requests the server answers

A request that fits does not stop the server, if what it needs of the journal
is there: a slot for the transaction of the client (`SlotReady`) and room in it
for the handles the request logs (`Room`). `Req.Safe` says so for each request;
most of it is a demand on clients, since the server checks none of it. Then
`serve_open`, `serve_set_size` and `serve_write` log their handles and make their
calls (`Req.Done`).

Key definitions: `Room`, `Usable`, `Req.Safe`, `Req.handles`, `Req.Executed`, `Opens`.
Key theorems: `addHandleToTransaction_logs`, `openPath_logs`, `handle_sure`.
-/
import Jos.Fs.Merging
import Jos.Fs.Solid

namespace Jos
namespace Fs

open Block

/-- Env `envid` has a transaction, or the slot it would get is there and clear. -/
def SlotReady (s : Srv) (envid : ℕ) : Prop :=
  (s.envs (envx envid)).trans ≠ none ∨ (nextTrans s.fs.mem < MAX_NTRANS ∧ Quiet s.fs.mem (nextTrans s.fs.mem))

/-- Transaction `t` can have `k` more handles. -/
def Room (k t : ℕ) (s : FsSt) : Prop := tNhandles s.mem t + k ≤ MAX_NHANDLES_INTRANS ∧ Free (k + 1) s

/-- The entry of `id` has a file and its page, and the transaction of the client
can be had if the file is open for writing. -/
structure Usable (s : Srv) (envid id : ℕ) : Prop where
  file : ∃ f, (s.opentab (id % MAXOPEN)).file = some f
  mapped : (s.fds (id % MAXOPEN)).mapped = true
  slot : writeMode (s.opentab (id % MAXOPEN)).mode = true → SlotReady s envid

/-- A handle can be logged for a request on `id`. -/
def Logging (s : Srv) (envid id : ℕ) : Prop :=
  (writeMode (s.opentab (id % MAXOPEN)).mode = true ∨ (s.envs (envx envid)).trans ≠ none) ∧
    Room 1 (slotOf s (envx envid)) s.fs

/-- The request of env `envid` does not stop the server. -/
def Req.Safe (s : Srv) (envid : ℕ) : Req → Prop
  | .open path omode =>
    (hasFlag omode O_CREAT = true ∨ hasFlag omode (O_WRONLY ||| O_RDWR ||| O_TRUNC) = true → SlotReady s envid) ∧
    (hasFlag omode O_CREAT = true ∨ hasFlag omode O_TRUNC = true → Room 2 (slotOf s (envx envid)) s.fs) ∧
    (hasFlag omode O_TRUNC = true → Solid s.fs.mem ∧ (hasFlag omode O_CREAT = true →
      ∃ dir f, PathTo s.fs.mem (pathStr (copyPath path)) (.ok (.found dir f))))
  | .setSize id _ => Refused s id ∨ (Usable s envid id ∧ Logging s envid id)
  | .read id _ => Refused s id ∨ Usable s envid id
  | .write id n buf => Refused s id ∨ (Usable s envid id ∧ Logging s envid id ∧ n ≤ HANDLE_DATASIZE ∧
      ¬ Disordered (slotOf s (envx envid))
        (writeHandle (s.opentab (id % MAXOPEN)).fpath (s.fds (id % MAXOPEN)).offset n buf) s.fs.mem)
  | .stat id => Refused s id ∨ Usable s envid id
  | .flush id => Refused s id ∨ (Usable s envid id ∧ (s.fds (id % MAXOPEN)).clients ≠ [] ∧
      (tNhandles s.fs.mem (slotOf s (envx envid)) = 0 → tHandlei s.fs.mem (slotOf s (envx envid)) = 0))
  | .remove _ => SlotReady s envid ∧ Room 1 (slotOf s (envx envid)) s.fs
  | .sync => True

/-- The handles `hs` were logged one after the other. -/
inductive KeptAll : List Block → List Block → List Block → Prop
  | nil (l : List Block) : KeptAll [] l l
  | cons {h : Block} {hs l l1 l2 : List Block} (h1 : KeptIn h l l1) (h2 : KeptAll hs l1 l2) : KeptAll (h :: hs) l l2

/-- The type of the file `serve_open` creates. -/
def fileType (omode : ℕ) : ℕ := if hasFlag omode O_MKDIR then FTYPE_DIR else FTYPE_REG

/-- The handles a request logs. -/
def Req.handles (s : Srv) : Req → List Block
  | .open path omode => (if hasFlag omode O_CREAT then [creatHandle (copyPath path) (fileType omode)] else []) ++
      if hasFlag omode O_TRUNC then [truncHandle (copyPath path) 0] else []
  | .setSize id size => [truncHandle (s.opentab (id % MAXOPEN)).fpath size]
  | .write id n buf => [writeHandle (s.opentab (id % MAXOPEN)).fpath (s.fds (id % MAXOPEN)).offset n buf]
  | _ => []

/-- `serve_open` found the file `f` from `g` on, by `file_create` or `file_open`. -/
def Obtains (path : List UInt8) (omode : ℕ) (f : Ptr) (g g' : FsSt) : Prop :=
  if hasFlag omode O_CREAT then
    fileCreate path (fileType omode) g = .ok f g' ∨
      ∃ g0, fileCreate path (fileType omode) g = .error (.err .fileExists) g0 ∧ fileOpen path g0 = .ok f g'
  else fileOpen path g = .ok f g'

/-- The calls of a request that changes files were made and returned; before
each one, nothing but the journal was changed. -/
def Req.Executed (s s' : Srv) (rep : Reply) : Req → Prop
  | .open path omode => ∃ i f g g1, rep.page = some i ∧ (s'.opentab i).file = some f ∧ Aside s.fs g ∧
      Obtains (pathStr (copyPath path)) omode f g g1 ∧
      if hasFlag omode O_TRUNC then ∃ g2, Aside g1 g2 ∧ fileSetSize f 0 g2 = .ok () s'.fs else s'.fs = g1
  | .setSize id size => ∃ f g, (s.opentab (id % MAXOPEN)).file = some f ∧ Aside s.fs g ∧
      fileSetSize f size g = .ok () s'.fs
  | .write id n buf => ∃ f g r, (s.opentab (id % MAXOPEN)).file = some f ∧ Aside s.fs g ∧
      fileWrite f buf n (s.fds (id % MAXOPEN)).offset g = .ok r s'.fs ∧ rep.value = r
  | _ => True

/-- The request was logged in the transaction of its client, and executed. -/
def Req.Done (s : Srv) (envid : ℕ) (r : Req) (rep : Reply) (s' : Srv) : Prop :=
  (r.handles s ≠ [] → KeptAll (r.handles s) (handlesOf s.fs.mem (slotOf s (envx envid)))
    (handlesOf s'.fs.mem (slotOf s (envx envid)))) ∧ r.Executed s s' rep

theorem KeptAll.append {hs hs' l l' l'' : List Block} (h : KeptAll hs l l') (h' : KeptAll hs' l' l'') :
    KeptAll (hs ++ hs') l l'' := by
  induction h with
  | nil l => exact h'
  | cons h1 _ ih => exact .cons h1 (ih h')

section
variable {R : Rules} {C : Op → Prop} {N : ℕ} {s s1 : Srv} {envid id n t k : ℕ} {g g' : FsSt} {f : Ptr} {hb : Block}
  {α : Type}

/-! ### What a client can have -/

/-- `start_transaction` returns if the slot it takes is there and was cleared. -/
theorem startTransaction_returns (h : Fit R N none s) (hl : s.Alive envid) (hslot : SlotReady s envid) :
    Run (startTransaction envid) s (fun _ _ => True) (fun _ _ => False) := by
  unfold startTransaction
  refine .getBind ?_
  cases ht : (s.envs (envx envid)).trans with
  | some t =>
    rw [if_pos (by simp)]
    exact .pure trivial
  | none =>
    obtain ⟨hlt, hq⟩ := hslot.resolve_left fun hc => hc ht
    rw [if_neg (by simp [h.ip]), if_neg (not_le.mpr hlt)]
    refine .modifyBind ?_
    rw [if_pos ⟨hl.1, hl.2⟩]
    refine .getBind ?_
    rw [Srv.setEnv_envs]
    dsimp only
    refine .step (liftFs_run (s := s.setEnv (envx envid) _)
      (h.fs.store_envid (E := fun _ _ => False) hlt envid)) (fun _ _ ⟨_, _, h⟩ => h.elim) ?_
    rintro _ _ ⟨g, rfl, -, -, hlight, -⟩
    refine .getBind ?_
    have hq' := (hlight.quiet (nextTrans s.fs.mem)).mpr hq
    rw [if_pos ⟨hq'.2, hq'.1⟩]
    exact .pure trivial

theorem openfileLookup_returns (h : Fit R N none s) (hl : s.Alive envid) (hv : ¬ Refused s id)
    (hslot : writeMode (s.opentab (id % MAXOPEN)).mode = true → SlotReady s envid) :
    Run (openfileLookup envid id) s (fun i s' => i = id % MAXOPEN ∧ Looked R C N envid id s i s')
      (fun _ _ => False) := by
  have hret : Run (openfileLookup envid id) s (fun _ _ => True) (fun _ _ => False) := by
    unfold Refused at hv
    refine .getBind ?_
    dsimp only
    rw [if_neg hv]
    split_ifs with hw
    · exact .bind (startTransaction_returns h hl (hslot hw)) fun _ _ _ => .pure trivial
    · exact .pure trivial
  exact (((openfileLookup_answer hv).and (openfileLookup_fit h hl id)).and hret).mono
    (fun _ _ hx => ⟨hx.1.1, hx.1.2⟩) fun _ _ hx => hx.2

/-- A change of the journal superblock leaves the free blocks. -/
theorem Free.light {k : ℕ} {g' : FsSt} (h : Free k g) (hs : Sound R N none g) (hm : Light g.mem g'.mem) : Free k g' := by
  obtain ⟨L, own, jown, -, -, hi⟩ := hs
  obtain ⟨B, hcard, hB⟩ := h
  have hnb : g'.nblocks = g.nblocks := by rw [FsSt.nblocks, hm.mem 1 (by omega), FsSt.nblocks]
  refine ⟨B, hcard, fun b hb => ?_⟩
  obtain ⟨h0, hlt, hf⟩ := hB b hb
  refine ⟨h0, by rwa [hnb], ?_⟩
  rw [hi.inv.nblocks_eq] at hlt
  rwa [bitSet_congr (by rw [bitBlk_small hi.jrn hlt, hm.mem 2 (by omega)])]

/-- A change that keeps the journal's blocks keeps the handles. -/
theorem FsInv.handlesOf_keeps {L : Layout} {own : ℕ → Use} {jown : ℕ → JUse} {a : Option ℕ} {g' : FsSt}
    (h : FsInv R L own jown a g) (ht : t < 112) (hk : Keeps L.J g g') : handlesOf g'.mem t = handlesOf g.mem t := by
  have hJ : ∀ b, jown b ≠ .none → g'.mem b = g.mem b := fun b hb => hk.mem b ((h.jrn.journal b).mpr (.inr hb))
  have h3 : g'.mem 3 = g.mem 3 := hk.mem 3 h.j3
  have hi : tHandlei g'.mem t = tHandlei g.mem t := by rw [tHandlei, h3, tHandlei]
  have hn : tNhandles g'.mem t = tNhandles g.mem t := by rw [tNhandles, h3, tNhandles]
  by_cases h0 : tHandlei g.mem t = 0
  · rw [handlesOf, handlesOf, hn, (h.ok t ht).zero h0]
    rfl
  · exact handlesOf_congr hi hn (hJ _ ((h.ok t ht).tab_ne h0))
      fun k hk => hJ _ ((h.ok t ht).handle_ne hk)

/-! ### Logging -/

theorem Sure.lift {x : FsM α} (h : Sure x s.fs) : Sure (liftFs x) s :=
  (liftFs_run h).mono (fun _ _ _ => trivial) fun _ _ ⟨_, _, he⟩ => he

theorem Room.light (h : Room k t g) (hs : Sound R N none g) (hm : Light g.mem g'.mem) : Room k t g' :=
  ⟨by rw [show tNhandles g'.mem t = tNhandles g.mem t from hm.words t 12 (by omega) (by omega)]; exact h.1,
    h.2.light hs hm⟩

theorem Free.mono {k k' : ℕ} (h : Free k g) (hk : k' ≤ k) : Free k' g := by
  obtain ⟨B, hcard, hB⟩ := h
  exact ⟨B, hk.trans hcard, hB⟩

theorem Room.mono {k k' : ℕ} (h : Room k t g) (hk : k' ≤ k) : Room k' t g :=
  ⟨le_trans (by omega) h.1, h.2.mono (by omega)⟩

theorem Room.not_overfull (h : Room 1 t g) : ¬ Overfull t g := h.2.room h.1

/-- There is at most one handle more, and there is one. -/
theorem Logs.count {m m' : Disk} (h : Logs t hb m m') : tNhandles m' t ≤ tNhandles m t + 1 ∧ 0 < tNhandles m' t := by
  cases h with
  | append b hg hs hno =>
    have := congrArg List.length hs
    simp only [handlesOf_eq, List.length_map, List.length_range, List.length_append, List.length_singleton] at this
    omega
  | merged j hop hj hlast hle hfit hs =>
    have := congrArg List.length hs
    simp only [handlesOf_eq, List.length_map, List.length_range, List.length_set] at this
    omega
  | dropped hop hpos hlast hs =>
    have := (reads_of_handlesOf hs).1
    omega

/-- `add_handle_to_transaction` on a transaction with room. -/
theorem addHandleToTransaction_logs (h : Fit R N none s) (ht : (s.envs (envx envid)).trans = some t)
    (ho : ¬ Overfull t s.fs) (hd : hOper hb = JBD_WRITE → ¬ Disordered t hb s.fs.mem) {E : Fault → Srv → Prop} :
    Run (addHandleToTransaction envid hb) s (fun _ s' => ∃ g, s' = { s with fs := g } ∧ Fit R N none s' ∧
      Aside s.fs g ∧ Logs t hb s.fs.mem g.mem ∧ TakesTwo N s.fs g ∧ g.nblocks = s.fs.nblocks ∧
      tHandlei g.mem t ≠ 0) E := by
  obtain ⟨L, own, jown, hN, -, hi⟩ := h.fs
  have hrun := addHandle_run hb (hi.tinv (h.trans _ t ht).1)
  have hret : Run (addHandleToTransaction envid hb) s (fun _ _ => True) (fun _ _ => False) := by
    refine .getBind ?_
    rw [if_neg (by simp [h.ip]), ht]
    refine (liftFs_run hrun).mono (fun _ _ _ => trivial) ?_
    rintro _ _ ⟨_, _, -, ⟨hw, hx⟩ | hx⟩
    · exact hd hw hx
    · exact ho hx
  refine ((addHandleToTransaction_reach h hb).and hret).mono ?_ fun _ _ he => he.2.elim
  rintro _ _ ⟨⟨t', g, rfl, hf, ha, ht', hadd⟩, -⟩
  obtain rfl : t = t' := Option.mem_unique ht ht'
  obtain ⟨hA, hl⟩ := hrun.of_ok hadd
  obtain ⟨L', jown', hx, hT, -⟩ := hA.inv
  exact ⟨g, rfl, hf, ha, hl, hN ▸ hA.bits, by rw [hT.inv.nblocks_eq, hx.nb, hi.inv.nblocks_eq],
    hT.ok.handlei_ne (k := 0) hl.count.2⟩

theorem hOper_mkHandle (op : ℕ) (path : ℕ → UInt8) (v : ℕ) :
    hOper (mkHandle op path) = op % 2 ^ 32 ∧ hOper ((mkHandle op path).put32 HANDLE_HDRSIZE v) = op % 2 ^ 32 := by
  have h : hOper (mkHandle op path) = op % 2 ^ 32 := by
    rw [hOper, mkHandle, le32_write_out (by omega), le32_put32]
  refine ⟨h, ?_⟩
  rw [hOper, le32_put32_out (by simp only [HANDLE_HDRSIZE, MAXPATHLEN]; omega)]
  exact h

theorem not_disordered_of_handles (h : ¬ Disordered t hb g.mem) (he : handlesOf g'.mem t = handlesOf g.mem t) :
    ¬ Disordered t hb g'.mem := by
  obtain ⟨hn, hr⟩ := reads_of_handlesOf he
  rintro ⟨j, hj, hlt⟩
  rw [hn, lastWrite_congr hr] at hj
  rw [hr j (lastWrite_some hj).1] at hlt
  exact h ⟨j, hj, hlt⟩

/-- The calls on files leave the handles as they are. -/
theorem Sound.handlesOf_op {a : Option ℕ} (h : Sound R N a g) (ht : t < 112) (op : Op) (hf : op.Fits g.mem) :
    Run op.call g (fun _ g' => handlesOf g'.mem t = handlesOf g.mem t)
      (fun e g' => ∀ er, e = .err er → handlesOf g'.mem t = handlesOf g.mem t) := by
  obtain ⟨L, own, jown, -, -, hi⟩ := h
  refine (moved_of_op hi.inv hf.1 hf.2.1 fun _ => hf.2.2).mono ?_ ?_
  · rintro _ g' ⟨own', hm⟩
    exact hi.handlesOf_keeps ht hm.keeps
  · rintro _ g' (⟨p, rfl, -⟩ | ⟨er, own', rfl, hm⟩) er' he
    · cases he
    · exact hi.handlesOf_keeps ht hm.keeps

theorem not_lost_of_handles (h : ¬ Lost t hb g.mem) (he : handlesOf g'.mem t = handlesOf g.mem t) :
    ¬ Lost t hb g'.mem := by
  obtain ⟨hn, hr⟩ := reads_of_handlesOf he
  rintro ⟨hw, hpos, hlast⟩
  rw [hn] at hpos hlast
  rw [lastWrite_congr hr] at hlast
  refine h ⟨hw, hpos, hlast.imp_right ?_⟩
  rintro ⟨j, hj, hfit, h0⟩
  rw [hr j (lastWrite_some hj).1] at hfit
  exact ⟨j, hj, hfit, h0⟩

theorem Logs.kept_of_oper {m m' : Disk} (h : Logs t hb m m') (hop : hOper hb ≠ JBD_WRITE) :
    KeptIn hb (handlesOf m t) (handlesOf m' t) := ((kept_iff h).mpr fun hl => hop hl.1).1

theorem hOper_truncHandle (path : ℕ → UInt8) (off : ℤ) : hOper (truncHandle path off) ≠ JBD_WRITE := by
  rw [truncHandle, (hOper_mkHandle _ _ _).2]
  decide

theorem hOper_creatHandle (path : ℕ → UInt8) (type : ℕ) : hOper (creatHandle path type) ≠ JBD_WRITE := by
  rw [creatHandle, (hOper_mkHandle _ _ _).2]
  decide

/-- `file_set_size` in the server. -/
theorem Fit.setSize_lift {size : ℤ} (h : Fit R N none s) (ht : t < 112) (hf : (Op.setSize f size).Fits s.fs.mem) :
    Run (liftFs (fileSetSize f size)) s (fun _ s' => ∃ g, s' = { s with fs := g } ∧ fileSetSize f size s.fs = .ok () g ∧
      handlesOf g.mem t = handlesOf s.fs.mem t) (fun e _ => ∃ er, e = .err er) := by
  have hsame := h.fs.handlesOf_op ht _ hf
  obtain ⟨L, own, jown, -, -, hi⟩ := h.fs
  obtain ⟨⟨hin, h0, hlt⟩, -⟩ := hf
  have hsure := fileSetSize_sure hi.inv hin h0 hlt
  refine (liftFs_run (hsame.and hsure).with_eq).mono ?_ fun _ _ ⟨_, _, _, _, he⟩ => he
  rintro _ _ ⟨g, rfl, hrun, hh, -⟩
  exact ⟨g, rfl, hrun, hh⟩

/-- `file_write` in the server. -/
theorem Fit.write_lift {buf : ℕ → UInt8} {off : ℤ} (h : Fit R N none s) (ht : t < 112)
    (hf : (Op.write f buf n off).Fits s.fs.mem) :
    Run (liftFs (fileWrite f buf n off)) s (fun r s' => ∃ g, s' = { s with fs := g } ∧
      fileWrite f buf n off s.fs = .ok r g ∧ handlesOf g.mem t = handlesOf s.fs.mem t) (fun e _ => ∃ er, e = .err er) := by
  have hsame := (h.fs.handlesOf_op ht _ hf).of_discard
  obtain ⟨L, own, jown, -, -, hi⟩ := h.fs
  obtain ⟨⟨hin, h0, hlt⟩, hreg, -⟩ := hf
  obtain ⟨off, rfl⟩ := Int.eq_ofNat_of_zero_le h0
  have hsure := fileWrite_sure hi.inv hin hreg buf (show off + n < 2 ^ 31 by omega)
  refine (liftFs_run (hsame.and hsure).with_eq).mono ?_ fun _ _ ⟨_, _, _, _, he⟩ => he
  rintro r _ ⟨g, rfl, hrun, hh, -⟩
  exact ⟨g, rfl, hrun, hh⟩

theorem Free.le (h : Free k g) : k ≤ freeBlocks g.mem := by
  obtain ⟨B, hcard, hB⟩ := h
  refine hcard.trans (Finset.card_le_card fun b hb => ?_)
  obtain ⟨h0, hlt, hf⟩ := hB b hb
  exact Finset.mem_filter.mpr ⟨Finset.mem_range.mpr hlt, h0, hf⟩

theorem TakesTwo.freeBlocks_le (h : TakesTwo N g g') (hnb : g'.nblocks = g.nblocks) (hN : g.nblocks ≤ N) :
    freeBlocks g.mem ≤ freeBlocks g'.mem + 2 := by
  obtain ⟨b, c, hbc⟩ := h
  have hsub : ((Finset.range ((g.mem 1).le32 4)).filter fun b => b ≠ 0 ∧ bitSet g.mem b = true) ⊆
      ((Finset.range ((g'.mem 1).le32 4)).filter fun b => b ≠ 0 ∧ bitSet g'.mem b = true) ∪ {b, c} := by
    intro d hd
    rw [Finset.mem_filter, Finset.mem_range] at hd
    obtain ⟨hlt, h0, hf⟩ := hd
    rw [Finset.mem_union, Finset.mem_filter, Finset.mem_range, Finset.mem_insert, Finset.mem_singleton]
    by_cases hdb : d = b ∨ d = c
    · exact .inr hdb
    · rw [not_or] at hdb
      refine .inl ⟨lt_of_lt_of_eq hlt hnb.symm, h0, ?_⟩
      rw [hbc d (lt_of_lt_of_le hlt hN) hdb.1 hdb.2]
      exact hf
  calc freeBlocks g.mem ≤ _ := Finset.card_le_card hsub
    _ ≤ freeBlocks g'.mem + ({b, c} : Finset ℕ).card := Finset.card_union_le _ _
    _ ≤ freeBlocks g'.mem + 2 := Nat.add_le_add_left Finset.card_le_two _

/-- A transaction that has a handle can have another, if a block is free. -/
theorem not_overfull_of_free (hn : tNhandles g.mem t < 1024) (hi : tHandlei g.mem t ≠ 0) (hf : 0 < freeBlocks g.mem) :
    ¬ Overfull t g := by
  rintro (h1 | h1 | ⟨h1, -⟩)
  · omega
  · rw [freeBlocks_eq_zero h1] at hf
    omega
  · exact hi h1

/-! ### Requests on an open file -/

/-- `openfile_lookup` refuses the id, or finds its entry. -/
theorem openfileLookup_sure (h : Fit R N none s) (hl : s.Alive envid) (hu : Refused s id ∨ Usable s envid id) :
    Run (openfileLookup envid id) s (fun i s' => i = id % MAXOPEN ∧ ¬ Refused s id ∧ Looked R C N envid id s i s' ∧
      (writeMode (s.opentab (id % MAXOPEN)).mode = true ∨ (s.envs (envx envid)).trans ≠ none →
        (s'.envs (envx envid)).trans = some (slotOf s (envx envid)))) (fun e _ => ∃ er, e = .err er) := by
  by_cases hr : Refused s id
  · unfold Run
    rw [lookup_inval envid hr]
    exact ⟨_, rfl⟩
  · have hu := hu.resolve_left hr
    refine (openfileLookup_returns (C := C) h hl hr hu.slot).with_eq.mono ?_ fun _ _ he => he.2.elim
    rintro i s' ⟨hrun, rfl, hk⟩
    refine ⟨rfl, hr, hk, fun hx => ?_⟩
    by_cases hw : writeMode (s.opentab (id % MAXOPEN)).mode = true
    · exact hk.trans hw
    · rw [openfileLookup_reading hr (by simpa using hw)] at hrun
      obtain rfl := (EStateM.Result.ok.inj hrun).2
      obtain ⟨t, ht⟩ := Option.ne_none_iff_exists'.mp (hx.resolve_left hw)
      rw [slotOf, ht]
      rfl

theorem theFile_sure {o : OpenFile} (ho : o.file = some f) {E : Fault → Srv → Prop} :
    Run (theFile o) s (fun f' s' => f' = f ∧ s' = s) E := by
  unfold theFile
  rw [ho]
  exact .pure ⟨rfl, rfl⟩

theorem fdOffset_sure {i : ℕ} (hm : (s.fds i).mapped = true) {E : Fault → Srv → Prop} :
    Run (fdOffset i) s (fun off s' => off = (s.fds i).offset ∧ s' = s) E := by
  refine .getBind ?_
  rw [if_pos hm]
  exact .pure ⟨rfl, rfl⟩

section
variable (h : Fit R N none s) (hl : s.Alive envid)
include h hl

/-- `serve_set_size`. -/
theorem serveSetSize_done {size : ℤ} (hf : (Req.setSize id size).Fits s) (hs : (Req.setSize id size).Safe s envid) :
    Run (serveSetSize envid id size) s ((Req.setSize id size).Done s envid) (fun e _ => ∃ er, e = .err er) := by
  refine .bind (openfileLookup_sure (C := fun _ => False) h hl (hs.imp_right And.left)) ?_
  rintro i s1 ⟨rfl, hv, hk, htr⟩
  obtain ⟨hu, hlog⟩ := hs.resolve_left hv
  obtain ⟨f, hfile⟩ := hu.file
  obtain ⟨hin, h0, hlt, hdvd⟩ := hf f hfile
  have ht := htr hlog.1
  have h112 := (hk.fit.trans _ _ ht).1
  refine .getBind ?_
  rw [hk.tabs.1]
  refine .bind (addHandleToTransaction_logs hk.fit ht (hlog.2.light h.fs hk.light).not_overfull
    fun hw => absurd hw (hOper_truncHandle _ _)) ?_
  rintro _ _ ⟨g, rfl, hf2, ha2, hlogs, -⟩
  refine .bind (theFile_sure hfile) ?_
  rintro f' _ ⟨rfl, rfl⟩
  have has := hk.aside.trans ha2
  have hfits : (Op.setSize f' size).Fits g.mem := by
    refine ⟨⟨has.inTree.mpr hin, h0, hlt⟩, trivial, fun _ _ he hdir => ?_⟩
    cases he
    rw [(has.sameFile hin).1.fType] at hdir
    exact hdvd hdir
  refine .bind (hf2.setSize_lift h112 hfits) ?_
  rintro _ _ ⟨g', rfl, hrun, hh⟩
  refine .pure ⟨fun _ => .cons ?_ (.nil _), f', g, hfile, has, hrun⟩
  rw [hh, ← h.fs.handlesOf_light h112 hk.light]
  exact hlogs.kept_of_oper (hOper_truncHandle _ _)

theorem serveRead_sure (hf : (Req.read id n).Fits s) (hs : (Req.read id n).Safe s envid) :
    Sure (serveRead envid id n) s := by
  refine .step (openfileLookup_sure (C := fun _ => False) h hl hs) ?_
  rintro i s1 ⟨rfl, hv, hk, -⟩
  have hu := hs.resolve_left hv
  obtain ⟨f, hfile⟩ := hu.file
  obtain ⟨hin, h0⟩ := hf f hfile
  refine .step (fdOffset_sure (by rw [hk.tabs.2]; exact hu.mapped)) ?_
  rintro _ _ ⟨rfl, rfl⟩
  rw [hk.tabs.2]
  refine .get ?_
  rw [hk.tabs.1]
  refine .step (theFile_sure hfile) ?_
  rintro _ _ ⟨rfl, rfl⟩
  have hin2 := hk.aside.inTree.mpr hin
  obtain ⟨L, own, jown, -, -, hi⟩ := hk.fit.fs
  obtain ⟨off, ho⟩ := Int.eq_ofNat_of_zero_le h0
  rw [ho]
  refine .step (fileRead_sure hi.inv (hi.inv.isRec hin2) (hi.inv.live hin2) (min n PGSIZE) off).lift fun _ _ _ => ?_
  exact .modifyBind (.pure trivial)

/-- `serve_write`. -/
theorem serveWrite_done {buf : ℕ → UInt8} (hf : (Req.write id n buf).Fits s) (hs : (Req.write id n buf).Safe s envid) :
    Run (serveWrite envid id n buf) s (fun rep s' => ¬ Refused s id ∧ (¬ Lost (slotOf s (envx envid))
      (writeHandle (s.opentab (id % MAXOPEN)).fpath (s.fds (id % MAXOPEN)).offset n buf) s.fs.mem →
        (Req.write id n buf).Done s envid rep s')) (fun e _ => ∃ er, e = .err er) := by
  refine .bind (openfileLookup_sure (C := fun _ => False) h hl (hs.imp_right And.left)) ?_
  rintro i s1 ⟨rfl, hv, hk, htr⟩
  obtain ⟨hu, hlog, hn, hord⟩ := hs.resolve_left hv
  obtain ⟨f, hfile⟩ := hu.file
  obtain ⟨hin, hreg, h0, hlt⟩ := hf f hfile
  have ht := htr hlog.1
  have h112 := (hk.fit.trans _ _ ht).1
  have hhs := h.fs.handlesOf_light h112 hk.light
  refine .getBind ?_
  rw [hk.tabs.1]
  refine .bind (theFile_sure hfile) ?_
  rintro f' _ ⟨rfl, rfl⟩
  rw [if_neg (not_lt.mpr hn)]
  refine .bind (fdOffset_sure (by rw [hk.tabs.2]; exact hu.mapped)) ?_
  rintro _ _ ⟨rfl, rfl⟩
  rw [hk.tabs.2]
  refine .bind (addHandleToTransaction_logs hk.fit ht (hlog.2.light h.fs hk.light).not_overfull
    fun _ => not_disordered_of_handles hord hhs) ?_
  rintro _ _ ⟨g, rfl, hf2, ha2, hlogs, -⟩
  have has := hk.aside.trans ha2
  have hfits : (Op.write f' buf n (s.fds (id % MAXOPEN)).offset).Fits g.mem := by
    refine ⟨⟨has.inTree.mpr hin, h0, hlt⟩, ?_, by simp⟩
    rw [Op.SparesDirs, (has.sameFile hin).1.fType]
    exact hreg
  refine .bind (hf2.write_lift h112 hfits) ?_
  rintro r _ ⟨g', rfl, hrun, hh⟩
  refine .modifyBind (.pure ⟨hv, fun hlost => ⟨fun _ => .cons ?_ (.nil _), f', g, r, hfile, has, hrun, rfl⟩⟩)
  rw [← hhs]
  exact hh ▸ ((kept_iff hlogs).mpr (not_lost_of_handles hlost hhs)).1

theorem serveStat_sure (hs : (Req.stat id).Safe s envid) : Sure (serveStat envid id) s := by
  refine .step (openfileLookup_sure (C := fun _ => False) h hl hs) ?_
  rintro i s1 ⟨rfl, hv, hk, -⟩
  obtain ⟨f, hfile⟩ := (hs.resolve_left hv).file
  refine .get ?_
  rw [hk.tabs.1]
  refine .step (theFile_sure hfile) ?_
  rintro _ _ ⟨rfl, rfl⟩
  exact .pure _

end

/-! ### Ending a transaction -/

/-- `commit_transaction` on a transaction that has handles, or nothing at all. -/
theorem commitTransaction_sure (h : Fit plain N none s) (ht : (s.envs (envx envid)).trans = some t)
    (hq : tNhandles s.fs.mem t = 0 → tHandlei s.fs.mem t = 0) {E : Fault → Srv → Prop} :
    Run (commitTransaction envid false) s (fun _ s' => ∃ g, s' = { s with fs := g } ∧
      (∃ a, Committing t a g.mem ∧ Fit plain N a s') ∧ Aside s.fs g) E := by
  have hret : Run (commitTransaction envid false) s (fun _ _ => True) (fun _ _ => False) := by
    refine .getBind ?_
    rw [if_neg (by simp [h.ip])]
    dsimp only
    rw [Bool.and_false, if_neg (by simp)]
    refine .getBind ?_
    rw [ht]
    obtain ⟨L, own, jown, -, -, hi⟩ := h.fs
    exact (liftFs_run (commit_run (E := fun _ _ => False) (hi.tinv (h.trans _ t ht).1) rfl
      fun h0 h1 => h1 (hq h0))).mono (fun _ _ _ => trivial) fun _ _ ⟨_, _, he⟩ => he
  refine ((commitTransaction_fit (C := fun _ => False) (e := 0) h ht fun hz => hz.elim).and hret).mono ?_
    fun _ _ he => he.2.elim
  rintro _ _ ⟨⟨g, rfl, ha, -, has, -⟩, -⟩
  exact ⟨g, rfl, ha, has⟩

/-- The file system moves on between commit and end. -/
theorem Committing.congr {a : Option ℕ} {m m' : Disk} (h : Committing t a m) (h3 : m' 3 = m 3) : Committing t a m' :=
  h.imp_right fun ⟨h1, h2⟩ => ⟨h1, (quiet_congr fun i _ => by rw [h3]).mpr h2⟩

theorem endTransaction_sure {a : Option ℕ} (h : Fit plain N a s) (hl : s.Alive envid) (ht : (s.envs (envx envid)).trans = some t)
    (ha : Committing t a s.fs.mem) : Sure (endTransaction envid) s :=
  .of_run (endTransaction_fit (C := fun _ => False) h hl ht ha trivial fun hz => hz.elim)

section
variable (h : Fit plain N none s) (hl : s.Alive envid)
include h hl

theorem serveFlush_sure (hf : (Req.flush id).Fits s) (hs : (Req.flush id).Safe s envid) :
    Sure (serveFlush envid id) s := by
  refine .step (openfileLookup_sure (C := fun _ => False) h hl (hs.imp_right And.left)) ?_
  rintro i s1 ⟨rfl, hv, hk, htr⟩
  obtain ⟨hu, hcl, hq⟩ := hs.resolve_left hv
  obtain ⟨f, hfile⟩ := hu.file
  have hin := hf f hfile
  have href : ¬ pageref (s1.fds (id % MAXOPEN)) < 2 := by
    have := List.length_pos_of_ne_nil hcl
    rw [hk.tabs.2, pageref, if_pos hu.mapped]
    omega
  refine .get ?_
  rw [if_neg href]
  -- the flush itself, from a state with the same files
  have hflush : ∀ {a : Option ℕ} {s2 : Srv}, Fit plain N a s2 → Aside s.fs s2.fs →
      Run (liftFs (fileFlush f)) s2 (fun _ s' => ∃ g, s' = { s2 with fs := g } ∧ Fit plain N a s' ∧
        g.mem 3 = s2.fs.mem 3) (fun e _ => ∃ er, e = .err er) := by
    intro a s2 hf2 has
    refine (liftFs_run (hf2.fs.fileFlush (E := fun _ _ => False) (has.inTree.mpr hin))).mono ?_ ?_
    · rintro _ _ ⟨g, rfl, hsd, hm, -⟩
      exact ⟨g, rfl, hf2.of_fs hsd fun t => by rw [hm], by rw [hm]⟩
    · rintro _ _ ⟨_, _, he⟩
      exact he.elim
  by_cases hw : writeMode (s1.opentab (id % MAXOPEN)).mode = true
  · have ht := htr (.inl (by rw [← hk.tabs.1]; exact hw))
    rw [if_pos hw]
    refine .step (commitTransaction_sure hk.fit ht ?_) ?_
    · rw [show tNhandles s1.fs.mem _ = _ from hk.light.words _ 12 (by omega) (by omega),
        show tHandlei s1.fs.mem _ = _ from hk.light.words _ 16 (by omega) (by omega)]
      exact hq
    rintro _ _ ⟨g, rfl, ⟨a, ha, hf2⟩, has⟩
    refine .step (theFile_sure (f := f) (by rw [hk.tabs.1]; exact hfile)) ?_
    rintro _ _ ⟨rfl, rfl⟩
    refine .step (hflush hf2 (hk.aside.trans has)) ?_
    rintro _ _ ⟨g', rfl, hf3, h3⟩
    rw [if_pos hw]
    exact .step (endTransaction_sure hf3 (hk.turn.alive hl) ht (ha.congr h3)) fun _ _ _ => .pure _
  · rw [if_neg hw]
    refine .step (theFile_sure (f := f) (by rw [hk.tabs.1]; exact hfile)) ?_
    rintro _ _ ⟨rfl, rfl⟩
    refine .step (hflush hk.fit hk.aside) ?_
    rintro _ _ ⟨g', rfl, -, -⟩
    rw [if_neg hw]
    exact .pure _

/-- `start_transaction`, where there is a slot. -/
theorem startTransaction_started (hslot : SlotReady s envid) {E : Fault → Srv → Prop} :
    Run (startTransaction envid) s (fun _ s' => Started plain (fun _ => False) N (envx envid) s s') E :=
  ((startTransaction_fit h hl).and (startTransaction_returns h hl hslot)).mono (fun _ _ h => h.1)
    fun _ _ he => he.2.elim

theorem serveRemove_sure {path : ℕ → UInt8} (hs : (Req.remove path).Safe s envid) :
    Sure (serveRemove envid path) s := by
  refine .step (startTransaction_started h hl hs.1) ?_
  intro _ s1 h1
  refine .step (addHandleToTransaction_logs h1.fit h1.trans (hs.2.light h.fs h1.light).not_overfull
    fun hw => absurd hw ?_) ?_
  · rw [deletHandle, (hOper_mkHandle _ _ 0).1]
    decide
  rintro _ _ ⟨g, rfl, hf2, -, hlogs, -⟩
  refine .step (commitTransaction_sure hf2 h1.trans fun h0 => absurd h0 (Nat.pos_iff_ne_zero.mp hlogs.count.2)) ?_
  rintro _ _ ⟨g3, rfl, ⟨a, ha, hf3⟩, -⟩
  have hp := zero_not_mem_pathStr (copyPath path)
  refine .step ((liftFs_run (hf3.fs.attemptRemove hp)).mono (fun _ _ h => h) fun _ _ ⟨_, _, he⟩ => he.elim) ?_
  rintro r _ ⟨g4, rfl, -, hsd, hm⟩
  refine .step (endTransaction_sure (hf3.of_fs hsd (tEnvid_of_mem3 hm)) (h1.turn.alive hl) h1.trans (ha.congr hm)) fun _ _ _ => ?_
  cases r with
  | ok _ => exact .pure _
  | error e => exact .fail _

end

/-! ### `serve_open` -/

theorem hasFlag_or {omode a b : ℕ} (h : hasFlag omode a = true) (hab : (a ||| b) &&& a = a) :
    hasFlag omode (a ||| b) = true := by
  unfold hasFlag at h ⊢
  simp only [decide_eq_true_eq] at h ⊢
  intro h0
  refine h ?_
  rw [← hab, ← Nat.land_assoc, h0]
  exact Nat.zero_and a

theorem Overfull.congr (hm : g'.mem = g.mem) : Overfull t g' ↔ Overfull t g := by
  simp only [Overfull, Cramped, Full, FsSt.nblocks, hm]

theorem Aside.solid (h : Aside g g') (hS : Solid g.mem) : Solid g'.mem := by
  intro f hf ht k hk hlt
  have hf := h.inTree.mp hf
  have hs := h.sameFile hf
  rw [hs.ptr]
  exact hS f hf (by rw [← hs.1.fType]; exact ht) k hk (by rwa [← hs.1.fSize])

/-- `file_create` of a path that is there. -/
theorem fileCreate_exists {L : Layout} {own : ℕ → Use} (h : FInv L own g.mem) (hD : L.D) (hS : Solid g.mem)
    {path : List UInt8} (hp : 0 ∉ path) {dir : Option Ptr} (hw : PathTo g.mem path (.ok (.found dir f))) {type : ℕ}
    (ht : type = FTYPE_REG ∨ type = FTYPE_DIR) :
    Run (fileCreate path type) g (fun _ _ => False) (fun e g' => (∃ er, e = .err er) ∧ Loaded g g') := by
  unfold fileCreate
  rw [if_neg (by omega)]
  refine .bind (Q := fun w g' => w = .found dir f ∧ Loaded g g') (((walkPath_solid h hD hS hp).and
    (walkPath_run h hp)).mono ?_ ?_) ?_
  · rintro w g' ⟨⟨hl, -⟩, own', -, hw'⟩
    exact ⟨Except.ok.inj (WalksTo.det hw' hw), hl⟩
  · rintro e g' ⟨⟨hl, he⟩, -⟩
    exact ⟨he, hl⟩
  · rintro w g' ⟨rfl, hl⟩
    exact .throw ⟨⟨_, rfl⟩, hl⟩

/-- `file_create` leaves a free block; and, if the file is there, a tree without holes. -/
def LeavesBlock (path : List UInt8) (type : ℕ) (g : FsSt) : Prop :=
  Run (fileCreate path type) g (fun _ g' => 0 < freeBlocks g'.mem)
    (fun e g' => e = .err .fileExists → Solid g'.mem ∧ 0 < freeBlocks g'.mem)

/-- What `serve_open` needs: a slot, and room for its handles; and with `O_TRUNC` a
tree without holes, and a block after `file_create`. -/
structure Opens (N : ℕ) (s : Srv) (envid : ℕ) (path : ℕ → UInt8) (omode : ℕ) : Prop where
  slot : hasFlag omode O_CREAT = true ∨ hasFlag omode (O_WRONLY ||| O_RDWR ||| O_TRUNC) = true → SlotReady s envid
  room : hasFlag omode O_CREAT = true ∨ hasFlag omode O_TRUNC = true → Room 2 (slotOf s (envx envid)) s.fs
  solid : hasFlag omode O_TRUNC = true → Solid s.fs.mem
  spares : hasFlag omode O_CREAT = true → hasFlag omode O_TRUNC = true → ∀ g, Sound plain N none g → Aside s.fs g →
    (∀ k, Free k s.fs → k ≤ freeBlocks g.mem + 2) → LeavesBlock (pathStr path) (fileType omode) g

/-- With `O_TRUNC`, the file is there. -/
theorem Req.Safe.opens {path : ℕ → UInt8} {omode : ℕ} (hs : (Req.open path omode).Safe s envid) :
    Opens N s envid (copyPath path) omode := by
  refine ⟨hs.1, hs.2.1, fun htr => (hs.2.2 htr).1, fun hc htr g hg has hfree => ?_⟩
  obtain ⟨hsolid, hfound⟩ := hs.2.2 htr
  obtain ⟨dir, f, hw⟩ := hfound hc
  have h3 := hfree 3 (hs.2.1 (.inl hc)).2
  obtain ⟨L, own, jown, -, hD, hi⟩ := hg
  refine (fileCreate_exists hi.inv hD (has.solid hsolid) (zero_not_mem_pathStr _) (has.sameTree.pathTo.mpr hw)
    (by unfold fileType; split_ifs <;> simp)).mono nofun ?_
  rintro e g' ⟨-, hld⟩ -
  rw [hld.mem]
  exact ⟨has.solid hsolid, by omega⟩

/-- `file_open`, as `serve_open` calls it. -/
theorem Fit.open_lift (h : Fit plain N none s) (path : ℕ → UInt8) (omode : ℕ)
    (hS : hasFlag omode O_TRUNC = true → Solid s.fs.mem) :
    Run (liftFs (fileOpen (pathStr path))) s (fun f s' => ∃ g, s' = { s with fs := g } ∧
      fileOpen (pathStr path) s.fs = .ok f g ∧ (∀ t < 112, handlesOf g.mem t = handlesOf s.fs.mem t) ∧
      (hasFlag omode O_TRUNC = true → g.mem = s.fs.mem)) (fun e _ => ∃ er, e = .err er) := by
  have hp := zero_not_mem_pathStr path
  have hsame : ∀ t, t < 112 → _ := fun t ht =>
    (h.fs.handlesOf_op ht (.open (pathStr path)) ⟨hp, trivial, by simp⟩).of_discard
  obtain ⟨L, own, jown, -, hD, hi⟩ := h.fs
  refine (liftFs_run (fileOpen_sure hi.inv hD hp).with_eq).mono ?_ fun _ _ ⟨_, _, he⟩ => he.2
  rintro f _ ⟨g, rfl, hrun, -⟩
  refine ⟨g, rfl, hrun, fun t ht => (hsame t ht).of_ok hrun, fun htr => ?_⟩
  exact (Run.of_ok (fileOpen_solid hi.inv hD (hS htr) hp) hrun).1.mem

section
variable (h : Fit plain N none s) (hl : s.Alive envid)
  {path : ℕ → UInt8} {omode : ℕ}
include h hl

/-- The part of `serve_open` that finds the file logs the handle for a new one. -/
theorem openPath_logs (ho : Opens N s envid path omode) :
    Run (openPath envid path omode) s
      (fun f s' => ∃ g, Aside s.fs g ∧ Obtains (pathStr path) omode f g s'.fs ∧
        (hasFlag omode O_CREAT = true ∨ hasFlag omode O_TRUNC = true →
          (s'.envs (envx envid)).trans = some (slotOf s (envx envid)) ∧ slotOf s (envx envid) < 112 ∧
          KeptAll (if hasFlag omode O_CREAT then [creatHandle path (fileType omode)] else [])
            (handlesOf s.fs.mem (slotOf s (envx envid))) (handlesOf s'.fs.mem (slotOf s (envx envid)))) ∧
        (hasFlag omode O_TRUNC = true → ¬ Overfull (slotOf s (envx envid)) s'.fs))
      (fun e _ => ∃ er, e = .err er) := by
  unfold openPath
  by_cases hc : hasFlag omode O_CREAT = true
  · simp only [hc, if_true, true_or, forall_const]
    refine .bind (startTransaction_started h hl (ho.slot (.inl hc))) ?_
    intro _ s1 h1
    have h112 := (h1.fit.trans _ _ h1.trans).1
    have hroom1 := (ho.room (.inl hc)).light h.fs h1.light
    refine .bind (addHandleToTransaction_logs h1.fit h1.trans (hroom1.mono (by omega)).not_overfull
      fun hw => absurd hw (hOper_creatHandle _ _)) ?_
    rintro _ _ ⟨g, rfl, hf2, ha2, hlogs, htwo, hnb, hi2⟩
    have hkept := hlogs.kept_of_oper (hOper_creatHandle _ _)
    have hn := hlogs.count.1
    rw [h.fs.handlesOf_light h112 h1.light] at hkept
    have has : Aside s.fs g := h1.aside.trans ha2
    have hp := zero_not_mem_pathStr path
    have hn2 : tNhandles g.mem (slotOf s (envx envid)) < 1024 := by
      have : _ + 2 ≤ 1024 := hroom1.1
      omega
    have hN : s1.fs.nblocks ≤ N := by
      obtain ⟨L, own, jown, rfl, -, hi⟩ := h1.fit.fs
      exact hi.inv.nblocks_eq.le
    have hspares : hasFlag omode O_TRUNC = true → LeavesBlock (pathStr path) (fileType omode) g := fun htr =>
      ho.spares hc htr g hf2.fs has fun k hk => (hk.light h.fs h1.light).le.trans (htwo.freeBlocks_le hnb hN)
    have hover : ∀ g' : FsSt, g'.mem 3 = g.mem 3 → 0 < freeBlocks g'.mem → ¬ Overfull (slotOf s (envx envid)) g' :=
      fun g' hm => not_overfull_of_free (by rwa [tNhandles, hm]) (by rwa [tHandlei, hm])
    have hsame := (hf2.fs.handlesOf_op h112 (.create (pathStr path) (fileType omode)) ⟨hp, trivial, by simp⟩).of_discard
    have hsure : Sure (fileCreate (pathStr path) (fileType omode)) g := by
      obtain ⟨L, own, jown, -, hD, hi⟩ := hf2.fs
      exact fileCreate_sure hi.inv hD hp _
    have hcreate := (attempt_run (hsame.and hsure).with_eq).and (hf2.fs.attemptCreate hp (fileType omode))
    refine .step (liftFs_run hcreate) ?_ ?_
    · rintro _ _ ⟨g', -, ⟨⟨p, rfl⟩, -, -, er, he⟩, -⟩
      cases he
    rintro r _ ⟨g', rfl, hr, hsd, hm, -⟩
    have hf3 := hf2.of_fs hsd (tEnvid_of_mem3 hm)
    have hkept' : handlesOf g'.mem (slotOf s (envx envid)) = handlesOf g.mem (slotOf s (envx envid)) →
        KeptAll [creatHandle path (fileType omode)] (handlesOf s.fs.mem (slotOf s (envx envid)))
          (handlesOf g'.mem (slotOf s (envx envid))) := fun hh => .cons (hh ▸ hkept) (.nil _)
    rcases hr with ⟨f, rfl, hrun, hh, -⟩ | ⟨er, rfl, hrun, hh, -⟩
    · refine .pure ⟨g, has, ?_, ⟨h1.trans, h112, hkept' hh⟩, fun htr => hover g' hm ((hspares htr).of_ok hrun)⟩
      rw [Obtains, if_pos hc]
      exact .inl hrun
    · dsimp only
      split_ifs with hx
      · obtain rfl : er = .fileExists := hx.2
        refine (hf3.open_lift path omode fun htr => ((hspares htr).of_error hrun rfl).1).mono ?_ fun _ _ he => he
        rintro f _ ⟨g4, rfl, hopen, hh4, hm4⟩
        refine ⟨g, has, ?_, ⟨h1.trans, h112, ?_⟩, fun htr => hover g4 ?_ ?_⟩
        · rw [Obtains, if_pos hc]
          exact .inr ⟨g', hrun, hopen⟩
        · rw [hh4 _ h112]
          exact hkept' (hh _ rfl)
        · rw [hm4 htr, hm]
        · rw [hm4 htr]
          exact ((hspares htr).of_error hrun rfl).2
      · exact .throw ⟨_, rfl⟩
  · rw [if_neg hc]
    by_cases hw : hasFlag omode (O_WRONLY ||| O_RDWR ||| O_TRUNC) = true
    · rw [if_pos hw]
      refine .bind (startTransaction_started h hl (ho.slot (.inr hw))) ?_
      intro _ s1 h1
      have h112 := (h1.fit.trans _ _ h1.trans).1
      refine (h1.fit.open_lift path omode fun htr => h1.aside.solid (ho.solid htr)).mono ?_ fun _ _ he => he
      rintro f _ ⟨g, rfl, hopen, hh, hm⟩
      refine ⟨s1.fs, h1.aside, ?_, fun _ => ⟨h1.trans, h112, ?_⟩, fun htr => ?_⟩
      · rwa [Obtains, if_neg hc]
      · rw [if_neg hc, hh _ h112, h.fs.handlesOf_light h112 h1.light]
        exact .nil _
      · rw [Overfull.congr (hm htr)]
        exact (((ho.room (.inr htr)).light h.fs h1.light).mono (by omega)).not_overfull
    · rw [if_neg hw]
      have htr : ¬ hasFlag omode O_TRUNC = true := fun htr => hw (by
        rw [Nat.lor_comm]
        exact hasFlag_or htr (by decide))
      refine (h.open_lift path omode fun hx => absurd hx htr).mono ?_ fun _ _ he => he
      rintro f _ ⟨g, rfl, hopen, -, -⟩
      refine ⟨s.fs, .refl _, by rwa [Obtains, if_neg hc], fun hx => ?_, fun hx => absurd hx htr⟩
      exact absurd hx (not_or.mpr ⟨hc, htr⟩)

/-- `serve_open`. -/
theorem serveOpen_done (ho : Opens N s envid (copyPath path) omode) :
    Run (serveOpen envid path omode) s ((Req.open path omode).Done s envid) (fun e _ => ∃ er, e = .err er) := by
  refine .bind (Q := fun i s' => pageref (s.fds i) ≤ 1 ∧ s' = reserve s i) ((openfileAlloc_run s).mono
    (fun _ _ h => h.2) fun _ _ he => ⟨_, he.1⟩) ?_
  rintro i _ ⟨hi, rfl⟩
  have hf1 := h.reserve i
  refine .step ((openPath_fit (C := fun _ => True) hf1 hl (copyPath path) omode trivial fun _ _ => trivial).and
    (openPath_logs hf1 hl ⟨ho.slot, ho.room, ho.solid, ho.spares⟩)) (fun _ _ he => he.2) ?_
  rintro f s2 ⟨h2, g, has, hobt, hlog, hover⟩
  have hset : ∀ s3 : Srv, ((s3.setOpen i ⟨(s3.opentab i).fileid, some f, omode, copyPath path⟩).opentab i).file = some f :=
    fun s3 => congrArg OpenFile.file (Function.update_self i _ s3.opentab)
  by_cases htr : hasFlag omode O_TRUNC = true
  · rw [if_pos htr]
    obtain ⟨ht, h112, hkept⟩ := hlog (.inr htr)
    refine .bind (addHandleToTransaction_logs h2.fit ht (hover htr) fun hw => absurd hw (hOper_truncHandle _ _)) ?_
    rintro _ _ ⟨g3, rfl, hf3, ha3, hlogs, -⟩
    refine .bind (hf3.setSize_lift h112 ⟨⟨ha3.inTree.mpr h2.inTree, le_rfl, by norm_num⟩, trivial, ?_⟩) ?_
    · intro f' size he _
      cases he
      exact Int.dvd_zero _
    rintro _ _ ⟨g4, rfl, hrun, hh⟩
    refine .modifyBind (.pure ⟨fun _ => ?_, i, f, g, s2.fs, rfl, hset _, has, hobt, ?_⟩)
    · rw [Req.handles, if_pos htr]
      refine hkept.append (.cons ?_ (.nil _))
      exact hh ▸ hlogs.kept_of_oper (hOper_truncHandle _ _)
    · rw [if_pos htr]
      exact ⟨g3, ha3, hrun⟩
  · rw [if_neg htr]
    refine .modifyBind (.pure ⟨fun hne => ?_, i, f, g, s2.fs, rfl, hset _, has, hobt, by rw [if_neg htr]; rfl⟩)
    by_cases hc : hasFlag omode O_CREAT = true
    · rw [Req.handles, if_neg htr, List.append_nil]
      exact (hlog (.inl hc)).2.2
    · rw [Req.handles, if_neg htr, if_neg hc] at hne
      exact absurd rfl hne

omit path omode in
/-- A request that fits and is safe is answered. -/
theorem handle_sure {r : Req} (hf : r.Fits s) (hs : r.Safe s envid) : Sure (handle envid r) s := by
  cases r with
  | «open» path omode => exact .of_run (serveOpen_done h hl hs.opens)
  | setSize id size => exact .of_run (serveSetSize_done h hl hf hs)
  | read id n => exact serveRead_sure h hl hf hs
  | write id n buf => exact .of_run (serveWrite_done h hl hf hs)
  | stat id => exact .step (serveStat_sure h hl hs) fun _ _ _ => .pure _
  | flush id => exact serveFlush_sure h hl hf hs
  | remove path => exact serveRemove_sure h hl hs
  | sync =>
    obtain ⟨L, own, jown, -, -, hi⟩ := h.fs
    have hpos : 0 < s.fs.nblocks := by
      rw [hi.inv.nblocks_eq]
      have := L.nb3
      omega
    exact Sure.step (Sure.of_run (fsSync_run hpos)).lift fun _ _ _ => Sure.pure _

end

end

end Fs
end Jos
