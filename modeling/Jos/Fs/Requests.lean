/-
# Runs of the server

The request handlers and the actions of the clients keep the invariant of the
server (`Fit`), if every request is about a file that is still in the tree and
its numbers are in range (`Req.Fits`). Nothing in the server checks either:
an open file outlives its removal, sizes and offsets are the client's.

`run_keeps` is the induction over runs; `fit_of_run` is what it gives for every
run whose actions are in order (`Act.Ok`), also for one that ends in a panic.

Key definitions: `Req.Fits`, `Req.Solitary`, `Act.Ok`, `AlongS`.
Key theorems: `handle_fit`, `step_fit`, `run_keeps`, `fit_of_run`.
-/
import Jos.Fs.Envs

namespace Jos
namespace Fs

open Block Function

/-! ### What a request may ask for -/

/-- The file the request is about is in the tree, and the numbers in it are in
range. A directory is resized by whole blocks and not written to. -/
def Req.Fits (s : Srv) : Req → Prop
  | .setSize id size => ∀ f, (s.opentab (id % MAXOPEN)).file = some f → InTree s.fs.mem f ∧ 0 ≤ size ∧ size < 2 ^ 31 ∧
      (fType s.fs.mem f = FTYPE_DIR → (BLKSIZE : ℤ) ∣ size)
  | .read id _ => ∀ f, (s.opentab (id % MAXOPEN)).file = some f → InTree s.fs.mem f ∧ 0 ≤ (s.fds (id % MAXOPEN)).offset
  | .write id n _ => ∀ f, (s.opentab (id % MAXOPEN)).file = some f → InTree s.fs.mem f ∧ fType s.fs.mem f ≠ FTYPE_DIR ∧
      0 ≤ (s.fds (id % MAXOPEN)).offset ∧ (s.fds (id % MAXOPEN)).offset + n < 2 ^ 31
  | .flush id => ∀ f, (s.opentab (id % MAXOPEN)).file = some f → InTree s.fs.mem f
  | _ => True

/-- When the journal is written for transaction `t`, no other transaction in
the same sector has handles; when all of it is, none has. -/
def Req.Solitary (s : Srv) (t : ℕ) : Req → Prop
  | .flush _ => Alone s.fs.mem t
  | .remove _ => Alone s.fs.mem t
  | .sync => ∀ t < 112, Quiet s.fs.mem t
  | _ => True

/-- What the rules say of the end of transaction `t` holds whatever the request
does before it. -/
def Req.Ends (R : Rules) (s : Srv) (t : ℕ) : Req → Prop
  | .flush id => ∀ f, (s.opentab (id % MAXOPEN)).file = some f → ∀ g g', Aside s.fs g →
      handlesOf g.mem t = handlesOf s.fs.mem t → fileFlush f g = .ok () g' → R.E t g'.mem g'.dirty
  | .remove path => ∀ g r g', Aside s.fs g → attempt (fileRemove (pathStr (copyPath path))) g = .ok r g' →
      R.E t g'.mem g'.dirty
  | _ => True

/-- The calls a request may make. `serve_open` truncates the file its path
leads to, or a new one. -/
def Req.Calls (s : Srv) : Req → Op → Prop
  | .open path omode, op => op = .open (pathStr (copyPath path)) ∨
      (hasFlag omode O_CREAT = true ∧ ∃ type, op = .create (pathStr (copyPath path)) type) ∨
      (hasFlag omode O_TRUNC = true ∧ ∃ f, op = .setSize f 0 ∧
        (¬ InTree s.fs.mem f ∨ ∃ dir, PathTo s.fs.mem (pathStr (copyPath path)) (.ok (.found dir f))))
  | .setSize id size, op => ∃ f, (s.opentab (id % MAXOPEN)).file = some f ∧ op = .setSize f size
  | .read id n, op => ∃ f, (s.opentab (id % MAXOPEN)).file = some f ∧
      op = .read f (min n PGSIZE) (s.fds (id % MAXOPEN)).offset
  | .write id n buf, op => ∃ f, (s.opentab (id % MAXOPEN)).file = some f ∧
      op = .write f buf n (s.fds (id % MAXOPEN)).offset
  | .remove path, op => op = .remove (pathStr (copyPath path))
  | _, _ => False

/-- A request of the env `envid` that is in order. -/
def Req.Ok (R : Rules) (s : Srv) (envid : ℕ) (r : Req) : Prop :=
  r.Fits s ∧ (R.Z → r.Solitary s (slotOf s (envx envid))) ∧ r.Ends R s (slotOf s (envx envid))

/-- An action that is in order. -/
def Act.Ok (R : Rules) (s : Srv) : Act → Prop
  | .req envid r => (s.envs (envx envid)).live = true → (s.envs (envx envid)).id = envid → r.Ok R s envid
  | _ => True

section
variable {R : Rules} {C : Op → Prop} {N : ℕ} {s s' s'' : Srv} {envid : ℕ} {α : Type}

/-! ### The open-file table -/

/-- Entry `i` of the table once `openfile_alloc` has taken it. -/
def reserve (s : Srv) (i : ℕ) : Srv :=
  (s.setOpen i { s.opentab i with fileid := ((s.opentab i).fileid + MAXOPEN) % 2 ^ 32, fpath := fun _ => 0 }).setFd i
    { s.fds i with mapped := true, offset := 0 }

theorem reserve_ne (s : Srv) {i j : ℕ} (h : j ≠ i) :
    (reserve s i).opentab j = s.opentab j ∧ (reserve s i).fds j = s.fds j := by
  unfold reserve Srv.setFd Srv.setOpen
  exact ⟨update_of_ne h _ _, update_of_ne h _ _⟩

theorem reserve_fds (s : Srv) (i : ℕ) : (reserve s i).fds i = { s.fds i with mapped := true, offset := 0 } := by
  unfold reserve Srv.setFd
  exact update_self _ _ _

theorem Fit.clients_nil {a : Option ℕ} (h : Fit R N a s) {i : ℕ} (hi : pageref (s.fds i) ≤ 1) :
    (s.fds i).clients = [] := by
  unfold pageref at hi
  split_ifs at hi with hm
  · exact List.eq_nil_of_length_eq_zero (by omega)
  · exact h.fds i (by simpa using hm)

theorem Fit.reserve {a : Option ℕ} (h : Fit R N a s) (i : ℕ) : Fit R N a (reserve s i) := by
  refine ⟨h.fs, h.ip, h.trans, h.ids, fun j hj => ?_⟩
  by_cases hji : j = i
  · rw [hji, reserve_fds] at hj
    cases hj
  · rw [(reserve_ne s hji).2] at hj ⊢
    exact h.fds j hj

/-- `openfile_alloc`. -/
theorem openfileAlloc_run (s : Srv) :
    Run openfileAlloc s (fun i s' => i < 1024 ∧ pageref (s.fds i) ≤ 1 ∧ s' = reserve s i)
      (fun e s' => e = .err .maxOpen ∧ s' = s) := by
  unfold openfileAlloc
  refine .getBind ?_
  cases hf : (List.range MAXOPEN).find? fun i => pageref (s.fds i) ≤ 1 with
  | none => exact .throw ⟨rfl, rfl⟩
  | some i =>
    have h1 := List.mem_range.mp (List.mem_of_find?_eq_some hf)
    have h2 := List.find?_some hf
    exact .setBind (.pure ⟨h1, by simpa using h2, rfl⟩)

/-- `openfile_lookup` found entry `i`; the transaction of the env is there if
the file is open for writing. -/
structure Looked (R : Rules) (C : Op → Prop) (N envid fileid : ℕ) (s : Srv) (i : ℕ) (s' : Srv) : Prop where
  idx : i = fileid % 1024
  valid : pageref (s.fds i) ≠ 1 ∧ (s.opentab i).fileid = fileid
  fit : Fit R N none s'
  turn : Turn C (envx envid) s s'
  tabs : s'.opentab = s.opentab ∧ s'.fds = s.fds
  trans : writeMode (s.opentab i).mode = true → (s'.envs (envx envid)).trans = some (slotOf s (envx envid))
  aside : Aside s.fs s'.fs
  light : Light s.fs.mem s'.fs.mem

/-- A request was served. The entry whose page is sent back was free. -/
def Served (R : Rules) (C : Op → Prop) (N e : ℕ) (s : Srv) (r : Reply) (s' : Srv) : Prop :=
  Fit R N none s' ∧ Finished R N C e s s' ∧ ∀ i, r.page = some i → (s.fds i).clients = [] ∧ (s'.fds i).mapped = true

/-- `o->o_file`. -/
theorem theFile_run {a : Option ℕ} (h : Fit R N a s) (o : OpenFile) {e : ℕ} :
    Run (theFile o) s (fun f s' => o.file = some f ∧ s = s') (SFails R N C e s) := by
  unfold theFile
  cases ho : o.file with
  | some f => exact .pure ⟨rfl, rfl⟩
  | none => exact .throw ⟨h.trOk, by simp⟩

theorem fdOffset_run {a : Option ℕ} (h : Fit R N a s) (i : ℕ) {e : ℕ} :
    Run (fdOffset i) s (fun off s' => off = (s.fds i).offset ∧ s = s') (SFails R N C e s) := by
  unfold fdOffset
  refine .getBind ?_
  split_ifs
  · exact .pure ⟨rfl, rfl⟩
  · exact .throw ⟨h.trOk, by simp⟩

/-- An Fd page that only its clients keep mapped. -/
theorem Fit.setFd {a : Option ℕ} {w : FdPage} (h : Fit R N a s) (i : ℕ) (hw : w.mapped = false → w.clients = []) :
    Fit R N a (s.setFd i w) := by
  refine ⟨h.fs, h.ip, h.trans, h.ids, fun j hj => ?_⟩
  unfold Srv.setFd at hj ⊢
  dsimp only at hj ⊢
  by_cases hji : j = i
  · subst hji
    rw [update_self] at hj ⊢
    exact hw hj
  · rw [update_of_ne hji] at hj ⊢
    exact h.fds j hj

/-- The seek position is the client's: nothing rests on it. -/
theorem Fit.setOffset {a : Option ℕ} (h : Fit R N a s) (i : ℕ) (off : ℤ) :
    Fit R N a (s.setFd i { s.fds i with offset := off }) :=
  h.setFd i (h.fds i)

/-- The tables are no part of a turn. -/
theorem Turn.of_tabs {e : ℕ} (h : Turn C e s s') (hs : s''.fs = s'.fs ∧ s''.envs = s'.envs) : Turn C e s s'' := by
  obtain ⟨h1, h2, h3⟩ := h
  exact ⟨hs.2 ▸ h1, hs.1 ▸ h2, hs.1 ▸ h3⟩

/-- `file_flush`. -/
theorem Fit.flush {a : Option ℕ} (h : Fit R N a s) {f : Ptr} (hf : InTree s.fs.mem f) {e : ℕ} :
    Run (liftFs (fileFlush f)) s (fun _ s' => ∃ g, s' = { s with fs := g } ∧ fileFlush f s.fs = .ok () g ∧ Fit R N a s' ∧
      Turn C e s s' ∧ g.mem = s.fs.mem) (SFails R N C e s) := by
  refine (liftFs_run (h.fs.fileFlush (E := fun _ _ => False) hf).with_eq).mono ?_ fun _ _ ⟨_, _, he⟩ => he.2.elim
  rintro _ _ ⟨g, rfl, hrun, hsd, hm, -⟩
  exact ⟨g, rfl, hrun, h.of_fs hsd fun t => by rw [hm],
    .of_fs (Acts.refl.clean hm) ((h.fs.books_flush hf).of_ok hrun), hm⟩

/-- `file_remove` under the transaction `a`, its error kept for the reply. -/
theorem Sound.attemptRemove {a : Option ℕ} {g : FsSt} (h : Sound R N a g) {path : List UInt8} (hp : 0 ∉ path) :
    Run (attempt (Fs.fileRemove path)) g (fun r g' => attempt (Fs.fileRemove path) g = .ok r g' ∧ Sound R N a g' ∧
      g'.mem 3 = g.mem 3) (fun _ _ => False) := by
  refine (attempt_run (h.fileRemove hp)).with_eq.mono ?_ ?_
  · rintro r g' ⟨hrun, ⟨_, -, h1, h2, -⟩ | ⟨e, -, -, h1, h2⟩⟩
    · exact ⟨hrun, h1, h2⟩
    · exact ⟨hrun, h1, h2⟩
  · rintro _ g' ⟨-, ⟨p, rfl⟩, ⟨er, he⟩, -⟩
    cases he

/-- `fs_sync`, with no transaction active. -/
theorem sync_fit (h : Fit R N none s) (hZ : R.Z → Req.sync.Solitary s 0) {e : ℕ} :
    Run (liftFs fsSync) s (fun _ s' => Fit R N none s' ∧ Turn C e s s') (SFails R N C e s) := by
  have hb := h.fs.books_sync
  obtain ⟨L, own, jown, rfl, hD, hi⟩ := h.fs
  have hpos : 0 < s.fs.nblocks := by
    rw [hi.inv.nblocks_eq]
    have := L.nb3
    omega
  refine (liftFs_run ((fsSync_run (E := fun _ _ => False) hpos).and hb)).mono ?_ fun _ _ ⟨_, _, he⟩ => he.2.elim
  rintro _ _ ⟨g, rfl, hs, hb⟩
  exact ⟨h.of_fs ⟨L, own, jown, rfl, hD, hi.of_synced hZ hs⟩ fun t => by rw [hs.mem],
    .of_fs (Acts.refl.clean hs.mem) hb⟩

/-- `serve_open` has found its file, or made it. -/
structure Found (R : Rules) (C : Op → Prop) (N e : ℕ) (path : List UInt8) (s : Srv) (f : Ptr) (s' : Srv) : Prop where
  fit : Fit R N none s'
  turn : Turn C e s s'
  tabs : s'.opentab = s.opentab ∧ s'.fds = s.fds
  inTree : InTree s'.fs.mem f
  path : ¬ InTree s.fs.mem f ∨ ∃ dir, PathTo s.fs.mem path (.ok (.found dir f))

theorem fileOpen_found (h : Fit R N none s) (e : ℕ) (path : ℕ → UInt8) (hc : C (.open (pathStr path))) :
    Run (liftFs (fileOpen (pathStr path))) s (Found R C N e (pathStr path) s) (SFails R N C e s) := by
  have hp := zero_not_mem_pathStr path
  refine (h.lift _ (Op.runs_of_call rfl) hc ⟨hp, trivial, by simp⟩ (h.fs.fileOpen hp)).mono ?_ fun _ _ he => he
  rintro f _ ⟨g, rfl, h1, h2, h3, h4⟩
  exact ⟨h1, h2, ⟨rfl, rfl⟩, h3, .inr h4⟩

theorem Found.of_turn {e : ℕ} {f : Ptr} {path : List UInt8} (ht : Turn C e s s')
    (htabs : s'.opentab = s.opentab ∧ s'.fds = s.fds) (hsame : SameTree s.fs.mem s'.fs.mem)
    (h : Found R C N e path s' f s'') : Found R C N e path s f s'' := by
  refine ⟨h.fit, ht.trans h.turn, ⟨h.tabs.1.trans htabs.1, h.tabs.2.trans htabs.2⟩, h.inTree, h.path.imp ?_ ?_⟩
  · exact fun hn hf => hn (hsame.inTree.mpr hf)
  · rintro ⟨dir, hd⟩
    exact ⟨dir, hsame.pathTo.mp hd⟩

theorem Fit.setOpen {a : Option ℕ} (h : Fit R N a s) (i : ℕ) (o : OpenFile) : Fit R N a (s.setOpen i o) :=
  ⟨h.fs, h.ip, h.trans, h.ids, h.fds⟩

/-! ### The handlers -/

section
variable (h : Fit R N none s) (hl : s.Alive envid)
include h hl

theorem openfileLookup_fit (fileid : ℕ) :
    Run (openfileLookup envid fileid) s (Looked R C N envid fileid s)
      (SFails R N C (envx envid) s) := by
  unfold openfileLookup
  refine .getBind ?_
  dsimp only
  by_cases hv : pageref (s.fds (fileid % MAXOPEN)) = 1 ∨ (s.opentab (fileid % MAXOPEN)).fileid ≠ fileid
  · rw [if_pos hv]
    exact .throw ⟨h, (Turn.refl _ s).finished⟩
  rw [if_neg hv]
  rw [not_or, not_not] at hv
  by_cases hw : writeMode (s.opentab (fileid % MAXOPEN)).mode = true
  · rw [if_pos hw]
    refine .bind (startTransaction_fit h hl) ?_
    intro _ s' hs
    exact .pure ⟨rfl, hv, hs.fit, hs.turn, hs.tabs, fun _ => hs.trans, hs.aside, hs.light⟩
  · rw [if_neg hw]
    exact .pure ⟨rfl, hv, h, .refl _ s, ⟨rfl, rfl⟩, fun hc => absurd hc hw, .refl _, .refl _⟩

/-- `serve_set_size`. -/
theorem serveSetSize_fit {fileid : ℕ} {size : ℤ} (hr : (Req.setSize fileid size).Fits s) :
    Run (serveSetSize envid fileid size) s (Served R ((Req.setSize fileid size).Calls s) N (envx envid) s)
      (SFails R N ((Req.setSize fileid size).Calls s) (envx envid) s) := by
  refine .bind (openfileLookup_fit h hl fileid) ?_
  intro i s1 h1
  refine .getBind ?_
  refine h1.turn.step (addHandleToTransaction_fit h1.fit _) ?_
  rintro _ _ ⟨g, rfl, hf2, ht2, ha2, -⟩
  have ht12 := h1.turn.trans ht2
  refine ht12.step (theFile_run hf2 _) ?_
  rintro f _ ⟨hof, rfl⟩
  rw [h1.tabs.1, h1.idx] at hof
  obtain ⟨hin, h0, hlt, hdir⟩ := hr f hof
  have has : Aside s.fs g := h1.aside.trans ha2
  have hin2 := has.inTree.mpr hin
  have hdir2 : fType g.mem f = 1 → (4096 : ℤ) ∣ size := fun ht => by
    rw [(has.sameFile hin).1.fType] at ht
    exact hdir ht
  refine ht12.step (hf2.lift (.setSize f size) (Op.runs_of_unit rfl) ⟨f, hof, rfl⟩
    ⟨⟨hin2, h0, hlt⟩, trivial, fun f' n hop => ?_⟩ (hf2.fs.fileSetSize hin2 h0 hlt hdir2)) ?_
  · obtain ⟨rfl, rfl⟩ := Op.setSize.inj hop
    exact hdir2
  · rintro _ _ ⟨g', rfl, hf3, ht3, -⟩
    exact .pure ⟨hf3, (ht12.trans ht3).finished, by simp⟩

/-- `serve_read`. -/
theorem serveRead_fit {fileid n : ℕ} (hr : (Req.read fileid n).Fits s) :
    Run (serveRead envid fileid n) s (Served R ((Req.read fileid n).Calls s) N (envx envid) s)
      (SFails R N ((Req.read fileid n).Calls s) (envx envid) s) := by
  refine .bind (openfileLookup_fit h hl fileid) ?_
  intro i s1 h1
  refine h1.turn.step (fdOffset_run h1.fit i) ?_
  rintro off _ ⟨hoff, rfl⟩
  refine .getBind ?_
  refine h1.turn.step (theFile_run h1.fit _) ?_
  rintro f _ ⟨hof, rfl⟩
  rw [h1.tabs.1, h1.idx] at hof
  obtain ⟨hin, h0⟩ := hr f hof
  rw [h1.tabs.2, h1.idx] at hoff
  have hoff0 : 0 ≤ off := by rwa [hoff]
  have hin2 := h1.aside.inTree.mpr hin
  refine h1.turn.step (h1.fit.lift (.read f (min n PGSIZE) off) (Op.runs_of_call rfl) ⟨f, hof, by rw [hoff]⟩
    ⟨⟨hin2, hoff0⟩, trivial, by simp⟩ (h1.fit.fs.fileRead hin2 _ hoff0)) ?_
  rintro ⟨r, bytes⟩ _ ⟨g, rfl, hf2, ht2, -⟩
  exact .modifyBind (.pure ⟨hf2.setOffset i _, ((h1.turn.trans ht2).of_tabs (by exact ⟨rfl, rfl⟩)).finished, by simp⟩)

/-- `serve_write`. -/
theorem serveWrite_fit {fileid n : ℕ} {buf : ℕ → UInt8} (hr : (Req.write fileid n buf).Fits s) :
    Run (serveWrite envid fileid n buf) s (Served R ((Req.write fileid n buf).Calls s) N (envx envid) s)
      (SFails R N ((Req.write fileid n buf).Calls s) (envx envid) s) := by
  refine .bind (openfileLookup_fit h hl fileid) ?_
  intro i s1 h1
  refine .getBind ?_
  refine h1.turn.step (theFile_run h1.fit _) ?_
  rintro f _ ⟨hof, rfl⟩
  rw [h1.tabs.1, h1.idx] at hof
  obtain ⟨hin, hreg, h0, hlt⟩ := hr f hof
  by_cases hn : HANDLE_DATASIZE < n
  · rw [if_pos hn]
    exact .throw ⟨h1.fit.trOk, by simp⟩
  rw [if_neg hn]
  refine h1.turn.step (fdOffset_run h1.fit i) ?_
  rintro off _ ⟨hoff, rfl⟩
  rw [h1.tabs.2, h1.idx] at hoff
  refine h1.turn.step (addHandleToTransaction_fit h1.fit _) ?_
  rintro _ _ ⟨g, rfl, hf2, ht2, ha2, -⟩
  have ht12 := h1.turn.trans ht2
  have has : Aside s.fs g := h1.aside.trans ha2
  have hin2 := has.inTree.mpr hin
  have hreg2 : fType g.mem f ≠ 1 := by
    rw [(has.sameFile hin).1.fType]
    exact hreg
  rw [← hoff] at h0 hlt
  refine ht12.step (hf2.lift (.write f buf n off) (Op.runs_of_call rfl) ⟨f, hof, by rw [hoff]⟩
    ⟨⟨hin2, h0, hlt⟩, hreg2, by simp⟩ (hf2.fs.fileWrite hin2 hreg2 buf h0 hlt)) ?_
  rintro r _ ⟨g', rfl, hf3, ht3, -⟩
  exact .modifyBind (.pure ⟨hf3.setOffset i _, ((ht12.trans ht3).of_tabs (by exact ⟨rfl, rfl⟩)).finished, by simp⟩)

/-- `serve_stat`. -/
theorem serveStat_fit (fileid : ℕ) :
    Run (serveStat envid fileid) s (fun r s' => Served R C N (envx envid) s r.1 s')
      (SFails R N C (envx envid) s) := by
  refine .bind (openfileLookup_fit h hl fileid) ?_
  intro i s1 h1
  refine .getBind ?_
  refine h1.turn.step (theFile_run h1.fit _) ?_
  rintro f _ ⟨-, rfl⟩
  exact .pure ⟨h1.fit, h1.turn.finished, by simp⟩

/-- `serve_flush`. -/
theorem serveFlush_fit {fileid : ℕ} (hr : (Req.flush fileid).Fits s)
    (hZ : R.Z → (Req.flush fileid).Solitary s (slotOf s (envx envid)))
    (hE : (Req.flush fileid).Ends R s (slotOf s (envx envid))) :
    Run (serveFlush envid fileid) s (Served R C N (envx envid) s)
      (SFails R N C (envx envid) s) := by
  refine .bind (openfileLookup_fit h hl fileid) ?_
  intro i s1 h1
  refine .getBind ?_
  by_cases href : pageref (s1.fds i) < 2
  · rw [if_pos href]
    exact .throw ⟨h1.fit.trOk, by simp⟩
  rw [if_neg href]
  by_cases hw : writeMode (s1.opentab i).mode = true
  · rw [if_pos hw]
    have htr := h1.trans (by rw [← h1.tabs.1]; exact hw)
    have hl1 := h1.turn.alive hl
    refine h1.turn.step (commitTransaction_fit h1.fit htr fun hz => h1.light.alone (hZ hz)) ?_
    rintro _ _ ⟨g, rfl, ⟨a, ha, hf2⟩, ht2, ha2, hl2⟩
    have ht12 := h1.turn.trans ht2
    have has : Aside s.fs g := h1.aside.trans ha2
    have hlg : Light s.fs.mem g.mem := h1.light.trans hl2
    refine ht12.step (theFile_run hf2 _) ?_
    rintro f _ ⟨hof, rfl⟩
    rw [h1.tabs.1, h1.idx] at hof
    refine ht12.step (hf2.flush (has.inTree.mpr (hr f hof))) ?_
    rintro _ _ ⟨g', rfl, hrun, hf3, ht3, hm⟩
    have hEg := hE f hof g g' has (h.fs.handlesOf_light (h1.fit.trans _ _ htr).1 hlg) hrun
    rw [if_pos hw]
    refine .bind (endTransaction_fit (C := C) hf3 hl1 htr (by rw [hm]; exact ha) hEg fun hz => ?_) ?_
    · show Alone g'.mem _
      rw [hm]
      exact hlg.alone (hZ hz)
    · rintro _ s5 ⟨hf5, ht5, -, -, -⟩
      exact .pure ⟨hf5, (ht12.trans ht3).andThen ht5, by simp⟩
  · rw [if_neg hw]
    refine h1.turn.step (theFile_run h1.fit _) ?_
    rintro f _ ⟨hof, rfl⟩
    rw [h1.tabs.1, h1.idx] at hof
    refine h1.turn.step (h1.fit.flush (h1.aside.inTree.mpr (hr f hof))) ?_
    rintro _ _ ⟨g', rfl, -, hf3, ht3, -⟩
    rw [if_neg hw]
    exact .pure ⟨hf3, (h1.turn.trans ht3).finished, by simp⟩

/-- `serve_remove`. -/
theorem serveRemove_fit {path : ℕ → UInt8}
    (hZ : R.Z → (Req.remove path).Solitary s (slotOf s (envx envid)))
    (hE : (Req.remove path).Ends R s (slotOf s (envx envid))) :
    Run (serveRemove envid path) s (Served R ((Req.remove path).Calls s) N (envx envid) s)
      (SFails R N ((Req.remove path).Calls s) (envx envid) s) := by
  refine .bind (startTransaction_fit h hl) ?_
  intro _ s1 h1
  refine h1.turn.step (addHandleToTransaction_fit h1.fit _) ?_
  rintro _ _ ⟨g, rfl, hf2, ht2, ha2, hq2⟩
  have ht12 := h1.turn.trans ht2
  have hl1 := h1.turn.alive hl
  have hal : R.Z → Alone g.mem (slotOf s (envx envid)) := fun hz t' ht' hne hs => by
    refine (hq2 t' ?_).mpr (h1.light.alone (hZ hz) t' ht' hne hs)
    rw [h1.trans]
    exact fun hc => hne (Option.some.inj hc).symm
  refine ht12.step (commitTransaction_fit hf2 h1.trans hal) ?_
  rintro _ _ ⟨g3, rfl, ⟨a, ha, hf3⟩, ht3, ha3, hl3⟩
  have ht13 := ht12.trans ht3
  have has : Aside s.fs g3 := (h1.aside.trans ha2).trans ha3
  refine .step (liftFs_run (hf3.fs.attemptRemove (zero_not_mem_pathStr (copyPath path)))) (fun _ _ ⟨_, _, he⟩ => he.elim) ?_
  rintro r _ ⟨g4, rfl, hrun, hsd, hm⟩
  have hm3 := tEnvid_of_mem3 (f := g4) (g := g3) hm
  have hqm : ∀ t, Quiet g4.mem t ↔ Quiet g3.mem t := fun t => quiet_congr fun i _ => by rw [hm]
  have hp0 := zero_not_mem_pathStr (copyPath path)
  have hdone : (Op.remove (pathStr (copyPath path))).Done g3 g4 := ⟨r, hrun⟩
  have hfits : (Op.remove (pathStr (copyPath path))).Fits g3.mem := ⟨hp0, trivial, by simp⟩
  have ht14 := ht13.trans (.of_fs (e := envx envid) (s := { s1 with fs := g3 })
    (Acts.refl.call (C := (Req.remove path).Calls s) hf3.fs.tidy rfl hfits hdone) (hf3.fs.books_done hfits hdone))
  refine .bind (endTransaction_fit (C := (Req.remove path).Calls s) (hf3.of_fs hsd hm3) hl1 h1.trans (ha.imp_right fun ⟨h1, h2⟩ => ⟨h1, (hqm _).mpr h2⟩)
    (hE g3 r g4 has hrun) fun hz t' ht' hne hs => (hqm t').mpr (hl3.alone (hal hz) t' ht' hne hs)) ?_
  rintro _ s5 ⟨hf5, ht5, -, -, -⟩
  cases r with
  | ok _ => exact .pure ⟨hf5, ht14.andThen ht5, by simp⟩
  | error er => exact .throw ⟨hf5, ht14.andThen ht5⟩

/-- The part of `serve_open` that finds the file. -/
theorem openPath_fit (path : ℕ → UInt8) (omode : ℕ) (hco : C (.open (pathStr path)))
    (hcc : hasFlag omode O_CREAT = true → ∀ type, C (.create (pathStr path) type)) :
    Run (openPath envid path omode) s (Found R C N (envx envid) (pathStr path) s)
      (SFails R N C (envx envid) s) := by
  unfold openPath
  by_cases hc : hasFlag omode O_CREAT = true
  · rw [if_pos hc]
    refine .bind (startTransaction_fit h hl) ?_
    intro _ s1 h1
    refine h1.turn.step (addHandleToTransaction_fit h1.fit _) ?_
    rintro _ _ ⟨g, rfl, hf2, ht2, ha2, -⟩
    have ht12 := h1.turn.trans ht2
    have has : Aside s.fs g := h1.aside.trans ha2
    have hp := zero_not_mem_pathStr path
    refine ht12.step (hf2.lift _ (Op.runs_of_call rfl).attempt (hcc hc _) ⟨hp, trivial, by simp⟩
      (hf2.fs.attemptCreate hp _)) ?_
    rintro r _ ⟨g3, rfl, hf3, ht3, hin, hsame⟩
    have ht13 := ht12.trans ht3
    cases r with
    | ok f => exact .pure ⟨hf3, ht13, h1.tabs, (hin f rfl).1, .inl fun hf => (hin f rfl).2 (has.inTree.mpr hf)⟩
    | error er =>
      dsimp only
      split_ifs with hx
      · obtain rfl : er = .fileExists := hx.2
        exact (fileOpen_found hf3 _ path hco).mono
          (fun _ _ hf => hf.of_turn ht13 h1.tabs (has.sameTree.trans (hsame rfl))) fun _ _ he => he.of_turn ht13
      · exact .throw ⟨hf3, ht13.finished⟩
  · rw [if_neg hc]
    split_ifs
    · refine .bind (startTransaction_fit h hl) ?_
      intro _ s1 h1
      exact (fileOpen_found h1.fit _ path hco).mono
        (fun _ _ hf => hf.of_turn h1.turn h1.tabs h1.aside.sameTree) fun _ _ he => he.of_turn h1.turn
    · exact fileOpen_found h _ path hco

/-- `serve_open`. -/
theorem serveOpen_fit (path : ℕ → UInt8) (omode : ℕ) :
    Run (serveOpen envid path omode) s (Served R ((Req.open path omode).Calls s) N (envx envid) s)
      (SFails R N ((Req.open path omode).Calls s) (envx envid) s) := by
  refine .step (openfileAlloc_run s) ?_ ?_
  · rintro _ _ ⟨rfl, rfl⟩
    exact ⟨h, (Turn.refl _ _).finished⟩
  rintro i _ ⟨-, hi, rfl⟩
  have hnil := h.clients_nil hi
  have hf1 := h.reserve i
  have ht1 : Turn ((Req.open path omode).Calls s) (envx envid) s (reserve s i) := (Turn.refl _ s).of_tabs ⟨rfl, rfl⟩
  refine ht1.step (openPath_fit hf1 hl (copyPath path) omode (.inl rfl)
    fun hc type => .inr (.inl ⟨hc, type, rfl⟩)) ?_
  intro f s2 h2
  have ht12 := ht1.trans h2.turn
  have hmap : (s2.fds i).mapped = true := by rw [h2.tabs.2, reserve_fds]
  have hend : ∀ s3, Fit R N none s3 → Turn ((Req.open path omode).Calls s) (envx envid) s s3 → (s3.fds i).mapped = true →
      Run (do
        modify fun s => s.setOpen i ⟨(s.opentab i).fileid, some f, omode, copyPath path⟩
        pure { value := 0, page := some i }) s3 (Served R ((Req.open path omode).Calls s) N (envx envid) s)
        (SFails R N ((Req.open path omode).Calls s) (envx envid) s) := by
    intro s3 hf3 ht3 hm3
    refine .modifyBind (.pure ⟨hf3.setOpen i _, (ht3.of_tabs (by exact ⟨rfl, rfl⟩)).finished, ?_⟩)
    rintro j hj
    obtain rfl : i = j := Option.some.inj hj
    exact ⟨hnil, hm3⟩
  by_cases htr : hasFlag omode O_TRUNC = true
  · rw [if_pos htr]
    refine ht12.step (addHandleToTransaction_fit h2.fit _) ?_
    rintro _ _ ⟨g, rfl, hf3, ht3, ha3, -⟩
    have ht13 := ht12.trans ht3
    have hin3 := ha3.inTree.mpr h2.inTree
    refine ht13.step (hf3.lift (.setSize f 0) (Op.runs_of_unit rfl) (.inr (.inr ⟨htr, f, rfl, h2.path⟩))
      ⟨⟨hin3, le_rfl, by norm_num⟩, trivial, fun f' n hop => ?_⟩
      (hf3.fs.fileSetSize hin3 le_rfl (by norm_num) fun _ => Int.dvd_zero _)) ?_
    · rw [← (Op.setSize.inj hop).2]
      exact fun _ => Int.dvd_zero _
    rintro _ _ ⟨g', rfl, hf4, ht4, -⟩
    exact hend _ hf4 (ht13.trans ht4) hmap
  · rw [if_neg htr]
    exact hend s2 h2.fit ht12 hmap

/-- Every request. -/
theorem handle_fit {r : Req} (hok : r.Ok R s envid) :
    Run (handle envid r) s (Served R (r.Calls s) N (envx envid) s)
      (SFails R N (r.Calls s) (envx envid) s) := by
  obtain ⟨hr, hZ, hE⟩ := hok
  cases r with
  | «open» path omode => exact serveOpen_fit h hl path omode
  | setSize fileid size => exact serveSetSize_fit h hl hr
  | read fileid n => exact serveRead_fit h hl hr
  | write fileid n buf => exact serveWrite_fit h hl hr
  | stat fileid => exact .bind (serveStat_fit h hl fileid) fun _ _ hs => .pure hs
  | flush fileid => exact serveFlush_fit h hl hr hZ hE
  | remove path => exact serveRemove_fit h hl hZ hE
  | sync => exact .bind (sync_fit h hZ) fun _ _ hs => .pure ⟨hs.1, hs.2.finished, by simp⟩

end

end

/-! ### Runs -/

/-- `P` holds of every action in the state it is taken in. -/
def AlongS (P : Srv → Act → Prop) : List Act → Srv → Prop
  | [], _ => True
  | a :: as, s => P s a ∧ ∀ r s', step a s = .ok r s' → AlongS P as s'

theorem run_cons {a : Act} {as : List Act} {s s' : Srv} :
    run (a :: as) s = .ok () s' ↔ ∃ rep s1, step a s = .ok rep s1 ∧ run as s1 = .ok () s' := by
  show EStateM.bind (step a) (fun _ => run as) s = .ok () s' ↔ _
  unfold EStateM.bind
  cases step a s with
  | ok rep s1 => simp
  | error e s1 => simp

theorem run_append {as bs : List Act} {s s' : Srv} :
    run (as ++ bs) s = .ok () s' ↔ ∃ s1, run as s = .ok () s1 ∧ run bs s1 = .ok () s' := by
  induction as generalizing s with
  | nil =>
    constructor
    · exact fun h => ⟨s, rfl, h⟩
    · rintro ⟨s1, h1, h2⟩
      obtain ⟨-, rfl⟩ := EStateM.Result.ok.inj h1
      exact h2
  | cons a as ih =>
    rw [List.cons_append, run_cons]
    simp only [ih, run_cons]
    constructor
    · rintro ⟨rep, s1, h1, s2, h2, h3⟩
      exact ⟨s2, ⟨rep, s1, h1, h2⟩, h3⟩
    · rintro ⟨s2, ⟨rep, s1, h1, h2⟩, h3⟩
      exact ⟨rep, s1, h1, s2, h2, h3⟩

theorem run_snoc {a : Act} {as : List Act} {s s' : Srv} :
    run (as ++ [a]) s = .ok () s' ↔ ∃ s1 rep, run as s = .ok () s1 ∧ step a s1 = .ok rep s' := by
  rw [run_append]
  refine exists_congr fun s1 => ?_
  rw [run_cons, ← exists_and_left]
  refine exists_congr fun rep => and_congr_right fun _ => ?_
  constructor
  · rintro ⟨s2, h1, h2⟩
    obtain ⟨-, rfl⟩ := EStateM.Result.ok.inj h2
    exact h1
  · exact fun h => ⟨s', h, rfl⟩

/-- What every action keeps holds at the end of every run, and of a run that
stops what every action that stops leaves. -/
theorem run_keeps {P : Srv → Act → Prop} {I : Srv → Prop} {E : Fault → Srv → Prop}
    (hstep : ∀ s a, I s → P s a → Run (step a) s (fun _ s' => I s') E) :
    ∀ {as : List Act} {s : Srv}, I s → AlongS P as s → Run (run as) s (fun _ s' => I s') E
  | [], _, hi, _ => .pure hi
  | a :: _, _, hi, ⟨hP, hrest⟩ =>
    .bind ((hstep _ a hi hP).with_eq.mono (fun _ _ h => h) fun _ _ h => h.2) fun r s' ⟨hrun, hi'⟩ =>
      run_keeps hstep hi' (hrest r s' hrun)

section
variable {R : Rules} {N envid : ℕ} {s s' : Srv} {a : Act}

/-- A page with clients has got one more. -/
theorem Fit.addClient (h : Fit R N none s) {i e : ℕ} (hm : (s.fds i).mapped = true) :
    Fit R N none (s.setFd i { s.fds i with clients := e :: (s.fds i).clients }) := by
  refine h.setFd i fun hj => ?_
  rw [hm] at hj
  cases hj

/-- The turn of `serve` for the env `envid`. -/
structure Turned (R : Rules) (C : Op → Prop) (N envid : ℕ) (s s' : Srv) : Prop where
  fit : Fit R N none s'
  acts : Acts C s.fs s'.fs
  settled : Settled R N s.fs s'.fs

/-- The server stops while it works for the env `envid`. -/
def Panicked (R : Rules) (N : ℕ) (e : Fault) (s' : Srv) : Prop := ∃ p, e = .panic p ∧ TrOk R N s'.fs.trace ∧ p ≠ .dirSize

/-- The client maps the page it is sent. -/
def Srv.sent (s : Srv) (envid : ℕ) : Option ℕ → Srv
  | none => s
  | some i => s.setFd i { s.fds i with clients := envx envid :: (s.fds i).clients }

/-- What is served is what the handler does: an error is an answer, too. -/
theorem serve_run {r : Req} {Q P : Reply → Srv → Prop} {E F : Fault → Srv → Prop} (h : Run (handle envid r) s Q E)
    (hok : ∀ rep s', Q rep s' → P rep (s'.sent envid rep.page)) (herr : ∀ er s', E (.err er) s' → P { value := er.code } s')
    (hpanic : ∀ p s', E (.panic p) s' → F (.panic p) s') : Run (serve envid r) s P F := by
  unfold Run at h ⊢
  unfold serve
  cases hx : handle envid r s with
  | ok rep s1 =>
    rw [hx] at h
    have hQ := hok rep s1 h
    dsimp only
    cases hp : rep.page <;> rwa [hp] at hQ
  | error e s1 =>
    rw [hx] at h
    cases e with
    | err er => exact herr er s1 h
    | panic p => exact hpanic p s1 h

theorem serve_fit (h : Fit R N none s) (hl : s.Alive envid) {r : Req} (hok : r.Ok R s envid) :
    Run (serve envid r) s (fun _ s' => Turned R (r.Calls s) N envid s s') (Panicked R N) := by
  refine serve_run (handle_fit h hl hok) ?_ (fun er s1 hh => ⟨hh.1, hh.2.acts, hh.2.settled⟩) fun p s1 hh => ⟨p, rfl, hh⟩
  rintro rep s1 ⟨h1, h2, h3⟩
  cases hp : rep.page with
  | none => exact ⟨h1, h2.acts, h2.settled⟩
  | some i => exact ⟨h1.addClient (h3 i hp).2, h2.acts, h2.settled⟩

/-- What is served is what `step` does, for an env that is live. -/
theorem step_of_live {r : Req} (h : (s.envs (envx envid)).live = true ∧ (s.envs (envx envid)).id = envid) :
    step (.req envid r) s = serve envid r s := by
  show (if _ then serve envid r else _ : SrvM Reply) s = _
  rw [if_pos h]

theorem step_of_gone {r : Req} (h : ¬ ((s.envs (envx envid)).live = true ∧ (s.envs (envx envid)).id = envid)) :
    step (.req envid r) s = .ok { value := 0 } s := by
  show (if _ then serve envid r else _ : SrvM Reply) s = _
  rw [if_neg h]
  rfl

/-- A request; one of an env that is gone does nothing. -/
theorem step_req (h : Fit R N none s) {r : Req} (ha : (Act.req envid r).Ok R s) :
    Run (step (.req envid r)) s (fun _ s' => s = s' ∨ Turned R (r.Calls s) N envid s s')
      (Panicked R N) := by
  refine .getBind ?_
  split_ifs with hl
  · exact (serve_fit h hl (ha hl.1 hl.2)).post (fun _ _ h => .inr h)
  · exact .pure (.inl rfl)

/-! ### The actions of the clients -/

theorem nextEnvid_spec (id : ℕ) {e : ℕ} (he : e < 1024) :
    nextEnvid id e % 1024 = e ∧ 0 < nextEnvid id e ∧ nextEnvid id e < 2 ^ 31 := by
  unfold nextEnvid
  simp only [NENV]
  split_ifs with h
  · omega
  · rw [not_or] at h
    have : (id + 4096) / 1024 * 1024 % 2 ^ 32 % 1024 = 0 := by omega
    omega

theorem Fit.alloc (h : Fit R N none s) {e : ℕ} (he : e < 1024) :
    Fit R N none (s.setEnv e ⟨nextEnvid (s.envs e).id e, true, none⟩) := by
  refine ⟨h.fs, h.ip, fun e' t ht => ?_, fun e' he' => ?_, h.fds⟩
  · by_cases hee : e' = e
    · rw [hee, Srv.setEnv_envs] at ht
      cases ht
    · rw [s.setEnv_envs_ne _ hee] at ht ⊢
      exact h.trans e' t ht
  · by_cases hee : e' = e
    · rw [hee, Srv.setEnv_envs]
      exact nextEnvid_spec _ he
    · rw [s.setEnv_envs_ne _ hee] at he' ⊢
      exact h.ids e' he'

/-- The env in slot `e` is gone; its transaction stays as it is. -/
theorem Fit.exit (h : Fit R N none s) (e : ℕ) :
    Fit R N none { s.setEnv e { s.envs e with live := false } with
      fds := fun i => { s.fds i with clients := (s.fds i).clients.filter (· ≠ e) } } := by
  have hsame : ∀ e', ((s.setEnv e { s.envs e with live := false }).envs e').trans = (s.envs e').trans ∧
      ((s.setEnv e { s.envs e with live := false }).envs e').id = (s.envs e').id ∧
      (((s.setEnv e { s.envs e with live := false }).envs e').live = true → (s.envs e').live = true) := by
    intro e'
    by_cases hee : e' = e
    · rw [hee, Srv.setEnv_envs]
      exact ⟨rfl, rfl, by simp⟩
    · rw [s.setEnv_envs_ne _ hee]
      exact ⟨rfl, rfl, id⟩
  refine ⟨h.fs, h.ip, fun e' t ht => ?_, fun e' he' => ?_, fun i hi => ?_⟩
  · rw [(hsame e').1] at ht
    rw [(hsame e').2.1]
    exact h.trans e' t ht
  · rw [(hsame e').1] at he'
    rw [(hsame e').2.1]
    exact h.ids e' (he'.imp_left (hsame e').2.2)
  · simp only [h.fds i hi, List.filter_nil]

theorem Fit.drop (h : Fit R N none s) (i e : ℕ) :
    Fit R N none (s.setFd i { s.fds i with clients := (s.fds i).clients.erase e }) := by
  refine h.setFd i fun hj => ?_
  rw [h.fds i hj, List.erase_nil]

theorem Fit.mapped (h : Fit R N none s) {i : ℕ} (hi : (s.fds i).clients ≠ []) : (s.fds i).mapped = true := by
  by_contra hm
  exact hi (h.fds i (by simpa using hm))

/-- Every action that is in order. -/
theorem step_fit (h : Fit R N none s) (ha : a.Ok R s) :
    Run (step a) s (fun _ s' => Fit R N none s') (Panicked R N) := by
  cases a with
  | req envid r =>
    refine (step_req h ha).post ?_
    rintro _ s' (rfl | ht)
    · exact h
    · exact ht.fit
  | seek i off =>
    refine .modifyBind (.pure ?_)
    split_ifs
    · exact h
    · exact h.setOffset i _
  | share i e =>
    refine .modifyBind (.pure ?_)
    split_ifs with hc
    · exact h
    · exact h.addClient (h.mapped fun hn => hc (.inl hn))
  | drop i e => exact .modifyBind (.pure (h.drop i e))
  | exit e => exact .modifyBind (.pure (h.exit e))
  | alloc e =>
    refine .modifyBind (.pure ?_)
    split_ifs with hc
    · exact h.alloc hc.1
    · exact h

/-- Every run whose actions are in order. -/
theorem fit_of_run {as : List Act} (h : Fit R N none s) (hok : AlongS (Act.Ok R) as s) :
    Run (run as) s (fun _ s' => Fit R N none s') (Panicked R N) :=
  run_keeps (fun _ _ hf ha => step_fit hf ha) h hok

end

end Fs
end Jos
