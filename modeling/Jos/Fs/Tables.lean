/-
# The server's tables

What the handlers do to the open-file table, to the pages of the open files
and to the env table, from any state and with any file system: requests on an
open file leave the table as it is, and `serve_open` takes the first entry no
client has mapped. Nothing here rests on the file system being in order.

Key definitions: `Tabs`, `Leaves`, `Opened`.
Key theorems: `serveOpen_tabs`, `handle_tabs`, `ip_of_run`.
-/
import Jos.Fs.Start

namespace Jos
namespace Fs

/-- The tables are left alone, but for the seek positions and the transaction
of the env in slot `e`; that one is started only if `St`. -/
structure Tabs (e : ℕ) (St : Prop) (s s' : Srv) : Prop where
  opentab : s'.opentab = s.opentab
  fds : ∀ i, (s'.fds i).mapped = (s.fds i).mapped ∧ (s'.fds i).clients = (s.fds i).clients
  ids : ∀ e', (s'.envs e').id = (s.envs e').id ∧ (s'.envs e').live = (s.envs e').live
  trans : ∀ e', e' ≠ e → (s'.envs e').trans = (s.envs e').trans
  starts : (s'.envs e).trans ≠ none → (s.envs e).trans ≠ none ∨ St
  ip : s'.transReplayIp = s.transReplayIp

theorem writeMode_of_flag {mode : ℕ} (h : hasFlag mode O_CREAT = true) : writeMode mode = true := by
  unfold hasFlag at h
  unfold writeMode
  simp only [decide_eq_true_eq, ne_eq, Nat.and_or_distrib_left, Nat.or_eq_zero_iff] at h ⊢
  tauto

theorem writeMode_of_flags {mode : ℕ} (h : hasFlag mode (O_WRONLY ||| O_RDWR ||| O_TRUNC) = true) :
    writeMode mode = true := by
  unfold hasFlag at h
  unfold writeMode
  simp only [decide_eq_true_eq, ne_eq, Nat.and_or_distrib_left, Nat.or_eq_zero_iff] at h ⊢
  tauto

/-- `x` leaves the tables alone. -/
def Leaves {α : Type} (e : ℕ) (St : Prop) (x : SrvM α) : Prop :=
  ∀ s, Run x s (fun _ s' => Tabs e St s s') (fun _ s' => Tabs e St s s')

/-- And what it answers is as `V` says. -/
def Answers {α : Type} (V : α → Prop) (e : ℕ) (St : Prop) (x : SrvM α) : Prop :=
  ∀ s, Run x s (fun a s' => V a ∧ Tabs e St s s') (fun _ s' => Tabs e St s s')

section
variable {e : ℕ} {St St' : Prop} {s s' s'' : Srv} {α β : Type} {V : α → Prop}

theorem Tabs.refl (e : ℕ) (St : Prop) (s : Srv) : Tabs e St s s :=
  ⟨rfl, fun _ => ⟨rfl, rfl⟩, fun _ => ⟨rfl, rfl⟩, fun _ _ => rfl, .inl, rfl⟩

theorem Tabs.trans' (h : Tabs e St s s') (h' : Tabs e St s' s'') : Tabs e St s s'' where
  opentab := h'.opentab.trans h.opentab
  fds i := ⟨(h'.fds i).1.trans (h.fds i).1, (h'.fds i).2.trans (h.fds i).2⟩
  ids e' := ⟨(h'.ids e').1.trans (h.ids e').1, (h'.ids e').2.trans (h.ids e').2⟩
  trans e' he := (h'.trans e' he).trans (h.trans e' he)
  starts ht := (h'.starts ht).elim h.starts .inr
  ip := h'.ip.trans h.ip

theorem Tabs.mono (h : Tabs e St s s') (hs : St → St') : Tabs e St' s s' :=
  ⟨h.opentab, h.fds, h.ids, h.trans, fun ht => (h.starts ht).imp_right hs, h.ip⟩

namespace Leaves

theorem pure (a : α) : Leaves e St (Pure.pure a : SrvM α) := fun s => .pure (Tabs.refl e St s)

theorem throw (f : Fault) : Leaves e St (MonadExcept.throw f : SrvM α) := fun s => .throw (Tabs.refl e St s)

theorem bind {x : SrvM α} {f : α → SrvM β} (h : Leaves e St x) (hf : ∀ a, Leaves e St (f a)) :
    Leaves e St (x >>= f) := fun s =>
  .bind (h s) fun a s' hs => (hf a s').mono (fun _ _ h => hs.trans' h) fun _ _ h => hs.trans' h

theorem get {f : Srv → SrvM β} (hf : ∀ s, Leaves e St (f s)) : Leaves e St (MonadState.get >>= f) := fun s =>
  .getBind (hf s s)

theorem liftFs (x : FsM α) : Leaves e St (Fs.liftFs x) := by
  intro s
  have hs : ∀ f, Tabs e St s { s with fs := f } := fun f =>
    ⟨rfl, fun _ => ⟨rfl, rfl⟩, fun _ => ⟨rfl, rfl⟩, fun _ _ => rfl, .inl, rfl⟩
  refine (liftFs_run (.any x s.fs)).mono ?_ ?_
  · rintro _ _ ⟨f, rfl, -⟩
    exact hs f
  · rintro _ _ ⟨f, rfl, -⟩
    exact hs f

theorem ite {c : Prop} [Decidable c] {x y : SrvM α} (hx : c → Leaves e St x) (hy : ¬ c → Leaves e St y) :
    Leaves e St (if c then x else y) := by
  split_ifs with hc
  · exact hx hc
  · exact hy hc

/-- The transaction of `envid` is set; to one only if `St`. -/
theorem setTransaction {envid : ℕ} {t : Option ℕ} (ht : t ≠ none → St) :
    Leaves (envx envid) St (sysEnvSetTransaction envid t) := by
  intro s
  refine .modify ?_
  dsimp only
  split_ifs with hl
  · have hne : ∀ e', e' ≠ envx envid → (s.setEnv (envx envid) { s.envs (envx envid) with trans := t }).envs e' = s.envs e' :=
      fun e' he => s.setEnv_envs_ne _ he
    refine ⟨rfl, fun _ => ⟨rfl, rfl⟩, fun e' => ?_, fun e' he => by rw [hne e' he], fun h => .inr (ht ?_), rfl⟩
    · by_cases he : e' = envx envid
      · rw [he, Srv.setEnv_envs]
        exact ⟨rfl, rfl⟩
      · rw [hne e' he]
        exact ⟨rfl, rfl⟩
    · rwa [Srv.setEnv_envs] at h
  · exact Tabs.refl _ _ _

theorem startTransaction (envid : ℕ) (hs : St) : Leaves (envx envid) St (Fs.startTransaction envid) := by
  refine get fun s => ite (fun _ => pure _) fun _ => ite (fun _ => throw _) fun _ => ?_
  refine bind (setTransaction fun _ => hs) fun _ => get fun s1 => ?_
  cases (s1.envs (envx envid)).trans with
  | none => exact throw _
  | some t => exact bind (liftFs _) fun _ => get fun s2 => ite (fun _ => pure _) fun _ => throw _

theorem addHandleToTransaction (envid : ℕ) (h : Block) : Leaves e St (Fs.addHandleToTransaction envid h) := by
  refine get fun s => ite (fun _ => pure _) fun _ => ?_
  cases (s.envs (envx envid)).trans with
  | none => exact throw _
  | some t => exact liftFs _

theorem commitTransaction (envid : ℕ) : Leaves (envx envid) St (Fs.commitTransaction envid false) := by
  refine get fun s => ite (fun _ => pure _) fun _ => ?_
  rw [Bool.and_false, if_neg (by simp)]
  refine get fun s1 => ?_
  cases (s1.envs (envx envid)).trans with
  | none => exact throw _
  | some t => exact liftFs _

theorem endTransaction (envid : ℕ) : Leaves (envx envid) St (Fs.endTransaction envid) := by
  refine get fun s => ite (fun _ => pure _) fun _ => ?_
  cases (s.envs (envx envid)).trans with
  | none => exact throw _
  | some t => exact bind (liftFs _) fun _ => bind (liftFs _) fun _ => setTransaction fun h => absurd rfl h

theorem theFile (o : OpenFile) : Leaves e St (Fs.theFile o) := by
  unfold Fs.theFile
  cases o.file with
  | none => exact throw _
  | some f => exact pure _

theorem fdOffset (i : ℕ) : Leaves e St (Fs.fdOffset i) := get fun _ => ite (fun _ => pure _) fun _ => throw _

theorem advance (i r : ℕ) : Leaves e St (Fs.advance i r) := by
  intro s
  refine .modify ⟨rfl, fun j => ?_, fun _ => ⟨rfl, rfl⟩, fun _ _ => rfl, .inl, rfl⟩
  unfold Srv.setFd
  by_cases hj : j = i
  · subst hj
    simp
  · simp [Function.update_of_ne hj]

theorem openPath (envid : ℕ) (path : ℕ → UInt8) (omode : ℕ) :
    Leaves (envx envid) (writeMode omode = true) (Fs.openPath envid path omode) := by
  refine ite (fun hc => ?_) fun _ => ?_
  · refine bind (startTransaction envid (writeMode_of_flag hc)) fun _ => bind (addHandleToTransaction _ _) fun _ =>
      bind (liftFs _) fun r => ?_
    cases r with
    | ok f => exact pure _
    | error er => exact ite (fun _ => liftFs _) fun _ => throw _
  · exact ite (fun hc => bind (startTransaction envid (writeMode_of_flags hc)) fun _ => liftFs _) fun _ => liftFs _

end Leaves

namespace Answers

theorem pure {a : α} (ha : V a) : Answers V e St (Pure.pure a : SrvM α) := fun s => .pure ⟨ha, Tabs.refl e St s⟩

theorem throw (f : Fault) : Answers V e St (MonadExcept.throw f : SrvM α) := fun s => .throw (Tabs.refl e St s)

theorem bind {x : SrvM β} {f : β → SrvM α} (h : Leaves e St x) (hf : ∀ a, Answers V e St (f a)) :
    Answers V e St (x >>= f) := fun s =>
  .bind (h s) fun a s' hs => (hf a s').mono (fun _ _ h => ⟨h.1, hs.trans' h.2⟩) fun _ _ h => hs.trans' h

theorem get {f : Srv → SrvM α} (hf : ∀ s, Answers V e St (f s)) : Answers V e St (MonadState.get >>= f) := fun s =>
  .getBind (hf s s)

theorem ite {c : Prop} [Decidable c] {x y : SrvM α} (hx : Answers V e St x) (hy : Answers V e St y) :
    Answers V e St (if c then x else y) := by
  split_ifs
  · exact hx
  · exact hy

end Answers

/-- `openfile_lookup`: only of a file open for writing does it start a
transaction. -/
theorem openfileLookup_tabs (envid fileid : ℕ) (s : Srv) :
    Run (openfileLookup envid fileid) s
      (fun i s' => i = fileid % MAXOPEN ∧ pageref (s.fds i) ≠ 1 ∧ (s.opentab i).fileid = fileid ∧
        Tabs (envx envid) (writeMode (s.opentab i).mode = true) s s')
      (fun e s' => (e = .err .inval ∧ s = s' ∧ (pageref (s.fds (fileid % MAXOPEN)) = 1 ∨
          (s.opentab (fileid % MAXOPEN)).fileid ≠ fileid)) ∨
        (writeMode (s.opentab (fileid % MAXOPEN)).mode = true ∧ Tabs (envx envid) True s s')) := by
  refine .getBind ?_
  dsimp only
  split_ifs with hv hw
  · exact .throw (.inl ⟨rfl, rfl, hv⟩)
  · rw [not_or, not_not] at hv
    refine .step (Leaves.startTransaction envid hw s) (fun _ _ h => ?_) fun _ s' h =>
      .pure ⟨rfl, hv.1, hv.2, h⟩
    exact .inr ⟨hw, h.mono fun _ => trivial⟩
  · rw [not_or, not_not] at hv
    exact .pure ⟨rfl, hv.1, hv.2, Tabs.refl _ _ _⟩

/-- A handler that looks up an open file first. -/
theorem onFile_tabs (envid fileid : ℕ) {x : ℕ → SrvM α} (hx : ∀ i, Answers V (envx envid) False (x i)) (s : Srv) :
    Run (openfileLookup envid fileid >>= x) s
      (fun a s' => V a ∧ Tabs (envx envid) (writeMode (s.opentab (fileid % MAXOPEN)).mode = true) s s')
      (fun _ s' => Tabs (envx envid) (writeMode (s.opentab (fileid % MAXOPEN)).mode = true) s s') := by
  refine .step (openfileLookup_tabs envid fileid s) ?_ ?_
  · rintro e s' (⟨-, rfl, -⟩ | ⟨hw, ht⟩)
    · exact Tabs.refl _ _ _
    · exact ht.mono fun _ => hw
  · rintro i s1 ⟨rfl, -, -, ht⟩
    exact (hx _ s1).mono (fun _ _ h => ⟨h.1, ht.trans' (h.2.mono False.elim)⟩) fun _ _ h =>
      ht.trans' (h.mono False.elim)

/-! ### Every request -/

/-- The requests that may start a transaction. -/
def Req.Starts (s : Srv) : Req → Prop
  | .open _ omode => writeMode omode = true
  | .setSize id _ => writeMode (s.opentab (id % MAXOPEN)).mode = true
  | .read id _ => writeMode (s.opentab (id % MAXOPEN)).mode = true
  | .write id _ _ => writeMode (s.opentab (id % MAXOPEN)).mode = true
  | .stat id => writeMode (s.opentab (id % MAXOPEN)).mode = true
  | .flush id => writeMode (s.opentab (id % MAXOPEN)).mode = true
  | .remove _ => True
  | .sync => False

/-- The file a client opened is in entry `i`, which no client had mapped. -/
structure Opened (envid : ℕ) (r : Req) (s : Srv) (i : ℕ) (s' : Srv) : Prop where
  lt : i < MAXOPEN
  free : pageref (s.fds i) ≤ 1
  done : ∃ path omode f s1, r = .open path omode ∧ Tabs (envx envid) (r.Starts s) (reserve s i) s1 ∧
    s' = s1.setOpen i ⟨(s1.opentab i).fileid, some f, omode, copyPath path⟩

/-- Nothing was taken from the table, or an entry no client has mapped. -/
def Taken (s s1 : Srv) : Prop := s1 = s ∨ ∃ i < MAXOPEN, pageref (s.fds i) ≤ 1 ∧ s1 = reserve s i

theorem serveOpen_tabs (envid : ℕ) (path : ℕ → UInt8) (omode : ℕ) (s : Srv) :
    Run (serveOpen envid path omode) s
      (fun rep s' => ∃ i, rep.page = some i ∧ Opened envid (.open path omode) s i s')
      (fun _ s' => ∃ s1, Taken s s1 ∧ Tabs (envx envid) (writeMode omode = true) s1 s') := by
  refine .step (openfileAlloc_run s) ?_ ?_
  · rintro _ _ ⟨-, rfl⟩
    exact ⟨_, .inl rfl, Tabs.refl _ _ _⟩
  rintro i _ ⟨hi, hfree, rfl⟩
  have htaken : Taken s (reserve s i) := .inr ⟨i, hi, hfree, rfl⟩
  refine .step (Leaves.openPath envid (copyPath path) omode (reserve s i)) (fun _ s' h =>
    ⟨_, htaken, h⟩) ?_
  intro f s1 h1
  have hend : ∀ s2, Tabs (envx envid) (writeMode omode = true) (reserve s i) s2 →
      Run (do
        modify fun s => s.setOpen i ⟨(s.opentab i).fileid, some f, omode, copyPath path⟩
        pure { value := 0, page := some i } : SrvM Reply) s2
        (fun rep s' => ∃ i, rep.page = some i ∧ Opened envid (.open path omode) s i s')
        (fun _ s' => ∃ s1, Taken s s1 ∧ Tabs (envx envid) (writeMode omode = true) s1 s') := fun s2 h2 =>
    .modifyBind (.pure ⟨i, rfl, hi, hfree, path, omode, f, s2, rfl, h2, rfl⟩)
  split_ifs with htr
  · refine .step (Leaves.addHandleToTransaction envid _ s1) (fun _ s' h =>
      ⟨_, htaken, h1.trans' h⟩) ?_
    intro _ s2 h2
    refine .step (Leaves.liftFs _ s2) (fun _ s' h => ⟨_, htaken, (h1.trans' h2).trans' h⟩) ?_
    intro _ s3 h3
    exact hend s3 ((h1.trans' h2).trans' h3)
  · exact hend s1 h1

theorem handle_tabs (envid : ℕ) (r : Req) (s : Srv) :
    Run (handle envid r) s
      (fun rep s' => (rep.page = none ∧ Tabs (envx envid) (r.Starts s) s s') ∨
        ∃ i, rep.page = some i ∧ Opened envid r s i s')
      (fun _ s' => ∃ s1, Taken s s1 ∧ Tabs (envx envid) (r.Starts s) s1 s') := by
  have hkeep : Run (handle envid r) s (fun rep s' => rep.page = none ∧ Tabs (envx envid) (r.Starts s) s s')
        (fun _ s' => Tabs (envx envid) (r.Starts s) s s') →
      Run (handle envid r) s
        (fun rep s' => (rep.page = none ∧ Tabs (envx envid) (r.Starts s) s s') ∨
          ∃ i, rep.page = some i ∧ Opened envid r s i s')
        (fun _ s' => ∃ s1, Taken s s1 ∧ Tabs (envx envid) (r.Starts s) s1 s') := fun h =>
    h.mono (fun _ _ h => .inl h) fun _ _ h => ⟨s, .inl rfl, h⟩
  cases r with
  | «open» path omode => exact (serveOpen_tabs envid path omode s).post (fun _ _ h => .inr h)
  | setSize id size =>
    refine hkeep (onFile_tabs envid id (fun i => ?_) s)
    exact .get fun s1 => .bind (.addHandleToTransaction _ _) fun _ => .bind (.theFile _) fun f =>
      .bind (.liftFs _) fun _ => .pure rfl
  | read id n =>
    refine hkeep (onFile_tabs envid id (fun i => ?_) s)
    exact .bind (.fdOffset _) fun off => .get fun s1 => .bind (.theFile _) fun f => .bind (.liftFs _) fun r =>
      .bind (.advance _ _) fun _ => .pure rfl
  | write id n buf =>
    refine hkeep (onFile_tabs envid id (fun i => ?_) s)
    exact .get fun s1 => .bind (.theFile _) fun f => .ite (.throw _) (.bind (.fdOffset _) fun off =>
      .bind (.addHandleToTransaction _ _) fun _ => .bind (.liftFs _) fun r => .bind (.advance _ _) fun _ => .pure rfl)
  | stat id =>
    refine hkeep (.bind (onFile_tabs envid id (fun i => ?_) s) fun _ _ h => .pure h)
    exact .get fun s1 => .bind (.theFile _) fun f => .pure rfl
  | flush id =>
    refine hkeep (onFile_tabs envid id (fun i => ?_) s)
    refine .get fun s1 => .ite (.throw _) (.ite ?_ ?_)
    · exact .bind (.commitTransaction _) fun _ => .bind (.theFile _) fun f => .bind (.liftFs _) fun _ =>
        .ite (.bind (.endTransaction _) fun _ => .pure rfl) (.pure rfl)
    · exact .bind (.theFile _) fun f => .bind (.liftFs _) fun _ =>
        .ite (.bind (.endTransaction _) fun _ => .pure rfl) (.pure rfl)
  | remove path =>
    refine hkeep ?_
    have hl : Answers (fun rep => rep.page = none) (envx envid) True (serveRemove envid path) := by
      refine .bind (.startTransaction envid trivial) fun _ => .bind (.addHandleToTransaction _ _) fun _ =>
        .bind (.commitTransaction _) fun _ => .bind (.liftFs _) fun r => .bind (.endTransaction _) fun _ => ?_
      cases r with
      | ok _ => exact .pure rfl
      | error e => exact .throw _
    exact hl s
  | sync =>
    refine hkeep ?_
    have hl : Answers (fun rep => rep.page = none) (envx envid) False (handle envid .sync) :=
      .bind (.liftFs _) fun _ => .pure rfl
    exact hl s

/-- Only `serve_open` sends a page. -/
theorem handle_page (envid : ℕ) (r : Req) (hr : ∀ path omode, r ≠ .open path omode) (s : Srv) :
    Run (handle envid r) s (fun rep _ => rep.page = none) (fun _ _ => True) := by
  refine (handle_tabs envid r s).mono ?_ fun _ _ _ => trivial
  rintro rep s' (⟨hp, -⟩ | ⟨i, -, -, -, path, omode, f, s1, he, -⟩)
  · exact hp
  · exact absurd he (hr path omode)

theorem Taken.ip {s1 : Srv} (h : Taken s s1) : s1.transReplayIp = s.transReplayIp := by
  rcases h with rfl | ⟨i, -, -, rfl⟩
  · rfl
  · rfl

theorem step_ip (a : Act) (s : Srv) :
    Run (step a) s (fun _ s' => s'.transReplayIp = s.transReplayIp) (fun _ _ => True) := by
  cases a with
  | req envid r =>
    refine .getBind ?_
    split_ifs
    · refine serve_run (handle_tabs envid r s) ?_ (fun er s1 ⟨s2, ht, htab⟩ => htab.ip.trans ht.ip) fun _ _ _ => trivial
      rintro rep s1 (⟨hp, ht⟩ | ⟨j, hp, ho⟩) <;> rw [hp]
      · exact ht.ip
      · obtain ⟨path, omode, f, s2, -, ht, rfl⟩ := ho.done
        exact ht.ip
    · exact .pure rfl
  | seek j off =>
    refine .modifyBind (.pure ?_)
    split_ifs <;> rfl
  | share j e =>
    refine .modifyBind (.pure ?_)
    split_ifs <;> rfl
  | drop j e => exact .modifyBind (.pure rfl)
  | exit e => exact .modifyBind (.pure rfl)
  | alloc e =>
    refine .modifyBind (.pure ?_)
    split_ifs <;> rfl

/-- No request sets `trans_replay_ip`. -/
theorem ip_of_run {as : List Act} (hs : run as s = .ok () s') : s'.transReplayIp = s.transReplayIp := by
  induction as generalizing s with
  | nil =>
    obtain ⟨-, rfl⟩ := EStateM.Result.ok.inj hs
    rfl
  | cons a as ih =>
    obtain ⟨rep, s1, h1, h2⟩ := run_cons.mp hs
    exact (ih h2).trans ((step_ip a s).of_ok h1)

end

end Fs
end Jos
