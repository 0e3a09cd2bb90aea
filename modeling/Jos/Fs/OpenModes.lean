/-
# Requests to change a file opened for reading

`serve_write` and `serve_set_size` do not look at the mode a file was opened
with. For a file opened for reading `openfile_lookup` starts no transaction;
the request then fails the assertion on the transaction of its env, or, if the
env has one for another file, goes through. It is answered with an error, and
changes nothing, exactly if `openfile_lookup` refuses the id.

Key definitions: `Refused`, `Polite`, `OnlyPanics`.
Key theorems: `serveSetSize_answer`, `polite_iff_refused`.
-/
import Jos.Fs.FileIds

namespace Jos
namespace Fs

/-- `openfile_lookup` refuses the id: the entry has another one, or no client
has its page mapped. -/
def Refused (s : Srv) (id : ℕ) : Prop :=
  pageref (s.fds (id % MAXOPEN)) = 1 ∨ (s.opentab (id % MAXOPEN)).fileid ≠ id

/-- The request is answered with an error code, and nothing is changed in the
cache or on the disk. -/
def Polite (envid : ℕ) (r : Req) (s : Srv) : Prop :=
  ∃ rep s', serve envid r s = .ok rep s' ∧ rep.value < 0 ∧ s'.fs.mem = s.fs.mem ∧ s'.fs.disk = s.fs.disk

/-- `x` returns or panics: it has no error code to return. -/
def OnlyPanics {σ α : Type} (x : EStateM Fault σ α) : Prop :=
  ∀ s, Run x s (fun _ _ => True) (fun e _ => ∃ p, e = .panic p)

namespace OnlyPanics

section
variable {σ α β : Type}

theorem pure (a : α) : OnlyPanics (Pure.pure a : EStateM Fault σ α) := fun _ => .pure trivial

theorem throw (p : Panic) : OnlyPanics (MonadExcept.throw (Fault.panic p) : EStateM Fault σ α) := fun _ =>
  .throw ⟨p, rfl⟩

theorem bind {x : EStateM Fault σ α} {f : α → EStateM Fault σ β} (h : OnlyPanics x) (hf : ∀ a, OnlyPanics (f a)) :
    OnlyPanics (x >>= f) := fun s => .bind (h s) fun a s' _ => hf a s'

theorem get {f : σ → EStateM Fault σ β} (hf : ∀ s, OnlyPanics (f s)) : OnlyPanics (MonadState.get >>= f) := fun s =>
  .getBind (hf s s)

theorem modify (f : σ → σ) : OnlyPanics (modify f : EStateM Fault σ PUnit) := fun _ => .modify trivial

theorem ite {c : Prop} [Decidable c] {x y : EStateM Fault σ α} (hx : OnlyPanics x) (hy : OnlyPanics y) :
    OnlyPanics (if c then x else y) := by
  split_ifs
  · exact hx
  · exact hy

end

section
variable {α : Type}

theorem attempt (x : FsM α) : OnlyPanics (Fs.attempt x) := fun s =>
  (attempt_run (.any x s)).mono (fun _ _ _ => trivial) fun _ _ h => h.1

theorem liftFs {x : FsM α} (h : OnlyPanics x) : OnlyPanics (Fs.liftFs x) := fun s =>
  (liftFs_run (h s.fs)).mono (fun _ _ _ => trivial) fun _ _ ⟨_, _, he⟩ => he

theorem touch (b : ℕ) : OnlyPanics (Fs.touch b) := fun s =>
  (touch_run b s).mono (fun _ _ _ => trivial) fun _ _ ⟨_, p, hp, _⟩ => ⟨p, hp⟩

theorem store (b off n : ℕ) (src : ℕ → UInt8) : OnlyPanics (Fs.store b off n src) := bind (touch b) fun _ => modify _

theorem store32 (b off v : ℕ) : OnlyPanics (Fs.store32 b off v) := store _ _ _ _

theorem flushBlock (b : ℕ) : OnlyPanics (Fs.flushBlock b) := fun s =>
  (flushBlock_run b s).mono (fun _ _ _ => trivial) fun _ _ ⟨_, hp, _⟩ => ⟨_, hp⟩

theorem freeBlock (b : ℕ) : OnlyPanics (Fs.freeBlock b) :=
  ite (throw _) (get fun _ => bind (store32 _ _ _) fun _ => bind (modify _) fun _ => flushBlock _)

theorem truncLoop (f : Ptr) : ∀ n bno, OnlyPanics (Fs.truncLoop f n bno)
  | 0, _ => pure _
  | n + 1, bno => bind (attempt _) fun _ => truncLoop f n (bno + 1)

theorem fileSetSize (f : Ptr) (newsize : ℤ) : OnlyPanics (Fs.fileSetSize f newsize) := by
  have htrunc : OnlyPanics (fileTruncateBlocks f newsize) :=
    get fun _ => bind (truncLoop _ _ _) fun _ => get fun _ => ite (bind (freeBlock _) fun _ => store32 _ _ _) (pure _)
  refine get fun s => ?_
  split_ifs
  · exact bind htrunc fun _ => bind (store32 _ _ _) fun _ => flushBlock _
  · exact bind (store32 _ _ _) fun _ => flushBlock _

theorem startTransaction (envid : ℕ) : OnlyPanics (Fs.startTransaction envid) := by
  refine get fun s => ite (pure _) (ite (throw _) (bind (modify _) fun _ => get fun s1 => ?_))
  cases (s1.envs (envx envid)).trans with
  | none => exact throw _
  | some t => exact bind (liftFs (store32 _ _ _)) fun _ => get fun _ => ite (pure _) (throw _)

theorem mergeLoop (t : ℕ) (h : Block) : ∀ k, OnlyPanics (Fs.mergeLoop t h k)
  | 0 => pure _
  | k + 1 => by
    refine bind (attempt _) fun r => ?_
    cases r with
    | error e => exact pure _
    | ok pdh =>
      refine bind (touch _) fun _ => get fun s => ite (ite (throw _) (ite ?_ (pure _))) (mergeLoop t h k)
      exact bind (store _ _ _ _) fun _ => bind (store32 _ _ _) fun _ => pure _

theorem appendHandle (t : ℕ) (h : Block) : OnlyPanics (Fs.appendHandle t h) := by
  refine get fun s => bind (store32 _ _ _) fun _ => bind (attempt _) fun r => ?_
  cases r with
  | error e => exact throw _
  | ok pdh => exact bind (store _ _ _ _) fun _ => get fun _ => store32 _ _ _

theorem addHandle (t : ℕ) (h : Block) : OnlyPanics (Fs.addHandle t h) := by
  refine get fun s => ite (bind (mergeLoop _ _ _) fun r => ?_) (appendHandle _ _)
  cases r with
  | merged => exact pure _
  | append => exact appendHandle _ _
  | dropped => exact pure _

theorem addHandleToTransaction (envid : ℕ) (h : Block) : OnlyPanics (Fs.addHandleToTransaction envid h) := by
  refine get fun s => ite (pure _) ?_
  cases (s.envs (envx envid)).trans with
  | none => exact throw _
  | some t => exact liftFs (addHandle _ _)

theorem theFile (o : OpenFile) : OnlyPanics (Fs.theFile o) := by
  unfold Fs.theFile
  cases o.file with
  | none => exact throw _
  | some f => exact pure _

end

end OnlyPanics

section
variable {s s' : Srv} {envid id n : ℕ} {size : ℤ} {buf : ℕ → UInt8} {r : Req}

/-- An id that is not refused: `openfile_lookup` can only panic. -/
theorem openfileLookup_answer (h : ¬ Refused s id) :
    Run (openfileLookup envid id) s (fun i _ => i = id % MAXOPEN) (fun e _ => ∃ p, e = .panic p) := by
  unfold Refused at h
  refine .getBind ?_
  dsimp only
  rw [if_neg h]
  split_ifs
  · exact .bind (OnlyPanics.startTransaction envid s) fun _ _ _ => .pure rfl
  · exact .pure rfl

/-- `serve_set_size` has no other answers than 0 and the refusal of the id. -/
theorem serveSetSize_answer (h : ¬ Refused s id) :
    Run (serveSetSize envid id size) s (fun rep _ => rep.value = 0) (fun e _ => ∃ p, e = .panic p) := by
  refine .bind (openfileLookup_answer h) fun i s1 _ => .getBind ?_
  refine .bind (OnlyPanics.addHandleToTransaction envid _ s1) fun _ s2 _ => ?_
  refine .bind (OnlyPanics.theFile _ s2) fun f s3 _ => ?_
  exact .bind ((OnlyPanics.fileSetSize f size).liftFs s3) fun _ _ _ => .pure rfl

/-- `serve_write` of more bytes than a handle has room for panics. -/
theorem serveWrite_large (h : ¬ Refused s id) (hn : HANDLE_DATASIZE < n) :
    Run (serveWrite envid id n buf) s (fun _ _ => False) (fun e _ => ∃ p, e = .panic p) := by
  refine .bind (openfileLookup_answer h) fun i s1 _ => .getBind ?_
  refine .bind (OnlyPanics.theFile _ s1) fun f s2 _ => ?_
  rw [if_pos hn]
  exact .throw ⟨_, rfl⟩

/-- Of a file opened for reading, `openfile_lookup` only finds the entry. -/
theorem openfileLookup_reading (h : ¬ Refused s id) (hmode : writeMode (s.opentab (id % MAXOPEN)).mode = false) :
    openfileLookup envid id s = .ok (id % MAXOPEN) s := by
  unfold Refused at h
  show (if _ then _ else _ : SrvM ℕ) s = _
  rw [if_neg h, hmode]
  rfl

/-- A refused id: every request on it fails at once. -/
theorem onFile_refused {α : Type} (h : Refused s id) (x : ℕ → SrvM α) :
    (openfileLookup envid id >>= x) s = .error (.err .inval) s := by
  show EStateM.bind _ _ _ = _
  rw [EStateM.bind, lookup_inval envid h]

theorem polite_of_refused {x : ℕ → SrvM Reply} (h : Refused s id) (hr : handle envid r = openfileLookup envid id >>= x) :
    Polite envid r s := by
  refine ⟨{ value := Err.inval.code }, s, ?_, by decide, rfl, rfl⟩
  rw [serve, hr, onFile_refused h]

/-- What a request that is answered with an error ran into. -/
theorem not_polite {Q : Reply → Srv → Prop} (h : Run (handle envid r) s Q (fun e _ => ∃ p, e = .panic p))
    (hQ : ∀ rep s', Q rep s' → 0 ≤ rep.value) : ¬ Polite envid r s := by
  rintro ⟨rep, s', hs, hneg, -⟩
  have hpos : Run (serve envid r) s (fun rep _ => 0 ≤ rep.value) fun _ _ => True :=
    serve_run h (fun rep s' => hQ rep s') (fun _ _ ⟨_, hp⟩ => nomatch hp) fun _ _ _ => trivial
  exact absurd (hpos.of_ok hs) (not_le.mpr hneg)

theorem serve_panics (h : Run (handle envid r) s (fun _ _ => False) (fun e _ => ∃ p, e = .panic p)) :
    ∃ p s', serve envid r s = .error (.panic p) s' := by
  unfold Run at h
  unfold serve
  cases hx : handle envid r s with
  | ok rep s1 =>
    rw [hx] at h
    exact h.elim
  | error e s1 =>
    rw [hx] at h
    obtain ⟨p, rfl⟩ := h
    exact ⟨p, s1, rfl⟩

/-- Without a transaction the handle cannot be logged. -/
theorem addHandle_noTrans (hip : s.transReplayIp = false) (ht : (s.envs (envx envid)).trans = none) (h : Block) :
    Run (addHandleToTransaction envid h) s (fun _ _ => False) (fun e _ => ∃ p, e = .panic p) := by
  refine .getBind ?_
  rw [if_neg (by simp [hip]), ht]
  exact .throw ⟨_, rfl⟩

/-- A file opened for reading, by an env without a transaction: the requests
to change it end in an assertion. -/
theorem reading_panics (hip : s.transReplayIp = false) (h : ¬ Refused s id)
    (hmode : writeMode (s.opentab (id % MAXOPEN)).mode = false) (ht : (s.envs (envx envid)).trans = none) :
    (∃ p s', serve envid (.setSize id size) s = .error (.panic p) s') ∧
    ∃ p s', serve envid (.write id n buf) s = .error (.panic p) s' := by
  have hlook : Run (openfileLookup envid id) s (fun _ s' => s = s') (fun e _ => ∃ p, e = .panic p) := by
    unfold Run
    rw [openfileLookup_reading h hmode]
  constructor
  · refine serve_panics (.bind hlook ?_)
    rintro i _ rfl
    exact .getBind (.bind (addHandle_noTrans hip ht _) nofun)
  · refine serve_panics (.bind hlook ?_)
    rintro i _ rfl
    refine .getBind ?_
    have hkeep : ∀ o : OpenFile, Run (theFile o) s (fun _ s' => s = s') (fun e _ => ∃ p, e = .panic p) := by
      intro o
      unfold theFile
      cases o.file with
      | none => exact .throw ⟨_, rfl⟩
      | some f => exact .pure rfl
    refine .bind (hkeep _) ?_
    rintro f _ rfl
    split_ifs
    · exact .throw ⟨_, rfl⟩
    refine .bind (Q := fun _ s' => s = s') ?_ ?_
    · refine .getBind ?_
      split_ifs
      · exact .pure rfl
      · exact .throw ⟨_, rfl⟩
    rintro off _ rfl
    exact .bind (addHandle_noTrans hip ht _) nofun

end

/-- After every run, and for every file opened for reading: requests to change
it are answered with an error, and change nothing, exactly if the server
refuses the id. If it does not, and the env that asks has no transaction, the
server stops. -/
theorem polite_iff_refused {f : FsSt} {envs : ℕ → Env} {as : List Act} {s : Srv} {id : ℕ}
    (hs : run as (serverInit f envs) = .ok () s)
    (hmode : (s.opentab (id % MAXOPEN)).fileid = id → writeMode (s.opentab (id % MAXOPEN)).mode = false) (envid : ℕ) :
    (∀ size, Polite envid (.setSize id size) s ↔ Refused s id) ∧
    ((∀ n buf, Polite envid (.write id n buf) s) ↔ Refused s id) ∧
    (¬ Refused s id → (s.envs (envx envid)).trans = none →
      (∀ size, ∃ p s', serve envid (.setSize id size) s = .error (.panic p) s') ∧
      ∀ n buf, ∃ p s', serve envid (.write id n buf) s = .error (.panic p) s') := by
  refine ⟨fun size => ⟨fun hp => ?_, fun hr => polite_of_refused hr rfl⟩,
    ⟨fun hp => ?_, fun hr n buf => polite_of_refused hr rfl⟩, fun hn ht => ?_⟩
  · by_contra hn
    exact not_polite (r := .setSize id size) (serveSetSize_answer hn) (fun rep _ h => h.ge) hp
  · by_contra hn
    exact not_polite (r := .write id (HANDLE_DATASIZE + 1) fun _ => 0) (serveWrite_large hn (by omega))
      nofun (hp _ _)
  · have hip : s.transReplayIp = false := (ip_of_run hs).trans rfl
    have hm := hmode (not_not.mp (not_or.mp hn).2)
    have hpanics : ∀ size n buf, (∃ p s', serve envid (.setSize id size) s = .error (.panic p) s') ∧
        ∃ p s', serve envid (.write id n buf) s = .error (.panic p) s' := fun _ _ _ => reading_panics hip hn hm ht
    exact ⟨fun size => (hpanics size 0 fun _ => 0).1, fun n buf => (hpanics 0 n buf).2⟩

/-- "a" is opened for reading and closed: its id is refused from then on. -/
theorem polite_after_close : ∃ s, run (openA ++ [.drop 0 2]) (serverInit (boot twoFiles) someEnvs) = .ok () s ∧
    Refused s 1024 ∧ (∀ size, Polite 4098 (.setSize 1024 size) s) ∧ ∀ n buf, Polite 4098 (.write 1024 n buf) s := by
  have hrun := eq_ok_of_returns (x := run (openA ++ [.drop 0 2])) (s := serverInit (boot twoFiles) someEnvs)
    (by decide +kernel)
  obtain ⟨h1, h2, -⟩ := @polite_iff_refused _ _ _ _ 1024 hrun (fun _ => by decide +kernel) 4098
  have hr : Refused (after (run (openA ++ [.drop 0 2])) (serverInit (boot twoFiles) someEnvs)) 1024 :=
    .inl (by decide +kernel)
  exact ⟨_, hrun, hr, fun size => (h1 size).mpr hr, h2.mpr hr⟩

/-- A file opened for reading: a request to write to it stops the server, and
one of a client that has another file open for writing truncates it. -/
theorem reading_not_refused :
    (∃ s, run openA (serverInit (boot twoFiles) someEnvs) = .ok () s ∧ (s.opentab 0).mode = 0 ∧
      ∃ s', serve 4098 (.write 1024 1 (bytes [1])) s = .error (.panic .noTrans) s') ∧
    ∃ s, run (openA ++ [.req 4098 (.open (bytes [98]) O_RDWR)]) (serverInit (boot twoFiles) someEnvs) = .ok () s ∧
      (s.opentab 0).mode = 0 ∧ ∃ rep s', serve 4098 (.setSize 1024 0) s = .ok rep s' ∧ rep.value = 0 ∧
        fSize s.fs.mem ⟨4, 0⟩ ≠ 0 ∧ fSize s'.fs.mem ⟨4, 0⟩ = 0 := by
  have hrun1 := eq_ok_of_returns (x := run openA) (s := serverInit (boot twoFiles) someEnvs) (by decide +kernel)
  have hrun2 := eq_ok_of_returns (x := run (openA ++ [.req 4098 (.open (bytes [98]) O_RDWR)]))
    (s := serverInit (boot twoFiles) someEnvs) (by decide +kernel)
  refine ⟨⟨_, hrun1, by decide +kernel, _, eq_error_of_throws (by decide +kernel)⟩, _, hrun2, by decide +kernel, ?_⟩
  obtain ⟨rep, hrep, h0⟩ := exists_of_returned (x := serve 4098 (.setSize 1024 0))
    (s := after (run (openA ++ [.req 4098 (.open (bytes [98]) O_RDWR)])) (serverInit (boot twoFiles) someEnvs))
    (p := fun rep => rep.value = 0) (by decide +kernel)
  exact ⟨rep, _, hrep, by simpa using h0, by decide +kernel, by decide +kernel⟩

end Fs
end Jos
