/-
# Requests that are logged

What `serve_open`, `serve_set_size` and `serve_write` do in a run: the handles
of the request go into the log of the client's transaction, then the calls are
made. `add_handle_to_transaction` panics when the transaction has 1024 handles
or the disk has no block for one more. A request that finds room for its handles
is answered: with an error, or it was logged and executed.

* `logged_and_executed`: so it is with every request of a run in which every
  request finds room.
* `full_disk_stops`: without a free block, a client that sets the size of a file
  stops the server.

Key definitions: `Req.Roomy`, `Act.Answered`.
Key theorems: `Req.Roomy.opens`, `handle_done`, `logged_and_executed`.
-/
import Jos.Fs.Answers
import Jos.Fs.Failures

namespace Jos
namespace Fs

open Block

/-- The request of env `envid` finds what it needs: a slot for the transaction,
room in it, and a write that does not get lost. -/
def Req.Roomy (s : Srv) (envid : ℕ) : Req → Prop
  | .open _ omode =>
    (hasFlag omode O_CREAT = true ∨ hasFlag omode (O_WRONLY ||| O_RDWR ||| O_TRUNC) = true → SlotReady s envid) ∧
    (hasFlag omode O_CREAT = true ∨ hasFlag omode O_TRUNC = true → Room 2 (slotOf s (envx envid)) s.fs) ∧
    (hasFlag omode O_TRUNC = true → Solid s.fs.mem ∧ (hasFlag omode O_CREAT = true → DirsOk s.fs.mem ∧ Free 5 s.fs))
  | .write id n buf => (Req.write id n buf).Safe s envid ∧ (¬ Refused s id → ¬ Lost (slotOf s (envx envid))
      (writeHandle (s.opentab (id % MAXOPEN)).fpath (s.fds (id % MAXOPEN)).offset n buf) s.fs.mem)
  | r => r.Safe s envid

def Act.Roomy (s : Srv) : Act → Prop
  | .req envid r => (s.envs (envx envid)).live = true → (s.envs (envx envid)).id = envid → r.Roomy s envid
  | _ => True

/-- A request is answered: with an error code, or it was logged and executed. -/
def Act.Answered (s : Srv) : Act → Prop
  | .req envid r => (s.envs (envx envid)).live = true → (s.envs (envx envid)).id = envid →
      ∃ rep s', step (.req envid r) s = .ok rep s' ∧ ((∃ e : Err, rep.value = e.code) ∨ r.Done s envid rep s')
  | _ => True

section
variable {N : ℕ} {s : Srv} {envid : ℕ}

theorem not_badType_fileType (omode : ℕ) : ¬ BadType (fileType omode) := by
  unfold fileType
  split_ifs <;> simp [BadType]

/-- With `O_TRUNC` there is a block left after `file_create`: it takes two at most for a
new file, and none for one that is there. -/
theorem Req.Roomy.opens {path : ℕ → UInt8} {omode : ℕ} (hr : (Req.open path omode).Roomy s envid) :
    Opens N s envid (copyPath path) omode := by
  refine ⟨hr.1, hr.2.1, fun htr => (hr.2.2 htr).1, fun hc htr g hg has hfree => ?_⟩
  obtain ⟨hsolid, hnew⟩ := hr.2.2 htr
  obtain ⟨hdirs, h5⟩ := hnew hc
  have h3 := hfree 5 h5
  replace hsolid := has.solid hsolid
  replace hdirs := has.sameTree.dirsOk hdirs
  have hp := zero_not_mem_pathStr (copyPath path)
  obtain ⟨L, own, jown, -, hD, hi⟩ := hg
  refine (fileCreate_exact hi.inv hD hdirs hp (fileType omode)).with_eq.mono ?_ ?_
  · rintro f g' ⟨-, -, -, hcost⟩
    rw [hsolid.walkCost hi.inv hdirs _ (inTree_root _)] at hcost
    omega
  · rintro e g' ⟨hrun, er, rfl, hcase⟩ he
    cases he
    -- the error is the one of a path that leads to a file, which the walk finds without a change
    obtain ⟨-, ⟨dir, f, hf⟩, -⟩ | ⟨he', -⟩ := hcase
    · obtain ⟨g1, hl, hrun'⟩ := hi.inv.fileCreate_existing hD hdirs hsolid hp (not_badType_fileType omode) hf
      obtain rfl := (EStateM.Result.error.inj (hrun.symm.trans hrun')).2
      rw [hl.mem]
      exact ⟨hsolid, by omega⟩
    · cases he'

/-! ### Runs -/

section
variable (h : Fit plain N none s) (hl : s.Alive envid)
include h hl

/-- A request that finds what it needs does not stop the server. -/
theorem handle_done {r : Req} (hf : r.Fits s) (hr : r.Roomy s envid) :
    Run (handle envid r) s (r.Done s envid) (fun e _ => ∃ er, e = .err er) := by
  have hother : ∀ {r : Req}, r.Fits s → r.Safe s envid → (∀ rep s', r.Done s envid rep s') →
      Run (handle envid r) s (r.Done s envid) (fun e _ => ∃ er, e = .err er) := fun hf hs hd =>
    (handle_sure h hl hf hs).mono (fun rep s' _ => hd rep s') fun _ _ he => he
  cases r with
  | «open» path omode => exact serveOpen_done h hl hr.opens
  | setSize id size => exact serveSetSize_done h hl hf hr
  | write id n buf =>
    exact (serveWrite_done h hl hf hr.1).mono (fun _ _ hd => hd.2 (hr.2 hd.1)) fun _ _ he => he
  | read id n => exact hother hf hr fun _ _ => ⟨fun hne => absurd rfl hne, trivial⟩
  | stat id => exact hother hf hr fun _ _ => ⟨fun hne => absurd rfl hne, trivial⟩
  | flush id => exact hother hf hr fun _ _ => ⟨fun hne => absurd rfl hne, trivial⟩
  | remove path => exact hother hf hr fun _ _ => ⟨fun hne => absurd rfl hne, trivial⟩
  | sync => exact hother hf hr fun _ _ => ⟨fun hne => absurd rfl hne, trivial⟩

theorem serve_done {r : Req} (hf : r.Fits s) (hr : r.Roomy s envid) :
    ∃ rep s', serve envid r s = .ok rep s' ∧ ((∃ e : Err, rep.value = e.code) ∨ r.Done s envid rep s') := by
  refine (serve_run (F := fun _ _ => False) (handle_done h hl hf hr) (fun rep s' hd => .inr ⟨?_, ?_⟩)
    (fun er s' _ => .inl ⟨er, rfl⟩) fun _ _ ⟨_, hp⟩ => nomatch hp).exists_ok
  -- the client's mapping of the page is all that is added
  · cases hp : rep.page <;> exact hd.1
  · cases hp : rep.page <;> cases r <;> exact hd.2

end

/-- One action. -/
theorem step_done {a : Act} (h : Fit plain N none s) (hf : a.Fits s) (hr : a.Roomy s) :
    a.Answered s ∧ ∃ rep s', step a s = .ok rep s' ∧ Fit plain N none s' := by
  have hfit := step_fit h hf.ok
  have hgo : (∃ rep s', step a s = .ok rep s') → ∃ rep s', step a s = .ok rep s' ∧ Fit plain N none s' := by
    rintro ⟨rep, s', hx⟩
    exact ⟨rep, s', hx, hfit.of_ok hx⟩
  cases a with
  | req envid r =>
    by_cases hlive : (s.envs (envx envid)).live = true ∧ (s.envs (envx envid)).id = envid
    · obtain ⟨rep, s', hx, hd⟩ := serve_done h hlive (hf hlive.1 hlive.2) (hr hlive.1 hlive.2)
      rw [← step_of_live hlive] at hx
      exact ⟨fun _ _ => ⟨rep, s', hx, hd⟩, hgo ⟨rep, s', hx⟩⟩
    · exact ⟨fun h1 h2 => absurd ⟨h1, h2⟩ hlive, hgo ⟨{ value := 0 }, s, step_of_gone hlive⟩⟩
  | seek i off => exact ⟨trivial, hgo ⟨_, _, rfl⟩⟩
  | share i e => exact ⟨trivial, hgo ⟨_, _, rfl⟩⟩
  | drop i e => exact ⟨trivial, hgo ⟨_, _, rfl⟩⟩
  | exit e => exact ⟨trivial, hgo ⟨_, _, rfl⟩⟩
  | alloc e => exact ⟨trivial, hgo ⟨_, _, rfl⟩⟩

/-- All actions of a run, one after the other. -/
theorem run_done : ∀ {as : List Act} {s : Srv}, Fit plain N none s → AlongS (fun s a => a.Fits s ∧ a.Roomy s) as s →
    (∃ s', run as s = .ok () s') ∧ AlongS (fun s a => a.Answered s) as s
  | [], s, _, _ => ⟨⟨s, rfl⟩, trivial⟩
  | a :: as, s, h, ⟨⟨hf, hr⟩, hrest⟩ => by
    obtain ⟨hans, rep, s1, hx, h1⟩ := step_done h hf hr
    obtain ⟨⟨s', hrun⟩, -⟩ := run_done h1 (hrest rep s1 hx)
    refine ⟨⟨s', run_cons.mpr ⟨rep, s1, hx, hrun⟩⟩, hans, fun r s2 hx2 => ?_⟩
    obtain ⟨rfl, rfl⟩ := EStateM.Result.ok.inj (hx.symm.trans hx2)
    exact (run_done h1 (hrest rep s1 hx)).2

end

/-- A run in which every request fits and finds room does not stop, and each of
its requests is answered with an error code, or it was logged and executed. -/
theorem logged_and_executed {f : FsSt} {envs : ℕ → Env} {as : List Act} (h : Ready f) (he : EnvsOk envs)
    (hok : AlongS (fun s a => a.Fits s ∧ a.Roomy s) as (serverInit f envs)) :
    (∃ s, run as (serverInit f envs) = .ok () s) ∧ AlongS (fun s a => a.Answered s) as (serverInit f envs) :=
  run_done (h.fit he) hok

/-- The client sets the size of the file it has opened. -/
def openSetSize : List Act := openWrite ++ [.req 4098 (.setSize 1024 100)]

/-- The server once "a" is open for writing, on the image `d`. -/
def opened (d : Disk) : Srv := after (step (.req 4098 (.open (bytes [97]) O_RDWR))) (serverInit (boot d) someEnvs)

theorem opened_fits {d : Disk} (hfile : ((opened d).opentab (1024 % MAXOPEN)).file = some ⟨4, 0⟩)
    (hin : InTree (opened d).fs.mem ⟨4, 0⟩) (hreg : fType (opened d).fs.mem ⟨4, 0⟩ ≠ FTYPE_DIR) : (Req.setSize 1024 100).Fits (opened d) := by
  intro f hf
  obtain rfl : ⟨4, 0⟩ = f := Option.mem_unique hfile hf
  exact ⟨hin, by decide, by decide, fun ht => absurd ht hreg⟩

theorem openSetSize_logged : (∃ s, run openSetSize (serverInit (boot twoFiles) someEnvs) = .ok () s) ∧
    AlongS (fun s a => a.Answered s) openSetSize (serverInit (boot twoFiles) someEnvs) := by
  have hfile : ((opened twoFiles).opentab (1024 % MAXOPEN)).file = some ⟨4, 0⟩ := by decide +kernel
  have hin : InTree (opened twoFiles).fs.mem ⟨4, 0⟩ := ⟨[0], by decide +kernel⟩
  have hsafe : (Req.setSize 1024 100).Safe (opened twoFiles) 4098 :=
    .inr ⟨⟨⟨_, hfile⟩, by decide +kernel, fun _ => .inl (by decide +kernel)⟩, .inl (by decide +kernel),
      by decide +kernel, {10, 11}, by decide, by decide +kernel⟩
  refine logged_and_executed twoFiles_ready someEnvs_ok (alongS_cons ⟨fun _ _ => trivial, fun _ _ => ?_⟩
    (alongS_cons ⟨fun _ _ => opened_fits hfile hin (by decide +kernel), fun _ _ => hsafe⟩ trivial))
  exact ⟨fun _ => .inr ⟨by decide +kernel, by decide +kernel, by decide +kernel⟩, fun hx => absurd hx (by decide),
    fun hx => absurd hx (by decide)⟩

/-- The files "a" and "b", and no free block. -/
def twoFilesFull : Disk := image 16 0 4096 4 fun b =>
  if b = 4 then withFile (withFile Block.zero 0 [97] 0 10 5) 256 [98] 0 10 6 else Block.zero

/-- Without a free block, a client that opens a file for writing and sets its
size stops the server. -/
theorem full_disk_stops : ∃ f envs as, Ready f ∧ EnvsOk envs ∧ AlongS (fun s a => a.Fits s) as (serverInit f envs) ∧
    ∃ s, run as (serverInit f envs) = .error (.panic (.addHandle .noDisk)) s := by
  have hready : Ready (boot twoFilesFull) :=
    ready_image (l := [root, ⟨4, 0⟩, ⟨4, 256⟩]) (by decide +kernel) (by decide +kernel) (by decide +kernel)
  have hfits := opened_fits (d := twoFilesFull) (by decide +kernel) ⟨[0], by decide +kernel⟩ (by decide +kernel)
  exact ⟨_, someEnvs, openSetSize, hready, someEnvs_ok,
    alongS_cons (fun _ _ => trivial) (alongS_cons (fun _ _ => hfits) trivial), _, eq_error_of_throws (by decide +kernel)⟩

end Fs
end Jos
