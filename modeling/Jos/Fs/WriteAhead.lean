/-
# The order of the journal's writes

In every run whose requests fit the files they are about (`Req.Fits`), the
history of the disk is that of a write-ahead log: in no image is more than one
transaction active, and an active one has its handles on the disk, in blocks
that are in use (`walAt_of_run`). The runs that end in a panic are included.

A client that writes to a directory can point a file of its own at the journal
superblock, and then sets any record of it active.

Key definitions: `Act.Fits`, `plain`.
Key theorems: `walAt_of_run`, `two_active_of_dir_write`.
-/
import Jos.Fs.Start

namespace Jos
namespace Fs

/-- A request of a live env fits; the other actions are free. -/
def Act.Fits (s : Srv) : Act → Prop
  | .req envid r => (s.envs (envx envid)).live = true → (s.envs (envx envid)).id = envid → r.Fits s
  | _ => True

/-- No rules on when the journal is written. -/
def plain : Rules := ⟨False, fun _ _ _ => True⟩

section
variable {f : FsSt} {envs : ℕ → Env} {as : List Act} {s : Srv} {a : Act}

theorem Act.Fits.ok (h : a.Fits s) : a.Ok plain s := by
  cases a with
  | req envid r =>
    intro hl hid
    refine ⟨h hl hid, fun hz => hz.elim, ?_⟩
    cases r <;> simp [Req.Ends, plain]
  | seek i off => trivial
  | share i e => trivial
  | drop i e => trivial
  | exit e => trivial
  | alloc e => trivial

theorem AlongS.mono {P P' : Srv → Act → Prop} (hP : ∀ s a, P s a → P' s a) :
    ∀ {as : List Act} {s : Srv}, AlongS P as s → AlongS P' as s
  | [], _, _ => trivial
  | _ :: _, _, ⟨h, hrest⟩ => ⟨hP _ _ h, fun r s' hs => (hrest r s' hs).mono hP⟩

/-- Every run that fits. -/
theorem fit_of_fits (h : Ready f) (he : EnvsOk envs) (hok : AlongS (fun s a => a.Fits s) as (serverInit f envs)) :
    Run (run as) (serverInit f envs) (fun _ s' => Fit plain f.nblocks none s') (Panicked plain f.nblocks) :=
  fit_of_run (h.fit he) (hok.mono fun _ _ hf => hf.ok)

theorem Wal.at : ∀ {l evs : List Event} {d : Disk}, Wal (l ++ .write d :: evs) → WalAt d evs
  | [], _, _, h => h.1
  | .write _ :: _, _, _, h => Wal.at h.2
  | .freed _ :: l, _, _, h => Wal.at (l := l) h
  | .full :: l, _, _, h => Wal.at (l := l) h
  | .taken _ :: l, _, _, h => Wal.at (l := l) h
  | .commit .. :: l, _, _, h => Wal.at (l := l) h
  | .ending .. :: l, _, _, h => Wal.at (l := l) h

/-- After every disk write of a run, at most one transaction is active on the
disk, and its handles are there as they were committed, in blocks in use. -/
theorem walAt_of_run (h : Ready f) (he : EnvsOk envs) (hok : AlongS (fun s a => a.Fits s) as (serverInit f envs)) :
    ∀ l d evs, (after (run as) (serverInit f envs)).fs.trace = l ++ .write d :: evs → WalAt d evs := by
  intro l d evs htrace
  have hrun := fit_of_fits h he hok
  unfold Run at hrun
  unfold after at htrace
  refine Wal.at (l := l) ?_
  rw [← htrace]
  cases hx : run as (serverInit f envs) with
  | ok _ s' =>
    rw [hx] at hrun
    exact hrun.trOk.wal
  | error e s' =>
    rw [hx] at hrun
    obtain ⟨p, -, htr, -⟩ := hrun
    exact htr.wal

end

/-! ### A small server -/

/-- A client opens "a", writes to it and flushes it. -/
def writeA : List Act :=
  [.req 4098 (.open (bytes [97]) O_RDWR), .req 4098 (.write 1024 2 (bytes [1, 2])), .req 4098 (.flush 1024)]

theorem writeA_fits : AlongS (fun s a => a.Fits s) writeA (serverInit (boot twoFiles) someEnvs) := by
  refine alongS_cons (fun _ _ => trivial) (alongS_cons (fun _ _ f hf => ?_) (alongS_cons (fun _ _ f hf => ?_) trivial))
  · obtain rfl : (⟨4, 0⟩ : Ptr) = f := by
      refine Option.some.inj (Eq.trans ?_ hf)
      decide +kernel
    refine ⟨⟨[0], by decide +kernel⟩, by decide +kernel, by decide +kernel, by decide +kernel⟩
  · obtain rfl : (⟨4, 0⟩ : Ptr) = f := by
      refine Option.some.inj (Eq.trans ?_ hf)
      decide +kernel
    exact ⟨[0], by decide +kernel⟩

theorem walAt_of_writeA : returns (run writeA) (serverInit (boot twoFiles) someEnvs) = true ∧
    ∀ l d evs, (after (run writeA) (serverInit (boot twoFiles) someEnvs)).fs.trace = l ++ .write d :: evs →
      WalAt d evs :=
  ⟨by decide +kernel, walAt_of_run twoFiles_ready someEnvs_ok writeA_fits⟩

/-- A client writes an entry "x" into the root directory whose block is the
journal superblock, sets record 5 active through it, and flushes. -/
def forgeActive : List Act :=
  [.req 4098 (.open (bytes [47]) O_RDWR), .seek 0 512,
   .req 4098 (.write 1024 256 (withFile Block.zero 0 [120] 0 4096 3)),
   .req 4098 (.open (bytes [120]) O_RDWR), .seek 1 672, .req 4098 (.write 1025 4 (bytes [1])),
   .req 4098 (.flush 1025)]

/-- Transactions 0 and 5 are active in some image written. -/
def bothActive : List Event → Bool
  | [] => false
  | .write d :: evs => (0 < tActive d 0 && 0 < tActive d 5) || bothActive evs
  | _ :: evs => bothActive evs

theorem exists_of_bothActive {tr : List Event} (h : bothActive tr = true) :
    ∃ l d evs, tr = l ++ .write d :: evs ∧ ¬ WalAt d evs := by
  induction tr with
  | nil => exact absurd h (by simp [bothActive])
  | cons e evs ih =>
    by_cases hrest : bothActive evs = true
    · obtain ⟨l, d, evs', rfl, hw⟩ := ih hrest
      exact ⟨e :: l, d, evs', rfl, hw⟩
    · cases e with
      | write d =>
        simp only [bothActive, Bool.or_eq_true, Bool.and_eq_true, decide_eq_true_eq] at h
        obtain ⟨h0, h5⟩ := h.resolve_right hrest
        exact ⟨[], d, evs, rfl, fun hw => absurd (hw.one 0 (by omega) 5 (by omega) h0 h5) (by omega)⟩
      | freed b => exact absurd h hrest
      | full => exact absurd h hrest
      | taken b => exact absurd h hrest
      | commit t hs => exact absurd h hrest
      | ending t m y => exact absurd h hrest

/-- The order of the journal's writes is lost in a run that writes to a
directory. -/
theorem two_active_of_dir_write : ∃ f envs as, Ready f ∧ EnvsOk envs ∧
    ∃ l d evs, (after (run as) (serverInit f envs)).fs.trace = l ++ .write d :: evs ∧ ¬ WalAt d evs :=
  ⟨boot twoFiles, someEnvs, forgeActive, twoFiles_ready, someEnvs_ok, exists_of_bothActive (by decide +kernel)⟩

end Fs
end Jos
