/-
# File ids

An entry of the open-file table in a run: it is taken by `openfile_alloc`,
under an id that is new, handed out with its page by `serve_open`, and free
again once no client has the page mapped. `openfile_lookup` finds an entry by
its id if the page is mapped by the server and a client, and also if it is
mapped by nobody, which it takes for a page in use: the ids of entries never
opened are accepted, and their `o_file` is null.

Key definitions: `Entry`, `HandedOut`, `reuses`.
Key theorems: `step_entry`, `handedOut_of_run`, `fileid_of_run`, `lookup_of_run`.
-/
import Jos.Fs.Tables
import Mathlib.Data.List.Induction

namespace Jos
namespace Fs

open Function

/-- What an action does to entry `i` of the table. -/
inductive Entry (a : Act) (rep : Reply) (s s' : Srv) (i : ℕ) : Prop
  | kept (htab : s'.opentab i = s.opentab i) (hmap : (s'.fds i).mapped = (s.fds i).mapped)
      (hcl : (s'.fds i).clients ≠ [] → (s.fds i).clients ≠ [])
  /-- It is handed out to a client. -/
  | opened (envid : ℕ) (path : ℕ → UInt8) (omode : ℕ) (ha : a = .req envid (.open path omode)) (hpage : rep.page = some i)
      (hfile : (s'.opentab i).file ≠ none) (hid : (s'.opentab i).fileid = ((s.opentab i).fileid + MAXOPEN) % 2 ^ 32)
      (hmap : (s'.fds i).mapped = true) (hfree : pageref (s.fds i) ≤ 1)
  /-- It is taken for an open that fails. -/
  | taken (hid : (s'.opentab i).fileid = ((s.opentab i).fileid + MAXOPEN) % 2 ^ 32)
      (hmap : (s'.fds i).mapped = true) (hfree : pageref (s.fds i) ≤ 1)
      (hcl : (s'.fds i).clients = (s.fds i).clients)

section
variable {s s' : Srv} {rep : Reply} {a : Act} {e i : ℕ} {St : Prop}

theorem Tabs.entry (h : Tabs e St s s') (i : ℕ) : Entry a rep s s' i :=
  .kept (by rw [h.opentab]) (h.fds i).1 fun hc => by rwa [← (h.fds i).2]

theorem reserve_fileid (s : Srv) (i : ℕ) :
    ((reserve s i).opentab i).fileid = ((s.opentab i).fileid + MAXOPEN) % 2 ^ 32 := by
  unfold reserve Srv.setFd Srv.setOpen
  simp

/-- An entry after an open that failed. -/
theorem Taken.entry {s1 : Srv} (ht : Taken s s1) (h : Tabs e St s1 s') (i : ℕ) : Entry a rep s s' i := by
  rcases ht with rfl | ⟨j, -, hfree, rfl⟩
  · exact h.entry i
  · by_cases hij : i = j
    · subst hij
      refine .taken ?_ ?_ hfree ?_
      · rw [h.opentab, reserve_fileid]
      · rw [(h.fds i).1, reserve_fds]
      · rw [(h.fds i).2, reserve_fds]
    · obtain ⟨h1, h2⟩ := reserve_ne s hij
      refine .kept ?_ ?_ fun hc => ?_
      · rw [h.opentab, h1]
      · rw [(h.fds i).1, h2]
      · rwa [(h.fds i).2, h2] at hc

/-- An entry after an open that returned. -/
theorem Opened.entry {envid j : ℕ} {r : Req} (h : Opened envid r s j s') (hp : rep.page = some j) (i : ℕ) :
    Entry (.req envid r) rep s (s'.setFd j { s'.fds j with clients := envx envid :: (s'.fds j).clients }) i := by
  obtain ⟨path, omode, f, s1, rfl, ht, rfl⟩ := h.done
  by_cases hij : i = j
  · subst hij
    refine .opened envid path omode rfl hp ?_ ?_ ?_ h.free
    · simp [Srv.setFd, Srv.setOpen]
    · simp only [Srv.setFd, Srv.setOpen, update_self]
      rw [ht.opentab, reserve_fileid]
    · simp only [Srv.setFd, Srv.setOpen, update_self]
      rw [(ht.fds i).1, reserve_fds]
  · obtain ⟨h1, h2⟩ := reserve_ne s hij
    refine .kept ?_ ?_ ?_
    · simp only [Srv.setFd, Srv.setOpen, update_of_ne hij]
      rw [ht.opentab, h1]
    · simp only [Srv.setFd, Srv.setOpen, update_of_ne hij]
      rw [(ht.fds i).1, h2]
    · simp only [Srv.setFd, Srv.setOpen, update_of_ne hij]
      rw [(ht.fds i).2, h2]
      exact id

theorem serve_entry (envid : ℕ) (r : Req) (s : Srv) (i : ℕ) :
    Run (serve envid r) s (fun rep s' => Entry (.req envid r) rep s s' i) (fun _ _ => True) := by
  refine serve_run (handle_tabs envid r s) ?_ (fun er s1 ⟨s2, ht, htab⟩ => ht.entry htab i) fun _ _ _ => trivial
  rintro rep s1 (⟨hp, ht⟩ | ⟨j, hp, ho⟩)
  · rw [hp]
    exact ht.entry i
  · have hent := ho.entry hp i
    rwa [hp]

/-- Every action, seen from an entry. -/
theorem step_entry (a : Act) (s : Srv) (i : ℕ) :
    Run (step a) s (fun rep s' => Entry a rep s s' i) (fun _ _ => True) := by
  have hfd : ∀ {j : ℕ} {p : FdPage} {rep : Reply}, p.mapped = (s.fds j).mapped →
      (p.clients ≠ [] → (s.fds j).clients ≠ []) → Entry a rep s (s.setFd j p) i := by
    intro j p rep hm hc
    by_cases hij : i = j
    · subst hij
      refine .kept rfl ?_ ?_ <;> simpa [Srv.setFd]
    · refine .kept rfl ?_ ?_ <;> simp [Srv.setFd, update_of_ne hij]
  cases a with
  | req envid r =>
    refine .getBind ?_
    split_ifs
    · exact serve_entry envid r s i
    · exact .pure (.kept rfl rfl id)
  | seek j off =>
    refine .modifyBind (.pure ?_)
    split_ifs
    · exact .kept rfl rfl id
    · exact hfd rfl id
  | share j e =>
    refine .modifyBind (.pure ?_)
    split_ifs with hc
    · exact .kept rfl rfl id
    · exact hfd rfl fun _ hn => hc (.inl hn)
  | drop j e =>
    refine .modifyBind (.pure (hfd rfl fun hc hn => hc ?_))
    rw [hn, List.erase_nil]
  | exit e =>
    refine .modifyBind (.pure (.kept rfl rfl fun hc hn => hc ?_))
    simp [hn]
  | alloc e =>
    refine .modifyBind (.pure ?_)
    split_ifs
    · exact .kept rfl rfl id
    · exact .kept rfl rfl id

end

/-! ### Runs -/

/-- In the state `s` after the run `as`, entry `i` is `o` since an open of the
run handed it out, and its page was mapped by clients ever since. -/
inductive HandedOut (s₀ : Srv) : List Act → Srv → ℕ → OpenFile → Prop
  | opened {as : List Act} {s s' : Srv} {envid omode i : ℕ} {path : ℕ → UInt8} {rep : Reply}
      (hrun : run as s₀ = .ok () s) (hstep : step (.req envid (.open path omode)) s = .ok rep s')
      (hpage : rep.page = some i) :
      HandedOut s₀ (as ++ [.req envid (.open path omode)]) s' i (s'.opentab i)
  | kept {as : List Act} {s s' : Srv} {a : Act} {i : ℕ} {o : OpenFile} {rep : Reply} (h : HandedOut s₀ as s i o)
      (hstep : step a s = .ok rep s') (hcl : (s'.fds i).clients ≠ []) : HandedOut s₀ (as ++ [a]) s' i o

/-- How often entry `i` is taken in a run. -/
def reuses (i : ℕ) : List Act → Srv → ℕ
  | [], _ => 0
  | a :: as, s =>
    match step a s with
    | .ok _ s' => (if (s'.opentab i).fileid = (s.opentab i).fileid then 0 else 1) + reuses i as s'
    | .error _ _ => 0

section
variable {f : FsSt} {envs : ℕ → Env} {as : List Act} {s s' : Srv}

/-- Every entry with clients was handed out; an entry whose page was never
mapped has its first id. -/
theorem handedOut_of_run (hs : run as (serverInit f envs) = .ok () s) (i : ℕ) :
    ((s.fds i).mapped = false → (s.opentab i).fileid = i ∧ (s.fds i).clients = []) ∧
    ((s.fds i).clients ≠ [] → (s.opentab i).file ≠ none ∧ HandedOut (serverInit f envs) as s i (s.opentab i)) := by
  induction as using List.reverseRecOn generalizing s with
  | nil =>
    obtain ⟨-, rfl⟩ := EStateM.Result.ok.inj hs
    exact ⟨fun _ => ⟨rfl, rfl⟩, fun h => absurd rfl h⟩
  | append_singleton as a ih =>
    obtain ⟨s1, rep, h1, h2⟩ := run_snoc.mp hs
    obtain ⟨hfree, hout⟩ := ih h1
    have hnil : pageref (s1.fds i) ≤ 1 → (s1.fds i).clients = [] := by
      unfold pageref
      intro hp
      split_ifs at hp with hm
      · exact List.eq_nil_of_length_eq_zero (by omega)
      · exact (hfree (by simpa using hm)).2
    cases (step_entry a s1 i).of_ok h2 with
    | kept htab hmap hcl =>
      refine ⟨fun hm => ?_, fun hc => ?_⟩
      · obtain ⟨h3, h4⟩ := hfree (by rw [← hmap]; exact hm)
        refine ⟨by rw [htab, h3], ?_⟩
        by_contra hc
        exact hcl hc h4
      · obtain ⟨h3, h4⟩ := hout (hcl hc)
        rw [htab]
        exact ⟨h3, h4.kept h2 hc⟩
    | opened envid path omode ha hpage hfile hid hmap hfr =>
      subst ha
      exact ⟨fun hm => absurd hm (by simp [hmap]), fun _ => ⟨hfile, .opened h1 h2 hpage⟩⟩
    | taken hid hmap hfr hcl =>
      refine ⟨fun hm => absurd hm (by simp [hmap]), fun hc => absurd ?_ hc⟩
      rw [hcl, hnil hfr]

/-- The id of an entry counts how often it was taken. -/
theorem fileid_of_run (hs : run as s = .ok () s') (i : ℕ) :
    (s'.opentab i).fileid % 2 ^ 32 = ((s.opentab i).fileid + MAXOPEN * reuses i as s) % 2 ^ 32 := by
  induction as generalizing s with
  | nil =>
    obtain ⟨-, rfl⟩ := EStateM.Result.ok.inj hs
    rfl
  | cons a as ih =>
    obtain ⟨rep, s1, h1, h2⟩ := run_cons.mp hs
    have hih := ih h2
    have hre : reuses i (a :: as) s =
        (if (s1.opentab i).fileid = (s.opentab i).fileid then 0 else 1) + reuses i as s1 := by
      rw [reuses, h1]
    rw [hre]
    have hnew : (s1.opentab i).fileid = ((s.opentab i).fileid + MAXOPEN) % 2 ^ 32 →
        (s1.opentab i).fileid ≠ (s.opentab i).fileid ∧
          (s'.opentab i).fileid % 2 ^ 32 = ((s.opentab i).fileid + MAXOPEN * (1 + reuses i as s1)) % 2 ^ 32 := by
      intro hid
      rw [hid] at hih
      simp only [MAXOPEN] at hih hid ⊢
      omega
    cases (step_entry a s i).of_ok h1 with
    | kept htab _ _ =>
      rw [htab] at hih ⊢
      rwa [if_pos rfl, Nat.zero_add]
    | opened envid path omode ha hpage hfile hid hmap hfr =>
      rw [if_neg (hnew hid).1]
      exact (hnew hid).2
    | taken hid _ _ _ =>
      rw [if_neg (hnew hid).1]
      exact (hnew hid).2

theorem lookup_inval {id : ℕ} (envid : ℕ)
    (h : pageref (s.fds (id % MAXOPEN)) = 1 ∨ (s.opentab (id % MAXOPEN)).fileid ≠ id) :
    openfileLookup envid id s = .error (.err .inval) s := by
  show (if _ then _ else _ : SrvM ℕ) s = _
  rw [if_pos h]
  rfl

end

/-- A client opens "a": its id is 1024, which is found. -/
def openA : List Act := [.req 4098 (.open (bytes [97]) 0)]

end Fs
end Jos
