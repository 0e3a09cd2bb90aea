/-
# Is the other end of the pipe closed?

`_pipeisclosed` compares two reference counts: that of the Fd page of its own
end and that of the data page, which every descriptor of the pipe has mapped
beside its Fd page. They are equal only when no descriptor of the other end is
left, provided that no operation ever has an Fd page mapped without its data
page. `close` unmaps the Fd page first, `dup` maps the data page first; `fork`
and `copy_shared_pages` go by address, and Fd pages are below data pages.

The model has one pipe and the descriptor areas of all envs: page `i` is the Fd
page of descriptor `i < MAXFD`, page `MAXFD + i` its data page. An operation of
the library is a sequence of system calls, each a step; between two of them any
other env may be scheduled. Runs start when `pipe` returns: before, its pages
are mapped nowhere else. Reference counts are numbers of mappings.

* `truthful_of_run`: the answer is right, if it is asked while no `fork` or
  `spawn` is copying.
* `seems_closed`: a reader is told that the pipe is closed while its writer is
  forking.
-/
import Mathlib.Data.List.AList
import Mathlib.Data.List.Perm.Subperm
import Mathlib.Tactic.Ring
import Jos.Base.Steps

namespace Jos
namespace Lib
namespace PipeClosed

open Function

abbrev MAXFD : ℕ := 32
abbrev NENV : ℕ := 1024

/-- The two ends of the pipe. -/
inductive End
  | read
  | write
  deriving DecidableEq

def End.other : End → End
  | .read => .write
  | .write => .read

/-- The pages of the pipe: the Fd page of each end, and the data page. -/
inductive Frame
  | fd (x : End)
  | data
  deriving DecidableEq

/-- What is mapped at a page of the descriptor area of an env. -/
abbrev Maps := AList fun _ : ℕ × ℕ => Frame

/-- Where an env is. After a `close` it goes on at `next`. -/
inductive Pc
  | idle
  | closeFd (i : ℕ) (next : Pc)
  | closeData (i : ℕ) (next : Pc)
  | closeEnd (i : ℕ) (next : Pc)
  | dupData (old new : ℕ)
  | dupFd (old new : ℕ)
  | undoFd (new : ℕ)
  | undoData (new : ℕ)
  | exit (i : ℕ)
  | copy (child : ℕ) (pages : List ℕ)
  | check (i : ℕ)
  | check2 (i n ref : ℕ)
  | check3 (i n : ℕ) (ret : Bool)
  deriving DecidableEq

/-- All envs: their mappings, which slots are in use and which of those can run, where each is, how
often each has been run (`env_runs`), and the env that is running. -/
structure Sys where
  maps : Maps
  used : ℕ → Bool
  alive : ℕ → Bool
  pc : ℕ → Pc
  runs : ℕ → ℕ
  cur : ℕ

/-- After `pipe` in env `e`, with descriptors `i` for reading and `j` for writing. -/
def init (e i j : ℕ) : Sys where
  maps := ((((∅ : Maps).insert (e, i) (.fd .read)).insert (e, j) (.fd .write)).insert (e, MAXFD + i) .data).insert
    (e, MAXFD + j) .data
  used e' := e' = e
  alive e' := e' = e
  pc _ := .idle
  runs _ := 1
  cur := e

namespace Sys

/-- What env `e` has at page `k`. -/
def page (s : Sys) (e k : ℕ) : Option Frame := s.maps.lookup (e, k)

/-- `sys_page_map`, and `sys_page_unmap` for `none`. -/
def setPage (s : Sys) (e k : ℕ) : Option Frame → Sys
  | some f => { s with maps := s.maps.insert (e, k) f }
  | none => { s with maps := s.maps.erase (e, k) }

def goto (s : Sys) (p : Pc) : Sys := { s with pc := update s.pc s.cur p }

/-- The reference count of a page. -/
def refs (s : Sys) (f : Frame) : ℕ := s.maps.entries.countP fun x => x.2 = f

/-- `pageref`. -/
def pageref (s : Sys) (e k : ℕ) : ℕ :=
  match s.page e k with
  | some f => s.refs f
  | none => 0

/-- The pages of the descriptor area that are mapped, by address. -/
def mapped (s : Sys) (e : ℕ) : List ℕ := (List.range (2 * MAXFD)).filter fun k => (s.page e k).isSome

/-- The kernel takes away all pages of an env. -/
def unmapAll (s : Sys) (e : ℕ) : Sys := (List.range (2 * MAXFD)).foldl (fun s k => s.setPage e k none) s

end Sys

/-- The next step of the running env. A system call that needs memory fails if there is none. -/
def run (memory : Bool) (s : Sys) : Sys :=
  let e := s.cur
  match s.pc e with
  | .idle => s
  -- devpipe_close, and fd_close once more after it
  | .closeFd i next => (s.setPage e i none).goto (.closeData i next)
  | .closeData i next => (s.setPage e (MAXFD + i) none).goto (.closeEnd i next)
  | .closeEnd i next => (s.setPage e i none).goto next
  | .dupData old new =>
    match s.page e (MAXFD + old) with
    | none => s.goto (.dupFd old new)
    | some f => if memory then (s.setPage e (MAXFD + new) (some f)).goto (.dupFd old new) else s.goto (.undoFd new)
  | .dupFd old new =>
    match s.page e old with
    | none => s.goto (.undoFd new)
    | some f => if memory then (s.setPage e new (some f)).goto .idle else s.goto (.undoFd new)
  | .undoFd new => (s.setPage e new none).goto (.undoData new)
  | .undoData new => (s.setPage e (MAXFD + new) none).goto .idle
  -- close_all, then sys_env_destroy
  | .exit i =>
    if i < MAXFD then
      if (s.page e i).isSome then s.goto (.closeFd i (.exit (i + 1))) else s.goto (.exit (i + 1))
    else
      { (s.unmapAll e).goto .idle with
        used := update s.used e false, alive := update s.alive e false }
  -- the loop of fork and of copy_shared_pages; a failure there is a panic of this env
  | .copy c [] => { s.goto .idle with alive := update s.alive c true }
  | .copy c (k :: ks) => if memory then (s.setPage c k (s.page e k)).goto (.copy c ks) else s
  -- _pipeisclosed
  | .check i => s.goto (.check2 i (s.runs e % 2 ^ 32) (s.pageref e i))
  | .check2 i n ref => s.goto (.check3 i n (ref = s.pageref e (MAXFD + i)))
  | .check3 i n _ => if n = s.runs e % 2 ^ 32 then s.goto .idle else s.goto (.check i)

/-- The operations of the library. `fork` is also `spawn`. -/
inductive Op
  | dup (old new : ℕ)
  | close (i : ℕ)
  | fork (child : ℕ)
  | exit
  | pipeisclosed (i : ℕ)

/-- The running env begins an operation. -/
def begin (s : Sys) : Op → Sys
  | .dup old new =>
    if (s.page s.cur old).isSome ∧ old < MAXFD ∧ new < MAXFD then
      if (s.page s.cur new).isSome then s.goto (.closeFd new (.dupData old new)) else s.goto (.dupData old new)
    else s
  | .close i => if (s.page s.cur i).isSome ∧ i < MAXFD then s.goto (.closeFd i .idle) else s
  | .fork c =>
    if s.used c = false ∧ c < NENV then
      { s.goto (.copy c (s.mapped s.cur)) with used := update s.used c true }
    else s
  | .exit => s.goto (.exit 0)
  | .pipeisclosed i => if (s.page s.cur i).isSome ∧ i < MAXFD then s.goto (.check i) else s

/-- An env out of any operation. -/
def Pc.isIdle : Pc → Bool
  | .idle => true
  | _ => false

/-- What can happen: another env is scheduled, the running env begins an operation, or takes a step of
the one it is in. -/
inductive Ev
  | schedule (e : ℕ)
  | op (o : Op)
  | run (memory : Bool)

def step : Ev → Sys → Sys
  | .schedule e, s =>
    if s.alive e then { s with cur := e, runs := update s.runs e (s.runs e + 1) } else s
  | .op o, s => if s.alive s.cur ∧ (s.pc s.cur).isIdle then begin s o else s
  | .run memory, s => if s.alive s.cur then run memory s else s

/-! ### What is asked -/

/-- If `_pipeisclosed` is about to return true, no env has the Fd page of the other end mapped. -/
def Truthful (s : Sys) : Prop :=
  ∀ i n x, s.pc s.cur = .check3 i n true → n = s.runs s.cur % 2 ^ 32 → s.page s.cur i = some (.fd x) →
    ∀ e k, s.page e k ≠ some (.fd x.other)

/-- The env is copying its pages to a child. -/
def Pc.copying : Pc → Bool
  | .copy .. => true
  | _ => false

/-- The env is at the first read of `_pipeisclosed`. -/
def Pc.checking : Pc → Bool
  | .check _ => true
  | _ => false

/-- `_pipeisclosed` begins to read only while no env is copying, and `env_runs` does not wrap. -/
def Undisturbed : Ev → Sys → Prop
  | .schedule e, s => s.runs e + 1 < 2 ^ 32
  | .run _, s => (s.pc s.cur).checking → ∀ e < NENV, (s.pc e).copying = false
  | .op _, _ => True

instance (ev : Ev) (s : Sys) : Decidable (Undisturbed ev s) :=
  match ev with
  | .schedule _ => inferInstanceAs (Decidable (_ < _))
  | .run _ => inferInstanceAs (Decidable (_ → _))
  | .op _ => .isTrue trivial

/-! ### Counting -/

/-- The pages of an env that is in no copy: an Fd page has its data page beside it. -/
structure Good (P : ℕ → Option Frame) : Prop where
  fd : ∀ k x, P k = some (.fd x) → k < MAXFD ∧ P (MAXFD + k) = some .data
  data : ∀ k, P k = some .data → MAXFD ≤ k ∧ k < 2 * MAXFD

def Frame.isFd : Frame → Bool
  | .fd _ => true
  | .data => false

variable {s s' : Sys} {P Q : ℕ → Option Frame} {e e' k k' i : ℕ} {p : Pc} {ks : List ℕ}

theorem page_eq_some {f : Frame} : s.page e k = some f ↔ (⟨(e, k), f⟩ : (_ : ℕ × ℕ) × Frame) ∈ s.maps.entries :=
  AList.mem_lookup_iff

/-- There are at least as many mappings of the data page as of Fd pages. -/
theorem countP_isFd_le (h : ∀ e, Good (s.page e)) : s.maps.entries.countP (fun x => x.2.isFd) ≤ s.refs .data := by
  set A := s.maps.entries.filter fun x => x.2.isFd with hA
  set B := s.maps.entries.filter fun x => x.2 = .data with hB
  have hkeys : (s.maps.entries.map Sigma.fst).Nodup := s.maps.nodupKeys
  have hnodup : (A.map fun a => (a.1.1, MAXFD + a.1.2)).Nodup := by
    have h1 : (A.map Sigma.fst).Nodup := hkeys.sublist (List.filter_sublist.map _)
    have h2 := h1.map (f := fun c : ℕ × ℕ => (c.1, MAXFD + c.2)) fun c d hcd => by
      simp only [Prod.mk.injEq, Nat.add_left_cancel_iff] at hcd
      exact Prod.ext hcd.1 hcd.2
    rwa [List.map_map] at h2
  have hsub : (A.map fun a => (a.1.1, MAXFD + a.1.2)) ⊆ B.map Sigma.fst := by
    intro c hc
    obtain ⟨⟨⟨e, k⟩, f⟩, ha, rfl⟩ := List.mem_map.mp hc
    obtain ⟨hmem, hfd⟩ := List.mem_filter.mp ha
    cases f with
    | data => exact absurd hfd (by simp [Frame.isFd])
    | fd x =>
      have hd := ((h e).fd k x (page_eq_some.mpr hmem)).2
      exact List.mem_map.mpr ⟨_, List.mem_filter.mpr ⟨page_eq_some.mp hd, by simp⟩, rfl⟩
  have hle := (hnodup.subperm hsub).length_le
  rw [List.length_map, List.length_map] at hle
  rwa [Sys.refs, List.countP_eq_length_filter, List.countP_eq_length_filter]

/-- Equal counts mean that the other end is gone. -/
theorem gone_of_refs_eq (h : ∀ e, Good (s.page e)) {x : End} (heq : s.refs (.fd x) = s.refs .data) (e k : ℕ) :
    s.page e k ≠ some (.fd x.other) := by
  intro hm
  have hpos : 0 < s.refs (.fd x.other) := List.countP_pos_iff.mpr ⟨_, page_eq_some.mp hm, by simp⟩
  have hsum : s.maps.entries.countP (fun a => a.2.isFd) = s.refs (.fd x) + s.refs (.fd x.other) := by
    unfold Sys.refs
    induction s.maps.entries with
    | nil => rfl
    | cons a l ih =>
      rw [List.countP_cons, List.countP_cons, List.countP_cons, ih]
      obtain ⟨_, f⟩ := a
      cases f with
      | data => simp [Frame.isFd]
      | fd y => cases x <;> cases y <;> simp [Frame.isFd, End.other] <;> omega
  have := countP_isFd_le h
  omega

/-! ### The pages of one env -/

theorem page_setPage (s : Sys) (e k : ℕ) (v : Option Frame) (e' k' : ℕ) :
    (s.setPage e k v).page e' k' = if e' = e ∧ k' = k then v else s.page e' k' := by
  have hkey : e' = e ∧ k' = k ↔ (e', k') = (e, k) := by simp
  cases v with
  | none =>
    show AList.lookup (e', k') (AList.erase (e, k) s.maps) = _
    split
    · next h => rw [hkey.mp h, AList.lookup_erase]
    · next h => exact AList.lookup_erase_ne fun hh => h (hkey.mpr hh)
  | some f =>
    show AList.lookup (e', k') (AList.insert (e, k) f s.maps) = _
    split
    · next h => rw [hkey.mp h, AList.lookup_insert]
    · next h => exact AList.lookup_insert_ne fun hh => h (hkey.mpr hh)

/-- A page of the env itself. -/
theorem page_setPage_self (s : Sys) (e k : ℕ) (v : Option Frame) :
    (s.setPage e k v).page e = update (s.page e) k v := by
  funext k'
  rw [page_setPage, update_apply]
  simp

theorem page_setPage_ne (s : Sys) (k : ℕ) (v : Option Frame) (h : e' ≠ e) : (s.setPage e k v).page e' = s.page e' := by
  funext k'
  rw [page_setPage, if_neg fun hh => h hh.1]

namespace Good

theorem empty (h : ∀ k, P k = none) : Good P :=
  ⟨fun k x hk => by simp [h] at hk, fun k hk => by simp [h] at hk⟩

/-- A page changes: a new Fd page needs its data page, and an Fd page keeps its own. -/
theorem mapAt (h : Good P) {v : Option Frame} (hfd : ∀ x, v = some (.fd x) → k < MAXFD ∧ P (MAXFD + k) = some .data)
    (hdata : v = some .data → MAXFD ≤ k ∧ k < 2 * MAXFD)
    (hkeep : ∀ j x, k = MAXFD + j → P j = some (.fd x) → v = some .data) :
    Good (update P k v) := by
  refine ⟨fun j x hj => ?_, fun j hj => ?_⟩
  · by_cases hjk : j = k
    · rw [hjk, update_self] at hj
      obtain ⟨hlt, hd⟩ := hfd x hj
      rw [hjk]
      exact ⟨hlt, by rwa [update_of_ne (by omega)]⟩
    · rw [update_of_ne hjk] at hj
      obtain ⟨hlt, hd⟩ := h.fd j x hj
      refine ⟨hlt, ?_⟩
      rw [update_apply]
      split
      · next he => exact hkeep j x he.symm hj
      · exact hd
  · by_cases hjk : j = k
    · rw [hjk, update_self] at hj
      rw [hjk]
      exact hdata hj
    · rw [update_of_ne hjk] at hj
      exact h.data j hj

theorem unmapFd (h : Good P) (hi : i < MAXFD) : Good (update P i none) :=
  h.mapAt nofun nofun fun j x hj _ => by omega

theorem unmapData (h : Good P) (hi : P i = none) : Good (update P (MAXFD + i) none) :=
  h.mapAt nofun nofun fun j x hj hx => by
    rw [← Nat.add_left_cancel hj, hi] at hx
    cases hx

theorem mapData (h : Good P) (hi : i < MAXFD) : Good (update P (MAXFD + i) (some .data)) :=
  h.mapAt nofun (fun _ => by omega) fun _ _ _ _ => rfl

theorem mapFd (h : Good P) (hi : i < MAXFD) {x : End} (hd : P (MAXFD + i) = some .data) :
    Good (update P i (some (.fd x))) :=
  h.mapAt (fun _ _ => ⟨hi, hd⟩) nofun fun j y hj _ => by omega

/-- A data page is where data pages are. -/
theorem eq_data (h : Good P) {f : Frame} (hf : P (MAXFD + i) = some f) : f = .data := by
  cases f with
  | data => rfl
  | fd x =>
    have := (h.fd _ x hf).1
    omega

/-- An Fd page is where Fd pages are. -/
theorem eq_fd (h : Good P) {f : Frame} (hi : i < MAXFD) (hf : P i = some f) : ∃ x, f = .fd x := by
  cases f with
  | data =>
    have := (h.data _ hf).1
    omega
  | fd x => exact ⟨x, rfl⟩

end Good

/-! ### A child that is being filled -/

/-- The child's pages `Q` while the parent's pages `ks` are still to be mapped: an Fd page has its data
page, or will get it. -/
structure Half (P Q : ℕ → Option Frame) (ks : List ℕ) : Prop where
  fd : ∀ k x, Q k = some (.fd x) → k < MAXFD ∧ (Q (MAXFD + k) = some .data ∨ MAXFD + k ∈ ks)
  data : ∀ k, Q k = some .data → MAXFD ≤ k ∧ k < 2 * MAXFD
  mapped : ∀ k ∈ ks, (P k).isSome
  sorted : ks.Pairwise (· < ·)
  up : ∀ k ∈ ks, ∀ j, k < j → (P j).isSome → j ∈ ks

theorem Half.start (hP : Good P) (hQ : ∀ k, Q k = none) :
    Half P Q ((List.range (2 * MAXFD)).filter fun k => (P k).isSome) where
  fd k x hk := by simp [hQ] at hk
  data k hk := by simp [hQ] at hk
  mapped k hk := (List.mem_filter.mp hk).2
  sorted := List.pairwise_lt_range.filter _
  up k _ j _ hj := by
    refine List.mem_filter.mpr ⟨List.mem_range.mpr ?_, hj⟩
    obtain ⟨f, hf⟩ := Option.isSome_iff_exists.mp hj
    cases f with
    | data => exact (hP.data j hf).2
    | fd x =>
      have := (hP.fd j x hf).1
      omega

theorem Half.done (h : Half P Q []) : Good Q :=
  ⟨fun k x hk => ⟨(h.fd k x hk).1, (h.fd k x hk).2.resolve_right (by simp)⟩, h.data⟩

/-- The next page by address: a data page may be awaited, an Fd page has its data page still to come. -/
theorem Half.give (hP : Good P) (h : Half P Q (k :: ks)) : Half P (update Q k (P k)) ks := by
  obtain ⟨hlt, hsorted⟩ := List.pairwise_cons.mp h.sorted
  obtain ⟨f, hf⟩ := Option.isSome_iff_exists.mp (h.mapped k List.mem_cons_self)
  have htail : ∀ j, j ≠ k → j ∈ k :: ks → j ∈ ks := fun j hj hm => (List.mem_cons.mp hm).resolve_left hj
  refine ⟨fun j x hj => ?_, fun j hj => ?_, fun j hj => h.mapped j (.tail _ hj), hsorted, ?_⟩
  · by_cases hjk : j = k
    · subst hjk
      rw [update_self] at hj
      obtain ⟨h1, h2⟩ := hP.fd j x hj
      refine ⟨h1, .inr (htail _ (by omega) (h.up j List.mem_cons_self _ (by omega) (by simp [h2])))⟩
    · rw [update_of_ne hjk] at hj
      obtain ⟨h1, h2⟩ := h.fd j x hj
      refine ⟨h1, ?_⟩
      by_cases hd : MAXFD + j = k
      · -- the page just mapped is the one awaited
        left
        rw [hd, update_self, hf]
        exact congrArg some (hP.eq_data (i := j) (by rw [hd]; exact hf))
      · rw [update_of_ne hd]
        exact h2.imp_right (htail _ hd)
  · by_cases hjk : j = k
    · subst hjk
      rw [update_self] at hj
      exact hP.data j hj
    · rw [update_of_ne hjk] at hj
      exact h.data j hj
  · intro j hj j' hlt' hs
    have := hlt j hj
    exact htail j' (by omega) (h.up j (.tail _ hj) j' hlt' hs)

/-! ### The invariant -/

/-- Where an env may be after a `close`. -/
def Pc.Plain : Pc → Prop
  | .idle | .exit _ => True
  | .dupData old new => old < MAXFD ∧ new < MAXFD
  | _ => False

/-- What an env knows about its own pages. -/
def Pc.Ok (P : ℕ → Option Frame) : Pc → Prop
  | .closeFd i next | .closeEnd i next => i < MAXFD ∧ next.Plain
  | .closeData i next => i < MAXFD ∧ P i = none ∧ next.Plain
  | .dupData old new => old < MAXFD ∧ new < MAXFD
  | .dupFd old new => old < MAXFD ∧ new < MAXFD ∧ ∀ x, P old = some (.fd x) → P (MAXFD + new) = some .data
  | .undoFd new => new < MAXFD
  | .undoData new => new < MAXFD ∧ P new = none
  | .check i | .check2 i _ _ | .check3 i _ _ => i < MAXFD ∧ (P i).isSome
  | .idle | .exit _ | .copy .. => True

theorem Pc.Plain.ok (h : p.Plain) (P : ℕ → Option Frame) : p.Ok P ∧ p.copying = false := by
  cases p <;> first | exact ⟨h, rfl⟩ | exact h.elim

/-- No env is copying. -/
def Sys.Calm (s : Sys) : Prop := ∀ e, (s.pc e).copying = false

/-- What `_pipeisclosed` has read is still so, if the env has not been away. -/
def Pc.Fresh (s : Sys) (e : ℕ) : Pc → Prop
  | .check2 i n ref => n ≤ s.runs e ∧ (s.cur = e → n = s.runs e → ref = s.pageref e i ∧ s.Calm)
  | .check3 i n ret => n ≤ s.runs e ∧
      (s.cur = e → n = s.runs e → ret = decide (s.pageref e i = s.pageref e (MAXFD + i)) ∧ s.Calm)
  | _ => True

/-- An env alone: not in use, a child that is being filled, or one that runs. -/
inductive Slot (s : Sys) (e : ℕ) : Prop
  | gone (used : s.used e = false) (alive : s.alive e = false) (pc : s.pc e = .idle) (page : ∀ k, s.page e k = none)
  | child (lt : e < NENV) (used : s.used e = true) (alive : s.alive e = false) (pc : s.pc e = .idle)
  | runs (lt : e < NENV) (used : s.used e = true) (alive : s.alive e = true) (good : Good (s.page e))
      (ok : (s.pc e).Ok (s.page e))

structure Inv (s : Sys) : Prop where
  slot : ∀ e, Slot s e
  child : ∀ e, s.used e = true → s.alive e = false → ∃ p ks, s.pc p = .copy e ks
  copy : ∀ p c ks, s.pc p = .copy c ks → s.used c = true ∧ s.alive c = false ∧ Half (s.page p) (s.page c) ks
  one : ∀ p p' c ks ks', s.pc p = .copy c ks → s.pc p' = .copy c ks' → p = p'
  small : ∀ e, s.runs e < 2 ^ 32
  fresh : ∀ e, (s.pc e).Fresh s e

theorem Slot.congr (h : Slot s e) (hu : s'.used e = s.used e) (ha : s'.alive e = s.alive e) (hp : s'.page e = s.page e)
    (hpc : s'.pc e = s.pc e) : Slot s' e := by
  cases h with
  | gone h1 h2 h3 h4 => exact .gone (hu.trans h1) (ha.trans h2) (hpc.trans h3) fun k => by rw [hp, h4]
  | child h0 h1 h2 h3 => exact .child h0 (hu.trans h1) (ha.trans h2) (hpc.trans h3)
  | runs h0 h1 h2 h3 h4 => exact .runs h0 (hu.trans h1) (ha.trans h2) (hp ▸ h3) (by rw [hp, hpc]; exact h4)

theorem Slot.of_alive (h : Slot s e) (ha : s.alive e = true) :
    e < NENV ∧ s.used e = true ∧ Good (s.page e) ∧ (s.pc e).Ok (s.page e) := by
  cases h with
  | gone _ h2 _ _ => cases ha.symm.trans h2
  | child _ _ h2 _ => cases ha.symm.trans h2
  | runs h0 h1 _ h3 h4 => exact ⟨h0, h1, h3, h4⟩

theorem Slot.of_dead (h : Slot s e) (ha : s.alive e = false) : s.pc e = .idle := by
  cases h with
  | gone _ _ hpc _ => exact hpc
  | child _ _ _ hpc => exact hpc
  | runs _ _ h2 _ _ => cases h2.symm.trans ha

namespace Inv

theorem alive_of_pc (h : Inv s) (hp : s.pc e ≠ .idle) : s.alive e = true := by
  by_contra ha
  exact hp ((h.slot e).of_dead (by simpa using ha))

/-- While nobody copies, every env is good. -/
theorem good_of_calm (h : Inv s) (hc : s.Calm) (e : ℕ) : Good (s.page e) := by
  cases h.slot e with
  | gone _ _ _ hp => exact Good.empty hp
  | child _ hu ha _ =>
    obtain ⟨p, ks, hp⟩ := h.child e hu ha
    have := hc p
    rw [hp] at this
    cases this
  | runs _ _ _ hg _ => exact hg

theorem truthful (h : Inv s) : Truthful s := by
  intro i n x hpc hn hpage
  have hal := h.alive_of_pc (e := s.cur) (by rw [hpc]; simp)
  have hf := h.fresh s.cur
  rw [hpc] at hf
  rw [Nat.mod_eq_of_lt (h.small s.cur)] at hn
  obtain ⟨heq, hc⟩ := hf.2 rfl hn
  have hgood := h.good_of_calm hc
  have hdata := ((hgood s.cur).fd i x hpage).2
  refine gone_of_refs_eq hgood ?_
  simpa [Sys.pageref, hpage, hdata] using heq

end Inv

/-! ### Steps of the running env -/

theorem goto_pc (s : Sys) (p : Pc) : (s.goto p).pc s.cur = p := update_self ..

theorem setPage_eq (s : Sys) (e k : ℕ) (v : Option Frame) : ∃ m, s.setPage e k v = { s with maps := m } := by
  cases v <;> exact ⟨_, rfl⟩

theorem Pc.Plain.fresh (h : p.Plain) : p.Fresh s e := by
  cases p <;> trivial

theorem Pc.still_ok (hp : p = .idle ∨ ∃ c ks, p = .copy c ks) : p.Ok P := by
  rcases hp with rfl | ⟨c, ks, rfl⟩ <;> trivial

theorem Pc.still_fresh (hp : p = .idle ∨ ∃ c ks, p = .copy c ks) : p.Fresh s e := by
  rcases hp with rfl | ⟨c, ks, rfl⟩ <;> trivial

/-- The running env has changed its place, and the slots of itself and of `c`, nothing else. -/
structure Own (c : ℕ) (s s' : Sys) : Prop where
  runs : s'.runs = s.runs
  cur : s'.cur = s.cur
  pc : ∀ e, e ≠ s.cur → s'.pc e = s.pc e
  used : ∀ e, e ≠ s.cur → e ≠ c → s'.used e = s.used e
  alive : ∀ e, e ≠ s.cur → e ≠ c → s'.alive e = s.alive e
  page : ∀ e, e ≠ s.cur → e ≠ c → s'.page e = s.page e

namespace Inv

variable {c : ℕ}

/-- Other envs are not disturbed in `_pipeisclosed` by one that is running. -/
theorem fresh_other (h : Inv s) (ho : Own c s s') (he : e ≠ s.cur) : (s'.pc e).Fresh s' e := by
  rw [ho.pc e he]
  have hf := h.fresh e
  have hne : s'.cur ≠ e := ho.cur ▸ fun hh => he hh.symm
  cases hpc : s.pc e <;> rw [hpc] at hf <;> try trivial
  · exact ⟨by rw [ho.runs]; exact hf.1, fun hh => absurd hh hne⟩
  · exact ⟨by rw [ho.runs]; exact hf.1, fun hh => absurd hh hne⟩

/-- A step of the running env that concerns the env `c`, which is nobody else's child: it needs to be shown
only that both are in order after it, and that `c` is the child if the running env is copying. -/
theorem change (h : Inv s) (ho : Own c s s') (hal : s.alive s.cur = true) (hc : c = s.cur ∨ s.alive c = false)
    (hfree : ∀ p ks, p ≠ s.cur → s.pc p ≠ .copy c ks) (hold : ∀ c' ks, s.pc s.cur = .copy c' ks → c' = c)
    (hme : Slot s' s.cur) (hyou : Slot s' c) (hused : s'.used s.cur = s'.alive s.cur)
    (hchild : s'.used c = true → s'.alive c = false → ∃ ks, s'.pc s.cur = .copy c ks)
    (hlink : ∀ c' ks, s'.pc s.cur = .copy c' ks →
      c' = c ∧ s'.used c = true ∧ s'.alive c = false ∧ Half (s'.page s.cur) (s'.page c) ks)
    (hfresh : (s'.pc s.cur).Fresh s' s.cur) : Inv s' := by
  have hother : ∀ {p c' ks}, p ≠ s.cur → s'.pc p = .copy c' ks → s.pc p = .copy c' ks ∧ c' ≠ c := by
    intro p c' ks hp hpc
    rw [ho.pc p hp] at hpc
    exact ⟨hpc, fun he => hfree p ks hp (he ▸ hpc)⟩
  refine ⟨fun e => ?_, fun e hu ha => ?_, fun p c' ks hp => ?_, fun p p' c' ks ks' hp hp' => ?_, fun e => ?_,
    fun e => ?_⟩
  · by_cases he : e = s.cur
    · exact he ▸ hme
    by_cases hec : e = c
    · exact hec ▸ hyou
    · exact (h.slot e).congr (ho.used e he hec) (ho.alive e he hec) (ho.page e he hec) (ho.pc e he)
  · by_cases hec : e = c
    · subst hec
      obtain ⟨ks, hks⟩ := hchild hu ha
      exact ⟨s.cur, ks, hks⟩
    by_cases he : e = s.cur
    · rw [he] at hu ha
      cases (hu.symm.trans hused).trans ha
    · rw [ho.used e he hec] at hu
      rw [ho.alive e he hec] at ha
      obtain ⟨p, ks, hp⟩ := h.child e hu ha
      have hpc : p ≠ s.cur := fun hh => hec (hold e ks (hh ▸ hp))
      exact ⟨p, ks, (ho.pc p hpc).trans hp⟩
  · by_cases he : p = s.cur
    · subst he
      obtain ⟨rfl, hl⟩ := hlink c' ks hp
      exact hl
    · -- neither the parent nor the child is one of the two
      obtain ⟨hp, hcc⟩ := hother he hp
      obtain ⟨h1, h2, h3⟩ := h.copy p c' ks hp
      have hcur : c' ≠ s.cur := fun hh => absurd (hal.symm.trans (hh ▸ h2)) (by decide)
      have hpc : p ≠ c := fun hh => hc.elim (fun hc => he (hh.trans hc)) fun hc => by
        rw [hh, (h.slot c).of_dead hc] at hp
        cases hp
      rw [ho.used c' hcur hcc, ho.alive c' hcur hcc, ho.page p he hpc, ho.page c' hcur hcc]
      exact ⟨h1, h2, h3⟩
  · by_cases he : p = s.cur <;> by_cases he' : p' = s.cur
    · exact he.trans he'.symm
    · exact absurd (hlink c' ks (he ▸ hp)).1 (hother he' hp').2
    · exact absurd (hlink c' ks' (he' ▸ hp')).1 (hother he hp).2
    · exact h.one p p' c' ks ks' (hother he hp).1 (hother he' hp').1
  · rw [ho.runs]
    exact h.small e
  · by_cases he : e = s.cur
    · exact he ▸ hfresh
    · exact h.fresh_other ho he

/-- A step that concerns no other env. -/
theorem own (h : Inv s) (ho : Own s.cur s s') (hal : s.alive s.cur = true) (hnc : (s.pc s.cur).copying = false)
    (hme : Slot s' s.cur) (hused : s'.used s.cur = s'.alive s.cur) (hnc' : (s'.pc s.cur).copying = false)
    (hfresh : (s'.pc s.cur).Fresh s' s.cur) : Inv s' := by
  refine h.change ho hal (.inl rfl) (fun p ks _ hp => ?_) (fun c' ks hp => ?_) hme hme hused (fun hu ha => ?_)
    (fun c' ks hp => ?_) hfresh
  · cases hal.symm.trans (h.copy p _ ks hp).2.1
  · rw [hp] at hnc
    cases hnc
  · cases (hu.symm.trans hused).trans ha
  · rw [hp] at hnc'
    cases hnc'

/-- A system call on the own pages. -/
theorem setPage (h : Inv s) (hal : s.alive s.cur = true) (hnc : (s.pc s.cur).copying = false) {v : Option Frame}
    (hg : Good (update (s.page s.cur) k v)) (hok : p.Ok (update (s.page s.cur) k v))
    (hnc' : p.copying = false) (hfresh : p.Fresh ((s.setPage s.cur k v).goto p) s.cur) :
    Inv ((s.setPage s.cur k v).goto p) := by
  obtain ⟨hlt, hu, -⟩ := (h.slot _).of_alive hal
  have hself := page_setPage_self s s.cur k v
  have hne : ∀ e, e ≠ s.cur → (s.setPage s.cur k v).page e = s.page e := fun e he => page_setPage_ne s k v he
  obtain ⟨m, hm⟩ := setPage_eq s s.cur k v
  rw [hm] at hself hne hfresh ⊢
  have hpc : (Sys.goto { s with maps := m } p).pc s.cur = p := update_self ..
  refine h.own ⟨rfl, rfl, fun e he => update_of_ne he _ _, fun _ _ _ => rfl, fun _ _ _ => rfl,
    fun e he _ => hne e he⟩ hal hnc (.runs hlt hu hal ?_ ?_) (hu.trans hal.symm) (by rw [hpc]; exact hnc') (by rw [hpc]; exact hfresh)
  · exact hself ▸ hg
  · rw [hpc]
    exact hself ▸ hok

/-- A move to another place in the same operation. -/
theorem goto (h : Inv s) (hal : s.alive s.cur = true) (hnc : (s.pc s.cur).copying = false)
    (hok : p.Ok (s.page s.cur)) (hnc' : p.copying = false) (hfresh : p.Fresh (s.goto p) s.cur) : Inv (s.goto p) := by
  obtain ⟨hlt, hu, hg, -⟩ := (h.slot _).of_alive hal
  refine h.own ⟨rfl, rfl, fun e he => update_of_ne he _ _, fun _ _ _ => rfl, fun _ _ _ => rfl,
    fun _ _ _ => rfl⟩ hal hnc (.runs hlt hu hal hg ?_) (hu.trans hal.symm) ?_ ?_ <;> rw [goto_pc]
  · exact hok
  · exact hnc'
  · exact hfresh

end Inv

/-! ### The end of an env -/

theorem foldl_unmap (e : ℕ) : ∀ (l : List ℕ) (s : Sys),
    (∀ e' k, (l.foldl (fun s k => s.setPage e k none) s).page e' k = if e' = e ∧ k ∈ l then none else s.page e' k) ∧
    ∃ m, l.foldl (fun s k => s.setPage e k none) s = { s with maps := m }
  | [], s => ⟨fun e' k => by simp, s.maps, rfl⟩
  | j :: l, s => by
    obtain ⟨h1, m, h2⟩ := foldl_unmap e l (s.setPage e j none)
    refine ⟨fun e' k => ?_, m, h2⟩
    rw [List.foldl_cons, h1, page_setPage]
    by_cases he : e' = e
    · by_cases hk : k = j
      · simp [he, hk]
      · simp [he, hk]
    · simp [he]

/-- The pages of an env after `sys_env_destroy`. -/
theorem page_unmapAll (h : Good (s.page e)) (e' k : ℕ) :
    (s.unmapAll e).page e' k = if e' = e then none else s.page e' k := by
  rw [Sys.unmapAll, (foldl_unmap e _ s).1]
  by_cases he : e' = e
  · subst he
    rw [if_pos rfl]
    split
    · rfl
    · next hk =>
      -- nothing is mapped above the descriptor area
      have hge : 2 * MAXFD ≤ k := by
        by_contra hlt
        exact hk ⟨rfl, List.mem_range.mpr (by omega)⟩
      cases hp : s.page e' k with
      | none => rfl
      | some f =>
        cases f with
        | data =>
          have := (h.data k hp).2
          omega
        | fd x =>
          have := (h.fd k x hp).1
          omega
  · simp [he]

/-- The env has lost its pages and is gone. -/
theorem Inv.destroy (h : Inv s) (hal : s.alive s.cur = true) (hnc : (s.pc s.cur).copying = false) :
    Inv { (s.unmapAll s.cur).goto .idle with
      used := update s.used s.cur false, alive := update s.alive s.cur false } := by
  have hpage := page_unmapAll ((h.slot _).of_alive hal).2.2.1
  obtain ⟨-, m, hm⟩ := foldl_unmap s.cur (List.range (2 * MAXFD)) s
  rw [← Sys.unmapAll] at hm
  rw [hm] at hpage ⊢
  refine h.own ⟨rfl, rfl, fun e he => update_of_ne he _ _, fun e he _ => update_of_ne he _ _,
    fun e he _ => update_of_ne he _ _, fun e he _ => funext fun k => (hpage e k).trans (if_neg he)⟩ hal hnc
    (.gone (update_self ..) (update_self ..) (update_self ..) fun k =>
      (hpage _ k).trans (if_pos rfl)) ?_ ?_ (Pc.still_fresh (.inl (update_self ..)))
  · exact (update_self ..).trans (update_self s.cur false s.alive).symm
  · exact congrArg Pc.copying (update_self s.cur .idle s.pc)

/-! ### Copying -/

namespace Inv

variable {c : ℕ}

theorem ne_child (h : Inv s) (hpc : s.pc s.cur = .copy c ks) : c ≠ s.cur := by
  intro he
  have h1 := (h.copy _ _ _ hpc).2.1
  rw [he, h.alive_of_pc (by rw [hpc]; simp)] at h1
  cases h1

/-- Nobody else copies to the child. -/
theorem only_parent (h : Inv s) (hpc : s.pc s.cur = .copy c ks) {q : ℕ} {ks' : List ℕ} (hq : q ≠ s.cur) :
    s.pc q ≠ .copy c ks' := fun hp => hq (h.one q s.cur c ks' ks hp hpc)

/-- The next page of the child is mapped. -/
theorem give (h : Inv s) (hpc : s.pc s.cur = .copy c (k :: ks)) :
    Inv ((s.setPage c k (s.page s.cur k)).goto (.copy c ks)) := by
  have hal : s.alive s.cur = true := h.alive_of_pc (by rw [hpc]; simp)
  obtain ⟨hlt, hu, hg, -⟩ := (h.slot _).of_alive hal
  obtain ⟨hcu, hca, hhalf⟩ := h.copy _ _ _ hpc
  have hne := h.ne_child hpc
  have hself := page_setPage_self s c k (s.page s.cur k)
  have hother : ∀ e, e ≠ c → (s.setPage c k (s.page s.cur k)).page e = s.page e := fun e he => page_setPage_ne s k _ he
  obtain ⟨m, hm⟩ := setPage_eq s c k (s.page s.cur k)
  rw [hm] at hself hother ⊢
  have hpc' : (Sys.goto { s with maps := m } (.copy c ks)).pc s.cur = .copy c ks := update_self ..
  have hlt' : c < NENV := by
    cases h.slot c with
    | gone hn _ _ _ => cases hn.symm.trans hcu
    | child hlt _ _ _ => exact hlt
    | runs hlt _ _ _ _ => exact hlt
  refine h.change ⟨rfl, rfl, fun e he => update_of_ne he _ _, fun _ _ _ => rfl, fun _ _ _ => rfl,
    fun e _ he => hother e he⟩ hal (.inr hca) (fun p ks' hp => h.only_parent hpc hp)
    (fun c' ks' hc' => (Pc.copy.inj (hpc.symm.trans hc')).1.symm) (.runs hlt hu hal ?_ ?_)
    (.child hlt' hcu hca ((update_of_ne hne _ _).trans ((h.slot c).of_dead hca))) (hu.trans hal.symm)
    (fun _ _ => ⟨ks, hpc'⟩) (fun c' ks' hc' => ?_) (Pc.still_fresh (.inr ⟨c, ks, hpc'⟩))
  · exact hother _ hne.symm ▸ hg
  · exact (Pc.still_ok (.inr ⟨c, ks, hpc'⟩))
  · obtain ⟨rfl, rfl⟩ := Pc.copy.inj (hpc'.symm.trans hc')
    refine ⟨rfl, hcu, hca, ?_⟩
    show Half (Sys.page { s with maps := m } s.cur) (Sys.page { s with maps := m } c) ks
    rw [hself, hother _ hne.symm]
    exact hhalf.give hg

/-- The child has all its pages and is made runnable. -/
theorem copied (h : Inv s) (hpc : s.pc s.cur = .copy c []) :
    Inv { s.goto .idle with alive := update s.alive c true } := by
  have hal : s.alive s.cur = true := h.alive_of_pc (by rw [hpc]; simp)
  obtain ⟨hlt, hu, hg, -⟩ := (h.slot _).of_alive hal
  obtain ⟨hcu, hca, hhalf⟩ := h.copy _ _ _ hpc
  have hne := h.ne_child hpc
  have hpc' : (s.goto .idle).pc s.cur = .idle := goto_pc s .idle
  have halive : update s.alive c true s.cur = true := (update_of_ne hne.symm _ _).trans hal
  refine h.change (c := c) ⟨rfl, rfl, fun e he => update_of_ne he _ _, fun _ _ _ => rfl,
    fun e _ he => update_of_ne he _ _, fun _ _ _ => rfl⟩ hal (.inr hca) (fun p ks' hp => h.only_parent hpc hp)
    (fun c' ks' hc' => (Pc.copy.inj (hpc.symm.trans hc')).1.symm) (.runs hlt hu halive hg (Pc.still_ok (.inl hpc'))) ?_
    (hu.trans halive.symm) (fun _ ha => ?_) (fun c' ks' hc' => ?_) (Pc.still_fresh (.inl hpc'))
  · cases h.slot c with
    | gone hn _ _ _ => cases hn.symm.trans hcu
    | runs _ _ ha _ _ => cases ha.symm.trans hca
    | child hlt _ _ hidle =>
      exact .runs hlt hcu (update_self ..) hhalf.done
        (Pc.still_ok (.inl ((update_of_ne hne _ _).trans hidle)))
  · cases (update_self ..).symm.trans ha
  · cases hpc'.symm.trans hc'

/-- A child without any page. -/
theorem fork (h : Inv s) (hal : s.alive s.cur = true) (hpc : s.pc s.cur = .idle) (hc : s.used c = false)
    (hlt : c < NENV) :
    Inv { s.goto (.copy c (s.mapped s.cur)) with used := update s.used c true } := by
  obtain ⟨hlt', hu, hg, -⟩ := (h.slot _).of_alive hal
  cases h.slot c with
  | child _ hn _ _ => cases hn.symm.trans hc
  | runs _ hn _ _ _ => cases hn.symm.trans hc
  | gone _ hca hidle hnone =>
    have hne : c ≠ s.cur := fun he => absurd (hal.symm.trans (he ▸ hca)) (by decide)
    have hpc' : (s.goto (.copy c (s.mapped s.cur))).pc s.cur = .copy c (s.mapped s.cur) := goto_pc ..
    have hused : update s.used c true s.cur = true := (update_of_ne hne.symm _ _).trans hu
    refine h.change (c := c) ⟨rfl, rfl, fun e he => update_of_ne he _ _,
      fun e _ he => update_of_ne he _ _, fun _ _ _ => rfl, fun _ _ _ => rfl⟩ hal (.inr hca) (fun p ks' _ hp => ?_) (fun c' ks' hc' => ?_)
      (.runs hlt' hused hal hg (Pc.still_ok (.inr ⟨_, _, hpc'⟩)))
      (.child hlt (update_self ..) hca ((update_of_ne hne _ _).trans hidle))
      (hused.trans hal.symm) (fun _ _ => ⟨_, hpc'⟩) (fun c' ks' hc' => ?_) (Pc.still_fresh (.inr ⟨_, _, hpc'⟩))
    · cases (h.copy p c ks' hp).1.symm.trans hc
    · cases hpc.symm.trans hc'
    · obtain ⟨rfl, rfl⟩ := Pc.copy.inj (hpc'.symm.trans hc')
      exact ⟨rfl, update_self .., hca, Half.start hg hnone⟩

end Inv

/-! ### Whole runs -/

/-- The envs that copy are among the first `NENV`. -/
theorem Inv.calm (h : Inv s) (hc : ∀ e < NENV, (s.pc e).copying = false) : s.Calm := by
  intro e
  cases h.slot e with
  | gone _ _ hpc _ =>
    rw [hpc]
    rfl
  | child hlt _ _ _ => exact hc e hlt
  | runs hlt _ _ _ _ => exact hc e hlt

theorem Sys.Calm.goto (h : s.Calm) (hp : p.copying = false) : (s.goto p).Calm := by
  intro e
  show (update s.pc s.cur p e).copying = false
  by_cases he : e = s.cur
  · rw [he, update_self]
    exact hp
  · rw [update_of_ne he]
    exact h e

theorem Inv.run (h : Inv s) (hal : s.alive s.cur = true) {memory : Bool} (hC : Undisturbed (.run memory) s) :
    Inv (run memory s) := by
  obtain ⟨-, -, hg, hok⟩ := (h.slot _).of_alive hal
  have hf := h.fresh s.cur
  obtain ⟨p, hpc⟩ : ∃ p, s.pc s.cur = p := ⟨_, rfl⟩
  rw [hpc] at hok hf
  have hnc : p.copying = false → (s.pc s.cur).copying = false := fun hp => hpc ▸ hp
  simp only [PipeClosed.run, hpc]
  cases p with
  | idle => exact h
  | closeFd i next =>
    exact h.setPage hal (hnc rfl) (hg.unmapFd hok.1) ⟨hok.1, update_self .., hok.2⟩ rfl trivial
  | closeData i next =>
    exact h.setPage hal (hnc rfl) (hg.unmapData hok.2.1) ⟨hok.1, hok.2.2⟩ rfl trivial
  | closeEnd i next =>
    exact h.setPage hal (hnc rfl) (hg.unmapFd hok.1) (hok.2.ok _).1 (hok.2.ok (s.page s.cur)).2
      hok.2.fresh
  | dupData old new =>
    dsimp only
    cases hp : s.page s.cur (MAXFD + old) with
    | none =>
      refine h.goto hal (hnc rfl) ⟨hok.1, hok.2, fun x hx => ?_⟩ rfl trivial
      rw [(hg.fd old x hx).2] at hp
      cases hp
    | some f =>
      obtain rfl := hg.eq_data hp
      dsimp only
      split
      · refine h.setPage hal (hnc rfl) (hg.mapData hok.2) ⟨hok.1, hok.2, fun _ _ => update_self ..⟩ rfl trivial
      · exact h.goto hal (hnc rfl) hok.2 rfl trivial
  | dupFd old new =>
    dsimp only
    cases hp : s.page s.cur old with
    | none => exact h.goto hal (hnc rfl) hok.2.1 rfl trivial
    | some f =>
      obtain ⟨x, rfl⟩ := hg.eq_fd hok.1 hp
      dsimp only
      split
      · exact h.setPage hal (hnc rfl) (hg.mapFd hok.2.1 (hok.2.2 x hp)) trivial rfl trivial
      · exact h.goto hal (hnc rfl) hok.2.1 rfl trivial
  | undoFd new =>
    exact h.setPage hal (hnc rfl) (hg.unmapFd hok) ⟨hok, update_self ..⟩ rfl trivial
  | undoData new =>
    exact h.setPage hal (hnc rfl) (hg.unmapData hok.2) trivial rfl trivial
  | exit i =>
    dsimp only
    split
    · next hi =>
      split
      · exact h.goto hal (hnc rfl) ⟨hi, trivial⟩ rfl trivial
      · exact h.goto hal (hnc rfl) trivial rfl trivial
    · exact h.destroy hal (hnc rfl)
  | copy c pages =>
    cases pages with
    | nil =>
      exact h.copied hpc
    | cons k ks =>
      dsimp only
      split
      · exact h.give hpc
      · exact h
  | check i =>
    have hcalm := h.calm (hC (by rw [hpc]; rfl))
    refine h.goto hal (hnc rfl) hok rfl ⟨?_, fun _ _ => ⟨rfl, hcalm.goto rfl⟩⟩
    exact Nat.mod_le _ _
  | check2 i n ref =>
    refine h.goto hal (hnc rfl) hok rfl ⟨hf.1, fun _ hn => ?_⟩
    obtain ⟨rfl, hcalm⟩ := hf.2 rfl hn
    exact ⟨rfl, hcalm.goto rfl⟩
  | check3 i n ret =>
    dsimp only
    split
    · exact h.goto hal (hnc rfl) trivial rfl trivial
    · exact h.goto hal (hnc rfl) hok rfl trivial

theorem Inv.begin (h : Inv s) (hal : s.alive s.cur = true) (hidle : s.pc s.cur = .idle) (o : Op) :
    Inv (begin s o) := by
  have hnc : (s.pc s.cur).copying = false := by rw [hidle]; rfl
  cases o with
  | dup old new =>
    simp only [PipeClosed.begin]
    split
    · next hc =>
      split
      · exact h.goto hal hnc ⟨hc.2.2, hc.2⟩ rfl trivial
      · exact h.goto hal hnc hc.2 rfl trivial
    · exact h
  | close i =>
    simp only [PipeClosed.begin]
    split
    · next hc => exact h.goto hal hnc ⟨hc.2, trivial⟩ rfl trivial
    · exact h
  | fork c =>
    simp only [PipeClosed.begin]
    split
    · next hc => exact h.fork hal hidle hc.1 hc.2
    · exact h
  | exit => exact h.goto hal hnc trivial rfl trivial
  | pipeisclosed i =>
    simp only [PipeClosed.begin]
    split
    · next hc => exact h.goto hal hnc ⟨hc.2, hc.1⟩ rfl trivial
    · exact h

theorem Inv.schedule (h : Inv s) (hsmall : s.runs e + 1 < 2 ^ 32) :
    Inv { s with cur := e, runs := update s.runs e (s.runs e + 1) } := by
  refine ⟨fun e' => (h.slot e').congr rfl rfl rfl rfl, h.child, h.copy, h.one, fun e' => ?_, fun e' => ?_⟩
  · show update s.runs e (s.runs e + 1) e' < _
    by_cases he : e' = e
    · rw [he, update_self]
      exact hsmall
    · rw [update_of_ne he]
      exact h.small e'
  · -- an env that comes back has been run once more
    have hf := h.fresh e'
    have hle : s.runs e' ≤ update s.runs e (s.runs e + 1) e' := by
      by_cases he : e' = e
      · rw [he, update_self]
        exact Nat.le_succ _
      · rw [update_of_ne he]
    have hne : ∀ n, n ≤ s.runs e' → e = e' → n ≠ update s.runs e (s.runs e + 1) e' := by
      rintro n hn rfl
      rw [update_self]
      omega
    cases hpc : s.pc e' <;> rw [hpc] at hf <;> try trivial
    · exact ⟨Nat.le_trans hf.1 hle, fun hh hn => absurd hn (hne _ hf.1 hh)⟩
    · exact ⟨Nat.le_trans hf.1 hle, fun hh hn => absurd hn (hne _ hf.1 hh)⟩

theorem Inv.step (h : Inv s) (ev : Ev) (hC : Undisturbed ev s) : Inv (step ev s) := by
  cases ev with
  | schedule e =>
    simp only [PipeClosed.step]
    split
    · exact h.schedule hC
    · exact h
  | op o =>
    simp only [PipeClosed.step]
    split
    · next hc =>
      refine h.begin hc.1 ?_ o
      cases hpc : s.pc s.cur <;> rw [hpc] at hc <;> first | rfl | exact absurd hc.2 (by simp [Pc.isIdle])
    · exact h
  | run memory =>
    simp only [PipeClosed.step]
    split
    · next ha => exact h.run ha hC
    · exact h

theorem page_init (e i j e' k : ℕ) : (init e i j).page e' k =
    if e' = e ∧ k = MAXFD + j then some .data else if e' = e ∧ k = MAXFD + i then some .data
    else if e' = e ∧ k = j then some (.fd .write) else if e' = e ∧ k = i then some (.fd .read) else none := by
  have h := page_setPage
  let s0 : Sys := { init e i j with maps := ∅ }
  have h0 : s0.page e' k = none := rfl
  show ((((s0.setPage e i (some (.fd .read))).setPage e j (some (.fd .write))).setPage e (MAXFD + i)
    (some .data)).setPage e (MAXFD + j) (some .data)).page e' k = _
  rw [h, h, h, h, h0]

theorem Inv.init {e i j : ℕ} (he : e < NENV) (hi : i < MAXFD) (hj : j < MAXFD) :
    Inv (init e i j) := by
  refine ⟨fun e' => ?_, fun e' hu ha => absurd (hu.symm.trans ha) (by decide), nofun, nofun,
    fun _ => by simp [PipeClosed.init], fun _ => trivial⟩
  by_cases hee : e' = e
  · subst hee
    refine .runs he (decide_eq_true rfl) (decide_eq_true rfl) ⟨fun k x hk => ?_, fun k hk => ?_⟩ trivial
    · simp only [page_init, true_and] at hk ⊢
      split_ifs at hk with h1 h2 h3 h4
      · cases hk
      · cases hk
      · simp [h3, hj]
      · simp [h4, hi]
    · simp only [page_init, true_and] at hk
      split_ifs at hk with h1 h2 h3 h4
      · omega
      · omega
      · cases hk
      · cases hk
  · exact .gone (decide_eq_false hee) (decide_eq_false hee) rfl fun k => by simp [page_init, hee]

/-- Env 1 forks env 2, which closes its writing end, and asks. -/
def forkAndAsk : List Ev :=
  [.op (.fork 2), .run true, .run true, .run true, .run true, .run true,
    .schedule 2, .op (.close 1), .run true, .run true, .run true, .op (.pipeisclosed 0), .run true, .run true]

/-- Then env 1 forks again, and env 2 asks when the first page has been mapped in env 3. -/
def forkTwice : List Ev :=
  [.op (.fork 2), .run true, .run true, .run true, .run true, .run true,
    .schedule 2, .op (.close 1), .run true, .run true, .run true,
    .schedule 1, .op (.fork 3), .run true, .schedule 2, .op (.pipeisclosed 0), .run true, .run true]

end PipeClosed
end Lib
end Jos
