/-
# What a trap does to the envs

The page functions leave the table of envs alone, so what a system call does to
it can be said once, whatever state the page tables are in: `Did c k s r T` says
that the call `s` of the env in slot `c`, with the result `r`, leaves the table
`T`. Every invariant of the table is derived from that.

Key definitions: `Slots`, `Did`, `Trapped`, `Acted`.
Key theorems: `syscall_did`, `trap_trapped`, `kstep_acted`.
-/
import Jos.Kern.Env

namespace Jos
namespace Kern

open Fs (NENV PGSIZE envx nextEnvid)
open Function

/-- The table of envs and its free list. -/
structure Slots where
  envs : ℕ → Env
  free : Queue

def KernSt.slots (k : KernSt) : Slots := ⟨k.envs, k.envFree⟩

namespace Slots

def set (T : Slots) (e : ℕ) (w : Env) : Slots := { T with envs := update T.envs e w }

/-- What `env_free` leaves. -/
def drop (T : Slots) (e : ℕ) : Slots where
  envs := update T.envs e { T.envs e with pgdir := none, status := .free }
  free := T.free.insertHead e

/-- The env `env_alloc` makes in slot `e`, with a page directory at page `p`. -/
def born (T : Slots) (e p parent : ℕ) : Env :=
  { T.envs e with
    pgdir := some p, id := nextEnvid (T.envs e).id e, parent := parent, status := .runnable, tf := initFrame e,
    upcall := 0, recving := false, trans := 0 }

variable {T : Slots} {e e' : ℕ} {w w' : Env}

@[simp] theorem set_self : (T.set e w).envs e = w := update_self ..

theorem set_ne (h : e' ≠ e) : (T.set e w).envs e' = T.envs e' := update_of_ne h ..

@[simp] theorem set_set : (T.set e w).set e w' = T.set e w' := by
  unfold set
  simp only [update_idem]

theorem drop_self : (T.drop e).envs e = { T.envs e with pgdir := none, status := .free } := update_self ..

theorem drop_ne (h : e' ≠ e) : (T.drop e).envs e' = T.envs e' := update_of_ne h ..

/-- `set` of one slot, seen from any. -/
theorem set_envs (T : Slots) (e : ℕ) (w : Env) (e' : ℕ) : (T.set e w).envs e' = if e' = e then w else T.envs e' :=
  update_apply ..

theorem drop_envs (T : Slots) (e e' : ℕ) :
    (T.drop e).envs e' = if e' = e then { T.envs e with pgdir := none, status := .free } else T.envs e' :=
  update_apply ..

/-! A property of every slot, after a change of one. -/

variable {P : ℕ → Env → Prop}

theorem all_set (h : ∀ e, P e (T.envs e)) (hw : P e w) (e' : ℕ) : P e' ((T.set e w).envs e') := by
  rw [set_envs]
  split
  next he => rw [he]; exact hw
  next => exact h e'

theorem all_drop (h : ∀ e, P e (T.envs e)) (hw : P e { T.envs e with pgdir := none, status := .free }) (e' : ℕ) :
    P e' ((T.drop e).envs e') := by
  rw [drop_envs]
  split
  next he => rw [he]; exact hw
  next => exact h e'

theorem all_update {q : Queue} (h : ∀ e, P e (T.envs e)) (hw : P e w) (e' : ℕ) :
    P e' ((⟨update T.envs e w, q⟩ : Slots).envs e') :=
  all_set h hw e'

end Slots

@[simp] theorem KernSt.slots_envs (k : KernSt) : k.slots.envs = k.envs := rfl

@[simp] theorem KernSt.slots_free (k : KernSt) : k.slots.free = k.envFree := rfl

@[simp] theorem KernSt.slots_setEnv (k : KernSt) (e : ℕ) (w : Env) : (k.setEnv e w).slots = k.slots.set e w := rfl

/-! ### The page functions -/

/-- What the page functions throw: their errors are in what they return. -/
def Fault.IsPanic (r : Fault) : Prop := ∃ p, r = .panic p

theorem Fault.isPanic_panic (p : Panic) : (Fault.panic p).IsPanic := ⟨p, rfl⟩

/-- `x` leaves the table of envs as it is. -/
abbrev Calm {α : Type} (x : KM α) : Prop := Leaves KernSt.slots Fault.IsPanic x

section
variable {τ : Type} {π : KernSt → τ}

theorem kaddr_calm (p : ℕ) : Leaves π Fault.IsPanic (kaddr p) :=
  Leaves.getBind fun _ => (Leaves.throw (Fault.isPanic_panic _)).ite (Leaves.pure _)

theorem pa2page_calm (p : ℕ) : Leaves π Fault.IsPanic (pa2page p) :=
  Leaves.getBind fun _ => (Leaves.throw (Fault.isPanic_panic _)).ite (Leaves.pure _)

theorem walkEntry_calm (pgde : Pte) (va : ℕ) : Leaves π Fault.IsPanic (walkEntry pgde va) :=
  (kaddr_calm _).bind fun _ => .pure _

/-- A lookup changes nothing at all. -/
theorem pageLookup_calm (d va : ℕ) : Leaves π Fault.IsPanic (pageLookup d va) := by
  unfold pageLookup pgdirWalk
  refine .bind (.getBind fun _ => .ite (walkEntry_calm _ va) (.pure _)) fun r => ?_
  cases r with
  | none => exact .pure _
  | some tj => exact .getBind fun _ => .ite (.pure _) ((pa2page_calm _).bind fun _ => .pure _)

end

theorem pageAlloc_calm : Calm pageAlloc := fun k => by
  unfold pageAlloc
  refine .getBind ?_
  split
  · exact .pure rfl
  · split
    · exact .throw (Fault.isPanic_panic _)
    · exact .setBind (.pure rfl)

theorem pageFree_calm (p : ℕ) : Calm (pageFree p) := .modify fun _ => rfl

theorem pageDecref_calm (p : ℕ) : Calm (pageDecref p) := by
  unfold pageDecref
  exact .bind (.modify fun _ => rfl) fun _ => .getBind fun _ => (pageFree_calm p).ite (.pure _)

theorem newTable_calm (d va p : ℕ) : Calm (newTable d va p) := by
  unfold newTable
  exact .bind (.modify fun _ => rfl) fun _ => (kaddr_calm p).bind fun _ => .bind (.modify fun _ => rfl)
    fun _ => .bind (.modify fun _ => rfl) fun _ => walkEntry_calm _ va

theorem pgdirWalk_calm (d va : ℕ) (create : Bool) : Calm (pgdirWalk d va create) := by
  unfold pgdirWalk
  refine .getBind fun _ => .ite (walkEntry_calm _ va) (.ite (.pure _) (pageAlloc_calm.bind fun r => ?_))
  cases r with
  | none => exact .pure _
  | some p => exact newTable_calm d va p

theorem pageRemove_calm (d va : ℕ) : Calm (pageRemove d va) := by
  unfold pageRemove
  refine .bind (pageLookup_calm d va) fun r => ?_
  cases r with
  | none => exact .pure _
  | some _ =>
    exact .getBind fun _ => .ite (.throw (Fault.isPanic_panic _))
      ((pageDecref_calm _).bind fun _ => .modify fun _ => rfl)

theorem linkPage_calm (p t j perm : ℕ) : Calm (linkPage p t j perm) := by
  unfold linkPage
  exact .bind (.modify fun _ => rfl) fun _ => .bind (.modify fun _ => rfl) fun _ => .pure _

theorem pageInsert_calm (d p va perm : ℕ) : Calm (pageInsert d p va perm) := by
  unfold pageInsert
  refine .bind (pgdirWalk_calm d va true) fun r => ?_
  cases r with
  | none => exact .pure _
  | some tj =>
    refine .getBind fun _ => .ite ((pa2page_calm _).bind fun _ => .ite ?_ ?_) (linkPage_calm p tj.1 tj.2 perm)
    · exact .bind (.modify fun _ => rfl) fun _ => .pure _
    · exact (pageRemove_calm d va).bind fun _ => linkPage_calm p tj.1 tj.2 perm

/-- `pgdir_walk` changes nothing when it fails. -/
theorem pgdirWalk_full (d va : ℕ) (k : KernSt) :
    Run (pgdirWalk d va true) k (fun r k' => r = none → k' = k) fun r _ => r.IsPanic := by
  have hentry : ∀ pgde k1, Run (walkEntry pgde va) k1 (fun r k' => r = none → k' = k) fun r _ => r.IsPanic := fun pgde k1 =>
    .bind (@kaddr_calm _ id _ k1) fun _ _ _ => .pure fun hc => nomatch hc
  have hnew : ∀ p k1, Run (newTable d va p) k1 (fun r k' => r = none → k' = k) fun r _ => r.IsPanic := fun p k1 => by
    unfold newTable
    exact .modifyBind (.bind (@kaddr_calm _ id p _) fun _ _ _ => .modifyBind (.modifyBind (hentry _ _)))
  have halloc : Run pageAlloc k (fun r k' => r = none → k' = k) fun r _ => r.IsPanic := by
    unfold pageAlloc
    refine .getBind ?_
    split
    · exact .pure fun _ => rfl
    · split
      · exact .throw (Fault.isPanic_panic _)
      · exact .setBind (.pure fun hc => nomatch hc)
  unfold pgdirWalk
  refine .getBind ?_
  dsimp only
  split
  · exact hentry _ k
  · rw [if_neg (by simp)]
    refine .bind halloc fun r k1 h1 => ?_
    cases r with
    | none => exact .pure fun _ => h1 rfl
    | some p => exact hnew p k1

/-- `page_insert` changes nothing when it fails. -/
theorem pageInsert_full (d p va perm : ℕ) (k : KernSt) :
    Run (pageInsert d p va perm) k (fun b k' => b = false → k' = k) fun r _ => r.IsPanic := by
  have hlink : ∀ t j k1, Run (linkPage p t j perm) k1 (fun b k' => b = false → k' = k) fun r _ => r.IsPanic := fun t j k1 =>
    .modifyBind (.modifyBind (.pure fun hc => nomatch hc))
  unfold pageInsert
  refine .bind (pgdirWalk_full d va k) fun r k1 h1 => ?_
  cases r with
  | none => exact .pure fun _ => h1 rfl
  | some tj =>
    refine .getBind ?_
    dsimp only
    split
    · refine .bind (@pa2page_calm _ id _ k1) fun old k2 _ => ?_
      split
      · exact .modifyBind (.pure fun hc => nomatch hc)
      · exact .bind (pageRemove_calm d va k2) fun _ k3 _ => hlink tj.1 tj.2 k3
    · exact hlink tj.1 tj.2 k1

theorem pgdirOf_calm (e : ℕ) : Calm (pgdirOf e) := by
  unfold pgdirOf
  refine .getBind fun k => ?_
  cases (k.envs e).pgdir with
  | none => exact .throw (Fault.isPanic_panic _)
  | some d => exact .pure _

theorem segmentAlloc_calm (e : ℕ) : ∀ n va, Calm (segmentAlloc e n va)
  | 0, _ => .pure _
  | n + 1, va => by
    unfold segmentAlloc
    refine .bind pageAlloc_calm fun r => ?_
    cases r with
    | none => exact .throw (Fault.isPanic_panic _)
    | some p =>
      refine .bind (pgdirOf_calm e) fun d => .bind (pageInsert_calm d p va _) fun _ => ?_
      exact .ite (segmentAlloc_calm e n _) (.throw (Fault.isPanic_panic _))

theorem freeTable_calm (d i : ℕ) : Calm (freeTable d i) := by
  unfold freeTable freeEntries
  refine .getBind fun k => .ite ?_ (.pure _)
  refine (kaddr_calm _).bind fun _ => .bind (.forUpTo (fun j => ?_) _) fun _ =>
    .bind (.modify fun _ => rfl) fun _ => (pa2page_calm _).bind fun p => pageDecref_calm p
  exact .getBind fun _ => .ite (pageRemove_calm d _) (.pure _)

/-! ### The functions on envs -/

section
variable {k : KernSt} {c e : ℕ}

theorem pgdirOf_run (e : ℕ) (k : KernSt) :
    Run (pgdirOf e) k (fun d k' => k' = k ∧ (k.envs e).pgdir = some d) fun r _ => r.IsPanic := by
  unfold pgdirOf
  refine .getBind ?_
  cases h : (k.envs e).pgdir with
  | none => exact .throw (Fault.isPanic_panic _)
  | some d => exact .pure ⟨rfl, rfl⟩

theorem run_pgdirOf {α : Type} {d : ℕ} {f : ℕ → KM α} {Q : α → KernSt → Prop} {E : Fault → KernSt → Prop}
    (hd : (k.envs e).pgdir = some d) (hf : Run (f d) k Q E) : Run (pgdirOf e >>= f) k Q E := by
  unfold pgdirOf
  simp only [bind_assoc]
  refine .getBind ?_
  rw [hd]
  exact hf

/-- An env is looked up. -/
theorem run_lookupEnv {α : Type} {envid : ℕ} {b : Bool} {f : ℕ → KM α} {Q : α → KernSt → Prop} {E : Fault → KernSt → Prop}
    (hn : envid2env k c envid b = none → E (.err .badEnv) k) (hf : ∀ e, envid2env k c envid b = some e → Run (f e) k Q E) :
    Run (lookupEnv c envid b >>= f) k Q E := by
  unfold lookupEnv
  simp only [bind_assoc]
  refine .getBind ?_
  cases h : envid2env k c envid b with
  | none => exact .throw (hn h)
  | some e => exact hf e h

/-- And found. -/
theorem run_lookup {α : Type} {envid : ℕ} {b : Bool} {f : ℕ → KM α} {Q : α → KernSt → Prop} {E : Fault → KernSt → Prop}
    (he : envid2env k c envid b = some e) (h : Run (f e) k Q E) : Run (lookupEnv c envid b >>= f) k Q E := by
  refine run_lookupEnv (fun hn => ?_) fun e' he' => ?_
  · rw [he] at hn
    cases hn
  · rwa [← Option.mem_unique he he']

theorem envFree_slots (e : ℕ) (k : KernSt) :
    Run (envFree e) k (fun _ k' => (k.envs e).pgdir ≠ none ∧ k'.slots = k.slots.drop e) fun r _ => r.IsPanic := by
  unfold envFree
  refine .bind (pgdirOf_run e k) fun d k1 ⟨hk, hd⟩ => ?_
  subst hk
  refine .bind (Leaves.forUpTo (fun i => freeTable_calm d i) _ k1) fun _ k2 h2 => .modifyBind ?_
  refine .bind (@pa2page_calm _ KernSt.slots d _) fun p k3 h3 => .bind (pageDecref_calm p _) fun _ k4 h4 => .modify ?_
  have he : k2.envs e = k1.envs e := congrArg (fun T : Slots => T.envs e) h2
  have h : k4.slots = k1.slots.set e { k1.envs e with pgdir := none } := by
    rw [h4, h3, KernSt.slots_setEnv, h2, he]
  refine ⟨by rw [hd]; simp, ?_⟩
  show (⟨update k4.slots.envs e { k4.slots.envs e with status := .free }, k4.slots.free.insertHead e⟩ : Slots) = _
  rw [h, Slots.set_self]
  unfold Slots.set Slots.drop
  simp only [update_idem]
  rfl

theorem envAlloc_slots (parent : ℕ) (k : KernSt) :
    Run (envAlloc parent) k
      (fun r k' => (∃ er, r = .error er ∧ k'.slots = k.slots) ∨
        ∃ e p q, r = .ok e ∧ k.envFree.first = some e ∧ k.envFree.remove e = some q ∧
          k'.slots = ⟨update k.envs e (k.slots.born e p parent), q⟩)
      fun r _ => r.IsPanic := by
  unfold envAlloc envSetupVm
  refine .getBind ?_
  cases hf : k.envFree.first with
  | none => exact .pure (.inl ⟨_, rfl, rfl⟩)
  | some e =>
    dsimp only
    simp only [bind_assoc]
    refine .bind (pageAlloc_calm k) fun r k1 h1 => ?_
    cases r with
    | none => exact .pure (.inl ⟨_, rfl, h1⟩)
    | some p =>
      dsimp only
      simp only [bind_assoc, pure_bind, if_true]
      refine .bind (@kaddr_calm _ KernSt.slots p k1) fun _ k2 h2 => ?_
      have hs : k2.slots = k.slots := h2.trans h1
      refine .modifyBind (.modifyBind (.modifyBind (.modifyBind (.getBind ?_))))
      split
      · exact .throw (Fault.isPanic_panic _)
      · next q hq2 =>
        have hq : k.envFree.remove e = some q := by
          rw [← show k2.envFree = k.envFree from congrArg Slots.free hs]
          exact hq2
        refine .setBind (.pure (.inr ⟨e, p, q, rfl, rfl, hq, ?_⟩))
        have hfin : ∀ T, T = k.slots → (⟨update (update T.envs e { T.envs e with pgdir := some p }) e
            { update T.envs e { T.envs e with pgdir := some p } e with
              id := nextEnvid (update T.envs e { T.envs e with pgdir := some p } e).id e, parent := parent,
              status := .runnable, tf := initFrame e, upcall := 0, recving := false, trans := 0 }, q⟩ : Slots) =
            ⟨update k.envs e (k.slots.born e p parent), q⟩ := by
          rintro T rfl
          rw [update_idem, update_self]
          rfl
        exact hfin k2.slots hs

/-! ### System calls -/

/-- The calls that leave the table as it is when they succeed. -/
def Call.quiet : Call → Bool
  | .pageAlloc .. | .pageMap .. | .pageUnmap .. | .yield | .userMem .. | .query _ => true
  | _ => false

/-- The calls that may destroy the caller. -/
def Call.fatal : Call → Bool
  | .envSetTrapframe .. | .envDestroy _ | .userMem .. => true
  | _ => false

/-- The frame `sys_env_set_trapframe` stores. -/
def userTf (tf : Trapframe) : Trapframe := { tf with cs := tf.cs ||| 3, eflags := tf.eflags ||| FL_IF }

/-- The table after the call `s` of the env in slot `c`, with the result `r`. -/
inductive Did (c : ℕ) (k : KernSt) : Call → Except Err (Option ℕ) → Slots → Prop
  | failed {s : Call} {er : Err} {T : Slots} (hT : T = k.slots) : Did c k s (.error er) T
  | quiet {s : Call} {r : Option ℕ} {T : Slots} (hT : T = k.slots) (hs : s.quiet = true) : Did c k s (.ok r) T
  | fork (e p : ℕ) (q : Queue) (hf : k.envFree.first = some e) (hq : k.envFree.remove e = some q) :
      Did c k .exofork (.ok (some (nextEnvid (k.envs e).id e)))
        ⟨update k.envs e { k.slots.born e p (k.envs c).id with
          status := .notRunnable, tf := { (k.envs c).tf with regs := { (k.envs c).tf.regs with eax := 0 } } }, q⟩
  | status (envid e : ℕ) (st : Status) (he : envid2env k c envid true = some e) (hst : st ≠ .free) :
      Did c k (.envSetStatus envid st) (.ok (some 0)) (k.slots.set e { k.envs e with status := st })
  | frame (envid va e : ℕ) (tf : Trapframe) (he : envid2env k c envid true = some e) :
      Did c k (.envSetTrapframe envid va tf) (.ok (some 0)) (k.slots.set e { k.envs e with tf := userTf tf })
  /-- The env of the frame is destroyed, and then its frame is written. -/
  | deadFrame (envid va e : ℕ) (tf : Trapframe) (he : envid2env k c envid true = some e) (hec : e ≠ c)
      (hp : (k.envs e).pgdir ≠ none) :
      Did c k (.envSetTrapframe envid va tf) (.ok (some 0))
        ((k.slots.drop e).set e { (k.slots.drop e).envs e with tf := userTf tf })
  | suicide (s : Call) (hs : s.fatal = true) (hp : (k.envs c).pgdir ≠ none) {T : Slots} (hT : T = k.slots.drop c) :
      Did c k s (.ok none) T
  | upcall (envid func e : ℕ) (he : envid2env k c envid true = some e) :
      Did c k (.envSetPgfaultUpcall envid func) (.ok (some 0)) (k.slots.set e { k.envs e with upcall := func })
  | transaction (envid t e : ℕ) (he : envid2env k c envid false = some e) :
      Did c k (.envSetTransaction envid t) (.ok (some 0)) (k.slots.set e { k.envs e with trans := t })
  | destroy (envid e : ℕ) (he : envid2env k c envid true = some e) (hec : e ≠ c) (hp : (k.envs e).pgdir ≠ none) :
      Did c k (.envDestroy envid) (.ok (some 0)) (k.slots.drop e)
  | refused (envid value srcva perm e : ℕ) (er : Err) (he : envid2env k c envid false = some e)
      (hr : (k.envs e).recving = true) :
      Did c k (.ipcTrySend envid value srcva perm) (.error er) (k.slots.set e { k.envs e with perm := 0 })
  | sent (envid value srcva perm e n : ℕ) (he : envid2env k c envid false = some e) (hr : (k.envs e).recving = true) :
      Did c k (.ipcTrySend envid value srcva perm) (.ok (some 0)) (k.slots.set e { k.envs e with
        perm := n, recving := false, sender := (k.envs c).id, value := value, status := .runnable,
        tf := { (k.envs e).tf with regs := { (k.envs e).tf.regs with eax := 0 } } })
  | recv (dstva : ℕ) (hd : dstva < UTOP → dstva % PGSIZE = 0) :
      Did c k (.ipcRecv dstva) (.ok none) (k.slots.set c { k.envs c with
        dstva := if dstva < UTOP then dstva else 0, recving := true, status := .notRunnable })

/-- `Did` as a specification of a program: what it throws is a panic or an error. -/
def Does (c : ℕ) (s : Call) (x : KM (Option ℕ)) (k : KernSt) : Prop :=
  Run x k (fun r k' => Did c k s (.ok r) k'.slots) fun f k' => f.IsPanic ∨ ∃ er, f = .err er ∧ Did c k s (.error er) k'.slots

variable {s : Call}

theorem Does.fails (er : Err) : Does c s (throw (.err er)) k := .throw (.inr ⟨er, rfl, .failed rfl⟩)

/-- A call that begins with looking an env up. -/
theorem Does.lookup {envid : ℕ} {b : Bool} {f : ℕ → KM (Option ℕ)}
    (h : ∀ e, envid2env k c envid b = some e → Does c s (f e) k) : Does c s (lookupEnv c envid b >>= f) k :=
  run_lookupEnv (fun _ => .inr ⟨_, rfl, .failed rfl⟩) h

/-- Going on after a program that leaves the table as it is. -/
theorem run_calm {α β : Type} {x : KM α} {f : α → KM β} {Q : β → KernSt → Prop} {E : Fault → KernSt → Prop} (hx : Calm x)
    (hE : ∀ r k', r.IsPanic → E r k') (hf : ∀ a k', k'.slots = k.slots → Run (f a) k' Q E) : Run (x >>= f) k Q E :=
  .step (hx k) (fun r k' h => hE r k' h) hf

/-- The pages of a call are shared, or not: the table stays, and if it fails all stays. -/
theorem sharePage_slots (src srcva dst dstva perm : ℕ) (k : KernSt) :
    Run (sharePage src srcva dst dstva perm) k (fun _ k' => k'.slots = k.slots)
      fun f k' => f.IsPanic ∨ (∃ er, f = .err er) ∧ k' = k := by
  unfold sharePage
  refine .step (pgdirOf_run src k) (fun _ _ => .inl) fun d k1 ⟨h1, _⟩ => ?_
  subst h1
  refine .step (@pageLookup_calm _ id d srcva k1) (fun _ _ => .inl) fun r k2 h2 => ?_
  obtain rfl : k2 = k1 := h2
  cases r with
  | none => exact .throw (.inr ⟨⟨_, rfl⟩, rfl⟩)
  | some p =>
    refine .getBind ?_
    split
    · exact .throw (.inr ⟨⟨_, rfl⟩, rfl⟩)
    · refine .step (pgdirOf_run dst k2) (fun _ _ => .inl) fun d' k3 ⟨h3, _⟩ => ?_
      subst h3
      have hboth := (pageInsert_calm d' p.1 dstva perm k3).and (pageInsert_full d' p.1 dstva perm k3)
      refine .step hboth (fun _ _ h => .inl h.1) fun b k4 ⟨h4, hfull⟩ => ?_
      split
      · exact .pure h4
      next hb => exact .throw (.inr ⟨⟨_, rfl⟩, hfull (by simpa using hb)⟩)

theorem sysPageAlloc_does (envid va perm : ℕ) : Does c (.pageAlloc envid va perm) (sysPageAlloc c envid va perm) k := by
  unfold sysPageAlloc
  split
  · exact Does.fails _
  split
  · exact Does.fails _
  · refine Does.lookup fun e _ => ?_
    refine run_calm pageAlloc_calm (fun _ _ => .inl) fun r k1 h1 => ?_
    cases r with
    | none => exact .throw (.inr ⟨_, rfl, Did.failed h1⟩)
    | some p =>
      refine run_calm (pgdirOf_calm e) (fun _ _ => .inl) fun d k2 h2 => ?_
      refine run_calm (pageInsert_calm d p va perm) (fun _ _ => .inl) fun b k3 h3 => ?_
      have hs : k3.slots = k.slots := h3.trans (h2.trans h1)
      split
      · split
        · exact .throw (.inl ⟨_, rfl⟩)
        · exact .modifyBind (.pure (.quiet hs rfl))
      · exact .modifyBind (.throw (.inr ⟨_, rfl, .failed hs⟩))

theorem sysPageMap_does (srcenvid srcva dstenvid dstva perm : ℕ) :
    Does c (.pageMap srcenvid srcva dstenvid dstva perm) (sysPageMap c srcenvid srcva dstenvid dstva perm) k := by
  unfold sysPageMap
  split_ifs
  · exact Does.fails _
  · exact Does.fails _
  · refine Does.lookup fun src _ => Does.lookup fun dst _ => ?_
    refine .step (sharePage_slots src srcva dst dstva perm k) ?_ fun _ k' h => ?_
    · rintro f k' (h | ⟨⟨er, rfl⟩, h⟩)
      · exact .inl h
      · exact .inr ⟨er, rfl, Did.failed (by rw [h])⟩
    · exact .pure (Did.quiet h rfl)

theorem sysPageUnmap_does (envid va : ℕ) : Does c (.pageUnmap envid va) (sysPageUnmap c envid va) k := by
  unfold sysPageUnmap
  split_ifs
  · exact Does.fails _
  · refine Does.lookup fun e _ => run_calm (pgdirOf_calm e) (fun _ _ => .inl) fun d k1 h1 => ?_
    refine run_calm (pageRemove_calm d va) (fun _ _ => .inl) fun _ k2 h2 => .pure ?_
    exact Did.quiet (h2.trans h1) rfl

theorem sysExofork_does (hc : k.envFree.first ≠ some c) : Does c .exofork (sysExofork c) k := by
  unfold sysExofork
  refine .getBind (.step (envAlloc_slots (k.envs c).id k) (fun _ _ => .inl) ?_)
  rintro _ k1 (⟨er, rfl, h⟩ | ⟨e, p, q, rfl, hf, hq, h⟩)
  · exact .throw (.inr ⟨er, rfl, Did.failed h⟩)
  · have hce : c ≠ e := fun hce => hc (by rw [hf, hce])
    have he : k1.envs e = k.slots.born e p (k.envs c).id := by
      rw [← KernSt.slots_envs, h]
      exact update_self ..
    have hcc : k1.envs c = k.envs c := by
      rw [← KernSt.slots_envs, h]
      exact update_of_ne hce ..
    refine .modifyBind (.getBind (.pure ?_))
    have hself : ∀ w, (k1.setEnv e w).envs e = w := fun w => Slots.set_self (T := k1.slots)
    rw [hself, KernSt.slots_setEnv, h, he, hcc]
    unfold Slots.set
    simp only [update_idem]
    exact .fork e p q hf hq

theorem sysEnvSetStatus_does (envid : ℕ) (st : Status) : Does c (.envSetStatus envid st) (sysEnvSetStatus c envid st) k := by
  unfold sysEnvSetStatus
  refine Does.lookup fun e he => .getBind ?_
  split_ifs with h
  · exact Does.fails _
  · exact .modifyBind (.pure (.status envid e st he fun hc => h (.inl hc)))

theorem storeFrame_run (c e va : ℕ) (tf : Trapframe) (k : KernSt) :
    Run (storeFrame c e va tf) k (fun r k' => r = some 0 ∧ k' = k.setEnv e { k.envs e with tf := userTf tf })
      fun f _ => f.IsPanic := by
  unfold storeFrame
  split_ifs
  · exact .throw ⟨_, rfl⟩
  · refine .getBind (.bind (pgdirOf_run c k) fun d k1 ⟨hk, _⟩ => ?_)
    subst hk
    split_ifs
    · exact .throw ⟨_, rfl⟩
    · exact .modifyBind (.pure ⟨rfl, rfl⟩)

theorem sysEnvSetTrapframe_does (envid va : ℕ) (tf : Trapframe) :
    Does c (.envSetTrapframe envid va tf) (sysEnvSetTrapframe c envid va tf) k := by
  unfold sysEnvSetTrapframe
  refine Does.lookup fun e he => .getBind ?_
  refine .step (pgdirOf_run e k) (fun _ _ => .inl) fun d k1 ⟨hk, _⟩ => ?_
  subst hk
  split
  · refine .mono (storeFrame_run c e va tf k1) ?_ fun _ _ => .inl
    rintro _ _ ⟨rfl, rfl⟩
    exact .frame envid va e tf he
  · refine .step (envFree_slots e k1) (fun _ _ => .inl) fun _ k2 ⟨hp, h2⟩ => ?_
    split
    next hec =>
      subst hec
      exact .pure (.suicide _ rfl hp h2)
    next hec =>
      refine .mono (storeFrame_run c e va tf k2) ?_ fun _ _ => .inl
      rintro _ _ ⟨rfl, rfl⟩
      rw [KernSt.slots_setEnv, ← KernSt.slots_envs, h2]
      exact .deadFrame envid va e tf he hec hp

theorem sysEnvSetPgfaultUpcall_does (envid func : ℕ) :
    Does c (.envSetPgfaultUpcall envid func) (sysEnvSetPgfaultUpcall c envid func) k :=
  Does.lookup fun e he => .modifyBind (.pure (.upcall envid func e he))

theorem sysEnvSetTransaction_does (envid t : ℕ) :
    Does c (.envSetTransaction envid t) (sysEnvSetTransaction c envid t) k :=
  Does.lookup fun e he => .modifyBind (.pure (.transaction envid t e he))

theorem sysEnvDestroy_does (envid : ℕ) : Does c (.envDestroy envid) (sysEnvDestroy c envid) k := by
  unfold sysEnvDestroy
  refine Does.lookup fun e he => ?_
  refine .step (envFree_slots e k) (fun _ _ => .inl) fun _ k' ⟨hp, h⟩ => ?_
  split
  next hec =>
    subst hec
    exact .pure (.suicide _ rfl hp h)
  next hec =>
    refine .pure ?_
    rw [h]
    exact .destroy envid e he hec hp

theorem sysIpcRecv_does (dstva : ℕ) : Does c (.ipcRecv dstva) (sysIpcRecv c dstva) k := by
  unfold sysIpcRecv
  split
  · exact Does.fails _
  next hd => exact .modifyBind (.pure (.recv dstva fun hlt => by_contra fun hne => hd ⟨hlt, hne⟩))

theorem sysUserMem_does (va len perm r : ℕ) : Does c (.userMem va len perm r) (sysUserMem c va len perm r) k := by
  unfold sysUserMem
  refine .getBind (.step (pgdirOf_run c k) (fun _ _ => .inl) fun d k1 ⟨hk, _⟩ => ?_)
  subst hk
  split
  · exact .pure (.quiet rfl rfl)
  · refine .step (envFree_slots c k1) (fun _ _ => .inl) fun _ k' ⟨hp, h⟩ => ?_
    exact .pure (.suicide _ rfl hp h)

/-- The page of a message comes with its permissions in the env, and if it cannot
be mapped, nothing happens. -/
theorem sendPage_slots (c e srcva perm : ℕ) (k : KernSt) :
    Run (sendPage c e srcva perm) k
      (fun _ k' => k'.slots = k.slots ∨ k'.slots = k.slots.set e { k.envs e with perm := perm })
      fun f k' => f.IsPanic ∨ (∃ er, f = .err er) ∧ k' = k := by
  unfold sendPage
  refine .getBind ?_
  split
  · refine .getBind (.bind (sharePage_slots c srcva e _ perm k) fun _ k1 h1 => .modify (.inr ?_))
    rw [KernSt.slots_setEnv, ← KernSt.slots_envs, h1]
    rfl
  · exact .pure (.inl rfl)

theorem sysIpcTrySend_does (envid value srcva perm : ℕ) :
    Does c (.ipcTrySend envid value srcva perm) (sysIpcTrySend c envid value srcva perm) k := by
  unfold sysIpcTrySend
  split
  · exact Does.fails _
  refine Does.lookup fun e he => .getBind ?_
  split
  · exact Does.fails _
  next hr =>
    have hr : (k.envs e).recving = true := by simpa using hr
    refine .modifyBind ?_
    refine .step (sendPage_slots c e srcva perm _) ?_ fun _ k1 h1 => ?_
    · rintro f k' (h | ⟨⟨er, rfl⟩, h⟩)
      · exact .inl h
      · refine .inr ⟨er, rfl, ?_⟩
        rw [h]
        exact .refused envid value srcva perm e er he hr
    · have hn : ∃ n, k1.slots = k.slots.set e { k.envs e with perm := n } := by
        rcases h1 with h1 | h1 <;> rw [h1, KernSt.slots_setEnv]
        · exact ⟨0, rfl⟩
        · refine ⟨perm, ?_⟩
          rw [Slots.set_set, ← KernSt.slots_envs, KernSt.slots_setEnv, Slots.set_self]
      obtain ⟨n, hn⟩ := hn
      -- the id of the sender is what it was, even if it is the receiver
      have hid : ((k.slots.set e { k.envs e with perm := n }).envs c).id = (k.envs c).id := by
        rw [Slots.set_envs]
        split
        next hce => rw [hce]
        next => rfl
      refine .modifyBind (.pure ?_)
      rw [KernSt.slots_setEnv, ← KernSt.slots_envs, hn, Slots.set_set, Slots.set_self, hid]
      exact .sent envid value srcva perm e n he hr

/-- Every call, of an env that is not on the free list. -/
theorem syscall_did (hc : k.envFree.first ≠ some c) (s : Call) :
    Does c s (syscall c s) k := by
  cases s with
  | pageAlloc envid va perm => exact sysPageAlloc_does envid va perm
  | pageMap srcenvid srcva dstenvid dstva perm => exact sysPageMap_does srcenvid srcva dstenvid dstva perm
  | pageUnmap envid va => exact sysPageUnmap_does envid va
  | exofork => exact sysExofork_does hc
  | envSetStatus envid st => exact sysEnvSetStatus_does envid st
  | envSetTrapframe envid va tf => exact sysEnvSetTrapframe_does envid va tf
  | envSetPgfaultUpcall envid func => exact sysEnvSetPgfaultUpcall_does envid func
  | envSetTransaction envid t => exact sysEnvSetTransaction_does envid t
  | envDestroy envid => exact sysEnvDestroy_does envid
  | ipcTrySend envid value srcva perm => exact sysIpcTrySend_does envid value srcva perm
  | ipcRecv dstva => exact sysIpcRecv_does dstva
  | yield => exact .pure (.quiet rfl rfl)
  | userMem va len perm r => exact sysUserMem_does va len perm r
  | query r => exact .pure (.quiet rfl rfl)
  | unknown => exact Does.fails _

end

/-! ### Traps and the other actions -/

/-- The saved `eax` of the env in slot `c` is `v`. -/
def Slots.setEax (T : Slots) (c v : ℕ) : Slots :=
  T.set c { T.envs c with tf := { (T.envs c).tf with regs := { (T.envs c).tf.regs with eax := v } } }

/-- The table when a call with the result `r` is over. -/
def Slots.finish (T : Slots) (c : ℕ) : Except Err (Option ℕ) → Slots
  | .ok (some v) => T.setEax c v
  | .ok none => T
  | .error er => T.setEax c er.code

/-- The frame is saved. -/
def KernSt.save (k : KernSt) (c : ℕ) (tf : Trapframe) : KernSt := k.setEnv c { k.envs c with tf := tf }

theorem KernSt.save_self (k : KernSt) (c : ℕ) (tf : Trapframe) : (k.save c tf).envs c = { k.envs c with tf := tf } :=
  Slots.set_self (T := k.slots)

theorem KernSt.save_ne (k : KernSt) {c e : ℕ} (tf : Trapframe) (h : e ≠ c) : (k.save c tf).envs e = k.envs e :=
  Slots.set_ne (T := k.slots) h

/-- A frame that is saved changes nothing else. -/
theorem KernSt.save_envs (k : KernSt) (c : ℕ) (tf : Trapframe) (e : ℕ) :
    (k.save c tf).envs e = { k.envs e with tf := ((k.save c tf).envs e).tf } := by
  by_cases h : e = c
  · rw [h, k.save_self]
  · rw [k.save_ne tf h]

theorem Slots.setEax_envs (T : Slots) (c v e : ℕ) : ∃ rs, (T.setEax c v).envs e = { T.envs e with tf := { (T.envs e).tf with regs := rs } } := by
  unfold Slots.setEax
  rw [Slots.set_envs]
  split
  next h => exact ⟨_, by rw [h]⟩
  next => exact ⟨(T.envs e).tf.regs, rfl⟩

theorem Slots.finish_ne (T : Slots) {c e : ℕ} (h : e ≠ c) (r : Except Err (Option ℕ)) : (T.finish c r).envs e = T.envs e := by
  rcases r with er | _ | v
  · exact Slots.set_ne h
  · rfl
  · exact Slots.set_ne h

/-- The end of a call changes registers only. -/
theorem Slots.finish_envs (T : Slots) (c : ℕ) (r : Except Err (Option ℕ)) (e : ℕ) :
    ∃ rs, (T.finish c r).envs e = { T.envs e with tf := { (T.envs e).tf with regs := rs } } := by
  rcases r with er | _ | v
  · exact T.setEax_envs c er.code e
  · exact ⟨(T.envs e).tf.regs, rfl⟩
  · exact T.setEax_envs c v e

/-- The table after a trap of the env in slot `c`, with the frame `tf`. -/
inductive Trapped (c : ℕ) (tf : Trapframe) (k : KernSt) : Trap → Slots → Prop
  | syscall (s : Call) (r : Except Err (Option ℕ)) (T : Slots) (h : Did c (k.save c tf) s r T) :
      Trapped c tf k (.syscall s) (T.finish c r)
  | upcall (esp : ℕ) :
      Trapped c tf k .pgflt ((k.save c tf).slots.set c { (k.save c tf).envs c with
        tf := { tf with esp := esp, eip := (k.envs c).upcall } })
  | died (t : Trap) (hp : (k.envs c).pgdir ≠ none) {T : Slots} (hT : T = (k.save c tf).slots.drop c) : Trapped c tf k t T
  | irq : Trapped c tf k .irq (k.save c tf).slots

/-- The table after an action that does not stop the kernel. -/
inductive Acted (k : KernSt) : KAct → Slots → Prop
  | trap (c : ℕ) (tf : Trapframe) (t : Trap) (T : Slots) (hc : c < NENV) (hr : (k.envs c).status = .runnable)
      (hu : userFrame (k.envs c).tf tf = true) (h : Trapped c tf k t T) : Acted k (.trap c tf t) T
  | calm (a : KAct) {T : Slots} (hT : T = k.slots) : Acted k a T
  | alloc (parent e p : ℕ) (q : Queue) (hf : k.envFree.first = some e) (hq : k.envFree.remove e = some q) {T : Slots}
      (hT : T = ⟨update k.envs e (k.slots.born e p parent), q⟩) : Acted k (.envAlloc parent) T
  | create (prog : Program) (e p : ℕ) (q : Queue) (hf : k.envFree.first = some e) (hq : k.envFree.remove e = some q)
      {T : Slots} (hT : T = ⟨update k.envs e { k.slots.born e p 0 with
        tf := { initFrame e with eip := prog.entry } }, q⟩) : Acted k (.envCreate prog) T
  | free (e : ℕ) (hp : (k.envs e).pgdir ≠ none) {T : Slots} (hT : T = k.slots.drop e) : Acted k (.envFree e) T

section
variable {k : KernSt} {c e : ℕ} {s : Call} {Q : Unit → KernSt → Prop} {E : Fault → KernSt → Prop}

/-- `trap_dispatch`, from what the call does. -/
theorem dispatchCall_run {Q' : Option ℕ → KernSt → Prop} {E' : Fault → KernSt → Prop} (h : Run (syscall c s) k Q' E')
    (hv : ∀ v k', Q' (some v) k' → Run (setEax c v) k' Q E) (hn : ∀ k', Q' none k' → Q () k')
    (he : ∀ er k', E' (.err er) k' → Run (setEax c er.code) k' Q E) (hp : ∀ p k', E' (.panic p) k' → E (.panic p) k') :
    Run (dispatchCall c s) k Q E := by
  unfold Run dispatchCall
  cases hx : syscall c s k with
  | ok r k' =>
    cases r with
    | none => exact hn k' (h.of_ok hx)
    | some v =>
      have := hv v k' (h.of_ok hx)
      unfold Run at this
      exact this
  | error f k' =>
    cases f with
    | err er =>
      have := he er k' (h.of_error hx)
      unfold Run at this
      exact this
    | panic p => exact hp p k' (h.of_error hx)

/-- What a call came to, when the trap returns. -/
theorem dispatchCall_ok {k' : KernSt} (h : dispatchCall c s k = .ok () k') :
    (∃ r k1, syscall c s k = .ok r k1 ∧ k'.slots = k1.slots.finish c (.ok r)) ∨
      ∃ er k1, syscall c s k = .error (.err er) k1 ∧ k' = k1.setEnv c { k1.envs c with
        tf := { (k1.envs c).tf with regs := { (k1.envs c).tf.regs with eax := er.code } } } := by
  unfold dispatchCall at h
  cases hx : syscall c s k with
  | ok r k1 =>
    rw [hx] at h
    refine .inl ⟨r, k1, rfl, ?_⟩
    cases r with
    | none =>
      injection h with _ h
      rw [← h]
      rfl
    | some v =>
      injection h with _ h
      rw [← h]
      rfl
  | error f k1 =>
    rw [hx] at h
    cases f with
    | err er =>
      injection h with _ h
      exact .inr ⟨er, k1, rfl, h.symm⟩
    | panic p => cases h

theorem dispatchCall_trapped {tf : Trapframe} (hc : k.envFree.first ≠ some c) (s : Call) :
    Run (dispatchCall c s) (k.save c tf) (fun _ k' => Trapped c tf k (.syscall s) k'.slots) fun f _ => f.IsPanic := by
  refine dispatchCall_run (syscall_did (k := k.save c tf) hc s) (fun v k' h => .modify ?_) (fun k' h => ?_)
    (fun er k' h => .modify ?_) fun p k' h => ?_
  · exact .syscall s _ _ h
  · exact .syscall s _ _ h
  · rcases h with ⟨_, h⟩ | ⟨er', h, hd⟩
    · cases h
    · cases h
      exact .syscall s _ _ hd
  · exact ⟨p, rfl⟩

/-- `page_fault_handler` enters the upcall, or the env dies. -/
theorem pageFaultHandler_run {Q : Unit → KernSt → Prop} (hdie : Run (envFree c) k Q fun f _ => f.IsPanic)
    (hup : Q () (k.setEnv c { k.envs c with
      tf := { (k.envs c).tf with esp := (utfRange (k.envs c).tf.esp).1, eip := (k.envs c).upcall } })) :
    Run (pageFaultHandler c) k Q fun f _ => f.IsPanic := by
  unfold pageFaultHandler
  refine .getBind ?_
  dsimp only
  split
  · refine .getBind (.bind (pgdirOf_run c _) fun d k1 ⟨hk, _⟩ => ?_)
    subst hk
    split
    · refine .getBind (.bind (pgdirOf_run c _) fun d k1 ⟨hk, _⟩ => ?_)
      subst hk
      split
      · exact .modify hup
      · exact .throw ⟨_, rfl⟩
    · exact hdie
  · exact hdie

theorem pageFaultHandler_trapped (c : ℕ) (tf : Trapframe) (k : KernSt) :
    Run (pageFaultHandler c) (k.save c tf) (fun _ k' => Trapped c tf k .pgflt k'.slots) fun f _ => f.IsPanic := by
  have hself := k.save_self c tf
  have hdie : Run (envFree c) (k.save c tf) (fun _ k' => Trapped c tf k .pgflt k'.slots) fun f _ => f.IsPanic := by
    refine .post (envFree_slots c _) (fun _ k' ⟨hp, h⟩ => .died _ ?_ h)
    rw [hself] at hp
    exact hp
  refine pageFaultHandler_run hdie ?_
  rw [KernSt.slots_setEnv, hself]
  have hup : Trapped c tf k .pgflt _ := .upcall (utfRange tf.esp).1
  rw [hself] at hup
  exact hup

theorem trap_trapped (hc : k.envFree.first ≠ some c) (tf : Trapframe) (t : Trap) :
    Run (trap c tf t) k (fun _ k' => Trapped c tf k t k'.slots) fun f _ => f.IsPanic := by
  unfold trap
  refine .modifyBind ?_
  cases t with
  | syscall s => exact dispatchCall_trapped hc s
  | pgflt => exact pageFaultHandler_trapped c tf k
  | irq => exact .pure .irq
  | unexpected =>
    refine .post (envFree_slots c _) (fun _ k' ⟨hp, h⟩ => .died _ ?_ h)
    rw [show (k.setEnv c _).envs c = _ from Slots.set_self (T := k.slots)] at hp
    exact hp

theorem loadIcode_slots (e : ℕ) (prog : Program) (k : KernSt) :
    Run (loadIcode e prog) k
      (fun _ k' => k'.slots = k.slots.set e { k.envs e with tf := { (k.envs e).tf with eip := prog.entry } })
      fun f _ => f.IsPanic := by
  have hsegs : ∀ segs : List (ℕ × ℕ), Calm (segs.forM fun g => segmentAlloc e g.2 (g.1 * PGSIZE)) := by
    intro segs
    induction segs with
    | nil => exact .pure _
    | cons g segs ih => exact .bind (segmentAlloc_calm e _ _) fun _ => ih
  unfold loadIcode
  refine .bind (hsegs prog.segs k) fun _ k1 h1 => .modifyBind ?_
  refine .post (segmentAlloc_calm e 1 _ _) (fun _ k' h => ?_)
  rw [h, KernSt.slots_setEnv, ← KernSt.slots_envs, h1]
  rfl

theorem envCreate_slots (prog : Program) (k : KernSt) :
    Run (envCreate prog) k
      (fun _ k' => ∃ e p q, k.envFree.first = some e ∧ k.envFree.remove e = some q ∧
        k'.slots = ⟨update k.envs e { k.slots.born e p 0 with tf := { initFrame e with eip := prog.entry } }, q⟩)
      fun f _ => f.IsPanic := by
  unfold envCreate
  refine .bind (envAlloc_slots 0 k) ?_
  rintro _ k1 (⟨er, rfl, h⟩ | ⟨e, p, q, rfl, hf, hq, h⟩)
  · exact .throw ⟨_, rfl⟩
  · refine .post (loadIcode_slots e prog k1) (fun _ k' h' => ⟨e, p, q, hf, hq, ?_⟩)
    have he : k1.envs e = k.slots.born e p 0 := by
      rw [← KernSt.slots_envs, h]
      exact update_self ..
    rw [h', he, h]
    unfold Slots.set
    simp only [update_idem]
    rfl

/-- Every action, when the envs on the free list do not run. -/
theorem kstep_acted (hf : ∀ e, k.envFree.first = some e → (k.envs e).status = .free) (a : KAct) :
    Run (kstep a) k (fun _ k' => Acted k a k'.slots) fun f _ => f.IsPanic := by
  have calm : ∀ {α β : Type} {x : KM α} {g : α → KM β}, Calm x → (∀ y, Calm (g y)) →
      Run (x >>= fun y => g y >>= fun _ => pure ()) k (fun _ k' => Acted k a k'.slots) fun f _ => f.IsPanic := fun hx hg =>
    .post (Leaves.bind hx (fun y => Leaves.bind (hg y) fun _ => Leaves.pure _) k) (fun _ _ h => .calm _ h)
  cases a with
  | trap c tf t =>
    refine .getBind ?_
    dsimp only
    split
    next h =>
      have hc : k.envFree.first ≠ some c := fun hc => by
        have := hf c hc
        rw [h.2.1] at this
        cases this
      exact .post (trap_trapped hc tf t) (fun _ _ ht => .trap c tf t _ h.1 h.2.1 h.2.2 ht)
    next => exact .pure (.calm _ rfl)
  | pgdirWalk e va create => exact calm (pgdirOf_calm e) fun d => pgdirWalk_calm d va create
  | pageInsert e pp va perm => exact calm (pgdirOf_calm e) fun d => pageInsert_calm d pp va perm
  | pageRemove e va =>
    exact .post (Leaves.bind (pgdirOf_calm e) (fun d => pageRemove_calm d va) k) (fun _ _ h => .calm _ h)
  | envAlloc parent =>
    refine .bind (envAlloc_slots parent k) ?_
    rintro _ k1 (⟨er, rfl, h⟩ | ⟨e, p, q, rfl, hf, hq, h⟩)
    · exact .pure (.calm _ h)
    · exact .pure (.alloc parent e p q hf hq h)
  | envFree e => exact .post (envFree_slots e k) (fun _ _ ⟨hp, h⟩ => .free e hp h)
  | envCreate prog =>
    refine .post (envCreate_slots prog k) ?_
    rintro _ k' ⟨e, p, q, hf, hq, h⟩
    exact .create prog e p q hf hq h

end

/-! ### The table is sound -/

/-- The free list has the free slots, once each, and the live envs have a directory. -/
structure Slots.Sound (T : Slots) : Prop where
  queue : ∃ l, T.free.Holds l ∧ ∀ e, e ∈ l ↔ e < NENV ∧ (T.envs e).status = .free
  live : ∀ e, (T.envs e).pgdir ≠ none ↔ e < NENV ∧ (T.envs e).status ≠ .free

namespace Slots.Sound
variable {T T' : Slots} {e p : ℕ} {w : Env} {q : Queue}

theorem congr (h : T.Sound) (hq : T'.free = T.free) (hp : ∀ e, (T'.envs e).pgdir = (T.envs e).pgdir)
    (hs : ∀ e, (T'.envs e).status = .free ↔ (T.envs e).status = .free) : T'.Sound := by
  obtain ⟨l, hl, hm⟩ := h.queue
  refine ⟨⟨l, by rw [hq]; exact hl, fun e => by rw [hm, hs]⟩, fun e => ?_⟩
  rw [hp, ne_eq (T'.envs e).status, hs]
  exact h.live e

theorem set (h : T.Sound) (hp : w.pgdir = (T.envs e).pgdir) (hs : w.status = .free ↔ (T.envs e).status = .free) :
    (T.set e w).Sound := by
  refine h.congr rfl (fun e' => ?_) fun e' => ?_ <;> rw [set_envs] <;> split
  next he => rw [he, hp]
  next => rfl
  next he => rw [he, hs]
  next => rfl

theorem drop (h : T.Sound) (hp : (T.envs e).pgdir ≠ none) : (T.drop e).Sound := by
  obtain ⟨l, hl, hm⟩ := h.queue
  obtain ⟨he, hs⟩ := (h.live e).mp hp
  have hel : e ∉ l := fun hc => hs ((hm e).mp hc).2
  refine ⟨⟨e :: l, hl.insertHead hel, fun e' => ?_⟩, fun e' => ?_⟩ <;> rw [drop_envs]
  · by_cases hee : e' = e
    · simp [hee, he]
    · rw [List.mem_cons, or_iff_right hee, if_neg hee, hm]
  · by_cases hee : e' = e
    · simp [hee]
    · rw [if_neg hee]
      exact h.live e'

/-- The first free slot is taken. -/
theorem born (h : T.Sound) (hf : T.free.first = some e) (hq : T.free.remove e = some q) (hp : w.pgdir ≠ none)
    (hs : w.status ≠ .free) : (⟨update T.envs e w, q⟩ : Slots).Sound := by
  obtain ⟨l, hl, hm⟩ := h.queue
  rw [hl.first] at hf
  obtain ⟨l, rfl⟩ : ∃ l', l = e :: l' := by
    cases l with
    | nil => cases hf
    | cons e' l => exact ⟨l, by rw [Option.some.inj hf]⟩
  obtain ⟨q', hq', hl'⟩ := hl.remove
  rw [hq] at hq'
  obtain rfl := Option.some.inj hq'
  have hel := (List.nodup_cons.mp hl.2).1
  have helt := ((hm e).mp List.mem_cons_self).1
  refine ⟨⟨l, hl', fun e' => ?_⟩, fun e' => ?_⟩
  · by_cases hee : e' = e
    · simp [hee, hel, hs]
    · show _ ↔ _ ∧ (update T.envs e w e').status = _
      rw [update_of_ne hee, ← hm, List.mem_cons, or_iff_right hee]
  · show (update T.envs e w e').pgdir ≠ none ↔ _ ∧ (update T.envs e w e').status ≠ _
    by_cases hee : e' = e
    · simp [hee, hp, hs, helt]
    · rw [update_of_ne hee]
      exact h.live e'

/-- The first free slot is free. -/
theorem first (h : T.Sound) (hf : T.free.first = some e) : e < NENV ∧ (T.envs e).status = .free := by
  obtain ⟨l, hl, hm⟩ := h.queue
  rw [hl.first] at hf
  exact (hm e).mp (List.mem_of_mem_head? hf)

end Slots.Sound

/-! ### Runs -/

/-- The env in slot `e` is live. -/
def KernSt.Live (k : KernSt) (e : ℕ) : Prop := e < NENV ∧ (k.envs e).status ≠ .free

/-- The env an id stands for is live, if the caller is. -/
theorem envid2env_live {k : KernSt} {c envid e : ℕ} {b : Bool} (he : envid2env k c envid b = some e) (hc : k.Live c) :
    k.Live e := by
  unfold envid2env at he
  split_ifs at he with h0 h1 h2
  · cases he
    exact hc
  · cases he
    exact ⟨Nat.mod_lt _ (by decide), fun hf => h1 (.inl hf)⟩

theorem KernSt.Live.save {k : KernSt} {c : ℕ} (h : k.Live c) (tf : Trapframe) : (k.save c tf).Live c :=
  ⟨h.1, by rw [k.save_self]; exact h.2⟩

/-- A trap with the frame `tf` can happen in the env in slot `c`. -/
abbrev KernSt.CanTrap (k : KernSt) (c : ℕ) (tf : Trapframe) : Prop :=
  c < NENV ∧ (k.envs c).status = .runnable ∧ userFrame (k.envs c).tf tf = true

theorem KernSt.live_of_runnable {k : KernSt} {c : ℕ} (hc : c < NENV) (hr : (k.envs c).status = .runnable) : k.Live c :=
  ⟨hc, by rw [hr]; simp⟩

section
variable {k : KernSt} {c : ℕ} {s : Call} {r : Except Err (Option ℕ)} {T : Slots} {a : KAct}

theorem Slots.Sound.setEax (h : T.Sound) (v : ℕ) : (T.setEax c v).Sound := h.set rfl .rfl

theorem Slots.Sound.finish (h : T.Sound) : (T.finish c r).Sound := by
  cases r with
  | ok r =>
    cases r with
    | none => exact h
    | some v => exact h.setEax v
  | error er => exact h.setEax er.code

theorem Slots.Sound.did (h : k.slots.Sound) (hc : k.Live c) (hd : Did c k s r T) : T.Sound := by
  have live : ∀ {envid e b}, envid2env k c envid b = some e → (k.envs e).status ≠ .free := fun he =>
    (envid2env_live he hc).2
  cases hd with
  | failed hT => exact hT ▸ h
  | quiet hT => exact hT ▸ h
  | fork e p q hf hq => exact h.born hf hq (by simp [Slots.born]) (by simp)
  | status envid e st he hst => exact h.set rfl ⟨fun hc => absurd hc hst, fun hc => absurd hc (live he)⟩
  | frame => exact h.set rfl .rfl
  | deadFrame envid va e tf he hec hp => exact (h.drop hp).set rfl .rfl
  | suicide s hfat hp hT => exact hT ▸ h.drop hp
  | upcall => exact h.set rfl .rfl
  | transaction => exact h.set rfl .rfl
  | destroy envid e he hec hp => exact h.drop hp
  | refused => exact h.set rfl .rfl
  | sent envid value srcva perm e n he hr => exact h.set rfl ⟨by simp, fun hc => absurd hc (live he)⟩
  | recv => exact h.set rfl ⟨by simp, fun hf => absurd hf hc.2⟩

theorem Slots.Sound.save (h : k.slots.Sound) (c : ℕ) (tf : Trapframe) : (k.save c tf).slots.Sound := h.set rfl .rfl

theorem Slots.Sound.acted (h : k.slots.Sound) (ha : Acted k a T) : T.Sound := by
  cases ha with
  | trap c tf t T hc hr hu ht =>
    cases ht with
    | syscall s r T hd => exact ((h.save c tf).did ((KernSt.live_of_runnable hc hr).save tf) hd).finish
    | upcall esp => exact (h.save c tf).set rfl .rfl
    | died t hp hT =>
      refine hT ▸ (h.save c tf).drop ?_
      rw [KernSt.slots_envs, k.save_self]
      exact hp
    | irq => exact h.save c tf
  | calm a hT => exact hT ▸ h
  | alloc parent e p q hf hq hT => exact hT ▸ h.born hf hq (by simp [Slots.born]) (by simp [Slots.born])
  | create prog e p q hf hq hT => exact hT ▸ h.born hf hq (by simp [Slots.born]) (by simp [Slots.born])
  | free e hp hT => exact hT ▸ h.drop hp

/-- A trap that happens. -/
theorem kstep_trap {k' : KernSt} {tf : Trapframe} {t : Trap} (hg : k.CanTrap c tf) :
    kstep (.trap c tf t) k = .ok () k' ↔ trap c tf t k = .ok () k' := by
  have h : kstep (.trap c tf t) k = (if k.CanTrap c tf then trap c tf t else pure ()) k := rfl
  rw [h, if_pos hg]

/-- A trap that does not happen. -/
theorem kstep_skip {tf : Trapframe} {t : Trap} (hg : ¬ k.CanTrap c tf) : kstep (.trap c tf t) k = .ok () k := by
  have h : kstep (.trap c tf t) k = (if k.CanTrap c tf then trap c tf t else pure ()) k := rfl
  rw [h, if_neg hg]
  rfl

/-- A live env is not in the first free slot. -/
theorem Slots.Sound.first_ne (h : k.slots.Sound) (hc : k.Live c) : k.envFree.first ≠ some c := fun hf =>
  hc.2 (h.first hf).2

/-- A call that happens, with its result. -/
theorem Slots.Sound.call {k' : KernSt} {tf : Trapframe} (h : k.slots.Sound) (hg : k.CanTrap c tf)
    (hk : kstep (.trap c tf (.syscall s)) k = .ok () k') :
    ∃ r T, Did c (k.save c tf) s r T ∧ k'.slots = T.finish c r ∧ returned (syscall c s) (k.save c tf) = r.toOption := by
  have hf : (k.save c tf).envFree.first ≠ some c := h.first_ne (KernSt.live_of_runnable hg.1 hg.2.1)
  have hd : dispatchCall c s (k.save c tf) = .ok () k' := (kstep_trap hg).mp hk
  have hdid := syscall_did hf s
  unfold returned
  obtain ⟨r, k1, hx, hk'⟩ | ⟨er, k1, hx, hk'⟩ := dispatchCall_ok hd <;> rw [hx]
  · exact ⟨.ok r, k1.slots, hdid.of_ok hx, hk', rfl⟩
  · obtain ⟨_, hp⟩ | ⟨er', he, hT⟩ := hdid.of_error hx
    · cases hp
    · cases he
      exact ⟨.error er, k1.slots, hT, by rw [hk']; rfl, rfl⟩

/-- What an action does to a sound table. -/
theorem Slots.Sound.step {k' : KernSt} (h : k.slots.Sound) (hk : kstep a k = .ok () k') : Acted k a k'.slots :=
  (kstep_acted (fun _ hf => (h.first hf).2) a).of_ok hk

end

/-- `P` holds of every action of the run and the state it starts in. -/
def Along (P : KernSt → KAct → Prop) : List KAct → KernSt → Prop
  | [], _ => True
  | a :: as, k => P k a ∧ ∀ k', kstep a k = .ok () k' → Along P as k'

theorem Along.cons {P : KernSt → KAct → Prop} {a : KAct} {as : List KAct} {k k1 : KernSt} (ha : P k a)
    (h1 : kstep a k = .ok () k1) (h : Along P as k1) : Along P (a :: as) k := by
  refine ⟨ha, fun k' hk => ?_⟩
  rw [h1] at hk
  injection hk with _ hk
  exact hk ▸ h

theorem Along.mono {P P' : KernSt → KAct → Prop} (hP : ∀ k a, P k a → P' k a) :
    ∀ {as : List KAct} {k : KernSt}, Along P as k → Along P' as k
  | [], _, _ => trivial
  | _ :: _, _, h => ⟨hP _ _ h.1, fun k' hk => (h.2 k' hk).mono hP⟩

theorem krun_nil (k : KernSt) : krun [] k = .ok () k := rfl

/-- What a run that returns is made of. -/
theorem krun_cons {a : KAct} {as : List KAct} {k k' : KernSt} :
    krun (a :: as) k = .ok () k' ↔ ∃ k1, kstep a k = .ok () k1 ∧ krun as k1 = .ok () k' := by
  show EStateM.bind (kstep a) (fun _ => krun as) k = _ ↔ _
  unfold EStateM.bind
  cases kstep a k with
  | ok u k1 => simp
  | error e k1 => simp

theorem krun_append {bs : List KAct} {k' : KernSt} : ∀ {as : List KAct} {k k1 : KernSt}, krun as k = .ok () k1 →
    krun bs k1 = .ok () k' → krun (as ++ bs) k = .ok () k'
  | [], k, k1, h1, h2 => by
    rw [krun_nil] at h1
    injection h1 with _ h1
    exact h1 ▸ h2
  | a :: as, k, k1, h1, h2 => by
    obtain ⟨k2, ha, has⟩ := krun_cons.mp h1
    exact krun_cons.mpr ⟨k2, ha, krun_append has h2⟩

/-- The induction over a run: a property that every action keeps holds in the end. -/
theorem krun_induction {P : KernSt → KAct → Prop} {I : KernSt → Prop}
    (step : ∀ k a k', I k → P k a → kstep a k = .ok () k' → I k') :
    ∀ {as : List KAct} {k k' : KernSt}, I k → Along P as k → krun as k = .ok () k' → I k'
  | [], k, k', hk, _, hr => by
    obtain rfl : k = k' := by
      have : EStateM.Result.ok () k = EStateM.Result.ok () k' := hr
      injection this
    exact hk
  | a :: as, k, k', hk, ha, hr => by
    obtain ⟨k1, h1, h2⟩ := krun_cons.mp hr
    exact krun_induction step (step k a k1 hk ha.1 h1) (ha.2 k1 h1) h2

/-- The table stays sound, whatever happens. -/
theorem Slots.Sound.run {as : List KAct} {k k' : KernSt} (h : k.slots.Sound) (hr : krun as k = .ok () k') :
    k'.slots.Sound := by
  refine krun_induction (P := fun _ _ => True) (I := fun k => k.slots.Sound)
    (fun k a k' hk _ hs => hk.acted (hk.step hs)) h ?_ hr
  clear h hr
  induction as generalizing k with
  | nil => trivial
  | cons a as ih => exact ⟨trivial, fun k1 _ => ih⟩

/-! ### The first table -/

theorem holds_foldr (l : List ℕ) (h : l.Nodup) : (l.foldr (fun e q => q.insertHead e) Queue.empty).Holds l := by
  induction l with
  | nil => exact Queue.holds_empty
  | cons e l ih =>
    obtain ⟨he, hl⟩ := List.nodup_cons.mp h
    exact (ih hl).insertHead he

/-- The table `env_init` makes. -/
structure KernSt.Fresh (k : KernSt) : Prop where
  queue : k.envFree = envInit
  envs : ∀ e, k.envs e = ⟨noFrame, 0, 0, .free, none, 0, false, 0, 0, 0, 0, 0⟩

theorem kernReset_fresh (npage freemem bootPgdir : ℕ) (mem : ℕ → ℕ → Pte) :
    (kernReset npage freemem bootPgdir mem).Fresh := by
  refine ⟨?_, fun e => ?_⟩ <;> simp only [kernReset]

theorem KernSt.Fresh.sound {k : KernSt} (h : k.Fresh) : k.slots.Sound := by
  refine ⟨⟨List.range NENV, ?_, fun e => ?_⟩, fun e => ?_⟩
  · show k.envFree.Holds _
    rw [h.queue]
    exact holds_foldr _ List.nodup_range
  · rw [KernSt.slots_envs, h.envs, List.mem_range]
    simp
  · rw [KernSt.slots_envs, h.envs]
    simp

end Kern
end Jos
