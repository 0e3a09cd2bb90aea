/-
# Messages between envs

`sys_ipc_recv` marks the caller as receiving and not runnable; a
`sys_ipc_try_send` to it clears the mark, stores the message and makes it runnable.
While nobody else sets the status of a receiving env, it is blocked, and its
receives and the sends to it alternate.

The log of a slot is the receives that block and the sends that succeed, in the
order of the run.

Key definitions: `NoWake`, `Undisturbed`, `event`, `log`.
Key theorems: `blocked_of_run`, `delivered_of_run`.
-/
import Jos.Kern.Progress

namespace Jos
namespace Kern

open Fs (NENV PGSIZE)
open Function
open KernSt (slots_envs)
open Slots (drop_ne drop_self set_ne set_self)

/-! ### A receiving env is blocked -/

/-- The action does not make a receiving env runnable by `sys_env_set_status`. -/
def NoWake (k : KernSt) : KAct → Prop
  | .trap c _ (.syscall (.envSetStatus envid .runnable)) =>
    ∀ e, envid2env k c envid true = some e → (k.envs e).recving = false
  | _ => True

/-- The live envs that are receiving are not runnable. -/
def Blocked (w : ℕ → Env) : Prop := ∀ e, (w e).status ≠ .free → (w e).recving = true → (w e).status = .notRunnable

section
variable {k k' : KernSt} {c e : ℕ} {s : Call} {r : Except Err (Option ℕ)} {T : Slots} {a : KAct} {tf : Trapframe} {as : List KAct}

theorem Blocked.set {w : Env} (h : Blocked T.envs)
    (hw : w.status ≠ .free → w.recving = true → w.status = .notRunnable) : Blocked (T.set e w).envs :=
  Slots.all_set (P := fun _ w => w.status ≠ .free → w.recving = true → w.status = .notRunnable) h hw

theorem Blocked.drop (h : Blocked T.envs) (e : ℕ) : Blocked (T.drop e).envs :=
  Slots.all_drop (P := fun _ w => w.status ≠ .free → w.recving = true → w.status = .notRunnable) h fun hc => absurd rfl hc

theorem Blocked.born {w : Env} {q : Queue} (h : Blocked T.envs) (hw : w.recving = false) :
    Blocked (⟨update T.envs e w, q⟩ : Slots).envs :=
  Slots.all_update (P := fun _ w => w.status ≠ .free → w.recving = true → w.status = .notRunnable) h fun _ hr => by
    rw [hw] at hr
    cases hr

theorem Blocked.did (h : Blocked k.envs)
    (hst : ∀ envid e, s = .envSetStatus envid .runnable → envid2env k c envid true = some e → (k.envs e).recving = false)
    (hd : Did c k s r T) : Blocked T.envs := by
  have hs : Blocked k.slots.envs := h
  cases hd with
  | failed hT => exact hT ▸ h
  | quiet hT => exact hT ▸ h
  | fork e p q hf hq => exact .born (T := k.slots) h rfl
  | status envid e st he hne =>
    refine hs.set fun _ hr => ?_
    cases st with
    | free => exact absurd rfl hne
    | notRunnable => rfl
    | runnable =>
      have hf := hst envid e rfl he
      rw [show ({ k.envs e with status := Status.runnable } : Env).recving = (k.envs e).recving from rfl, hf] at hr
      cases hr
  | frame envid va e => exact hs.set (h e)
  | deadFrame envid va e => exact (hs.drop e).set (hs.drop e e)
  | suicide s hfat hp hT => exact hT ▸ hs.drop c
  | upcall envid func e => exact hs.set (h e)
  | transaction envid t e => exact hs.set (h e)
  | destroy envid e => exact hs.drop e
  | refused envid value srcva perm e => exact hs.set (h e)
  | sent envid value srcva perm e => exact hs.set fun _ hr => by cases hr
  | recv dstva => exact hs.set fun _ _ => rfl

theorem Blocked.save (h : Blocked k.envs) (c : ℕ) (tf : Trapframe) : Blocked (k.save c tf).envs :=
  .set (T := k.slots) h (h c)

theorem Blocked.acted (h : Blocked k.envs) (hw : NoWake k a) (ha : Acted k a T) : Blocked T.envs := by
  cases ha with
  | trap c tf t T hc hr hu ht =>
    have hsave := h.save c tf
    cases ht with
    | syscall s r T hd =>
      have hT : Blocked T.envs := by
        refine hsave.did (fun envid e hs he => ?_) hd
        subst hs
        rw [envid2env_save] at he
        rw [k.save_envs c tf e]
        exact hw e he
      intro e
      obtain ⟨rs, hfin⟩ := T.finish_envs c r e
      rw [hfin]
      exact hT e
    | upcall esp => exact .set (T := (k.save c tf).slots) hsave (hsave c)
    | died t hp hT => exact hT ▸ .drop (T := (k.save c tf).slots) hsave c
    | irq => exact hsave
  | calm a hT => exact hT ▸ h
  | alloc parent e p q hf hq hT => exact hT ▸ .born (T := k.slots) h rfl
  | create prog e p q hf hq hT => exact hT ▸ .born (T := k.slots) h rfl
  | free e hp hT => exact hT ▸ .drop (T := k.slots) h e

theorem Started.recving {progs : List Program} (h : Started progs k) (e : ℕ) : (k.envs e).recving = false := by
  by_cases he : e < progs.length
  · obtain ⟨d, hd⟩ := h.envs e he
    rw [hd]
    rfl
  · rw [h.rest e (by omega)]

theorem Started.mail {progs : List Program} (h : Started progs k) (e : ℕ) : ((k.envs e).value, (k.envs e).sender) = (0, 0) := by
  by_cases he : e < progs.length
  · obtain ⟨d, hd⟩ := h.envs e he
    rw [hd]
    rfl
  · rw [h.rest e (by omega)]

theorem Started.blocked {progs : List Program} (h : Started progs k) : Blocked k.envs := fun e _ hr => by
  rw [h.recving e] at hr
  cases hr

/-- A send writes to the frame of no other env than a blocked one. -/
theorem Blocked.send_tf {envid value srcva perm : ℕ} (h : Blocked k.envs) (hk : k.slots.Sound)
    (hs : kstep (.trap c tf (.syscall (.ipcTrySend envid value srcva perm))) k = .ok () k') (hec : e ≠ c)
    (hr : (k.envs e).status = .runnable) : (k'.envs e).tf = (k.envs e).tf := by
  have hacted := hk.step hs
  rw [← slots_envs k']
  generalize k'.slots = T at hacted
  cases hacted with
  | trap c tf t T hc hrun hu ht =>
    have hne := k.save_ne tf hec
    cases ht with
    | syscall s r T hd =>
      rw [T.finish_ne hec]
      cases hd with
      | failed hT => rw [hT, slots_envs, hne]
      | quiet hT hq => cases hq
      | suicide s hfat => cases hfat
      | refused envid value srcva perm e' er he hrec =>
        rw [Slots.set_envs]
        split
        next hee => rw [← hee, hne]
        next => rw [slots_envs, hne]
      | sent envid value srcva perm e' n he hrec =>
        have hee : e ≠ e' := fun hee => by
          subst hee
          rw [hne] at hrec
          have := h e (by rw [hr]; simp) hrec
          rw [hr] at this
          cases this
        rw [set_ne hee, slots_envs, hne]
    | died t hp hT => rw [hT, drop_ne hec, slots_envs, hne]
  | calm a hT => rw [hT, slots_envs]

end

/-- The saved registers of a family, with the child's `eax`. -/
def eaxFrame (tf : Trapframe) (v : ℕ) : Trapframe := { tf with regs := { tf.regs with eax := v } }

/-- A timer interrupt of the child. -/
theorem Family.irq {k : KernSt} {rcv : Bool} (h : Family k .runnable rcv) :
    ∃ k', kstep (.trap 2 (eaxFrame (k.envs 2).tf 7) .irq) k = .ok () k' ∧ Family k' .runnable rcv ∧
      (k'.envs 2).tf.regs.eax = 7 := by
  refine ⟨k.save 2 (eaxFrame (k.envs 2).tf 7), ?_, ?_, ?_⟩
  · show (if 2 < NENV ∧ (k.envs 2).status = .runnable ∧ userFrame (k.envs 2).tf (eaxFrame (k.envs 2).tf 7) = true then
      trap 2 (eaxFrame (k.envs 2).tf 7) .irq else pure ()) k = _
    have hu : userFrame (k.envs 2).tf (eaxFrame (k.envs 2).tf 7) = true := userFrame_refl (k.envs 2).tf
    rw [if_pos ⟨by decide, h.status, hu⟩]
    rfl
  · exact h.congr ⟨_, k.save_envs 2 _ 0⟩ ⟨_, k.save_envs 2 _ 2⟩
  · rw [k.save_self]
    rfl

/-- What the log of a slot holds: its env blocks in `sys_ipc_recv`, gets a message,
or traps for another reason or gets a new frame. -/
inductive Ev
  | recv
  | sent (value sender : ℕ)
  | other
  deriving DecidableEq

/-- The env in slot `c` traps, as the log of slot `e` has it. -/
def ownEvent (e c : ℕ) : Option Ev := if c = e then some .other else none

def restEvent (e c : ℕ) (k : KernSt) : Call → Option Ev
  | .envSetTrapframe envid _ _ => if envid2env k c envid true = some e then some .other else ownEvent e c
  | _ => ownEvent e c

/-- A call with the result `r`, `none` for an error, as the log of slot `e` has it. -/
def callEvent (e c : ℕ) (k : KernSt) (r : Option (Option ℕ)) : Call → Option Ev
  | .ipcTrySend envid value _ _ =>
    if r = some (some 0) ∧ envid2env k c envid false = some e then some (.sent value (k.envs c).id) else ownEvent e c
  | .ipcRecv _ => if r = some none ∧ c = e then some .recv else ownEvent e c
  | s => restEvent e c k s

def trapEvent (e c : ℕ) (k : KernSt) : Trap → Option Ev
  | .syscall s => callEvent e c k (returned (syscall c s) k) s
  | _ => ownEvent e c

def event (e : ℕ) (k : KernSt) : KAct → Option Ev
  | .trap c tf t =>
    if c < NENV ∧ (k.envs c).status = .runnable ∧ userFrame (k.envs c).tf tf = true then trapEvent e c (k.save c tf) t
    else none
  | _ => none

/-- The log of slot `e` in a run. -/
def log (e : ℕ) : List KAct → KernSt → List Ev
  | [], _ => []
  | a :: as, k => (event e k a).toList ++ log e as (after (kstep a) k)

/-- Every receive comes directly before a message or at the end, and every message
directly after a receive; the flag says whether the env is receiving at the start. -/
def Paired : Bool → List Ev → Prop
  | _, [] => True
  | false, .recv :: l => Paired true l
  | true, .sent _ _ :: l => Paired false l
  | false, .other :: l => Paired false l
  | _, _ => False

/-- The last message of a log. -/
def lastSent (d : ℕ × ℕ) : List Ev → ℕ × ℕ
  | [] => d
  | .sent value sender :: l => lastSent (value, sender) l
  | _ :: l => lastSent d l

/-- Nobody sets the status or the frame of the env in slot `e` while it is
receiving, and nobody destroys it then. -/
def Undisturbed (e : ℕ) (k : KernSt) : KAct → Prop
  | .trap c _ (.syscall (.envSetStatus envid _)) => envid2env k c envid true = some e → (k.envs e).recving = false
  | .trap c _ (.syscall (.envSetTrapframe envid _ _)) => envid2env k c envid true = some e → (k.envs e).recving = false
  | .trap c _ (.syscall (.envDestroy envid)) => envid2env k c envid true = some e → (k.envs e).recving = false
  | .envFree e' => e' = e → (k.envs e).recving = false
  | _ => True

def Env.mail (w : Env) : Bool × ℕ × ℕ := (w.recving, w.value, w.sender)

/-- What happens to an env in an action, by its event. -/
def Passed (w w' : Env) : Option Ev → Prop
  | none => w'.mail = w.mail ∧ (w.recving = true → w'.status = w.status) ∧ (w.tf.regs.eax = 0 → w'.tf.regs.eax = 0)
  | some .recv => w.recving = false ∧ w'.mail = (true, w.value, w.sender) ∧ w'.status = .notRunnable
  | some (.sent value sender) =>
    w.recving = true ∧ w'.mail = (false, value, sender) ∧ w'.status = .runnable ∧ w'.tf.regs.eax = 0
  | some .other => w.recving = false ∧ w'.mail = w.mail

section
variable {k k' : KernSt} {c e : ℕ} {s : Call} {r : Except Err (Option ℕ)} {T : Slots} {a : KAct} {tf : Trapframe} {as : List KAct}

theorem callEvent_none (s : Call) : callEvent e c k none s = restEvent e c k s := by
  cases s <;> simp [callEvent, restEvent]

theorem callEvent_quiet {r : Option (Option ℕ)} (h : s.quiet = true ∨ s.fatal = true) :
    callEvent e c k r s = restEvent e c k s := by
  cases s <;> simp_all [callEvent, restEvent, Call.quiet, Call.fatal]

/-- A call that is no receive of the env and no message to it. -/
theorem passed_rest {w' : Env} (hev : callEvent e c k r.toOption s = restEvent e c k s)
    (hu : Undisturbed e k (.trap c tf (.syscall s))) (hown : c = e → (k.envs e).recving = false)
    (hm : w'.mail = (k.envs e).mail) (hs : c ≠ e → (k.envs e).recving = true → w'.status = (k.envs e).status)
    (ha : c ≠ e → restEvent e c k s = none → (k.envs e).tf.regs.eax = 0 → w'.tf.regs.eax = 0) :
    Passed (k.envs e) w' (callEvent e c k r.toOption s) := by
  rw [hev]
  have hcases : restEvent e c k s = none ∧ c ≠ e ∨ restEvent e c k s = some .other ∧ (k.envs e).recving = false := by
    by_cases hce : c = e
    · refine .inr ⟨?_, hown hce⟩
      cases s <;> simp [restEvent, ownEvent, hce]
    · cases s with
      | envSetTrapframe envid va tf =>
        by_cases he : envid2env k c envid true = some e
        · exact .inr ⟨by simp [restEvent, he], hu he⟩
        · exact .inl ⟨by simp [restEvent, ownEvent, he, hce], hce⟩
      | _ => exact .inl ⟨by simp [restEvent, ownEvent, hce], hce⟩
  obtain ⟨hr, hce⟩ | ⟨hr, hrec⟩ := hcases
  · have ha' := ha hce hr
    rw [hr]
    exact ⟨hm, hs hce, ha'⟩
  · rw [hr]
    exact ⟨hrec, hm⟩

theorem Did.passed (hd : Did c k s r T) (hu : Undisturbed e k (.trap c tf (.syscall s)))
    (hrun : (k.envs c).status = .runnable) (hI : (k.envs e).recving = true → (k.envs e).status = .notRunnable)
    (hfree : ∀ e, k.envFree.first = some e → (k.envs e).status = .free) :
    Passed (k.envs e) ((T.finish c r).envs e) (callEvent e c k r.toOption s) := by
  have hfin : ((T.finish c r).envs e).mail = (T.envs e).mail ∧ ((T.finish c r).envs e).status = (T.envs e).status := by
    obtain ⟨rs, hrs⟩ := T.finish_envs c r e
    rw [hrs]
    exact ⟨rfl, rfl⟩
  have hne : c ≠ e → (T.finish c r).envs e = T.envs e := fun h => T.finish_ne (Ne.symm h) r
  have hstop : ∀ {st : Status}, (k.envs e).status = st → st ≠ .notRunnable → (k.envs e).recving = false := fun hst hn => by
    by_contra hc
    exact hn (hst.symm.trans (hI (by simpa using hc)))
  have hown : c = e → (k.envs e).recving = false := fun hce => hstop (hce ▸ hrun) (by simp)
  -- a call that leaves the messages of the env as they are
  have rest : ∀ {w : Env}, T.envs e = w → callEvent e c k r.toOption s = restEvent e c k s → w.mail = (k.envs e).mail →
      (c ≠ e → (k.envs e).recving = true → w.status = (k.envs e).status) →
      (c ≠ e → restEvent e c k s = none → (k.envs e).tf.regs.eax = 0 → w.tf.regs.eax = 0) →
      Passed (k.envs e) ((T.finish c r).envs e) (callEvent e c k r.toOption s) := by
    rintro w rfl hev hm hs ha
    refine passed_rest hev hu hown (hfin.1.trans hm) (fun hc hr => hfin.2.trans (hs hc hr)) fun hc h0 => ?_
    rw [hne hc]
    exact ha hc h0
  have same : T.envs e = k.envs e → callEvent e c k r.toOption s = restEvent e c k s →
      Passed (k.envs e) ((T.finish c r).envs e) (callEvent e c k r.toOption s) := fun hT hev =>
    rest hT hev rfl (fun _ _ => rfl) fun _ _ => id
  cases hd with
  | failed hT => exact same (by rw [hT]; rfl) (callEvent_none s)
  | quiet hT hq => exact same (by rw [hT]; rfl) (callEvent_quiet (.inl hq))
  | fork e' p q hf hq =>
    obtain rfl | hee := eq_or_ne e e'
    · have hrec := hstop (hfree e hf) (by simp)
      refine rest (update_self ..) rfl ?_ (fun _ hr => by rw [hrec] at hr; cases hr) fun _ _ _ => rfl
      unfold Env.mail
      rw [hrec]
      rfl
    · exact same (update_of_ne hee ..) rfl
  | status envid e' st he hst =>
    obtain rfl | hee := eq_or_ne e e'
    · refine rest set_self rfl rfl (fun _ hr => ?_) fun _ _ => id
      rw [hu he] at hr
      cases hr
    · exact same (set_ne hee) rfl
  | frame envid va e' tf' he =>
    obtain rfl | hee := eq_or_ne e e'
    · exact rest set_self rfl rfl (fun _ _ => rfl) fun _ h0 => by simp [restEvent, he] at h0
    · exact same (set_ne hee) rfl
  | deadFrame envid va e' tf' he hec hp =>
    obtain rfl | hee := eq_or_ne e e'
    · refine rest set_self rfl (by rw [drop_self]; rfl) (fun _ hr => ?_) fun _ h0 => ?_
      · rw [hu he] at hr
        cases hr
      · simp [restEvent, he] at h0
    · exact same ((set_ne hee).trans (drop_ne hee)) rfl
  | suicide s hfat hp hT =>
    obtain rfl | hee := eq_or_ne e c
    · have hself : T.envs e = { k.envs e with pgdir := none, status := .free } := by
        rw [hT]
        exact drop_self
      exact rest hself (callEvent_quiet (.inr hfat)) rfl (fun hc => absurd rfl hc) fun hc => absurd rfl hc
    · exact same (by rw [hT]; exact drop_ne hee) (callEvent_quiet (.inr hfat))
  | upcall envid func e' he =>
    obtain rfl | hee := eq_or_ne e e'
    · exact rest set_self rfl rfl (fun _ _ => rfl) fun _ _ => id
    · exact same (set_ne hee) rfl
  | transaction envid t e' he =>
    obtain rfl | hee := eq_or_ne e e'
    · exact rest set_self rfl rfl (fun _ _ => rfl) fun _ _ => id
    · exact same (set_ne hee) rfl
  | destroy envid e' he hec hp =>
    obtain rfl | hee := eq_or_ne e e'
    · refine rest drop_self rfl rfl (fun _ hr => ?_) fun _ _ => id
      rw [hu he] at hr
      cases hr
    · exact same (drop_ne hee) rfl
  | refused envid value srcva perm e' er he hrec =>
    obtain rfl | hee := eq_or_ne e e'
    · exact rest set_self (callEvent_none _) rfl (fun _ _ => rfl) fun _ _ => id
    · exact same (set_ne hee) (callEvent_none _)
  | sent envid value srcva perm e' n he hrec =>
    obtain rfl | hee := eq_or_ne e e'
    · have hce : c ≠ e := fun hce => by
        rw [hown hce] at hrec
        cases hrec
      rw [hne hce, set_self, show callEvent e c k _ _ = some (.sent value (k.envs c).id) by simp [callEvent, he, Except.toOption]]
      exact ⟨hrec, rfl, rfl, rfl⟩
    · refine same (set_ne hee) ?_
      simp [callEvent, restEvent, he, Ne.symm hee]
  | recv dstva =>
    obtain rfl | hee := eq_or_ne e c
    · rw [show callEvent e e k _ _ = some .recv by simp [callEvent, Except.toOption]]
      exact ⟨hown rfl, hfin.1.trans (by rw [set_self]; rfl), hfin.2.trans (by rw [set_self])⟩
    · refine same (set_ne hee) ?_
      simp [callEvent, restEvent, Ne.symm hee]

theorem trapEvent_own (t : Trap) : trapEvent c c k t ≠ none := by
  cases t with
  | syscall s =>
    cases s with
    | ipcRecv dstva =>
      simp only [trapEvent, callEvent, ownEvent]
      split <;> simp
    | ipcTrySend envid value srcva perm =>
      simp only [trapEvent, callEvent, ownEvent]
      split <;> simp
    | _ => simp [trapEvent, callEvent, restEvent, ownEvent]
  | _ => simp [trapEvent, ownEvent]

/-- The frame an env traps with is its own affair. -/
theorem Passed.of_save {w' : Env} {ev : Option Ev} (h : Passed ((k.save c tf).envs e) w' ev) (hev : c = e → ev ≠ none) :
    Passed (k.envs e) w' ev := by
  by_cases hce : e = c
  · rw [hce, k.save_self] at h
    subst hce
    cases ev with
    | none => exact absurd rfl (hev rfl)
    | some ev => cases ev <;> exact h
  · rwa [k.save_ne tf hce] at h

theorem Trapped.passed {t : Trap} (hd : Trapped c tf k t T) (ht : ∀ s, t ≠ .syscall s)
    (hown : c = e → (k.envs e).recving = false) : Passed (k.envs e) (T.envs e) (ownEvent e c) := by
  unfold ownEvent
  by_cases hce : c = e
  · subst hce
    rw [if_pos rfl]
    refine ⟨hown rfl, ?_⟩
    cases hd with
    | syscall s => exact absurd rfl (ht s)
    | upcall esp => rw [set_self, k.save_self]; rfl
    | died t hp hT => rw [hT, drop_self, slots_envs, k.save_self]; rfl
    | irq => rw [slots_envs, k.save_self]; rfl
  · have hec := Ne.symm hce
    have hT : T.envs e = k.envs e := by
      cases hd with
      | syscall s => exact absurd rfl (ht s)
      | upcall esp => rw [set_ne hec, slots_envs, k.save_ne tf hec]
      | died t hp hT => rw [hT, drop_ne hec, slots_envs, k.save_ne tf hec]
      | irq => rw [slots_envs, k.save_ne tf hec]
    rw [if_neg hce, hT]
    exact ⟨rfl, fun _ => rfl, id⟩

theorem Passed.refl (w : Env) : Passed w w none := ⟨rfl, fun _ => rfl, id⟩

theorem Undisturbed.save (hu : Undisturbed e k a) (c : ℕ) (tf : Trapframe) : Undisturbed e (k.save c tf) a := by
  have hrec : ((k.save c tf).envs e).recving = (k.envs e).recving := by rw [k.save_envs]
  unfold Undisturbed at hu ⊢
  simp only [envid2env_save, hrec]
  exact hu

theorem passed_trap {t : Trap} (h : k.slots.Sound) (hI : (k.envs e).recving = true → (k.envs e).status = .notRunnable)
    (hu : Undisturbed e k (.trap c tf t)) (hk : kstep (.trap c tf t) k = .ok () k') :
    Passed (k.envs e) (k'.envs e) (event e k (.trap c tf t)) := by
  by_cases hg : k.CanTrap c tf
  · rw [show event e k (.trap c tf t) = trapEvent e c (k.save c tf) t from if_pos hg]
    have hr := hg.2.1
    have hfirst : k.envFree.first ≠ some c := h.first_ne (KernSt.live_of_runnable hg.1 hr)
    rw [← k'.slots_envs]
    by_cases ht : ∃ s, t = .syscall s
    · obtain ⟨s, rfl⟩ := ht
      obtain ⟨r, T, hd, hT, hret⟩ := h.call hg hk
      have hsave := k.save_envs c tf
      have hp : Passed ((k.save c tf).envs e) (k'.slots.envs e) (trapEvent e c (k.save c tf) (.syscall s)) := by
        show Passed _ _ (callEvent e c (k.save c tf) (returned (syscall c s) (k.save c tf)) s)
        rw [hret, hT]
        refine hd.passed (hu.save c tf) (by rw [hsave]; exact hr) (by rw [hsave]; exact hI) fun e' hq => ?_
        rw [hsave]
        exact (h.first hq).2
      exact hp.of_save fun hce => hce ▸ trapEvent_own _
    · have ht' : ∀ s, t ≠ .syscall s := fun s hs => ht ⟨s, hs⟩
      rw [show trapEvent e c (k.save c tf) t = ownEvent e c by cases t <;> first | rfl | exact absurd rfl (ht' _)]
      refine ((trap_trapped hfirst tf t).of_ok ((kstep_trap hg).mp hk)).passed ht' fun hce => ?_
      by_contra hrec
      have := hI (by simpa using hrec)
      rw [← hce, hr] at this
      cases this
  · rw [kstep_skip hg] at hk
    injection hk with _ hk
    rw [show event e k (.trap c tf t) = none from if_neg hg, hk]
    exact Passed.refl _

theorem passed_step (h : k.slots.Sound) (hI : (k.envs e).recving = true → (k.envs e).status = .notRunnable)
    (hu : Undisturbed e k a) (hk : kstep a k = .ok () k') : Passed (k.envs e) (k'.envs e) (event e k a) := by
  -- a new env in the slot: the old one was free
  have hborn : ∀ {e' : ℕ} {q : Queue} {w : Env}, k.envFree.first = some e' →
      w.mail = (false, (k.envs e').value, (k.envs e').sender) → w.tf.regs.eax = 0 →
      Passed (k.envs e) ((⟨update k.envs e' w, q⟩ : Slots).envs e) none := by
    intro e' q w hf hm ha
    obtain rfl | hee := eq_or_ne e e'
    · have hrec : (k.envs e).recving = false := by
        by_contra hc
        have := hI (by simpa using hc)
        rw [show (k.envs e).status = .free from (h.first hf).2] at this
        cases this
      rw [show (⟨update k.envs e w, q⟩ : Slots).envs e = w from update_self ..]
      refine ⟨by rw [hm, Env.mail, hrec], fun hr => ?_, fun _ => ha⟩
      rw [hrec] at hr
      cases hr
    · rw [show (⟨update k.envs e' w, q⟩ : Slots).envs e = k.envs e from update_of_ne hee ..]
      exact Passed.refl _
  by_cases ht : ∃ c tf t, a = .trap c tf t
  · obtain ⟨c, tf, t, rfl⟩ := ht
    exact passed_trap h hI hu hk
  · have hev : event e k a = none := by
      cases a with
      | trap c tf t => exact absurd ⟨c, tf, t, rfl⟩ ht
      | _ => rfl
    rw [hev, ← k'.slots_envs]
    have hacted := h.step hk
    generalize k'.slots = T at hacted
    cases hacted with
    | trap c tf t => exact absurd ⟨c, tf, t, rfl⟩ ht
    | calm a hT =>
      rw [hT]
      exact Passed.refl _
    | alloc parent e' p q hf hq hT => exact hT ▸ hborn hf rfl rfl
    | create prog e' p q hf hq hT => exact hT ▸ hborn hf rfl rfl
    | free e' hp hT =>
      rw [hT]
      obtain rfl | hee := eq_or_ne e e'
      · rw [drop_self]
        refine ⟨rfl, fun hr => ?_, id⟩
        rw [hu rfl] at hr
        cases hr
      · rw [drop_ne hee]
        exact Passed.refl _

/-- The env in slot `e`, when the last event of its log was `x`. -/
structure Inbox (e : ℕ) (k : KernSt) (x : Ev) : Prop where
  sound : k.slots.Sound
  blocked : (k.envs e).recving = true → (k.envs e).status = .notRunnable
  recving : (k.envs e).recving = true ↔ x = .recv
  woken : ∀ value sender, x = .sent value sender → (k.envs e).tf.regs.eax = 0

theorem Env.mail_eq {w w' : Env} (h : w'.mail = w.mail) :
    w'.recving = w.recving ∧ (w'.value, w'.sender) = (w.value, w.sender) := by
  unfold Env.mail at h
  injection h with h1 h2
  exact ⟨h1, h2⟩

theorem Inbox.step {x : Ev} (h : Inbox e k x) (hu : Undisturbed e k a) (hk : kstep a k = .ok () k') :
    Inbox e k' ((event e k a).getD x) := by
  have hs := h.sound.acted (h.sound.step hk)
  have hp := passed_step h.sound h.blocked hu hk
  generalize event e k a = ev at hp
  cases ev with
  | none =>
    obtain ⟨hm, hst, heax⟩ := hp
    obtain ⟨hrec, -⟩ := Env.mail_eq hm
    refine ⟨hs, fun hr => ?_, by rw [hrec]; exact h.recving, fun v s hx => heax (h.woken v s hx)⟩
    rw [hrec] at hr
    rw [hst hr, h.blocked hr]
  | some ev =>
    cases ev with
    | recv =>
      obtain ⟨-, hm, hst⟩ := hp
      have hrec : (k'.envs e).recving = true := congrArg Prod.fst hm
      exact ⟨hs, fun _ => hst, ⟨fun _ => rfl, fun _ => hrec⟩, fun _ _ hx => nomatch hx⟩
    | sent v s =>
      obtain ⟨-, hm, -, heax⟩ := hp
      have hrec : (k'.envs e).recving = false := congrArg Prod.fst hm
      refine ⟨hs, fun hr => ?_, ⟨fun hr => ?_, fun hx => nomatch hx⟩, fun _ _ _ => heax⟩ <;> rw [hrec] at hr <;> cases hr
    | other =>
      obtain ⟨hrec', hm⟩ := hp
      have hrec : (k'.envs e).recving = false := (congrArg Prod.fst hm).trans hrec'
      refine ⟨hs, fun hr => ?_, ⟨fun hr => ?_, fun hx => nomatch hx⟩, fun _ _ hx => nomatch hx⟩ <;> rw [hrec] at hr <;> cases hr

theorem Passed.paired {w w' : Env} {ev : Option Ev} {l : List Ev} (hp : Passed w w' ev) (hl : Paired w'.recving l) :
    Paired w.recving (ev.toList ++ l) := by
  cases ev with
  | none =>
    rw [(Env.mail_eq hp.1).1] at hl
    exact hl
  | some ev =>
    cases ev with
    | recv =>
      rw [show w'.recving = true from congrArg Prod.fst hp.2.1] at hl
      rw [hp.1]
      exact hl
    | sent v s =>
      rw [show w'.recving = false from congrArg Prod.fst hp.2.1] at hl
      rw [hp.1]
      exact hl
    | other =>
      rw [(Env.mail_eq hp.2).1, hp.1] at hl
      rw [hp.1]
      exact hl

theorem Passed.lastSent {w w' : Env} {ev : Option Ev} (hp : Passed w w' ev) (l : List Ev) :
    lastSent (w'.value, w'.sender) l = lastSent (w.value, w.sender) (ev.toList ++ l) := by
  cases ev with
  | none => rw [(Env.mail_eq hp.1).2]; rfl
  | some ev =>
    cases ev with
    | recv => rw [show (w'.value, w'.sender) = (w.value, w.sender) from congrArg Prod.snd hp.2.1]; rfl
    | sent v s => rw [show (w'.value, w'.sender) = (v, s) from congrArg Prod.snd hp.2.1]; rfl
    | other => rw [(Env.mail_eq hp.2).2]; rfl

theorem log_cons {k1 : KernSt} (h : kstep a k = .ok () k1) : log e (a :: as) k = (event e k a).toList ++ log e as k1 := by
  rw [log, show after (kstep a) k = k1 by rw [after, h]]

/-- The log of a whole run, from a state in which the last event was `x`. -/
theorem Inbox.run : ∀ {as : List KAct} {k : KernSt} {x : Ev}, Inbox e k x → Along (Undisturbed e) as k → krun as k = .ok () k' →
    Inbox e k' ((log e as k).getLast?.getD x) ∧ Paired (k.envs e).recving (log e as k) ∧
      ((k'.envs e).value, (k'.envs e).sender) = Kern.lastSent ((k.envs e).value, (k.envs e).sender) (log e as k)
  | [], k, x, h, _, hr => by
    obtain rfl : k = k' := by
      rw [krun_nil] at hr
      injection hr
    refine ⟨h, ?_, rfl⟩
    cases (k.envs e).recving <;> trivial
  | a :: as, k, x, h, ha, hr => by
    obtain ⟨k1, h1, hr1⟩ := krun_cons.mp hr
    have hp := passed_step h.sound h.blocked ha.1 h1
    obtain ⟨hin, hpair, hlast⟩ := (h.step ha.1 h1).run (ha.2 k1 h1) hr1
    rw [log_cons h1]
    refine ⟨?_, hp.paired hpair, hlast.trans (hp.lastSent _)⟩
    cases hev : event e k a with
    | none =>
      rw [hev] at hin
      exact hin
    | some ev =>
      rw [hev] at hin
      rw [show ((some ev).toList ++ log e as k1).getLast?.getD x = (log e as k1).getLast?.getD ev by simp [List.getLast?_cons]]
      exact hin

/-! ### A send that fails -/

theorem sysIpcTrySend_fails (envid value srcva perm : ℕ) (k : KernSt) :
    Run (syscall c (.ipcTrySend envid value srcva perm)) k (fun _ _ => True)
      fun f k' => f.IsPanic ∨ k'.word = k.word ∧ ∀ e, ∃ n, k'.envs e = { k.envs e with perm := n } := by
  have hsame : k.word = k.word ∧ ∀ e, ∃ n, k.envs e = { k.envs e with perm := n } := ⟨rfl, fun e => ⟨(k.envs e).perm, rfl⟩⟩
  show Run (sysIpcTrySend c envid value srcva perm) k _ _
  unfold sysIpcTrySend
  split
  · exact .throw (.inr hsame)
  refine run_lookupEnv (fun _ => .inr hsame) fun e he => .getBind ?_
  split
  · exact .throw (.inr hsame)
  refine .modifyBind (.step (sendPage_slots c e srcva perm _) ?_ fun _ k1 h1 => ?_)
  · rintro f k' (h | ⟨-, rfl⟩)
    · exact .inl h
    · refine .inr ⟨rfl, fun e' => ?_⟩
      by_cases hee : e' = e
      · exact ⟨0, by rw [hee, setEnv_self]⟩
      · exact ⟨(k.envs e').perm, setEnv_ne hee⟩
  · exact .modifyBind (.pure trivial)

theorem pteAt_congr (hw : k'.word = k.word) (hs : (k'.envs e).status = (k.envs e).status)
    (hp : (k'.envs e).pgdir = (k.envs e).pgdir) (v : ℕ) : k'.pteAt e v = k.pteAt e v := by
  have hd : k'.dirOf (some e) = k.dirOf (some e) := by
    simp only [KernSt.dirOf]
    rw [hs, hp]
  unfold KernSt.pteAt
  rw [hd, hw]

/-- A send that fails leaves the messages and the mappings of every env as they are. -/
theorem send_failed {envid value srcva perm : ℕ} {er : Err}
    (ht : thrown (syscall c (.ipcTrySend envid value srcva perm)) (k.save c tf) = some (.err er))
    (hk : kstep (.trap c tf (.syscall (.ipcTrySend envid value srcva perm))) k = .ok () k') (e : ℕ) :
    (k'.envs e).mail = (k.envs e).mail ∧ (k'.envs e).status = (k.envs e).status ∧ ∀ v, k'.pteAt e v = k.pteAt e v := by
  by_cases hg : k.CanTrap c tf
  · have hd : dispatchCall c _ (k.save c tf) = .ok () k' := (kstep_trap hg).mp hk
    have hx := eq_error_of_throws ht
    obtain ⟨r, k1, hok, -⟩ | ⟨er', k1, herr, hk'⟩ := dispatchCall_ok hd
    · rw [hok] at hx
      cases hx
    · obtain ⟨_, hp⟩ | ⟨hw, henvs⟩ := (sysIpcTrySend_fails envid value srcva perm (k.save c tf)).of_error herr
      · cases hp
      have henv : ∃ tf n, k'.envs e = { k.envs e with tf := tf, perm := n } := by
        obtain ⟨n, hn⟩ := henvs e
        rw [hk']
        by_cases hec : e = c
        · subst hec
          rw [setEnv_self, hn, k.save_envs]
          exact ⟨_, n, rfl⟩
        · rw [setEnv_ne hec, hn, k.save_ne tf hec]
          exact ⟨_, n, rfl⟩
      obtain ⟨tf', n, hn⟩ := henv
      refine ⟨by rw [hn]; rfl, by rw [hn], fun v => pteAt_congr ?_ (by rw [hn]) (by rw [hn]) v⟩
      rw [hk']
      exact hw
  · rw [kstep_skip hg] at hk
    injection hk with _ hk
    exact hk ▸ ⟨rfl, rfl, fun _ => rfl⟩

end

theorem event_call {k : KernSt} {c : ℕ} (e : ℕ) (s : Call) (hc : c < NENV) (hr : (k.envs c).status = .runnable) :
    event e k (callOf k c s) = callEvent e c k (returned (syscall c s) k) s := by
  have h : event e k (callOf k c s) =
    if c < NENV ∧ (k.envs c).status = .runnable ∧ userFrame (k.envs c).tf (k.envs c).tf = true then
      trapEvent e c (k.save c (k.envs c).tf) (.syscall s) else none := rfl
  rw [h, if_pos ⟨hc, hr, userFrame_refl _⟩, k.save_same]
  rfl

/-- Along any run from the end of the boot in which nobody else touches the env in
slot `e` while it is receiving: in its log every message follows a receive of its
own and every receive but the last is followed by a message; the env holds the value and
the sender of the last message; it is receiving if and only if the last thing in the log is
a receive, and then it is blocked; after a message its receive returns 0. A send
that fails changes nothing of this, and no mapping of the env. -/
theorem delivered_of_run {m : Machine} {progs : List Program} {k₀ k : KernSt} {as : List KAct} {e : ℕ} (h₀ : m.Boots progs k₀)
    (ha : Along (Undisturbed e) as k₀) (hr : krun as k₀ = .ok () k) :
    Paired false (log e as k₀) ∧ ((k.envs e).value, (k.envs e).sender) = lastSent (0, 0) (log e as k₀) ∧
    ((k.envs e).recving = true ↔ (log e as k₀).getLast? = some .recv) ∧
    ((k.envs e).recving = true → (k.envs e).status = .notRunnable) ∧
    (∀ value sender, (log e as k₀).getLast? = some (.sent value sender) → (k.envs e).tf.regs.eax = 0) ∧
    ∀ c tf envid value srcva perm er k',
      thrown (syscall c (.ipcTrySend envid value srcva perm)) (k.save c tf) = some (.err er) →
      kstep (.trap c tf (.syscall (.ipcTrySend envid value srcva perm))) k = .ok () k' →
      (k'.envs e).recving = (k.envs e).recving ∧ (k'.envs e).status = (k.envs e).status ∧
        (k'.envs e).value = (k.envs e).value ∧ (k'.envs e).sender = (k.envs e).sender ∧ ∀ v, k'.pteAt e v = k.pteAt e v := by
  obtain ⟨role, l, ht, -, hst, -⟩ := (boot_run m progs h₀.1).of_ok h₀.2
  have hrec := hst.recving e
  have hin : Inbox e k₀ .other := by
    refine ⟨ht.sound, fun hc => ?_, ⟨fun hc => ?_, fun hc => nomatch hc⟩, fun _ _ hc => nomatch hc⟩ <;>
      rw [hrec] at hc <;> cases hc
  obtain ⟨hin, hpair, hlast⟩ := hin.run ha hr
  rw [hrec] at hpair
  rw [hst.mail e] at hlast
  refine ⟨hpair, hlast, ?_, hin.blocked, fun v s hx => hin.woken v s (by rw [hx]; rfl), ?_⟩
  · rw [hin.recving]
    cases (log e as k₀).getLast? <;> simp
  · intro c tf envid value srcva perm er k' hthrown hk
    obtain ⟨hm, hs, hpt⟩ := send_failed hthrown hk e
    have hvs := (Env.mail_eq hm).2
    injection hvs with hv hs'
    exact ⟨(Env.mail_eq hm).1, hs, hv, hs', hpt⟩

/-- A child receives what its parent sends. -/
theorem delivered_child : ∃ k₀ k tf₁ tf₂ tf₃ tf₄, smallMemory.Boots [onePage, onePage] k₀ ∧
    krun [.trap 0 tf₁ (.syscall .exofork), .trap 0 tf₂ (.syscall (.envSetStatus 4098 .runnable)),
      .trap 2 tf₃ (.syscall (.ipcRecv UTOP)), .trap 0 tf₄ (.syscall (.ipcTrySend 4098 7 UTOP 0))] k₀ = .ok () k ∧
    log 2 [.trap 0 tf₁ (.syscall .exofork), .trap 0 tf₂ (.syscall (.envSetStatus 4098 .runnable)),
      .trap 2 tf₃ (.syscall (.ipcRecv UTOP)), .trap 0 tf₄ (.syscall (.ipcTrySend 4098 7 UTOP 0))] k₀ = [.recv, .sent 7 4096] ∧
    ((k.envs 2).value, (k.envs 2).sender) = (7, 4096) ∧ (k.envs 2).tf.regs.eax = 0 := by
  obtain ⟨k₀, k1, -, -, hb, -, h1, hf1, -, -, -⟩ := exists_family
  obtain ⟨k2, h2, hf2⟩ := hf1.start
  obtain ⟨k3, h3, hf3⟩ := hf2.recv
  have hsend : syscall 0 (.ipcTrySend 4098 7 UTOP 0) k3 = _ := send_ok (hf3.lookup (by simp) false) hf3.recving
    (by decide) (fun hc => absurd hc (lt_irrefl _)) fun hc => absurd hc (lt_irrefl _)
  have h4 := kstep_call (by decide) hf3.runs hsend
  have hev1 : event 2 k₀ (callOf k₀ 0 .exofork) = none := by
    simp [callOf, event, trapEvent, callEvent, restEvent, ownEvent]
  have hev2 : event 2 k1 (callOf k1 0 (.envSetStatus 4098 .runnable)) = none := by
    simp [callOf, event, trapEvent, callEvent, restEvent, ownEvent]
  have hev3 : event 2 k2 (callOf k2 2 (.ipcRecv UTOP)) = some .recv := by
    rw [event_call 2 _ (by decide) hf2.status, returned, recv_ok fun hc => absurd hc (lt_irrefl _)]
    rfl
  have hev4 : event 2 k3 (callOf k3 0 (.ipcTrySend 4098 7 UTOP 0)) = some (.sent 7 4096) := by
    rw [event_call 2 _ (by decide) hf3.runs, returned, hsend, callEvent, if_pos ⟨rfl, hf3.lookup (by simp) false⟩, hf3.id]
  have hrun := krun_cons.mpr ⟨k1, h1, krun_cons.mpr ⟨k2, h2, krun_cons.mpr ⟨k3, h3, krun_cons.mpr ⟨_, h4, krun_nil _⟩⟩⟩⟩
  have hlog : log 2 [callOf k₀ 0 .exofork, callOf k1 0 (.envSetStatus 4098 .runnable),
      callOf k2 2 (.ipcRecv UTOP), callOf k3 0 (.ipcTrySend 4098 7 UTOP 0)] k₀ = [.recv, .sent 7 4096] := by
    rw [log_cons h1, log_cons h2, log_cons h3, log_cons h4, hev1, hev2, hev3, hev4]
    rfl
  have ha : Along (Undisturbed 2) [callOf k₀ 0 .exofork, callOf k1 0 (.envSetStatus 4098 .runnable),
      callOf k2 2 (.ipcRecv UTOP), callOf k3 0 (.ipcTrySend 4098 7 UTOP 0)] k₀ := Along.cons trivial h1 (Along.cons (fun _ => hf1.recving) h2
    (Along.cons trivial h3 (Along.cons trivial h4 trivial)))
  obtain ⟨-, hlast, -, -, heax, -⟩ := delivered_of_run hb ha hrun
  rw [hlog] at hlast heax
  exact ⟨k₀, _, _, _, _, _, hb, hrun, hlog, hlast, heax 7 4096 rfl⟩

end Kern
end Jos
