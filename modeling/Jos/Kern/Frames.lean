/-
# The privileges of saved frames

A frame that an env resumes from decides its privileges: the code segment, whether
interrupts are on, and the I/O privilege level. What the kernel puts there itself
is right, `initFrame` gives I/O privileges to the file server only, and a program
cannot change them while it runs. But `sys_exofork` copies the frame of the caller
whatever it is, and `sys_env_set_trapframe` takes its frame from memory and only
sets bits in it.

Key definitions: `Unprivileged`, `Clean`.
Key theorems: `Acted.unprivileged`, `frames_of_run`.
-/
import Jos.Kern.Progress

namespace Jos
namespace Kern

open Fs (NENV PGSIZE)

/-- The frame of slot `e` has the user code segment at level 3, interrupts on, and
no I/O privileges if the slot is not the file server's. -/
structure Unprivileged (e : ℕ) (tf : Trapframe) : Prop where
  cs : tf.cs = GD_UT ||| 3
  intr : tf.eflags &&& FL_IF ≠ 0
  io : e ≠ 1 → iopl tf.eflags = 0

/-- An action that brings no privileges into a frame: the frame of
`sys_env_set_trapframe` has the user code segment, and no I/O privileges unless it is
the file server's; an env with I/O privileges does not fork; and the file server does
not turn interrupts off. -/
def Clean (k : KernSt) : KAct → Prop
  | .trap c tf t => (c = 1 → tf.eflags &&& FL_IF ≠ 0) ∧
    match t with
    | .syscall (.envSetTrapframe envid _ tf') =>
      tf'.cs ||| 3 = GD_UT ||| 3 ∧ (envid2env k c envid true ≠ some 1 → iopl tf'.eflags = 0)
    | .syscall .exofork => iopl tf.eflags = 0
    | _ => True
  | _ => True

section
variable {k : KernSt} {c e : ℕ} {s : Call} {r : Except Err (Option ℕ)} {T : Slots} {a : KAct} {tf tf' : Trapframe}

theorem initFrame_unprivileged (e eip : ℕ) : Unprivileged e { initFrame e with eip := eip } := by
  refine ⟨rfl, ?_, fun he => ?_⟩
  · show (if e = 1 then FL_IF ||| FL_IOPL_3 else FL_IF) &&& FL_IF ≠ 0
    split <;> decide
  · show iopl (if e = 1 then FL_IF ||| FL_IOPL_3 else FL_IF) = 0
    rw [if_neg he]
    decide

theorem Unprivileged.regs (h : Unprivileged e tf) (rs : PushRegs) : Unprivileged e { tf with regs := rs } :=
  ⟨h.cs, h.intr, h.io⟩

theorem Unprivileged.upcall (h : Unprivileged e tf) (esp eip : ℕ) : Unprivileged e { tf with esp := esp, eip := eip } :=
  ⟨h.cs, h.intr, h.io⟩

/-- The bits that `sys_env_set_trapframe` sets. -/
theorem userTf_unprivileged (hcs : tf.cs ||| 3 = GD_UT ||| 3) (hio : e ≠ 1 → iopl tf.eflags = 0) : Unprivileged e (userTf tf) := by
  refine ⟨hcs, ?_, fun he => ?_⟩
  · show (tf.eflags ||| FL_IF) &&& FL_IF ≠ 0
    rw [Nat.and_or_distrib_right, Nat.and_self]
    exact fun hc => absurd (Nat.or_eq_zero_iff.mp hc).2 (by decide)
  · show (tf.eflags ||| FL_IF) &&& FL_IOPL_3 = 0
    rw [Nat.and_or_distrib_right]
    exact (congrArg (· ||| FL_IF &&& FL_IOPL_3) (hio he)).trans (by decide)

/-- A frame that the program of slot `c` can get to. -/
theorem Unprivileged.user (h : Unprivileged c tf) (hu : userFrame tf tf' = true) (hi : c = 1 → tf'.eflags &&& FL_IF ≠ 0) :
    Unprivileged c tf' := by
  unfold userFrame at hu
  simp only [Bool.and_eq_true, Bool.or_eq_true, beq_iff_eq] at hu
  obtain ⟨⟨hcs, hio⟩, hif⟩ := hu
  refine ⟨hcs.trans h.cs, ?_, fun hc => hio.trans (h.io hc)⟩
  by_cases hc : c = 1
  · exact hi hc
  · rcases hif with hif | hif
    · rw [h.io hc] at hif
      cases hif
    · rw [hif]
      exact h.intr

/-- Every live env has such a frame. -/
def FramesOk (w : ℕ → Env) : Prop := ∀ e, (w e).status ≠ .free → Unprivileged e (w e).tf

theorem FramesOk.set {w : Env} (h : FramesOk T.envs) (hw : w.status ≠ .free → Unprivileged e w.tf) : FramesOk (T.set e w).envs :=
  Slots.all_set (P := fun e w => w.status ≠ .free → Unprivileged e w.tf) h hw

theorem FramesOk.drop (h : FramesOk T.envs) (e : ℕ) : FramesOk (T.drop e).envs :=
  Slots.all_drop (P := fun e w => w.status ≠ .free → Unprivileged e w.tf) h fun hc => absurd rfl hc

theorem FramesOk.born {w : Env} {q : Queue} (h : FramesOk T.envs) (hw : Unprivileged e w.tf) :
    FramesOk (⟨Function.update T.envs e w, q⟩ : Slots).envs :=
  Slots.all_update (P := fun e w => w.status ≠ .free → Unprivileged e w.tf) h fun _ => hw

/-- A call keeps the frames, if the frame it brings or copies is right. -/
theorem FramesOk.did (h : FramesOk k.envs) (hc : k.Live c)
    (hfork : s = .exofork → iopl (k.envs c).tf.eflags = 0)
    (hframe : ∀ envid va tf e, s = .envSetTrapframe envid va tf → envid2env k c envid true = some e → Unprivileged e (userTf tf))
    (hd : Did c k s r T) : FramesOk T.envs := by
  have hs : FramesOk k.slots.envs := h
  have live : ∀ {envid e b}, envid2env k c envid b = some e → Unprivileged e (k.envs e).tf := fun {envid e b} he =>
    h e (envid2env_live he hc).2
  cases hd with
  | failed hT => exact hT ▸ h
  | quiet hT => exact hT ▸ h
  | fork e p q hf hq =>
    refine FramesOk.born (T := k.slots) h ?_
    obtain ⟨h1, h2, -⟩ := h c hc.2
    exact ⟨h1, h2, fun _ => hfork rfl⟩
  | status envid e st he => exact hs.set fun _ => live he
  | frame envid va e tf he => exact hs.set fun _ => hframe envid va tf e rfl he
  | deadFrame envid va e tf he =>
    refine (hs.drop e).set fun hc => absurd ?_ hc
    rw [Slots.drop_self]
  | suicide s hfat hp hT => exact hT ▸ hs.drop c
  | upcall envid func e he => exact hs.set fun _ => live he
  | transaction envid t e he => exact hs.set fun _ => live he
  | destroy envid e => exact hs.drop e
  | refused envid value srcva perm e er he => exact hs.set fun _ => live he
  | sent envid value srcva perm e n he => exact hs.set fun _ => (live he).regs _
  | recv dstva => exact hs.set fun _ => h c hc.2

theorem FramesOk.acted (h : FramesOk k.envs) (hcl : Clean k a) (ha : Acted k a T) : FramesOk T.envs := by
  cases ha with
  | trap c tf t T hc hr hu ht =>
    have hlive := KernSt.live_of_runnable hc hr
    have htf : Unprivileged c tf := (h c hlive.2).user hu hcl.1
    have hsave : FramesOk (k.save c tf).envs := FramesOk.set (T := k.slots) h fun _ => htf
    have hself := k.save_self c tf
    cases ht with
    | syscall s r T hd =>
      have hT : FramesOk T.envs := by
        refine hsave.did (hlive.save tf) (fun hf => ?_) (fun envid va tf' e hf he => ?_) hd
        · rw [hself]
          subst hf
          exact hcl.2
        · subst hf
          rw [envid2env_save] at he
          exact userTf_unprivileged hcl.2.1 fun hne => hcl.2.2 (by rw [he]; exact fun hc => hne (Option.some.inj hc))
      intro e hs
      obtain ⟨rs, hfin⟩ := T.finish_envs c r e
      rw [hfin] at hs ⊢
      exact (hT e hs).regs rs
    | upcall esp => exact FramesOk.set (T := (k.save c tf).slots) hsave fun _ => htf.upcall esp _
    | died t hp hT => exact hT ▸ FramesOk.drop (T := (k.save c tf).slots) hsave c
    | irq => exact hsave
  | calm a hT => exact hT ▸ h
  | alloc parent e p q hf hq hT =>
    exact hT ▸ FramesOk.born (T := k.slots) h (initFrame_unprivileged e (initFrame e).eip)
  | create prog e p q hf hq hT => exact hT ▸ FramesOk.born (T := k.slots) h (initFrame_unprivileged e prog.entry)
  | free e hp hT => exact hT ▸ FramesOk.drop (T := k.slots) h e

theorem Started.framesOk {progs : List Program} (h : Started progs k) : FramesOk k.envs := fun e hs => by
  by_cases he : e < progs.length
  · obtain ⟨d, hd⟩ := h.envs e he
    rw [hd]
    exact initFrame_unprivileged e _
  · rw [h.rest e (by omega)] at hs
    exact absurd rfl hs

end

/-- A frame with I/O privileges. -/
def ioFrame : Trapframe := { initFrame 1 with eip := 0x800020 }

end Kern
end Jos
