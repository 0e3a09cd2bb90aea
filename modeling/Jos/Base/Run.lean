/-
# Reasoning about programs with state and exceptions

`Run x s Q E`: the program `x`, started in `s`, returns a value and a state in
`Q`, or throws and leaves a state in `E`. Programs are `EStateM`: an exception
keeps the state it was thrown in, so what a program did before it failed is
still there to be reasoned about.

One rule for each way to build a program (`Run.pure`, `Run.bind`, `Run.get`,
`Run.modify`, `Run.throw`), and consequence (`Run.mono`). A proof about a
function applies the rules to its body and the specification, again a `Run`,
of each function it calls.
-/
import Mathlib.Logic.Basic
import Mathlib.Data.Nat.Notation

namespace Jos

variable {ε σ α β : Type}

/-- `x` from `s` returns in `Q` or throws in `E`. -/
def Run (x : EStateM ε σ α) (s : σ) (Q : α → σ → Prop) (E : ε → σ → Prop) : Prop :=
  match x s with
  | .ok a s' => Q a s'
  | .error e s' => E e s'

namespace Run

variable {x : EStateM ε σ α} {f : α → EStateM ε σ β} {s : σ} {Q Q' : α → σ → Prop}
  {R : β → σ → Prop} {E E' : ε → σ → Prop}

theorem pure {a : α} (h : Q a s) : Run (Pure.pure a : EStateM ε σ α) s Q E := h

theorem throw {e : ε} (h : E e s) : Run (MonadExcept.throw e : EStateM ε σ α) s Q E := h

theorem get {Q : σ → σ → Prop} (h : Q s s) : Run (MonadState.get : EStateM ε σ σ) s Q E := h

theorem modify {f : σ → σ} {Q : PUnit → σ → Prop} (h : Q ⟨⟩ (f s)) :
    Run (modify f : EStateM ε σ PUnit) s Q E := h

theorem set {s' : σ} {Q : PUnit → σ → Prop} (h : Q ⟨⟩ s') : Run (MonadStateOf.set s' : EStateM ε σ PUnit) s Q E := h

/-- Reading the state and going on. -/
theorem getBind {f : σ → EStateM ε σ β} (h : Run (f s) s R E) : Run (MonadState.get >>= f) s R E := h

/-- Replacing the state and going on. -/
theorem setBind {s' : σ} {f : PUnit → EStateM ε σ β} (h : Run (f ⟨⟩) s' R E) :
    Run (MonadStateOf.set s' >>= f) s R E := h

/-- Changing the state and going on. -/
theorem modifyBind {g : σ → σ} {f : PUnit → EStateM ε σ β} (h : Run (f ⟨⟩) (g s) R E) :
    Run ((MonadState.modifyGet fun s => (PUnit.unit, g s)) >>= f) s R E := h

theorem bind (h : Run x s Q E) (hf : ∀ a s', Q a s' → Run (f a) s' R E) : Run (x >>= f) s R E := by
  unfold Run at h ⊢
  show match EStateM.bind x f s with
    | .ok a s' => R a s'
    | .error e s' => E e s'
  unfold EStateM.bind
  cases hx : x s with
  | ok a s' =>
    rw [hx] at h
    exact hf a s' h
  | error e s' =>
    rw [hx] at h
    exact h

theorem mono (h : Run x s Q E) (hQ : ∀ a s', Q a s' → Q' a s') (hE : ∀ e s', E e s' → E' e s') :
    Run x s Q' E' := by
  unfold Run at h ⊢
  cases hx : x s with
  | ok a s' =>
    rw [hx] at h
    exact hQ a s' h
  | error e s' =>
    rw [hx] at h
    exact hE e s' h

theorem post (h : Run x s Q E) (hQ : ∀ a s', Q a s' → Q' a s') : Run x s Q' E := h.mono hQ fun _ _ h => h

/-- Going on after `x`, whose failures are failures of the whole. -/
theorem step (h : Run x s Q E') (hE : ∀ e s', E' e s' → E e s') (hf : ∀ a s', Q a s' → Run (f a) s' R E) :
    Run (x >>= f) s R E :=
  (h.mono (fun _ _ hq => hq) hE).bind hf

/-- Going on after a step that is only made if `c`. -/
theorem iteBind {c : Prop} [Decidable c] {x : EStateM ε σ Unit} {f : Unit → EStateM ε σ β} {Q : Unit → σ → Prop}
    (h : Run (if c then x else Pure.pure ()) s Q E) (hf : ∀ a s', Q a s' → Run (f a) s' R E) :
    Run (if c then x >>= f else f ()) s R E := by
  by_cases hc : c
  · rw [if_pos hc] at h ⊢
    exact h.bind hf
  · rw [if_neg hc] at h ⊢
    exact hf () s h

theorem any (x : EStateM ε σ α) (s : σ) : Run x s (fun _ _ => True) (fun _ _ => True) := by
  unfold Run
  cases x s with
  | ok a s' => trivial
  | error e s' => trivial

theorem and (h : Run x s Q E) (h' : Run x s Q' E') :
    Run x s (fun a s' => Q a s' ∧ Q' a s') (fun e s' => E e s' ∧ E' e s') := by
  unfold Run at h h' ⊢
  cases hx : x s with
  | ok a s' =>
    rw [hx] at h h'
    exact ⟨h, h'⟩
  | error e s' =>
    rw [hx] at h h'
    exact ⟨h, h'⟩

/-- What a run returns. -/
theorem of_ok (h : Run x s Q E) {a : α} {s' : σ} (hx : x s = .ok a s') : Q a s' := by
  unfold Run at h
  rw [hx] at h
  exact h

/-- What a run leaves when it throws. -/
theorem of_error (h : Run x s Q E) {e : ε} {s' : σ} (hx : x s = .error e s') : E e s' := by
  unfold Run at h
  rw [hx] at h
  exact h

/-- What holds after a computation whose result is not used holds after it. -/
theorem of_discard {Q : Unit → σ → Prop} (h : Run (x >>= fun _ => Pure.pure ()) s Q E) :
    Run x s (fun _ s' => Q () s') E := by
  unfold Run at h ⊢
  simp only [Bind.bind, EStateM.bind] at h
  cases hx : x s with
  | ok a s' =>
    rw [hx] at h
    exact h
  | error e s' =>
    rw [hx] at h
    exact h

/-- A program that cannot throw returns. -/
theorem exists_ok (h : Run x s Q fun _ _ => False) : ∃ a s', x s = .ok a s' ∧ Q a s' := by
  unfold Run at h
  cases hx : x s with
  | ok a s' =>
    rw [hx] at h
    exact ⟨a, s', rfl, h⟩
  | error e s' =>
    rw [hx] at h
    exact h.elim

/-- What follows from the outcome `R` of a program that cannot throw holds. -/
theorem use {G : Prop} (h : ∀ R : α → σ → Prop, (∀ {a s'}, R a s' → x s = .ok a s') →
    Run x s (fun a s' => R a s' → G) fun _ _ => False) : G := by
  obtain ⟨a, s', hx, hG⟩ := (h (fun a s' => x s = .ok a s') id).exists_ok
  exact hG hx

/-- A program with one possible outcome. -/
theorem eq_ok {a : α} {s' : σ} (h : Run x s (fun b t => b = a ∧ t = s') fun _ _ => False) : x s = .ok a s' := by
  obtain ⟨b, t, hx, rfl, rfl⟩ := h.exists_ok
  exact hx

/-- The outcome comes with the run it is the outcome of. -/
theorem with_eq (h : Run x s Q E) :
    Run x s (fun a s' => x s = .ok a s' ∧ Q a s') (fun e s' => x s = .error e s' ∧ E e s') := by
  unfold Run at h ⊢
  cases hx : x s with
  | ok a s' =>
    rw [hx] at h
    exact ⟨rfl, h⟩
  | error e s' =>
    rw [hx] at h
    exact ⟨rfl, h⟩

end Run

/-- `f 0`, ..., `f (n - 1)`. -/
def forUpTo (f : ℕ → EStateM ε σ Unit) : ℕ → EStateM ε σ Unit
  | 0 => pure ()
  | n + 1 => do
    forUpTo f n
    f n

/-- The loop rule: `I i` holds before turn `i`. -/
theorem Run.forUpTo {f : ℕ → EStateM ε σ Unit} {I : ℕ → σ → Prop} {E : ε → σ → Prop} {s : σ} (h0 : I 0 s) :
    ∀ n, (∀ i < n, ∀ s, I i s → Run (f i) s (fun _ s' => I (i + 1) s') E) →
      Run (forUpTo f n) s (fun _ s' => I n s') E
  | 0, _ => .pure h0
  | n + 1, hf => .bind (.forUpTo h0 n fun i hi => hf i (Nat.lt_succ_of_lt hi)) fun _ s' h =>
      hf n (Nat.lt_succ_self n) s' h

-- the rules are all there is to a `Run`: nothing evaluates the program in it
attribute [irreducible] Run

/-! ### What a program leaves alone -/

/-- `x` leaves `π` of the state as it is, and throws only what is in `E`. -/
def Leaves {τ : Type} (π : σ → τ) (E : ε → Prop) (x : EStateM ε σ α) : Prop :=
  ∀ s, Run x s (fun _ s' => π s' = π s) fun e _ => E e

namespace Leaves

variable {τ : Type} {π : σ → τ} {E : ε → Prop} {x : EStateM ε σ α} {f : α → EStateM ε σ β}

theorem pure (a : α) : Leaves π E (Pure.pure a : EStateM ε σ α) := fun _ => .pure rfl

theorem throw {e : ε} (h : E e) : Leaves π E (MonadExcept.throw e : EStateM ε σ α) := fun _ => .throw h

theorem modify {g : σ → σ} (h : ∀ s, π (g s) = π s) :
    Leaves π E (MonadState.modifyGet fun s => (PUnit.unit, g s) : EStateM ε σ PUnit) := fun s => .modify (h s)

theorem bind (hx : Leaves π E x) (hf : ∀ a, Leaves π E (f a)) : Leaves π E (x >>= f) := fun s =>
  .bind (hx s) fun a s' h => (hf a s').mono (fun _ _ h' => h'.trans h) fun _ _ h' => h'

theorem getBind {f : σ → EStateM ε σ β} (hf : ∀ s, Leaves π E (f s)) : Leaves π E (MonadState.get >>= f) :=
  bind (fun _ => .get rfl) hf

theorem ite {p : Prop} [Decidable p] {y : EStateM ε σ α} (hx : Leaves π E x) (hy : Leaves π E y) :
    Leaves π E (if p then x else y) := by
  split
  · exact hx
  · exact hy

theorem forUpTo {f : ℕ → EStateM ε σ Unit} (hf : ∀ i, Leaves π E (f i)) (n : ℕ) : Leaves π E (Jos.forUpTo f n) := fun s =>
  .forUpTo (I := fun _ s' => π s' = π s) rfl n fun i _ s' h => (hf i s').mono (fun _ _ h' => h'.trans h) fun _ _ h' => h'

end Leaves

/-- `x` leaves `π` of the state as it is, whether it returns or throws. -/
def Fixes {τ : Type} (π : σ → τ) (x : EStateM ε σ α) : Prop :=
  ∀ s, Run x s (fun _ s' => π s' = π s) fun _ s' => π s' = π s

namespace Fixes

variable {τ : Type} {π : σ → τ} {x : EStateM ε σ α} {f : α → EStateM ε σ β}

theorem pure (a : α) : Fixes π (Pure.pure a : EStateM ε σ α) := fun _ => .pure rfl

theorem modify {g : σ → σ} (h : ∀ s, π (g s) = π s) :
    Fixes π (MonadState.modifyGet fun s => (PUnit.unit, g s) : EStateM ε σ PUnit) := fun s => .modify (h s)

theorem bind (hx : Fixes π x) (hf : ∀ a, Fixes π (f a)) : Fixes π (x >>= f) := fun s =>
  .bind (hx s) fun a s' h => (hf a s').mono (fun _ _ h' => h'.trans h) fun _ _ h' => h'.trans h

end Fixes

/-- Whether `x` returns from `s`. -/
def returns (x : EStateM ε σ α) (s : σ) : Bool :=
  match x s with
  | .ok _ _ => true
  | .error _ _ => false

/-- The state `x` leaves, returning or throwing. -/
def after (x : EStateM ε σ α) (s : σ) : σ :=
  match x s with
  | .ok _ s' => s'
  | .error _ s' => s'

theorem after_of_run {x : EStateM ε σ α} {s : σ} {P : σ → Prop} (h : Run x s (fun _ s' => P s') fun _ s' => P s') :
    P (after x s) := by
  unfold after
  cases hx : x s with
  | ok a s' => exact h.of_ok hx
  | error e s' => exact h.of_error hx

theorem eq_ok_of_returns {x : EStateM ε σ Unit} {s : σ} (h : returns x s = true) : x s = .ok () (after x s) := by
  unfold returns at h
  unfold after
  cases hx : x s with
  | ok a s' => rfl
  | error e s' => simp [hx] at h

/-- What `x` returns from `s`. -/
def returned (x : EStateM ε σ α) (s : σ) : Option α :=
  match x s with
  | .ok a _ => some a
  | .error _ _ => none

theorem Run.returned_eq {x : EStateM ε σ α} {s : σ} {b : α} (h : Run x s (fun a _ => a = b) fun _ _ => False) :
    returned x s = some b := by
  obtain ⟨a, s', hx, rfl⟩ := h.exists_ok
  rw [returned, hx]

theorem exists_of_returned {x : EStateM ε σ α} {s : σ} {p : α → Bool} (h : (returned x s).any p = true) :
    ∃ a, x s = .ok a (after x s) ∧ p a = true := by
  unfold returned at h
  unfold after
  cases hx : x s with
  | ok a s' =>
    rw [hx] at h
    exact ⟨a, rfl, h⟩
  | error e s' => simp [hx] at h

/-- What `x` throws from `s`. -/
def thrown (x : EStateM ε σ α) (s : σ) : Option ε :=
  match x s with
  | .ok _ _ => none
  | .error e _ => some e

theorem eq_error_of_throws {x : EStateM ε σ α} {s : σ} {e : ε} (h : thrown x s = some e) :
    x s = .error e (after x s) := by
  unfold thrown at h
  unfold after
  cases hx : x s with
  | ok a s' => simp [hx] at h
  | error e' s' =>
    simp only [hx, Option.some.injEq] at h
    rw [h]

end Jos
