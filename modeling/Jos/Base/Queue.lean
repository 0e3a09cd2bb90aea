/-
# Doubly linked lists through pointers (`LIST_*` of queue.h)

The elements of an array carry their own links: `next`, the element after, and
`prev`, the place that points to the element, which is the head of the list or
the `next` of another element. `Holds q l` says that the pointers form the list
`l`, each element once.

The operations do what the macros do, also to elements they are not meant for:
`insertHead` of an element that is on the list loses what is after it.

Key definitions: `Queue`, `Queue.insertHead`, `Queue.remove`, `Queue.Holds`.
Key theorems: `Queue.Holds.insertHead`, `Queue.Holds.remove`, `Queue.Holds.unique`.
-/
import Mathlib.Data.List.Nodup
import Mathlib.Logic.Function.Basic

namespace Jos

open Function

/-- What `le_prev` points at. -/
inductive Slot
  | head
  | next (x : ℕ)
  deriving DecidableEq

/-- The head of a list and the links of all elements, `none` for null. -/
structure Queue where
  first : Option ℕ
  next : ℕ → Option ℕ
  prev : ℕ → Option Slot

namespace Queue

/-- `LIST_INIT` on links that are zero. -/
def empty : Queue := ⟨none, fun _ => none, fun _ => none⟩

/-- `LIST_INSERT_HEAD`. -/
def insertHead (q : Queue) (x : ℕ) : Queue where
  first := some x
  next := update q.next x q.first
  prev := update
    (match q.first with
      | some y => update q.prev y (some (.next x))
      | none => q.prev) x (some .head)

/-- A store through `le_prev`. -/
def store (q : Queue) (s : Slot) (y : Option ℕ) : Queue :=
  match s with
  | .head => { q with first := y }
  | .next x => { q with next := update q.next x y }

/-- `LIST_REMOVE`; `none` is a store through a null pointer. -/
def remove (q : Queue) (x : ℕ) : Option Queue :=
  (q.prev x).map fun s =>
    store { q with
      prev := match q.next x with
        | some y => update q.prev y (some s)
        | none => q.prev } s (q.next x)

/-- The links of an element set to zero. -/
def clear (q : Queue) (x : ℕ) : Queue :=
  { q with next := update q.next x none, prev := update q.prev x none }

/-- The pointers from `y`, which is stored in `s`, form `l`. -/
def Linked (q : Queue) : Slot → Option ℕ → List ℕ → Prop
  | _, y, [] => y = none
  | s, y, x :: l => y = some x ∧ q.prev x = some s ∧ Linked q (.next x) (q.next x) l

/-- The queue is the list `l`. -/
def Holds (q : Queue) (l : List ℕ) : Prop := Linked q .head q.first l ∧ l.Nodup

variable {q q' : Queue} {l l' : List ℕ} {x y : ℕ} {s : Slot}

/-- Only the links of the elements on the list matter. -/
theorem Linked.congr : ∀ {l : List ℕ} {s : Slot} {y : Option ℕ}, Linked q s y l →
    (∀ x ∈ l, q'.prev x = q.prev x ∧ q'.next x = q.next x) → Linked q' s y l
  | [], _, _, h, _ => h
  | x :: _, _, _, ⟨hy, hp, hl⟩, hq => by
    obtain ⟨hp', hn'⟩ := hq x List.mem_cons_self
    refine ⟨hy, hp'.trans hp, ?_⟩
    rw [hn']
    exact hl.congr fun z hz => hq z (.tail _ hz)

theorem Linked.mem {o : Option ℕ} (h : Linked q s o l) (ho : o = some x) : x ∈ l := by
  cases l with
  | nil => cases h.symm.trans ho
  | cons a l =>
    obtain rfl : a = x := Option.mem_unique h.1 ho
    exact .head _

/-- A list whose first element hangs elsewhere. -/
theorem Linked.rehang {o : Option ℕ} (h : Linked q s o l) (hl : l.Nodup) {s' : Slot}
    (hn : ∀ x ∈ l, q'.next x = q.next x) (hp : ∀ x ∈ l, o ≠ some x → q'.prev x = q.prev x)
    (hh : ∀ x, o = some x → q'.prev x = some s') : Linked q' s' o l := by
  cases l with
  | nil => exact h
  | cons x l =>
    obtain ⟨ho, -, hrest⟩ := h
    refine ⟨ho, hh x ho, ?_⟩
    rw [hn x List.mem_cons_self]
    refine hrest.congr fun z hz => ⟨hp z (.tail _ hz) ?_, hn z (.tail _ hz)⟩
    rw [ho]
    rintro ⟨⟩
    exact (List.nodup_cons.mp hl).1 hz

theorem Holds.insertHead (h : Holds q l) (hx : x ∉ l) : Holds (q.insertHead x) (x :: l) := by
  refine ⟨⟨rfl, update_self .., ?_⟩, List.nodup_cons.mpr ⟨hx, h.2⟩⟩
  have hne : ∀ z ∈ l, z ≠ x := fun z hz he => hx (he ▸ hz)
  rw [show (q.insertHead x).next x = q.first from update_self ..]
  refine h.1.rehang h.2 (fun z hz => update_of_ne (hne z hz) ..) (fun z hz hz1 => ?_) fun z hz1 => ?_
  · show update _ x _ z = _
    rw [update_of_ne (hne z hz)]
    cases hf : q.first with
    | none => rfl
    | some y =>
      rw [hf] at hz1
      exact update_of_ne (fun he => hz1 (by rw [he])) ..
  · show update _ x _ z = _
    rw [update_of_ne (hne z (h.1.mem hz1)), hz1]
    exact update_self ..

/-- The links of elements that are not on the list do not matter. -/
theorem Holds.clear (h : Holds q l) (hx : x ∉ l) : Holds (q.clear x) l := by
  refine ⟨h.1.congr fun z hz => ?_, h.2⟩
  have hne : z ≠ x := fun he => hx (he ▸ hz)
  exact ⟨update_of_ne hne .., update_of_ne hne ..⟩

/-- Taking off the first element. -/
theorem Holds.remove (h : Holds q (x :: l)) : ∃ q', q.remove x = some q' ∧ Holds q' l := by
  obtain ⟨⟨-, hp, hl⟩, hnd⟩ := h
  obtain ⟨hx, hnd⟩ := List.nodup_cons.mp hnd
  refine ⟨_, by rw [Queue.remove, hp]; rfl, ?_, hnd⟩
  show Linked _ .head (q.next x) l
  refine hl.rehang hnd (fun _ _ => rfl) (fun z hz hz1 => ?_) fun z hz1 => ?_
  · show (match q.next x with
      | some y => update q.prev y (some .head)
      | none => q.prev) z = _
    cases hf : q.next x with
    | none => rfl
    | some y =>
      rw [hf] at hz1
      exact update_of_ne (fun he => hz1 (by rw [he])) ..
  · show (match q.next x with
      | some y => update q.prev y (some .head)
      | none => q.prev) z = _
    rw [hz1]
    exact update_self ..

theorem Linked.unique : ∀ {l l' : List ℕ} {s s' : Slot} {o : Option ℕ}, Linked q s o l → Linked q s' o l' → l = l'
  | [], [], _, _, _, _, _ => rfl
  | [], _ :: _, _, _, _, h, h' => nomatch (h.symm.trans h'.1)
  | _ :: _, [], _, _, _, h, h' => nomatch (h'.symm.trans h.1)
  | x :: l, y :: l', _, _, _, h, h' => by
    obtain rfl : x = y := Option.mem_unique h.1 h'.1
    rw [Linked.unique h.2.2 h'.2.2]

theorem Holds.unique (h : Holds q l) (h' : Holds q l') : l = l' := h.1.unique h'.1

theorem Holds.first (h : Holds q l) : q.first = l.head? := by
  cases l with
  | nil => exact h.1
  | cons x l => exact h.1.1

theorem holds_empty : Holds empty [] := ⟨rfl, List.nodup_nil⟩

end Queue
end Jos
