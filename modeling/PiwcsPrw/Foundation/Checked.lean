/-
# Computations that can leave defined behaviour

A C++ function reads arrays through indices, follows pointers and looks into
optionals without asking whether it may.  `Checked` is a computation that
records the first such step that is not allowed, so that "this never happens" is
a theorem about the translated code (it returns `.ok`) and not a convention of
the translation.

The loops of such code are `List.anyM` and `List.findM?`, which stop where the
C++ loop returns.  When no step of a loop can fail, `anyM_ok` and `findM?_ok`
read it back as the plain `any` or `find?`.
-/

import Mathlib.Data.Nat.Notation
import Mathlib.Logic.Basic

/-- The step that left defined behaviour. -/
inductive Fault
  | outOfBounds
  | nullDereference
  | emptyOptional
  deriving DecidableEq, Repr

/-- A result, or the first fault. -/
abbrev Checked := Except Fault

namespace Checked

variable {α ε : Type*} {n : ℕ}

/-- Following a pointer, `none` being the null pointer. -/
def deref : Option α → Checked α
  | some a => .ok a
  | none => .error .nullDereference

/-- Reading the value of an optional without asking whether there is one. -/
def value : Option α → Checked α
  | some a => .ok a
  | none => .error .emptyOptional

/-- Reading an array element. -/
def read (a : Vector α n) (i : ℕ) : Checked α :=
  if h : i < n then .ok a[i] else .error .outOfBounds

/-- Writing an array element. -/
def write (a : Vector α n) (i : ℕ) (x : α) : Checked (Vector α n) :=
  if h : i < n then .ok (a.set i x) else .error .outOfBounds

/-- A pointer that is not null points to its value. -/
@[simp] theorem deref_some (a : α) : deref (some a) = .ok a := rfl

/-- A sequence succeeds when both of its parts do. -/
theorem bind_eq_ok_iff {α β : Type} {x : Except ε α} {f : α → Except ε β} {b : β} :
    x >>= f = .ok b ↔ ∃ a, x = .ok a ∧ f a = .ok b := by
  cases x <;> simp [bind, Except.bind]

/-- A sequence fails when one of its parts does. -/
theorem bind_eq_error_iff {α β : Type} {x : Except ε α} {f : α → Except ε β} {e : ε} :
    x >>= f = .error e ↔ x = .error e ∨ ∃ a, x = .ok a ∧ f a = .error e := by
  cases x <;> simp [bind, Except.bind]

/-- A loop whose tests all succeed returns whether one of them was met. -/
theorem anyM_ok {p : α → Except ε Bool} {q : α → Bool} {l : List α}
    (h : ∀ x ∈ l, p x = .ok (q x)) : l.anyM p = .ok (l.any q) := by
  induction l with
  | nil => rfl
  | cons x l ih =>
      have ih := ih fun y hy => h y (List.mem_cons_of_mem _ hy)
      rw [List.anyM_cons, h x (List.mem_cons_self ..), List.any_cons]
      cases hx : q x
      · exact ih
      · rfl

/-- A search whose tests all succeed returns the first element that meets them. -/
theorem findM?_ok {α : Type} {p : α → Except ε Bool} {q : α → Bool} {l : List α}
    (h : ∀ x ∈ l, p x = .ok (q x)) : l.findM? p = .ok (l.find? q) := by
  induction l with
  | nil => rfl
  | cons x l ih =>
      have ih := ih fun y hy => h y (List.mem_cons_of_mem _ hy)
      rw [List.findM?, h x (List.mem_cons_self ..), List.find?_cons]
      cases hx : q x
      · exact ih
      · rfl

/-- A loop whose steps all succeed collects their results. -/
theorem mapM_ok {α β : Type} {f : α → Except ε β} {g : α → β} {l : List α}
    (h : ∀ x ∈ l, f x = .ok (g x)) : l.mapM f = .ok (l.map g) := by
  induction l with
  | nil => rfl
  | cons x l ih =>
      have ih := ih fun y hy => h y (List.mem_cons_of_mem _ hy)
      rw [List.mapM_cons, h x (List.mem_cons_self ..), ih]
      rfl

end Checked

/-! ### Which errors a computation can end with -/

/-- Every error of the computation is in `E`. -/
def Except.ErrorsIn {ε α : Type} (x : Except ε α) (E : ε → Prop) : Prop := ∀ e, x = .error e → E e

namespace Except.ErrorsIn

variable {ε α β : Type} {E : ε → Prop}

/-- A value is no error. -/
theorem ok (a : α) : (Except.ok a : Except ε α).ErrorsIn E := nofun

/-- A value is no error, as `return` writes it. -/
theorem pure (a : α) : (Pure.pure a : Except ε α).ErrorsIn E := nofun

/-- An error is an error of its kind. -/
theorem error {e : ε} (h : E e) : (Except.error e : Except ε α).ErrorsIn E := by
  rintro _ ⟨⟩
  exact h

/-- Errors of a kind are errors of a wider kind. -/
theorem mono {E' : ε → Prop} {x : Except ε α} (h : x.ErrorsIn E) (hE : ∀ e, E e → E' e) :
    x.ErrorsIn E' :=
  fun e he => hE e (h e he)

/-- A sequence ends with the errors of its parts. -/
theorem bind {x : Except ε α} {f : α → Except ε β} (hx : x.ErrorsIn E)
    (hf : ∀ a, (f a).ErrorsIn E) : (x >>= f).ErrorsIn E := by
  intro e he
  rcases Checked.bind_eq_error_iff.1 he with he | ⟨a, _, he⟩
  · exact hx e he
  · exact hf a e he

/-- A loop ends with the errors of its steps. -/
theorem foldlM {step : β → α → Except ε β} {l : List α}
    (h : ∀ b, ∀ a ∈ l, (step b a).ErrorsIn E) (b : β) : (l.foldlM step b).ErrorsIn E := by
  induction l generalizing b with
  | nil => exact pure b
  | cons a l ih =>
      rw [List.foldlM_cons]
      exact (h b a (List.mem_cons_self ..)).bind
        (ih fun b a ha => h b a (List.mem_cons_of_mem _ ha))

end Except.ErrorsIn
