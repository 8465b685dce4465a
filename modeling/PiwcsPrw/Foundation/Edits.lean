/-
# Edits of a table, one entry at a time

A table has an entry or none under each key.  An operation on it often changes one
entry only: it puts one where there is none, clears one that is there, or modifies
what it finds.  Such an `Edit` reads no other entry, so the entry after a list of
operations is what its own edits make of it, in their order (`Edit.replay`).

Two edits allowed on the same table can be made in either order unless they are of
one entry and neither clears it (`Edit.applyAt_comm`).
-/

import Mathlib.Data.Option.Basic

/-- A change of one entry. -/
inductive Edit (α : Type*)
  | put (a : α)
  | clear
  | modify (f : α → α)

namespace Edit

variable {K α : Type*}

/-- The entry after the change. -/
def apply (old : Option α) : Edit α → Option α
  | put a => some a
  | clear => none
  | modify f => old.map f

/-- An entry is put where there is none, and cleared where there is one. -/
def Allowed (old : Option α) : Edit α → Prop
  | put _ => old = none
  | clear => old ≠ none
  | modify _ => True

variable [DecidableEq K]

/-- The entry `k` of the table after the change of one entry, if there is one. -/
def applyAt (e : Option (K × Edit α)) (k : K) (old : Option α) : Option α :=
  match e with
  | none => old
  | some (k', e) => if k = k' then e.apply old else old

/-- No change leaves every entry. -/
@[simp] theorem applyAt_none (k : K) (old : Option α) :
    applyAt (none : Option (K × Edit α)) k old = old := rfl

/-- A change of one entry leaves the others. -/
@[simp] theorem applyAt_some (k' : K) (e : Edit α) (k : K) (old : Option α) :
    applyAt (some (k', e)) k old = if k = k' then e.apply old else old := rfl

/-- What is put is there. -/
@[simp] theorem apply_put (old : Option α) (a : α) : (put a).apply old = some a := rfl

/-- What is cleared is gone. -/
@[simp] theorem apply_clear (old : Option α) : (clear : Edit α).apply old = none := rfl

/-- Only what is there is modified. -/
@[simp] theorem apply_modify (old : Option α) (f : α → α) : (modify f).apply old = old.map f := rfl

/-- Without an entry there is none afterwards, unless one is put there. -/
theorem applyAt_eq_none_iff {e : Option (K × Edit α)} {k : K} :
    applyAt e k none = none ↔ ∀ a, e ≠ some (k, put a) := by
  match e with
  | none => simp
  | some (k', put a) => simp [eq_comm]
  | some (k', clear) | some (k', modify f) => simp

/-- An entry is there afterwards, unless it is cleared. -/
theorem applyAt_ne_none_iff {e : Option (K × Edit α)} {k : K} {a : α} :
    applyAt e k (some a) ≠ none ↔ e ≠ some (k, clear) := by
  match e with
  | none => simp
  | some (k', put b) => by_cases hk : k = k' <;> simp [hk]
  | some (k', clear) => simp [eq_comm]
  | some (k', modify f) => by_cases hk : k = k' <;> simp [hk]

/-! ### What a function of the entries sees -/

section Seen

variable {β : Type*} {f : α → β} {old old' : Option α} (h : old.map f = old'.map f) (k k' : K)

include h

/-- Entries put in one place look the same when they do. -/
theorem map_applyAt_put {a a' : α} (ha : f a = f a') :
    (applyAt (some (k', put a)) k old).map f = (applyAt (some (k', put a')) k old').map f := by
  by_cases hk : k = k'
  · simp [hk, ha]
  · simpa [hk] using h

/-- Entries that look the same do so when one is cleared. -/
theorem map_applyAt_clear :
    (applyAt (some (k', clear)) k old).map f = (applyAt (some (k', clear)) k old').map f := by
  by_cases hk : k = k'
  · simp [hk]
  · simpa [hk] using h

/-- Changes that do not show are not seen, wherever they are made. -/
theorem map_applyAt_modify (k'' : K) {g g' : α → α} (hg : ∀ a, f (g a) = f a)
    (hg' : ∀ a, f (g' a) = f a) :
    (applyAt (some (k', modify g)) k old).map f = (applyAt (some (k'', modify g')) k old').map f := by
  have hkeep : ∀ (k' : K) (g : α → α) (old : Option α), (∀ a, f (g a) = f a) →
      (applyAt (some (k', modify g)) k old).map f = old.map f := fun k' g old hg => by
    by_cases hk : k = k'
    · simp [hk, Function.comp_def, hg]
    · simp [hk]
  rw [hkeep k' g old hg, hkeep k'' g' old' hg', h]

end Seen

omit [DecidableEq K] in
/-- The edits are of one entry, and neither clears it. -/
def Overlap : Option (K × Edit α) → Option (K × Edit α) → Prop
  | some (_, clear), _ | _, some (_, clear) => False
  | some (k, _), some (k', _) => k = k'
  | _, _ => False

/-- **The order of two edits** that are both allowed does not matter, unless they
overlap. -/
theorem applyAt_comm {table : K → Option α} {e e' : Option (K × Edit α)}
    (h : ∀ k x, e = some (k, x) → x.Allowed (table k))
    (h' : ∀ k x, e' = some (k, x) → x.Allowed (table k)) (hover : ¬ Overlap e e') (k : K) :
    applyAt e' k (applyAt e k (table k)) = applyAt e k (applyAt e' k (table k)) := by
  match e, e' with
  | none, _ | some _, none => rfl
  | some (k₁, x), some (k₂, y) =>
      have hx := h k₁ x rfl
      have hy := h' k₂ y rfl
      simp only [applyAt_some]
      by_cases hk₁ : k = k₁
      · by_cases hk₂ : k = k₂
        · subst hk₁ hk₂
          cases x with
          | put a =>
              cases y with
              | clear => exact absurd hx hy
              | put | modify => exact absurd rfl hover
          | clear =>
              cases y with
              | put b => exact absurd hy hx
              | clear => rfl
              | modify g => simp
          | modify f =>
              cases y with
              | clear => simp
              | put | modify => exact absurd rfl hover
        · simp only [if_neg hk₂]
      · simp only [if_neg hk₁]

/-! ### A list of edits -/

/-- The entry `k` after the changes, the last one first. -/
def replay (k : K) : List (Option (K × Edit α)) → Option α
  | [] => none
  | e :: es => applyAt e k (replay k es)

end Edit
