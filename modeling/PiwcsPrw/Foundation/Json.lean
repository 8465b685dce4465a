/-
# JSON trees and dispatchers

A JSON document as a reader meets it: an object is a list of fields in the order
of the text, and may repeat a name.  `Json.lastOf` is what a reader keeps that
stores every field under its name as it comes.

A dispatcher reads an object by handing each field to the handler of its name,
in order, each updating one target; a name without a handler is refused as it is
met, a missing required field at the end.  When every handler decides by the
value alone whether to take it (`Json.Handles`), the order of the fields does not
matter for the decision: the object is read exactly when each of its fields is
accepted and no required one is missing (`dispatch_ok`, `dispatch_refused`).  It ends
with the errors of a handler only on a field of its name (`dispatch_errorsIn`).
-/

import Mathlib.Data.Finmap
import PiwcsPrw.Foundation.Checked

/-- A JSON tree over texts of type `S`.  A number is kept as its text. -/
inductive Json (S : Type)
  | null
  | bool (b : Bool)
  | number (text : S)
  | string (s : S)
  | array (items : List (Json S))
  | object (fields : List (S × Json S))

namespace Json

variable {S T V ε : Type}

/-- No object of the tree repeats a name. -/
inductive DistinctNames : Json S → Prop
  | null : DistinctNames null
  | bool (b : Bool) : DistinctNames (bool b)
  | number (text : S) : DistinctNames (number text)
  | string (s : S) : DistinctNames (string s)
  | array {items : List (Json S)} : (∀ v ∈ items, DistinctNames v) → DistinctNames (array items)
  | object {fields : List (S × Json S)} : (fields.map Prod.fst).Nodup →
      (∀ f ∈ fields, DistinctNames f.2) → DistinctNames (object fields)

/-! ### Repeated names -/

section LastOf

variable [DecidableEq S]

/-- The value last given for the name. -/
def lastOf (name : S) (fields : List (S × V)) : Option V :=
  fields.foldl (fun r f => if f.1 = name then some f.2 else r) none

/-- Without fields there is no last one. -/
@[simp] theorem lastOf_nil (name : S) : lastOf name ([] : List (S × V)) = none := rfl

/-- A field at the end is the last of its name. -/
theorem lastOf_append_singleton (name : S) (fields : List (S × V)) (f : S × V) :
    lastOf name (fields ++ [f]) = if f.1 = name then some f.2 else lastOf name fields := by
  rw [lastOf, List.foldl_append]
  rfl

/-- Later fields come before earlier ones. -/
theorem lastOf_append (name : S) (fields fields' : List (S × V)) :
    lastOf name (fields ++ fields') = (lastOf name fields').or (lastOf name fields) := by
  induction fields' using List.reverseRecOn with
  | nil => simp
  | append_singleton fields' f ih =>
      rw [← List.append_assoc, lastOf_append_singleton, lastOf_append_singleton, ih]
      split_ifs <;> rfl

/-- The one field is the last of its name. -/
@[simp] theorem lastOf_singleton (name : S) (f : S × V) :
    lastOf name [f] = if f.1 = name then some f.2 else none := rfl

/-- What is kept was given. -/
theorem mem_of_lastOf {name : S} {fields : List (S × V)} {v : V}
    (h : lastOf name fields = some v) : (name, v) ∈ fields := by
  induction fields using List.reverseRecOn with
  | nil => cases h
  | append_singleton fields f ih =>
      rw [lastOf_append_singleton] at h
      rw [List.mem_append, List.mem_singleton]
      split_ifs at h with hf
      · exact Or.inr (Prod.ext hf.symm (Option.some.inj h).symm)
      · exact Or.inl (ih h)

/-- A name that was given has a last value. -/
theorem exists_lastOf {name : S} {fields : List (S × V)} (h : name ∈ fields.map Prod.fst) :
    ∃ v, lastOf name fields = some v := by
  induction fields using List.reverseRecOn with
  | nil => cases h
  | append_singleton fields f ih =>
      rw [lastOf_append_singleton]
      split_ifs with hf
      · exact ⟨f.2, rfl⟩
      · refine ih ?_
        simpa [Ne.symm hf] using h

/-- A name that was not given has none. -/
theorem lastOf_eq_none {name : S} {fields : List (S × V)} (h : name ∉ fields.map Prod.fst) :
    lastOf name fields = none := by
  rw [Option.eq_none_iff_forall_ne_some]
  intro v hv
  exact h (List.mem_map_of_mem (mem_of_lastOf hv))

/-- Without repeated names, the last value is the only one. -/
theorem lastOf_eq_some_iff {fields : List (S × V)} (h : (fields.map Prod.fst).Nodup) {name : S}
    {v : V} : lastOf name fields = some v ↔ (name, v) ∈ fields := by
  refine ⟨mem_of_lastOf, fun hv => ?_⟩
  obtain ⟨w, hw⟩ := exists_lastOf (List.mem_map_of_mem hv)
  have heq := List.inj_on_of_nodup_map h hv (mem_of_lastOf hw) rfl
  rw [hw, (Prod.mk.inj heq).2]

/-- Leaving out the fields of another name changes nothing. -/
theorem lastOf_filter_ne {name other : S} (h : name ≠ other) (fields : List (S × V)) :
    lastOf name (fields.filter fun f => f.1 ≠ other) = lastOf name fields := by
  induction fields using List.reverseRecOn with
  | nil => rfl
  | append_singleton fields f ih =>
      rw [List.filter_append, lastOf_append_singleton]
      rcases eq_or_ne f.1 other with hf | hf
      · rw [List.filter_singleton, decide_eq_false (not_not.2 hf), if_neg (hf ▸ h.symm), cond_false,
          List.append_nil, ih]
      · rw [List.filter_singleton, decide_eq_true hf, cond_true, lastOf_append_singleton, ih]

/-- A map filled from the fields holds the last value of each name. -/
theorem lookup_foldl_insert (s : Finmap fun _ : S => V) (fields : List (S × V)) (name : S) :
    (fields.foldl (fun s f => s.insert f.1 f.2) s).lookup name
      = (lastOf name fields).or (s.lookup name) := by
  induction fields using List.reverseRecOn with
  | nil => rfl
  | append_singleton fields f ih =>
      rw [List.foldl_append, List.foldl_cons, List.foldl_nil, lastOf_append_singleton]
      split_ifs with hf
      · rw [hf, Finmap.lookup_insert]
        rfl
      · rw [Finmap.lookup_insert_of_ne _ (Ne.symm hf), ih]

end LastOf

/-! ### Loops that decide by the element alone -/

/-- A loop all of whose elements are accepted. -/
theorem foldlM_ok {F : Type} {step : T → F → Except ε T} {A : F → Prop} {upd : T → F → T}
    (hok : ∀ t f, A f → step t f = .ok (upd t f)) {fs : List F} (h : ∀ f ∈ fs, A f) (t : T) :
    fs.foldlM step t = .ok (fs.foldl upd t) := by
  induction fs generalizing t with
  | nil => rfl
  | cons f fs ih =>
      rw [List.foldlM_cons, hok t f (h f (List.mem_cons_self ..))]
      exact ih (fun g hg => h g (List.mem_cons_of_mem _ hg)) (upd t f)

/-- A loop one of whose elements is refused. -/
theorem foldlM_refused {F : Type} {step : T → F → Except ε T} {A : F → Prop} {upd : T → F → T}
    {E : ε → Prop} (hok : ∀ t f, A f → step t f = .ok (upd t f))
    (hno : ∀ t f, ¬ A f → ∃ e, step t f = .error e ∧ E e) {fs : List F} (h : ¬ ∀ f ∈ fs, A f)
    (t : T) : ∃ e, fs.foldlM step t = .error e ∧ E e := by
  induction fs generalizing t with
  | nil => exact absurd (fun f hf => by cases hf) h
  | cons f fs ih =>
      rw [List.foldlM_cons]
      by_cases hf : A f
      · rw [hok t f hf]
        exact ih (fun hall => h (List.forall_mem_cons.2 ⟨hf, hall⟩)) (upd t f)
      · obtain ⟨e, he, hE⟩ := hno t f hf
        exact ⟨e, by rw [he]; rfl, hE⟩

/-! ### Dispatchers -/

/-- The handler of the fields of one name. -/
structure Handler (S T ε : Type) where
  name : S
  required : Bool
  run : T → Json S → Except ε T

/-- Why a dispatcher refuses. -/
inductive Refusal (S : Type)
  | notAnObject
  | unhandledField (name : S)
  | missingField (name : S)

section Dispatch

variable [DecidableEq S] (raise : Refusal S → ε) (handlers : List (Handler S T ε))

/-- One field goes to the handler of its name. -/
def dispatchField (t : T) (f : S × Json S) : Except ε T :=
  match handlers.find? fun h => h.name = f.1 with
  | some h => h.run t f.2
  | none => .error (raise (.unhandledField f.1))

/-- All fields go to their handlers, then the required ones are looked for. -/
def dispatch (t : T) : Json S → Except ε T
  | object fields => do
      let t ← fields.foldlM (dispatchField raise handlers) t
      match handlers.find? fun h => h.required && !(fields.map Prod.fst).contains h.name with
      | some h => .error (raise (.missingField h.name))
      | none => .ok t
  | _ => .error (raise .notAnObject)

/-- The handlers take exactly the fields in `A`, with the effect `upd`, and refuse
the others with an error in `E`. -/
structure Handles (A : S × Json S → Prop) (upd : T → S × Json S → T) (E : ε → Prop) : Prop where
  known : ∀ f, A f → ∃ h ∈ handlers, h.name = f.1
  take : ∀ h ∈ handlers, ∀ t v, A (h.name, v) → h.run t v = .ok (upd t (h.name, v))
  refuse : ∀ h ∈ handlers, ∀ t v, ¬ A (h.name, v) → ∃ e, h.run t v = .error e ∧ E e

/-- An object a dispatcher reads: fields it accepts, and no required one missing. -/
def Readable (A : S × Json S → Prop) (v : Json S) : Prop :=
  ∃ fields, v = object fields ∧ (∀ f ∈ fields, A f) ∧
    ∀ h ∈ handlers, h.required = true → h.name ∈ fields.map Prod.fst

variable {raise handlers} {A : S × Json S → Prop} {upd : T → S × Json S → T} {E : ε → Prop}

/-- A field that is accepted updates the target. -/
theorem dispatchField_ok (h : Handles handlers A upd E) (t : T) (f : S × Json S) (hf : A f) :
    dispatchField raise handlers t f = .ok (upd t f) := by
  obtain ⟨g, hg, hname⟩ := h.known f hf
  cases hfind : handlers.find? fun h => h.name = f.1 with
  | none =>
      have hno := List.find?_eq_none.1 hfind g hg
      simp [hname] at hno
  | some g' =>
      have hname' : g'.name = f.1 := by simpa using List.find?_some hfind
      rw [dispatchField, hfind]
      have hrun := h.take g' (List.mem_of_find?_eq_some hfind) t f.2
      rw [hname'] at hrun
      exact hrun hf

/-- A field that is not accepted ends the reading. -/
theorem dispatchField_refused (h : Handles handlers A upd E) (hE : ∀ r, E (raise r)) (t : T)
    (f : S × Json S) (hf : ¬ A f) : ∃ e, dispatchField raise handlers t f = .error e ∧ E e := by
  cases hfind : handlers.find? fun h => h.name = f.1 with
  | none => exact ⟨_, by rw [dispatchField, hfind], hE _⟩
  | some g =>
      have hname : g.name = f.1 := by simpa using List.find?_some hfind
      rw [dispatchField, hfind]
      have hrun := h.refuse g (List.mem_of_find?_eq_some hfind) t f.2
      rw [hname] at hrun
      exact hrun hf

/-- **What a dispatcher accepts it reads**, each field updating the target. -/
theorem dispatch_ok (h : Handles handlers A upd E) {fields : List (S × Json S)}
    (hfields : ∀ f ∈ fields, A f)
    (hrequired : ∀ h ∈ handlers, h.required = true → h.name ∈ fields.map Prod.fst) (t : T) :
    dispatch raise handlers t (object fields) = .ok (fields.foldl upd t) := by
  have hnone : (handlers.find? fun h =>
      h.required && !(fields.map Prod.fst).contains h.name) = none := by
    rw [List.find?_eq_none]
    intro g hg hmissing
    rw [Bool.and_eq_true, Bool.not_eq_true', List.contains_eq_mem, decide_eq_false_iff_not]
      at hmissing
    exact hmissing.2 (hrequired g hg hmissing.1)
  rw [dispatch, foldlM_ok (dispatchField_ok h) hfields]
  simp only [bind, Except.bind, hnone]

/-- **What it does not accept it refuses.** -/
theorem dispatch_refused (h : Handles handlers A upd E) (hE : ∀ r, E (raise r)) {v : Json S}
    (hv : ¬ Readable handlers A v) (t : T) : ∃ e, dispatch raise handlers t v = .error e ∧ E e := by
  cases v with
  | object fields =>
      by_cases hfields : ∀ f ∈ fields, A f
      · rw [dispatch, foldlM_ok (dispatchField_ok h) hfields]
        simp only [bind, Except.bind]
        cases hfind : handlers.find? fun h =>
            h.required && !(fields.map Prod.fst).contains h.name with
        | some g => exact ⟨_, rfl, hE _⟩
        | none =>
            refine absurd ⟨fields, rfl, hfields, fun g hg hreq => ?_⟩ hv
            have hno := List.find?_eq_none.1 hfind g hg
            rw [hreq, Bool.true_and, Bool.not_eq_true', Bool.not_eq_false, List.contains_eq_mem,
              decide_eq_true_eq] at hno
            exact hno
      · obtain ⟨e, he, hEe⟩ := foldlM_refused (dispatchField_ok h) (dispatchField_refused h hE)
          hfields t
        refine ⟨e, ?_, hEe⟩
        rw [dispatch, he]
        rfl
  | null | bool | number | string | array => exact ⟨_, rfl, hE _⟩

/-- A dispatcher ends with its own errors and those of its handlers on the fields of
their names. -/
theorem dispatch_errorsIn (hE : ∀ r, E (raise r)) (t : T) {v : Json S}
    (hrun : ∀ h ∈ handlers, ∀ t fields, v = .object fields → ∀ w, (h.name, w) ∈ fields →
      (h.run t w).ErrorsIn E) : (dispatch raise handlers t v).ErrorsIn E := by
  cases v with
  | object fields =>
      refine (Except.ErrorsIn.foldlM (fun t f hf => ?_) t).bind fun t => ?_
      · rw [dispatchField]
        cases hfind : handlers.find? fun h => h.name = f.1 with
        | none => exact .error (hE _)
        | some h =>
            have hname : h.name = f.1 := by simpa using List.find?_some hfind
            exact hrun h (List.mem_of_find?_eq_some hfind) t fields rfl f.2 (hname ▸ hf)
      · split
        · exact .error (hE _)
        · exact .ok t
  | null | bool | number | string | array => exact .error (hE _)

end Dispatch

end Json
