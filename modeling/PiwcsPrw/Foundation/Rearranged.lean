/-
# Rearranged objects

The fields of a JSON object have no order, yet a text gives them one, and a reader
meets them in it.  `Json.Rearranged` relates two trees that differ in nothing but
that order.  Fields of one name may not pass each other, since the last of them is
the one that counts: what both trees share is the list of values of each name
(`Json.valuesOf`).

Without repeated names any reordering is a rearrangement (`Rearranged.of_perm`).
-/

import Mathlib.Data.List.Forall2
import Mathlib.Data.List.Nodup
import PiwcsPrw.Foundation.Json

namespace Json

variable {S V W : Type} [DecidableEq S]

/-! ### The values of a name -/

/-- The values given for a name, in their order. -/
def valuesOf (name : S) (fields : List (S × V)) : List V :=
  (fields.filter fun f => f.1 = name).map Prod.snd

/-- Without fields there are no values. -/
@[simp] theorem valuesOf_nil (name : S) : valuesOf name ([] : List (S × V)) = [] := rfl

/-- A field in front gives the first value of its name. -/
theorem valuesOf_cons (name : S) (f : S × V) (fields : List (S × V)) :
    valuesOf name (f :: fields)
      = if f.1 = name then f.2 :: valuesOf name fields else valuesOf name fields := by
  rw [valuesOf, List.filter_cons]
  split_ifs with h₁ h₂ h₂
  · rfl
  · exact absurd (of_decide_eq_true h₁) h₂
  · exact absurd (decide_eq_true h₂) h₁
  · rfl

/-- The values under a name are those of the fields of that name. -/
theorem mem_valuesOf {name : S} {fields : List (S × V)} {v : V} :
    v ∈ valuesOf name fields ↔ (name, v) ∈ fields := by
  simp [valuesOf]

/-- The values of earlier fields come first. -/
theorem valuesOf_append (name : S) (fields fields' : List (S × V)) :
    valuesOf name (fields ++ fields') = valuesOf name fields ++ valuesOf name fields' := by
  rw [valuesOf, List.filter_append, List.map_append]
  rfl

/-- The values of the fields with changed values. -/
theorem valuesOf_map (name : S) (fields : List (S × V)) (g : V → W) :
    valuesOf name (fields.map fun f => (f.1, g f.2)) = (valuesOf name fields).map g := by
  induction fields with
  | nil => rfl
  | cons f fields ih =>
      rw [List.map_cons, valuesOf_cons, valuesOf_cons, ih]
      split_ifs
      · rw [List.map_cons]
      · rfl

/-- The value kept is the last one given. -/
theorem lastOf_eq_getLast? (name : S) (fields : List (S × V)) :
    lastOf name fields = (valuesOf name fields).getLast? := by
  induction fields using List.reverseRecOn with
  | nil => rfl
  | append_singleton fields f ih =>
      rw [lastOf_append_singleton, valuesOf_append, valuesOf_cons, valuesOf_nil]
      split_ifs
      · rw [List.getLast?_concat]
      · rw [List.append_nil, ih]

/-- A name occurs when there is a value under it. -/
theorem mem_names_iff {name : S} {fields : List (S × V)} :
    name ∈ fields.map Prod.fst ↔ valuesOf name fields ≠ [] := by
  simp [valuesOf, List.filter_eq_nil_iff]

/-- Names occur once when each has at most one value. -/
theorem nodup_names_iff {fields : List (S × V)} :
    (fields.map Prod.fst).Nodup ↔ ∀ name, (valuesOf name fields).length ≤ 1 := by
  rw [List.nodup_iff_count_le_one]
  refine forall_congr' fun name => ?_
  rw [valuesOf, List.length_map, List.count, List.countP_map, List.countP_eq_length_filter]
  rfl

/-- Without repeated names a name has the one value of its field. -/
theorem valuesOf_eq_singleton {fields : List (S × V)} (h : (fields.map Prod.fst).Nodup) {name : S}
    {v : V} (hv : (name, v) ∈ fields) : valuesOf name fields = [v] := by
  have hmem := mem_valuesOf.2 hv
  obtain ⟨w, hw⟩ := List.length_eq_one_iff.1
    (le_antisymm (nodup_names_iff.1 h name) (List.length_pos_of_mem hmem))
  rw [hw] at hmem ⊢
  rw [List.mem_singleton.1 hmem]

/-! ### Rearranged trees -/

/-- The trees differ at most in the order of the fields of their objects, where
fields of one name keep theirs. -/
inductive Rearranged : Json S → Json S → Prop
  | refl (v : Json S) : Rearranged v v
  | array {vs ws : List (Json S)} : vs.length = ws.length →
      (∀ (i : ℕ) (v w : Json S), vs[i]? = some v → ws[i]? = some w → Rearranged v w) →
        Rearranged (array vs) (array ws)
  | object {fs gs : List (S × Json S)} :
      (∀ name, (valuesOf name fs).length = (valuesOf name gs).length) →
      (∀ (name : S) (i : ℕ) (v w : Json S), (valuesOf name fs)[i]? = some v →
        (valuesOf name gs)[i]? = some w → Rearranged v w) →
        Rearranged (object fs) (object gs)

/-- The fields of two objects, rearranged. -/
def SameFields (fs gs : List (S × Json S)) : Prop :=
  ∀ name, List.Forall₂ Rearranged (valuesOf name fs) (valuesOf name gs)

/-- A list of fields is a rearrangement of itself. -/
theorem SameFields.refl (fs : List (S × Json S)) : SameFields fs fs := fun _ =>
  List.forall₂_same.2 fun _ _ => .refl _

/-- Lists related place by place. -/
theorem forall₂_iff_getElem? {U : Type} {R : U → U → Prop} {us vs : List U} :
    List.Forall₂ R us vs ↔ us.length = vs.length ∧
      ∀ (i : ℕ) (u v : U), us[i]? = some u → vs[i]? = some v → R u v := by
  rw [List.forall₂_iff_get]
  refine and_congr_right fun hlen => ⟨fun h i u v hu hv => ?_, fun h i hi hi' => ?_⟩
  · obtain ⟨hi, rfl⟩ := List.getElem?_eq_some_iff.1 hu
    obtain ⟨hi', rfl⟩ := List.getElem?_eq_some_iff.1 hv
    exact h i hi hi'
  · exact h i _ _ (List.getElem?_eq_getElem hi) (List.getElem?_eq_getElem hi')

/-- Related lists look the same through a function that does not see the relation. -/
theorem map_eq_of_forall₂ {U X : Type} {R : U → U → Prop} {f : U → X}
    (hf : ∀ u v, R u v → f u = f v) {us vs : List U} (h : List.Forall₂ R us vs) :
    us.map f = vs.map f := by
  induction h with
  | nil => rfl
  | cons huv _ ih => rw [List.map_cons, List.map_cons, hf _ _ huv, ih]

/-- An item of one of two related lists has a partner in the other. -/
theorem exists_mem_of_forall₂ {U : Type} {R : U → U → Prop} {us vs : List U}
    (h : List.Forall₂ R us vs) {u : U} (hu : u ∈ us) : ∃ v ∈ vs, R u v := by
  induction h with
  | nil => cases hu
  | cons huv _ ih =>
      rcases List.mem_cons.1 hu with rfl | hu
      · exact ⟨_, List.mem_cons_self .., huv⟩
      · obtain ⟨v, hv, huv⟩ := ih hu
        exact ⟨v, List.mem_cons_of_mem _ hv, huv⟩

namespace Rearranged

variable {v w : Json S} {vs ws : List (Json S)} {fs gs : List (S × Json S)}

/-- Rearranging can be taken back. -/
theorem symm (h : Rearranged v w) : Rearranged w v := by
  induction h with
  | refl v => exact .refl v
  | array hlen _ ih => exact .array hlen.symm fun i w v hw hv => ih i v w hv hw
  | object hlen _ ih =>
      exact .object (fun name => (hlen name).symm) fun name i w v hw hv => ih name i v w hv hw

/-- The rearrangements of an object are objects, field for field. -/
theorem object_iff : Rearranged (.object fs) w ↔ ∃ gs, w = .object gs ∧ SameFields fs gs := by
  constructor
  · intro h
    cases h with
    | refl => exact ⟨fs, rfl, SameFields.refl fs⟩
    | object hlen h => exact ⟨_, rfl, fun name => forall₂_iff_getElem?.2 ⟨hlen name, h name⟩⟩
  · rintro ⟨gs, rfl, h⟩
    exact .object (fun name => (forall₂_iff_getElem?.1 (h name)).1)
      fun name => (forall₂_iff_getElem?.1 (h name)).2

/-- The rearrangements of an array are arrays, item for item. -/
theorem array_iff : Rearranged (.array vs) w ↔ ∃ ws, w = .array ws ∧
    List.Forall₂ Rearranged vs ws := by
  constructor
  · intro h
    cases h with
    | refl => exact ⟨vs, rfl, List.forall₂_same.2 fun _ _ => .refl _⟩
    | array hlen h => exact ⟨_, rfl, forall₂_iff_getElem?.2 ⟨hlen, h⟩⟩
  · rintro ⟨ws, rfl, h⟩
    exact .array (forall₂_iff_getElem?.1 h).1 (forall₂_iff_getElem?.1 h).2

/-- A null is rearranged to itself only. -/
theorem eq_null (h : Rearranged .null w) : w = .null := by
  cases h
  rfl

/-- A string is rearranged to itself only. -/
theorem eq_string {s : S} (h : Rearranged (.string s) w) : w = .string s := by
  cases h
  rfl

/-- A number is rearranged to itself only. -/
theorem eq_number {text : S} (h : Rearranged (.number text) w) : w = .number text := by
  cases h
  rfl

/-- Without repeated names, objects with the same names are rearranged when their values
are. -/
theorem of_nodup (hfs : (fs.map Prod.fst).Nodup) (hgs : (gs.map Prod.fst).Nodup)
    (hnames : ∀ name, name ∈ fs.map Prod.fst ↔ name ∈ gs.map Prod.fst)
    (hvalues : ∀ name v w, (name, v) ∈ fs → (name, w) ∈ gs → Rearranged v w) :
    Rearranged (.object fs) (.object gs) := by
  refine object_iff.2 ⟨gs, rfl, fun name => ?_⟩
  by_cases hname : name ∈ fs.map Prod.fst
  · obtain ⟨v, hv⟩ := exists_lastOf hname
    obtain ⟨w, hw⟩ := exists_lastOf ((hnames name).1 hname)
    rw [valuesOf_eq_singleton hfs (mem_of_lastOf hv), valuesOf_eq_singleton hgs (mem_of_lastOf hw)]
    exact .cons (hvalues name v w (mem_of_lastOf hv) (mem_of_lastOf hw)) .nil
  · have hfs' := not_not.1 (mem_names_iff.not.1 hname)
    have hgs' := not_not.1 (mem_names_iff.not.1 ((hnames name).not.1 hname))
    rw [hfs', hgs']
    exact .nil

/-- **Without repeated names, the order of the fields is free.** -/
theorem of_perm (h : fs.Perm gs) (hfs : (fs.map Prod.fst).Nodup) :
    Rearranged (.object fs) (.object gs) := by
  refine of_nodup hfs ((h.map _).nodup_iff.1 hfs) (fun name => (h.map _).mem_iff) ?_
  intro name v w hv hw
  obtain rfl := (Prod.mk.inj (List.inj_on_of_nodup_map hfs hv (h.mem_iff.2 hw) rfl)).2
  exact .refl v

end Rearranged

namespace SameFields

variable {fs gs : List (S × Json S)}

/-- Rearranged fields, the other way round. -/
theorem symm (h : SameFields fs gs) : SameFields gs fs := fun name =>
  (h name).flip.imp fun _ _ => Rearranged.symm

/-- Rearrangements of two lists make one of both together. -/
theorem append {fs' gs' : List (S × Json S)} (h : SameFields fs gs) (h' : SameFields fs' gs') :
    SameFields (fs ++ fs') (gs ++ gs') := fun name => by
  rw [valuesOf_append, valuesOf_append]
  exact List.rel_append (h name) (h' name)

/-- A field is rearranged with its value. -/
theorem singleton (name : S) {v w : Json S} (h : Rearranged v w) :
    SameFields [(name, v)] [(name, w)] := fun other => by
  rw [valuesOf_cons, valuesOf_cons]
  split_ifs
  · exact .cons h .nil
  · exact .nil

/-- Each field has its like among the rearranged ones. -/
theorem exists_mem (h : SameFields fs gs) {f : S × Json S} (hf : f ∈ fs) :
    ∃ w, (f.1, w) ∈ gs ∧ Rearranged f.2 w := by
  obtain ⟨w, hw, hfw⟩ := exists_mem_of_forall₂ (h f.1) (mem_valuesOf.2 hf)
  exact ⟨w, mem_valuesOf.1 hw, hfw⟩

/-- Rearranged fields have the same names. -/
theorem mem_names (h : SameFields fs gs) (name : S) :
    name ∈ fs.map Prod.fst ↔ name ∈ gs.map Prod.fst := by
  rw [mem_names_iff, mem_names_iff, ← List.length_pos_iff, ← List.length_pos_iff,
    (h name).length_eq]

/-- Rearranged fields repeat a name together. -/
theorem nodup_names (h : SameFields fs gs) :
    (fs.map Prod.fst).Nodup ↔ (gs.map Prod.fst).Nodup := by
  simp only [nodup_names_iff, (h _).length_eq]

/-- The same name is kept with the same value, or neither has one. -/
theorem lastOf (h : SameFields fs gs) (name : S) :
    Option.Rel Rearranged (Json.lastOf name fs) (Json.lastOf name gs) := by
  rw [lastOf_eq_getLast?, lastOf_eq_getLast?, ← List.head?_reverse, ← List.head?_reverse]
  have hrev := List.forall₂_reverse_iff.2 (h name)
  generalize (valuesOf name fs).reverse = vs at hrev
  generalize (valuesOf name gs).reverse = ws at hrev
  cases hrev with
  | nil => exact .none
  | cons hvw _ => exact .some hvw

/-- So is what a function makes of it that does not see the order. -/
theorem map_lastOf (h : SameFields fs gs) {X : Type} {f : Json S → X}
    (hf : ∀ v w, Rearranged v w → f v = f w) (name : S) :
    (Json.lastOf name fs).map f = (Json.lastOf name gs).map f := by
  have hlast := h.lastOf name
  generalize Json.lastOf name fs = v? at hlast
  generalize Json.lastOf name gs = w? at hlast
  cases hlast with
  | some hvw => rw [Option.map_some, Option.map_some, hf _ _ hvw]
  | none => rfl

/-- What a function makes of the last value under a name is the same when it does not see
rearrangements. -/
theorem bind_lastOf (h : SameFields fs gs) {X : Type} {f : Json S → Option X}
    (hf : ∀ v w, Rearranged v w → f v = f w) (name : S) :
    (Json.lastOf name fs).bind f = (Json.lastOf name gs).bind f := by
  have hmap := congrArg (fun o => o.bind id) (h.map_lastOf hf name)
  simpa only [Option.bind_map, Function.id_comp] using hmap

end SameFields

end Json
