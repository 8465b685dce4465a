/-
# The dispatchers read what an entry says

`src/io_read.cpp`, from `parseMetadata` to the first halves of `parseNode` and
`parseSection`, against `PiwcsPrw.Io.Document`.

`Reads as P val` says of a conversion that it succeeds exactly on the values in
`P`, returns `val` there, and throws otherwise.  The conversions of single values
have it by cases; a dispatcher has it when its handlers do (`reads_dispatch`),
and what its handlers leave in the target, one field after the other, is what the
last field of each name says.
-/

import PiwcsPrw.Io.Document

namespace PiwcsPrw

open Json (lastOf lastOf_append_singleton)

/-- The conversion returns `val` on the values in `P` and throws on the others. -/
structure Reads {α : Type} (as : Doc → Reading α) (P : Doc → Prop) (val : Doc → α) : Prop where
  ok : ∀ v, P v → as v = .ok (val v)
  refused : ∀ v, ¬ P v → ∃ e, as v = .error e ∧ e.IsThrown

namespace Reads

variable {α β : Type} {as : Doc → Reading α} {P P' : Doc → Prop} {val : Doc → α}

/-- A conversion whose result is stored. -/
theorem map (h : Reads as P val) (g : α → β) :
    Reads (fun v => do return g (← as v)) P fun v => g (val v) where
  ok v hv := by
    rw [h.ok v hv]
    rfl
  refused v hv := by
    obtain ⟨e, he, hthrown⟩ := h.refused v hv
    exact ⟨e, by rw [he]; rfl, hthrown⟩

/-- The same reading, described in other words. -/
theorem congr {val' : Doc → α} (h : Reads as P val) (hP : ∀ v, P' v ↔ P v)
    (hval : ∀ v, P v → val' v = val v) : Reads as P' val' where
  ok v hv := by rw [h.ok v ((hP v).1 hv), hval v ((hP v).1 hv)]
  refused v hv := h.refused v (mt (hP v).2 hv)

end Reads

/-! ### Single values -/

/-- Strings are read as strings. -/
theorem reads_asString : Reads Minijson.asString IsString fun v => (string? v).getD [] where
  ok v hv := by
    obtain ⟨s, rfl⟩ := hv
    rfl
  refused v hv := by
    cases v with
    | string s => exact absurd ⟨s, rfl⟩ hv
    | null | bool | number | array | object => exact ⟨_, rfl, _, rfl⟩

/-- Nulls and strings are read as optional strings. -/
theorem reads_asOptional_asString :
    Reads (Minijson.asOptional Minijson.asString) (fun v => v = .null ∨ IsString v) string? where
  ok v hv := by
    rcases hv with rfl | ⟨s, rfl⟩ <;> rfl
  refused v hv := by
    cases v with
    | null => exact absurd (Or.inl rfl) hv
    | string s => exact absurd (Or.inr ⟨s, rfl⟩) hv
    | bool | number | array | object => exact ⟨_, rfl, _, rfl⟩

/-- Nulls and slots are read as optional slots. -/
theorem reads_asOptional_asSize (mj : Minijson) :
    Reads (Minijson.asOptional mj.asSize) (fun v => v = .null ∨ IsSlot mj v) (slot? mj) where
  ok v hv := by
    rcases hv with rfl | ⟨text, k, rfl, hk⟩
    · rfl
    · simp [Minijson.asOptional, Minijson.asSize, slot?, hk, Except.toOption, bind, Except.bind,
        pure, Except.pure]
  refused v hv := by
    cases v with
    | null => exact absurd (Or.inl rfl) hv
    | number text =>
        cases hk : mj.asSlotId text with
        | ok k => exact absurd (Or.inr ⟨text, k, rfl, hk⟩) hv
        | error e =>
            refine ⟨.thrown e, ?_, e, rfl⟩
            simp [Minijson.asOptional, Minijson.asSize, hk, bind, Except.bind]
    | bool | string | array | object => exact ⟨_, rfl, _, rfl⟩

/-- The names of the seven types are read as types. -/
theorem reads_parseNodeType (nd : NodeData) :
    Reads (parseNodeType nd) IsNodeType fun v => { nd with type := nodeType? v } where
  ok v hv := by
    obtain ⟨type, rfl⟩ := hv
    have htype : nodeType? (.string type.info.name) = some type := nodeType?_eq_some_iff.2 rfl
    rw [htype, parseNodeType]
    rw [nodeType?, string?, Option.bind_some] at htype
    simp only [Minijson.asString, bind, Except.bind, htype]
    rfl
  refused v hv := by
    cases v with
    | string s =>
        cases hfind : nodeTypes.find? fun type => type.info.name = s with
        | none =>
            refine ⟨.thrown (.InvalidFormatError (ascii "unknown node \"type\"")), ?_, _, rfl⟩
            simp only [parseNodeType, Minijson.asString, bind, Except.bind, hfind]
            rfl
        | some type => exact absurd ⟨type, nodeType?_eq_some_iff.1 hfind⟩ hv
    | null | bool | number | array | object => exact ⟨_, rfl, _, rfl⟩

/-- The names of the three directions are read as directions. -/
theorem reads_asAllowedTravel : Reads asAllowedTravel (fun v => ∃ dir, v = .string (dirName dir))
    fun v => (dir? v).getD .UNIDIR where
  ok v hv := by
    obtain ⟨dir, rfl⟩ := hv
    rw [dir?_dirName]
    cases dir <;> rfl
  refused v hv := by
    cases v with
    | string s =>
        have h₁ : s ≠ ascii "NONE" := fun hs => hv ⟨.NONE, congrArg _ hs⟩
        have h₂ : s ≠ ascii "UNIDIR" := fun hs => hv ⟨.UNIDIR, congrArg _ hs⟩
        have h₃ : s ≠ ascii "BIDIR" := fun hs => hv ⟨.BIDIR, congrArg _ hs⟩
        rw [asAllowedTravel, if_neg h₁, if_neg h₂, if_neg h₃]
        exact ⟨_, rfl, _, rfl⟩
    | null | bool | number | array | object => exact ⟨_, rfl, _, rfl⟩

/-- A metadata object is read into the records there are. -/
theorem reads_parseMetadata (mj : Minijson) (md : MetadataData) :
    Reads (parseMetadata mj md) IsMetadata
      fun v => { metadata := addRecords md.metadata (recordsOf v) } := by
  have hok : ∀ (md : MetadataData) (f : Bytes × Doc), IsString f.2 →
      (do
        let value ← Minijson.asString f.2
        return { metadata := some ((md.metadata.getD ∅).insert f.1 value) } :
          Reading MetadataData)
      = .ok { metadata := addRecords md.metadata [recordOf f] } := by
    intro md f hf
    rw [reads_asString.ok f.2 hf]
    rfl
  have hno : ∀ (md : MetadataData) (f : Bytes × Doc), ¬ IsString f.2 →
      ∃ e, (do
        let value ← Minijson.asString f.2
        return { metadata := some ((md.metadata.getD ∅).insert f.1 value) } :
          Reading MetadataData) = .error e ∧ e.IsThrown := by
    intro md f hf
    obtain ⟨e, he, hthrown⟩ := reads_asString.refused f.2 hf
    exact ⟨e, by rw [he]; rfl, hthrown⟩
  have hfold : ∀ (fields : Fields) (md : MetadataData),
      fields.foldl (fun md f => { metadata := addRecords md.metadata [recordOf f] }) md
      = { metadata := addRecords md.metadata (recordsOf (.object fields)) } := by
    intro fields
    induction fields with
    | nil => intro md; rfl
    | cons f fields ih => intro md; rw [List.foldl_cons, ih]; rfl
  constructor
  · rintro v ⟨fields, rfl, hfields, _⟩
    exact (Json.foldlM_ok hok hfields md).trans (congrArg _ (hfold fields md))
  · intro v hv
    cases v with
    | object fields =>
        refine Json.foldlM_refused hok hno (fun hall => hv ⟨fields, rfl, hall, ?_⟩) md
        exact fun name hname => by cases hname
    | null | bool | number | string | array => exact ⟨_, rfl, mj.isThrown_raise _⟩

/-! ### Dispatchers -/

/-- **A dispatcher whose handlers read their fields reads the object.** -/
theorem reads_dispatch (mj : Minijson) {T : Type} {handlers : List (Json.Handler Bytes T Stop)}
    (A : Bytes × Doc → Prop) (upd : T → Bytes × Doc → T) {required : List Bytes}
    (hknown : ∀ f, A f → ∃ h ∈ handlers, h.name = f.1)
    (hreads : ∀ h ∈ handlers, ∀ t,
      Reads (h.run t) (fun v => A (h.name, v)) fun v => upd t (h.name, v))
    (hrequired : required = (handlers.filter fun h => h.required).map fun h => h.name)
    (t : T) : Reads (Json.dispatch mj.raise handlers t) (IsObject A required)
      fun v => (fieldsOf v).foldl upd t := by
  have hhandles : Json.Handles handlers A upd Stop.IsThrown :=
    ⟨hknown, fun h hmem t v => (hreads h hmem t).ok v,
      fun h hmem t v => (hreads h hmem t).refused v⟩
  have hreq : ∀ fields : Fields, (∀ name ∈ required, name ∈ fields.map Prod.fst) ↔
      ∀ h ∈ handlers, h.required = true → h.name ∈ fields.map Prod.fst := by
    intro fields
    subst hrequired
    constructor
    · exact fun hall h hmem hr => hall _ (List.mem_map_of_mem (List.mem_filter.2 ⟨hmem, hr⟩))
    · intro hall name hname
      obtain ⟨h, hmem, rfl⟩ := List.mem_map.1 hname
      exact hall h (List.mem_filter.1 hmem).1 (List.mem_filter.1 hmem).2
  constructor
  · rintro v ⟨fields, rfl, hfields, hall⟩
    exact Json.dispatch_ok hhandles hfields ((hreq fields).1 hall) t
  · intro v hv
    refine Json.dispatch_refused hhandles mj.isThrown_raise (fun hread => hv ?_) t
    obtain ⟨fields, rfl, hfields, hall⟩ := hread
    exact ⟨fields, rfl, hfields, (hreq fields).2 hall⟩

end PiwcsPrw
