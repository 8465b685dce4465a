/-
# What a document says

The format of `src/io_read.cpp` and `src/io_write.cpp` as a property of trees,
without a reader.  A document has two parts, the nodes and the sections, each an
object whose fields are the entries.  `IsNode` and `IsSection` say what an entry
may look like, and `nodeOf`, `sectionOf` and `linkOf` what it stands for.

An object that repeats a name stands for what the last field of that name says
(`Json.lastOf`), except that repeated metadata objects add up.  A field of a link
may be null, which leaves that part of the link without a value.
-/

import PiwcsPrw.Entities.Calls
import PiwcsPrw.Io.Read

namespace PiwcsPrw

open Json (lastOf)

/-- The fields of an object; other values have none. -/
def fieldsOf : Doc → Fields
  | .object fields => fields
  | _ => []

/-- The string a value is. -/
def string? : Doc → Option Bytes
  | .string s => some s
  | _ => none

/-- The slot a value is. -/
def slot? (mj : Minijson) : Doc → Option SlotId
  | .number text => (mj.asSlotId text).toOption
  | _ => none

/-- The value is a string. -/
def IsString (v : Doc) : Prop := ∃ s, v = .string s

/-- The value is a number that is a `SlotId`. -/
def IsSlot (mj : Minijson) (v : Doc) : Prop := ∃ text k, v = .number text ∧ mj.asSlotId text = .ok k

/-- The object has exactly fields in `A`, and all of `required`. -/
def IsObject (A : Bytes × Doc → Prop) (required : List Bytes) (v : Doc) : Prop :=
  ∃ fields, v = .object fields ∧ (∀ f ∈ fields, A f) ∧ ∀ name ∈ required, name ∈ fields.map Prod.fst

/-! ### Metadata -/

/-- An object of strings. -/
def IsMetadata (v : Doc) : Prop := IsObject (fun f => IsString f.2) [] v

/-- The record a field of a metadata object stands for. -/
def recordOf (f : Bytes × Doc) : Bytes × Bytes := (f.1, (string? f.2).getD [])

/-- The records of a metadata object. -/
def recordsOf (v : Doc) : List (Bytes × Bytes) := (fieldsOf v).map recordOf

/-- The records of all metadata objects among the fields of an entry. -/
def allRecords (fields : Fields) : List (Bytes × Bytes) :=
  fields.flatMap fun f => if f.1 = ascii "metadata" then recordsOf f.2 else []

/-- Records are put into a map, which exists from the first on. -/
def addRecords (md : Option Metadata) (records : List (Bytes × Bytes)) : Option Metadata :=
  records.foldl (fun md r => some ((md.getD ∅).insert r.1 r.2)) md

/-- The metadata of an entry. -/
def metadataOf (fields : Fields) : HasMetadata := { m_meta := addRecords none (allRecords fields) }

/-- Records of two objects are stored one after the other. -/
theorem addRecords_append (md : Option Metadata) (rs rs' : List (Bytes × Bytes)) :
    addRecords md (rs ++ rs') = addRecords (addRecords md rs) rs' :=
  List.foldl_append ..

/-- Each record is stored under its key, a later one in place of an earlier one. -/
theorem addRecords_getD (md : Option Metadata) (rs : List (Bytes × Bytes)) :
    (addRecords md rs).getD ∅ = rs.foldl (fun s r => s.insert r.1 r.2) (md.getD ∅) := by
  induction rs generalizing md with
  | nil => rfl
  | cons r rs ih => exact ih (some ((md.getD ∅).insert r.1 r.2))

/-- Of repeated records the last counts. -/
theorem lookup_records_addRecords (records : List (Bytes × Bytes)) (key : Bytes) :
    (HasMetadata.mk (addRecords none records)).records.lookup key = lastOf key records := by
  rw [HasMetadata.records, addRecords_getD, Json.lookup_foldl_insert, Option.getD_none,
    Finmap.lookup_empty, Option.or_none]

/-! ### Nodes -/

/-- The name of a node type. -/
def IsNodeType (v : Doc) : Prop := ∃ type : NodeType, v = .string type.info.name

/-- A field of a node. -/
def NodeField (f : Bytes × Doc) : Prop :=
  f.1 = ascii "type" ∧ IsNodeType f.2 ∨ f.1 = ascii "metadata" ∧ IsMetadata f.2

/-- A `type`, possibly `metadata`, and nothing else. -/
def IsNode (v : Doc) : Prop := IsObject NodeField [ascii "type"] v

/-- The type a value names. -/
def nodeType? (v : Doc) : Option NodeType :=
  (string? v).bind fun s => nodeTypes.find? fun type => type.info.name = s

/-- The type of a node entry. -/
def typeOf (v : Doc) : Option NodeType := (lastOf (ascii "type") (fieldsOf v)).bind nodeType?

/-- The node an entry stands for. -/
def nodeOf (f : Bytes × Doc) : Node :=
  { Node.new ((typeOf f.2).getD .THRU) f.1 with toHasMetadata := metadataOf (fieldsOf f.2) }

/-! ### Sections -/

/-- A field of a link. -/
def LinkField (mj : Minijson) (f : Bytes × Doc) : Prop :=
  (f.1 = ascii "startNode" ∨ f.1 = ascii "endNode") ∧ (f.2 = .null ∨ IsString f.2) ∨
    (f.1 = ascii "startSlot" ∨ f.1 = ascii "endSlot") ∧ (f.2 = .null ∨ IsSlot mj f.2)

/-- The four names, and nothing else. -/
def IsLink (mj : Minijson) (v : Doc) : Prop :=
  IsObject (LinkField mj)
    [ascii "startNode", ascii "startSlot", ascii "endNode", ascii "endSlot"] v

/-- The link an object stands for. -/
def linkFields (mj : Minijson) (fields : Fields) : Link where
  startNode := (lastOf (ascii "startNode") fields).bind string?
  startSlot := (lastOf (ascii "startSlot") fields).bind (slot? mj)
  endNode := (lastOf (ascii "endNode") fields).bind string?
  endSlot := (lastOf (ascii "endSlot") fields).bind (slot? mj)

/-- The name of a direction. -/
def dirName : AllowedTravel → Bytes
  | .NONE => ascii "NONE"
  | .UNIDIR => ascii "UNIDIR"
  | .BIDIR => ascii "BIDIR"

/-- The direction a value names. -/
def dir? (v : Doc) : Option AllowedTravel :=
  (string? v).bind fun s => [AllowedTravel.NONE, .UNIDIR, .BIDIR].find? fun dir => dirName dir = s

/-- A field of a destination. -/
def DestField (f : Bytes × Doc) : Prop :=
  (f.1 = ascii "address" ∨ f.1 = ascii "name") ∧ IsString f.2 ∨
    f.1 = ascii "metadata" ∧ IsMetadata f.2

/-- An `address`, a `name`, possibly `metadata`, and nothing else. -/
def IsDest (v : Doc) : Prop := IsObject DestField [ascii "address", ascii "name"] v

/-- The destination an object stands for. -/
def destOf (v : Doc) : Destination where
  toHasMetadata := metadataOf (fieldsOf v)
  m_address := ((lastOf (ascii "address") (fieldsOf v)).bind string?).getD []
  m_name := ((lastOf (ascii "name") (fieldsOf v)).bind string?).getD []

/-- A field of a section. -/
def SectionField (mj : Minijson) (f : Bytes × Doc) : Prop :=
  f.1 = ascii "link" ∧ IsLink mj f.2 ∨
    f.1 = ascii "dir" ∧ (∃ dir, f.2 = .string (dirName dir)) ∨
      f.1 = ascii "dest" ∧ IsDest f.2 ∨ f.1 = ascii "metadata" ∧ IsMetadata f.2

/-- Possibly `link`, `dir`, `dest` and `metadata`, and nothing else. -/
def IsSection (mj : Minijson) (v : Doc) : Prop := IsObject (SectionField mj) [] v

/-- The link of a section entry; without a `link`, none of its parts has a
value. -/
def linkOf (mj : Minijson) (v : Doc) : Link :=
  (lastOf (ascii "link") (fieldsOf v)).elim {} fun l => linkFields mj (fieldsOf l)

/-- The section an entry stands for, without its link. -/
def sectionOf (f : Bytes × Doc) : Section :=
  { Section.new f.1 (((lastOf (ascii "dir") (fieldsOf f.2)).bind dir?).getD .UNIDIR)
      ((lastOf (ascii "dest") (fieldsOf f.2)).map destOf) with
    toHasMetadata := metadataOf (fieldsOf f.2) }

/-! ### What the values mean -/

/-- A type is given by its name and nothing else. -/
theorem nodeType?_eq_some_iff {v : Doc} {type : NodeType} :
    nodeType? v = some type ↔ v = .string type.info.name := by
  constructor
  · intro h
    cases v with
    | string s =>
        have hname := List.find?_some h
        rw [decide_eq_true_eq] at hname
        rw [hname]
    | null | bool | number | array | object => cases h
  · rintro rfl
    cases type <;> decide

/-- The name of a direction stands for it. -/
theorem dir?_dirName (dir : AllowedTravel) : dir? (.string (dirName dir)) = some dir := by
  cases dir <;> decide

/-- A node entry has a type. -/
theorem IsNode.exists_typeOf {v : Doc} (h : IsNode v) : ∃ type, typeOf v = some type := by
  obtain ⟨fields, rfl, hfields, hrequired⟩ := h
  obtain ⟨t, ht⟩ := Json.exists_lastOf (hrequired _ (List.mem_singleton_self _))
  rcases hfields _ (Json.mem_of_lastOf ht) with ⟨_, type, htype⟩ | ⟨hname, _⟩
  · refine ⟨type, ?_⟩
    rw [typeOf, fieldsOf, ht, Option.bind_some]
    exact nodeType?_eq_some_iff.2 htype
  · exact absurd hname (show ascii "type" ≠ ascii "metadata" by decide)

end PiwcsPrw
