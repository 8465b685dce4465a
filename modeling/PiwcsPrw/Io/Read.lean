/-
# Reading a model

`src/io_read.cpp`, function by function.

Reading is one pass over the document.  Each entry of its first part is read into
a `NodeData` and added, each entry of its second part into a `SectionData`,
added, and linked if it said so; the first thing that goes wrong ends the
reading with an exception.

The optionals of `Link` are followed with `*` after a test of the first of them
only, so `parseSection` can leave defined behaviour: `Checked.value` records
that.  The views into the input that `Link` and `DestData` keep are of buffers
that live as long as the reader's context; they are values here.
-/

import PiwcsPrw.Entities.Model
import PiwcsPrw.Io.Minijson

namespace PiwcsPrw

/-- `throw InvalidFormatError(what)`. -/
def invalidFormat {α : Type} (what : Bytes) : Reading α :=
  .error (.thrown (.InvalidFormatError what))

/-- `throw IllegalModelError(what)`. -/
def illegalModel {α : Type} (what : Bytes) : Reading α :=
  .error (.thrown (.IllegalModelError what))

/-- A required handler. -/
def handler {T : Type} (name : Bytes) (run : T → Doc → Reading T) : Json.Handler Bytes T Stop :=
  ⟨name, true, run⟩

/-- An optional handler. -/
def optional_handler {T : Type} (name : Bytes) (run : T → Doc → Reading T) :
    Json.Handler Bytes T Stop :=
  ⟨name, false, run⟩

/-! ### Metadata -/

/-- `MetadataData`. -/
structure MetadataData where
  metadata : Option Metadata := none

/-- `parseMetadata`. -/
def parseMetadata (mj : Minijson) (md : MetadataData) : Doc → Reading MetadataData
  | .object fields => fields.foldlM (fun md (key, v) => do
      let value ← Minijson.asString v
      return { metadata := some ((md.metadata.getD ∅).insert key value) }) md
  | _ => .error (mj.raise .notAnObject)

/-- `installMetadata`. -/
def installMetadata (target : HasMetadata) (source : MetadataData) : HasMetadata :=
  match source.metadata with
  | some metadata => { m_meta := some metadata }
  | none => target

/-! ### Nodes -/

/-- `NodeData`; no type is the null pointer. -/
structure NodeData extends MetadataData where
  type : Option NodeType := none

/-- The types `parseNodeType` tries, in its order. -/
def nodeTypes : List NodeType := [.THRU, .MOTORIZED, .PASSIVE, .FIXED, .MANUAL, .CROSSING, .END]

/-- `parseNodeType`. -/
def parseNodeType (nd : NodeData) (v : Doc) : Reading NodeData := do
  let declar ← Minijson.asString v
  match nodeTypes.find? fun type => type.info.name = declar with
  | some type => return { nd with type := some type }
  | none => invalidFormat (ascii "unknown node \"type\"")

/-- `nodeDispatcher`. -/
def nodeDispatcher (mj : Minijson) : List (Json.Handler Bytes NodeData Stop) :=
  [handler (ascii "type") parseNodeType,
    optional_handler (ascii "metadata") fun nd v => do
      return { nd with toMetadataData := ← parseMetadata mj nd.toMetadataData v }]

/-- `parseNode`. -/
def parseNode (mj : Minijson) (model : Model) (nodeId : Identifier) (v : Doc) : Reading Model := do
  let data ← Json.dispatch mj.raise (nodeDispatcher mj) {} v
  let type ← orFault (Checked.deref data.type)
  let node := Node.new type nodeId
  let node := { node with toHasMetadata := installMetadata node.toHasMetadata data.toMetadataData }
  let (r, model) ← orFault (model.addNode node)
  if r != .OK then
    illegalModel (ascii "duplicate node ID")
  else
    return model

/-! ### Sections -/

/-- `Link`. -/
structure Link where
  startNode : Option Bytes := none
  startSlot : Option SlotId := none
  endNode : Option Bytes := none
  endSlot : Option SlotId := none
  deriving DecidableEq

/-- `DestData`. -/
structure DestData extends MetadataData where
  address : Bytes := []
  name : Bytes := []

/-- `SectionData`. -/
structure SectionData extends MetadataData where
  link : Link := {}
  dir : AllowedTravel := .UNIDIR
  dest : Option Destination := none

/-- `linkDispatcher`. -/
def linkDispatcher (mj : Minijson) : List (Json.Handler Bytes Link Stop) :=
  [handler (ascii "startNode") fun l v => do
      return { l with startNode := ← Minijson.asOptional Minijson.asString v },
    handler (ascii "startSlot") fun l v => do
      return { l with startSlot := ← Minijson.asOptional mj.asSize v },
    handler (ascii "endNode") fun l v => do
      return { l with endNode := ← Minijson.asOptional Minijson.asString v },
    handler (ascii "endSlot") fun l v => do
      return { l with endSlot := ← Minijson.asOptional mj.asSize v }]

/-- `parseLink`. -/
def parseLink (mj : Minijson) (s : SectionData) (v : Doc) : Reading SectionData := do
  return { s with link := ← Json.dispatch mj.raise (linkDispatcher mj) s.link v }

/-- `destDispatcher`. -/
def destDispatcher (mj : Minijson) : List (Json.Handler Bytes DestData Stop) :=
  [handler (ascii "address") fun d v => do return { d with address := ← Minijson.asString v },
    handler (ascii "name") fun d v => do return { d with name := ← Minijson.asString v },
    optional_handler (ascii "metadata") fun d v => do
      return { d with toMetadataData := ← parseMetadata mj d.toMetadataData v }]

/-- `parseDest`. -/
def parseDest (mj : Minijson) (s : SectionData) (v : Doc) : Reading SectionData := do
  let data ← Json.dispatch mj.raise (destDispatcher mj) {} v
  let d := Destination.new data.address data.name
  let d := { d with toHasMetadata := installMetadata d.toHasMetadata data.toMetadataData }
  return { s with dest := some d }

/-- `value_as<Section::AllowedTravel>`. -/
def asAllowedTravel : Doc → Reading AllowedTravel
  | .string raw =>
      if raw = ascii "NONE" then .ok .NONE
      else if raw = ascii "UNIDIR" then .ok .UNIDIR
      else if raw = ascii "BIDIR" then .ok .BIDIR
      else invalidFormat (ascii "unknown directionality")
  | _ => invalidFormat (ascii "could not convert JSON value to Section::AllowedTravel")

/-- `sectionDispatcher`. -/
def sectionDispatcher (mj : Minijson) : List (Json.Handler Bytes SectionData Stop) :=
  [optional_handler (ascii "link") (parseLink mj),
    optional_handler (ascii "dir") fun s v => do return { s with dir := ← asAllowedTravel v },
    optional_handler (ascii "dest") (parseDest mj),
    optional_handler (ascii "metadata") fun s v => do
      return { s with toMetadataData := ← parseMetadata mj s.toMetadataData v }]

/-- `parseSection`. -/
def parseSection (mj : Minijson) (model : Model) (sectionId : Identifier) (v : Doc) :
    Reading Model := do
  let data ← Json.dispatch mj.raise (sectionDispatcher mj) {} v
  let sec := Section.new sectionId data.dir data.dest
  let sec := { sec with toHasMetadata := installMetadata sec.toHasMetadata data.toMetadataData }
  let (r, model) := model.addSection sec
  if r != .OK then
    illegalModel (ascii "duplicate section ID or destination address")
  else
    match data.link.startNode with
    | none => return model
    | some startNode =>
        let startSlot ← orFault (Checked.value data.link.startSlot)
        let endNode ← orFault (Checked.value data.link.endNode)
        let endSlot ← orFault (Checked.value data.link.endSlot)
        let (r, model) ← orFault (model.link sectionId startNode startSlot endNode endSlot)
        if r != .OK then
          illegalModel (ascii "linkage inconsistency found")
        else
          return model

/-! ### The document -/

/-- `minijson::parse_object`, one entry of the model after the other. -/
def parseEntries (mj : Minijson) (parse : Model → Identifier → Doc → Reading Model)
    (model : Model) : Doc → Reading Model
  | .object fields => fields.foldlM (fun model (name, v) => parse model name v) model
  | _ => .error (mj.raise .notAnObject)

/-- One element of the main array; `part` counts them. -/
def parsePart (mj : Minijson) (state : ℕ × Model) (item : Doc) : Reading (ℕ × Model) :=
  match state with
  | (0, model) => do return (1, ← parseEntries mj (parseNode mj) model item)
  | (1, model) => do return (2, ← parseEntries mj (parseSection mj) model item)
  | _ => invalidFormat (ascii "unused data in main array found")

/-- `parseMain`. -/
def parseMain (mj : Minijson) : Doc → Reading Model
  | .array items => do
      let (part, model) ← items.foldlM (parsePart mj) (0, .empty)
      if part = 0 then
        invalidFormat (ascii "main array is empty")
      else if part = 1 then
        invalidFormat (ascii "section data not found")
      else
        return model
  | _ => .error (mj.raise .notAnObject)

/-- `wrap_exception`. -/
def wrap_exception (lhs rhs : Bytes) : Exn := .InvalidFormatError (lhs ++ ascii ": " ++ rhs)

/-- The catch clauses of `readModel`. -/
def rethrow : Exn → Exn
  | .parse_error what => wrap_exception (ascii "JSON parse error") what
  | .bad_value_cast => .InvalidFormatError (ascii "type mismatch")
  | .unhandled_field_error name => wrap_exception (ascii "unused field found") name
  | .missing_field_error name => wrap_exception (ascii "field not found") name
  | e => e

/-- `readModel`, on the tree of its input. -/
def readModel (mj : Minijson) (doc : Doc) : Reading Model :=
  match parseMain mj doc with
  | .error (.thrown e) => .error (.thrown (rethrow e))
  | r => r

end PiwcsPrw
