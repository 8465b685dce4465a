/-
# Writing a model

`src/io_write.cpp`, function by function.

A writer of minijson is handed fields one after the other; what it was handed is
the tree returned here.  The name of a field is passed as a `const char *`, so it
ends at the first NUL (`cStr`), and a string value is passed whole.

The loops go through hash maps, and what they write is in the order the map
happens to have.  `Orders` gives that order for every map of a model.

The switch of `writeSection` over the direction is `dirName`.  `start` and `end`
of `writeLink` are followed after an `_ASSERT` that they are not null; the two
`_ASSERT`s on the slots change nothing in a release build, and
`PiwcsPrw.Io.Assertions` shows that they hold.
-/

import PiwcsPrw.Io.Document

namespace PiwcsPrw

/-- The orders in which the loops of the writer meet the keys of the maps: the two
of the model, and the metadata of each node, section and destination. -/
structure Orders where
  nodes : List Identifier
  sections : List Identifier
  nodeMetadata : Identifier → List Identifier
  sectionMetadata : Identifier → List Identifier
  destMetadata : Identifier → List Identifier

/-- The orders are such as the maps can have. -/
structure Orders.Visit (orders : Orders) (m : Model) : Prop where
  nodes : Finmap.Visits orders.nodes m.m_nodes
  sections : Finmap.Visits orders.sections m.m_sections
  nodeMetadata : ∀ {id node}, m.node id = some node →
    Finmap.Visits (orders.nodeMetadata id) node.records
  sectionMetadata : ∀ {id sec}, m.section id = some sec →
    Finmap.Visits (orders.sectionMetadata id) sec.records
  destMetadata : ∀ {id sec dest}, m.section id = some sec → sec.m_dest = some dest →
    Finmap.Visits (orders.destMetadata id) dest.records

/-- Every model has orders. -/
theorem exists_orders (m : Model) : ∃ orders : Orders, orders.Visit m := by
  choose order horder using fun s : Metadata => Finmap.exists_visits s
  obtain ⟨nodes, hnodes⟩ := Finmap.exists_visits m.m_nodes
  obtain ⟨sections, hsections⟩ := Finmap.exists_visits m.m_sections
  refine ⟨⟨nodes, sections, fun id => order ((m.node id).elim ∅ fun node => node.records),
    fun id => order ((m.section id).elim ∅ fun sec => sec.records),
    fun id => order ((m.section id).elim ∅ fun sec => sec.m_dest.elim ∅ fun dest => dest.records)⟩,
    hnodes, hsections, ?_, ?_, ?_⟩
  · intro id node hnode
    simpa only [hnode, Option.elim_some] using horder node.records
  · intro id sec hsec
    simpa only [hsec, Option.elim_some] using horder sec.records
  · intro id sec dest hsec hdest
    simpa only [hsec, Option.elim_some, hdest] using horder dest.records

/-- `writeMetadata`. -/
def writeMetadata (order : List Identifier) (obj : HasMetadata) : Fields :=
  if !obj.hasMetadata then []
  else
    [(ascii "metadata",
      .object ((obj.records.walk order).map fun (key, value) => (cStr key, .string value)))]

/-- `writeNode`. -/
def writeNode (order : List Identifier) (node : Node) (id : Bytes) : Bytes × Doc :=
  (cStr id, .object ((ascii "type", .string node.m_type.info.name) ::
    writeMetadata order node.toHasMetadata))

/-- `writeNodes`. -/
def writeNodes (orders : Orders) (model : Model) : Doc :=
  .object ((model.m_nodes.walk orders.nodes).map fun (nodeId, node) =>
    writeNode (orders.nodeMetadata nodeId) node nodeId)

/-- `writeLink`. -/
def writeLink (mj : Minijson) (sec : Section) (model : Model) : Checked Fields := do
  if !sec.isConnected then
    return []
  let start ← Checked.deref (model.node sec.m_start)
  let stop ← Checked.deref (model.node sec.m_end)
  let startSlot ← start.slotOf sec.m_id
  let endSlot ← stop.slotOf sec.m_id
  return [(ascii "link", .object [
    (ascii "startNode", .string sec.m_start),
    (ascii "startSlot", .number (mj.slotText startSlot)),
    (ascii "endNode", .string sec.m_end),
    (ascii "endSlot", .number (mj.slotText endSlot))])]

/-- `writeDestination`. -/
def writeDestination (order : List Identifier) (sec : Section) : Fields :=
  match sec.m_dest with
  | none => []
  | some dest =>
    [(ascii "dest", .object ([
      (ascii "address", .string dest.m_address),
      (ascii "name", .string dest.m_name)] ++ writeMetadata order dest.toHasMetadata))]

/-- `writeSection`. -/
def writeSection (mj : Minijson) (orders : Orders) (sec : Section) (id : Bytes) (model : Model) :
    Checked (Bytes × Doc) := do
  let link ← writeLink mj sec model
  return (cStr id, .object (link ++ [(ascii "dir", .string (dirName sec.m_dir))] ++
    writeDestination (orders.destMetadata id) sec ++
    writeMetadata (orders.sectionMetadata id) sec.toHasMetadata))

/-- `writeSections`. -/
def writeSections (mj : Minijson) (orders : Orders) (model : Model) : Checked Doc := do
  let entries ← (model.m_sections.walk orders.sections).mapM fun (sectionId, sec) =>
    writeSection mj orders sec sectionId model
  return .object entries

/-- `writeModel`. -/
def writeModel (mj : Minijson) (orders : Orders) (model : Model) : Checked Doc := do
  let nodes := writeNodes orders model
  let sections ← writeSections mj orders model
  return .array [nodes, sections]

end PiwcsPrw
