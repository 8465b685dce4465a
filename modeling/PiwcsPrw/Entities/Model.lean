/-
# The model and its mutators

`include/piwcsprwmodel/model.h` and `src/model.cpp`.

Each mutator returns its result and the model it leaves behind.  A pointer into
one of the maps is the key it was found under: writing through it replaces the
entry at that key, and `start == end` compares the two keys.

This is the release build: the statements under `_DEBUG_ONLY` are left out, and
where an `_ASSERT` would abort a debug build there is the null dereference it
announces.  The flag `found` of `unlink` exists in debug builds only, and a release
build goes on when no slot matched, as `Node.release` does.
`PiwcsPrw.Entities.Debug` is the debug build.
-/

import PiwcsPrw.Entities.Node
import PiwcsPrw.Entities.Section

namespace PiwcsPrw

/-- `Model`. -/
@[ext] structure Model where
  m_nodes : IdMap Node
  m_sections : IdMap Section
  deriving DecidableEq

/-- `Model::AddResult`. -/
inductive AddResult
  | OK
  | BAD_ID
  | DUPLICATE
  | HAS_REF
  deriving DecidableEq, Repr

/-- `Model::RemoveResult`. -/
inductive RemoveResult
  | OK
  | NOT_FOUND
  | REFERENCED
  deriving DecidableEq, Repr

/-- `Model::LinkResult`. -/
inductive LinkResult
  | OK
  | NOT_FOUND
  | NODE_OCCUPIED
  | SECTION_OCCUPIED
  | SAME_NODE
  deriving DecidableEq, Repr

/-- `Model::UnlinkResult`. -/
inductive UnlinkResult
  | OK
  | NOT_FOUND
  | NOT_LINKED
  deriving DecidableEq, Repr

namespace Model

/-- The model without entities. -/
def empty : Model := ⟨∅, ∅⟩

/-- `node(IdRef)`. -/
def node (m : Model) (id : IdRef) : Option Node := m.m_nodes.lookup id

/-- `section(IdRef)`. -/
def «section» (m : Model) (id : IdRef) : Option Section := m.m_sections.lookup id

/-- The map of nodes has the keys that `node` finds. -/
theorem exists_node_iff {m : Model} {id : IdRef} :
    (∃ node, m.node id = some node) ↔ id ∈ m.m_nodes := by
  rw [Finmap.mem_iff]
  rfl

/-- The map of sections has the keys that `section` finds. -/
theorem exists_section_iff {m : Model} {id : IdRef} :
    (∃ sec, m.section id = some sec) ↔ id ∈ m.m_sections := by
  rw [Finmap.mem_iff]
  rfl

/-- The loop of `addNode` and of `removeNode`: some slot of the node holds the
ID of a section. -/
def hasSections (node : Node) : Checked Bool :=
  (List.range node.sectionCount).anyM fun i => do return isId (← node.section i)

/-- `addNode`. -/
def addNode (m : Model) (node : Node) : Checked (AddResult × Model) := do
  if !isId node.m_id then
    return (.BAD_ID, m)
  if (m.node node.m_id).isSome then
    return (.DUPLICATE, m)
  if ← hasSections node then
    return (.HAS_REF, m)
  return (.OK, { m with m_nodes := m.m_nodes.insert node.m_id node })

/-- The scan of `addSection` for a destination with the address of `sec`.
It returns at the first, so the order of the scan does not show. -/
def addressTaken (m : Model) (sec : Section) : Bool :=
  match sec.m_dest with
  | none => false
  | some dest => m.m_sections.any fun _ other =>
      match other.m_dest with
      | none => false
      | some otherDest => otherDest.m_address == dest.m_address

/-- `addSection`. -/
def addSection (m : Model) (sec : Section) : AddResult × Model :=
  if !isId sec.m_id then
    (.BAD_ID, m)
  else if (m.section sec.m_id).isSome then
    (.DUPLICATE, m)
  else if m.addressTaken sec then
    (.DUPLICATE, m)
  else if isId sec.m_start || isId sec.m_end then
    (.HAS_REF, m)
  else
    (.OK, { m with m_sections := m.m_sections.insert sec.m_id sec })

/-- `removeNode`. -/
def removeNode (m : Model) (id : IdRef) : Checked (RemoveResult × Model) := do
  match m.node id with
  | none => return (.NOT_FOUND, m)
  | some node =>
    if ← hasSections node then
      return (.REFERENCED, m)
    return (.OK, { m with m_nodes := m.m_nodes.erase id })

/-- `removeSection`. -/
def removeSection (m : Model) (id : IdRef) : RemoveResult × Model :=
  match m.section id with
  | none => (.NOT_FOUND, m)
  | some sec =>
    if isId sec.m_start || isId sec.m_end then
      (.REFERENCED, m)
    else
      (.OK, { m with m_sections := m.m_sections.erase id })

/-- `link`. -/
def link (m : Model) (sectionId startNodeId : IdRef) (startSlot : SlotId) (endNodeId : IdRef)
    (endSlot : SlotId) : Checked (LinkResult × Model) := do
  match m.section sectionId, m.node startNodeId, m.node endNodeId with
  | some sec, some start, some stop =>
    if startSlot ≥ start.sectionCount || endSlot ≥ stop.sectionCount then
      return (.NOT_FOUND, m)
    if startNodeId == endNodeId then
      return (.SAME_NODE, m)
    if (← start.section startSlot) != ID_NULL then
      return (.NODE_OCCUPIED, m)
    if (← stop.section endSlot) != ID_NULL then
      return (.NODE_OCCUPIED, m)
    if sec.isConnected then
      return (.SECTION_OCCUPIED, m)
    let start ← start.setSlot startSlot sectionId
    let stop ← stop.setSlot endSlot sectionId
    let sec := { sec with m_start := startNodeId, m_end := endNodeId }
    return (.OK, ⟨(m.m_nodes.insert startNodeId start).insert endNodeId stop,
      m.m_sections.insert sectionId sec⟩)
  | _, _, _ => return (.NOT_FOUND, m)

/-- `unlink`. -/
def unlink (m : Model) (sectionId : IdRef) : Checked (UnlinkResult × Model) := do
  match m.section sectionId with
  | none => return (.NOT_FOUND, m)
  | some sec =>
    if !sec.isConnected then
      return (.NOT_LINKED, m)
    let nodes ← [sec.m_start, sec.m_end].foldlM (fun nodes id => do
      let node ← Checked.deref (nodes.lookup id)
      return nodes.insert id (node.release sectionId)) m.m_nodes
    let sec := { sec with m_start := ID_NULL, m_end := ID_NULL }
    return (.OK, ⟨nodes, m.m_sections.insert sectionId sec⟩)

/-- An edit of the metadata of a node, through the pointer `node(id)`. -/
def setNodeMetadata (m : Model) (id : IdRef) (edited : HasMetadata) : Model :=
  match m.node id with
  | none => m
  | some node => { m with m_nodes := m.m_nodes.insert id { node with toHasMetadata := edited } }

/-- An edit of the metadata of a section, through the pointer `section(id)`. -/
def setSectionMetadata (m : Model) (id : IdRef) (edited : HasMetadata) : Model :=
  match m.section id with
  | none => m
  | some sec =>
    { m with m_sections := m.m_sections.insert id { sec with toHasMetadata := edited } }

end Model

end PiwcsPrw
