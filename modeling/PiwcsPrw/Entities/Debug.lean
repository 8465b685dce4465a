/-
# The debug build

`src/debug.h` and the statements that `_DEBUG_ONLY`, `_ASSERT` and `_FAIL` put
into `src/model.cpp`, `src/section.cpp` and `src/nodes.cpp` when `NDEBUG` is not
defined.  Each function that has such statements is translated a second time,
with them.

`_ASSERT(test, msg)` is `assert(((void) msg, test))`, which ends the program when
the test fails.  `_FAIL(msg)` is `_ASSERT(msg, false)`: here the message stands
where the test is expected.  It is a string literal, so it passes for true, and
a `_FAIL` that is reached leaves no trace.  `Asserting.fail` notes that it was
reached.

The guard of the first `_FAIL` of `unlink` asks for `section->end() != ID_NULL`,
while its message speaks of an end that is `ID_NULL`.

The flag `found` of `unlink` is declared without a value and set to `true` by the
loop over the slots; the `_ASSERT` after the loop reads it either way.
-/

import PiwcsPrw.Entities.Calls
import PiwcsPrw.Foundation.Asserting

namespace PiwcsPrw

/-- A computation of a debug build. -/
abbrev Debug := Asserting Bytes

/-- `couldTraverse(SlotId, SlotId)` of a node. -/
def Node.couldTraverseDebug (node : Node) (src dst : SlotId) : Debug Bool := do
  if src ≥ node.sectionCount || dst ≥ node.sectionCount then
    return false
  Asserting.assert (src < MAX_SLOTS) (ascii "slotCount >= MAX_SLOTS")
  Asserting.assert (dst < MAX_SLOTS) (ascii "slotCount >= MAX_SLOTS")
  Checked.read (← Checked.read node.m_type.info.allowedRoutes src) dst

/-- The loop of `Model::unlink` over the slots of one node: the node after it, and
the flag `found`. -/
def Node.releaseDebug (node : Node) (sectionId : IdRef) : Node × Option Bool :=
  match (List.finRange MAX_SLOTS).find? fun k => node.m_slots.get k == sectionId with
  | some k => ({ node with m_slots := node.m_slots.set k ID_NULL k.isLt }, some true)
  | none => (node, none)

/-- The cases of the switch in `Section::canTraverse`, and what each returns. -/
def Section.travelCases (src dst : SlotId) : List (AllowedTravel × Bool) :=
  [(.NONE, false),
    (.UNIDIR, src == 0 && dst == 1),
    (.BIDIR, (src == 0 && dst == 1) || (src == 1 && dst == 0))]

/-- `canTraverse(SlotId, SlotId)` of a section. -/
def Section.canTraverse (sec : Section) (src dst : SlotId) : Debug Bool :=
  match (travelCases src dst).lookup sec.m_dir with
  | some answer => return answer
  | none => do
    Asserting.fail (ascii "Unhandled AllowedTravel case")
    return false

namespace Model

/-- `link`. -/
def linkDebug (m : Model) (sectionId startNodeId : IdRef) (startSlot : SlotId) (endNodeId : IdRef)
    (endSlot : SlotId) : Debug (LinkResult × Model) := do
  match m.section sectionId, m.node startNodeId, m.node endNodeId with
  | some sec, some start, some stop =>
    if startSlot ≥ start.sectionCount || endSlot ≥ stop.sectionCount then
      return (.NOT_FOUND, m)
    if startNodeId == endNodeId then
      return (.SAME_NODE, m)
    if (← start.section startSlot) != ID_NULL then
      return (.NODE_OCCUPIED, m)
    if (← stop.section endSlot) != ID_NULL then
      return (.NODE_OCCUPIED, m)
    if sec.isConnected then
      return (.SECTION_OCCUPIED, m)
    if sec.m_end != ID_NULL then
      Asserting.fail (ascii "section->start() == ID_NULL, section->end() != ID_NULL")
    let start ← start.setSlot startSlot sectionId
    let stop ← stop.setSlot endSlot sectionId
    let sec := { sec with m_start := startNodeId, m_end := endNodeId }
    return (.OK, ⟨(m.m_nodes.insert startNodeId start).insert endNodeId stop,
      m.m_sections.insert sectionId sec⟩)
  | _, _, _ => return (.NOT_FOUND, m)

/-- `unlink`. -/
def unlinkDebug (m : Model) (sectionId : IdRef) : Debug (UnlinkResult × Model) := do
  match m.section sectionId with
  | none => return (.NOT_FOUND, m)
  | some sec =>
    if !sec.isConnected then
      return (.NOT_LINKED, m)
    if sec.m_end != ID_NULL then
      Asserting.fail (ascii "section->start() != ID_NULL, section->end() == ID_NULL")
    if sec.m_start == sec.m_end then
      Asserting.fail (ascii "section->start() == section->end()")
    Asserting.assert (m.node sec.m_start).isSome (ascii "start node not found")
    Asserting.assert (m.node sec.m_end).isSome (ascii "end node not found")
    let nodes ← [sec.m_start, sec.m_end].foldlM (fun nodes id => do
      let node ← Checked.deref (nodes.lookup id)
      let (node, found) := node.releaseDebug sectionId
      Asserting.assert (← Asserting.readFlag found)
        (ascii "node did not connect to unlinked section")
      return nodes.insert id node) m.m_nodes
    let sec := { sec with m_start := ID_NULL, m_end := ID_NULL }
    return (.OK, ⟨nodes, m.m_sections.insert sectionId sec⟩)

end Model

/-- A call as a debug build makes it. -/
def Op.callDebug : Op → Model → Debug (Bool × Model)
  | .link s a i b j, m => do
      let (r, m) ← m.linkDebug s a i b j
      return (r == .OK, m)
  | .unlink s, m => do
      let (r, m) ← m.unlinkDebug s
      return (r == .OK, m)
  | op, m => op.call m

/-- A call on a model, or on a section of one. -/
inductive DebugCall
  | mutate (op : Op)
  | canTraverse (sectionId : IdRef) (src dst : SlotId)

namespace DebugCall

/-- The model after the call. -/
def run : DebugCall → Model → Debug Model
  | mutate op, m => do
      let (_, m) ← op.callDebug m
      return m
  | canTraverse sectionId src dst, m =>
      match m.section sectionId with
      | none => return m
      | some sec => do
        let _ ← sec.canTraverse src dst
        return m

/-- One call after the other. -/
def runAll : List DebugCall → Model → Debug Model
  | [], m => return m
  | c :: cs, m => do
      let m ← c.run m
      runAll cs m

end DebugCall

/-! ### The statements that never show -/

/-- The flag is set when the loop found a slot, and then the loop is that of the
release build. -/
theorem Node.releaseDebug_eq {node : Node} {k : SlotId} {x : Identifier} (hk : k < MAX_SLOTS)
    (hx : node.slotAt k = x) : node.releaseDebug x = (node.release x, some true) := by
  have hsome : ((List.finRange MAX_SLOTS).find? fun j => node.m_slots.get j == x).isSome := by
    rw [List.find?_isSome]
    exact ⟨⟨k, hk⟩, List.mem_finRange _, beq_iff_eq.2 ((node.get_slot ⟨k, hk⟩).trans hx)⟩
  obtain ⟨j, hj⟩ := Option.isSome_iff_exists.1 hsome
  rw [releaseDebug, release_find, hj]
  simp only [put_eq_set]

/-- **No travel direction is left out of the switch**: `canTraverse` returns from one
of its cases. -/
theorem Section.exists_canTraverse_eq (sec : Section) (src dst : SlotId) :
    ∃ answer, sec.canTraverse src dst = pure answer := by
  have hcase : ∃ answer, (travelCases src dst).lookup sec.m_dir = some answer := by
    cases sec.m_dir <;> exact ⟨_, rfl⟩
  obtain ⟨answer, hanswer⟩ := hcase
  exact ⟨answer, by rw [canTraverse, hanswer]⟩

/-- **The assertions of `couldTraverse` hold**: no type has more slots than the
table has rows. -/
theorem Node.couldTraverseDebug_eq (node : Node) (src dst : SlotId) :
    node.couldTraverseDebug src dst = Asserting.lift (node.couldTraverse src dst) := by
  by_cases hout : (src ≥ node.sectionCount || dst ≥ node.sectionCount) = true
  · simp only [couldTraverseDebug, couldTraverse, hout]
    rfl
  · have hin : src < node.sectionCount ∧ dst < node.sectionCount := by simpa using hout
    have hsrc : src < MAX_SLOTS := lt_maxSlots hin.1
    have hdst : dst < MAX_SLOTS := lt_maxSlots hin.2
    simp only [couldTraverseDebug, couldTraverse, hout, hsrc, hdst, decide_true,
      Asserting.assert_true, pure_bind]
    exact (Asserting.lift_bind _ _).symm

end PiwcsPrw
