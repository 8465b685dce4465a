/-
# Nodes

`include/piwcsprwmodel/nodes.h`, `src/nodes.cpp` and `src/nodetypeinfo.h`.

A node has one of seven types, and the type's table says how many of the four
entries of `m_slots` exist.  `NodeType` is a pointer to one of seven constants
(`NodeTypeInfo` is incomplete outside the library), so it is an enumeration
here and `NodeType.info` is what the pointer points to.

`Node.section` guards its index by `slot > sectionCount()`, so the index
`sectionCount()` itself reaches the array, where for a `CROSSING` it is out of
bounds.  No caller in the library passes it.

`slotAt` and `put` are the array as a total table, with `ID_NULL` past its end.
Every member function used by the model is read back in these terms
(`section_eq`, `setSlot_eq`, `release_eq`, `slotOf_eq`).
-/

import PiwcsPrw.Entities.Identifier
import PiwcsPrw.Foundation.Checked
import Mathlib.Data.List.FinRange

namespace PiwcsPrw

/-- `Node::MAX_SLOTS`. -/
abbrev MAX_SLOTS : ℕ := 4

/-- `NodeTypeInfo`. -/
structure NodeTypeInfo where
  name : Bytes
  slotCount : ℕ
  allowedRoutes : Vector (Vector Bool MAX_SLOTS) MAX_SLOTS

/-- `NodeType`. -/
inductive NodeType
  | THRU
  | MOTORIZED
  | PASSIVE
  | FIXED
  | MANUAL
  | CROSSING
  | END
  deriving DecidableEq, Repr

/-- The table behind a node type.  Entries the source leaves out are `false`. -/
def NodeType.info : NodeType → NodeTypeInfo
  | .THRU => ⟨ascii "THRU", 2, #v[
      #v[false, true, false, false],
      #v[true, false, false, false],
      #v[false, false, false, false],
      #v[false, false, false, false]]⟩
  | .MOTORIZED => ⟨ascii "MOTORIZED", 3, #v[
      #v[false, true, true, false],
      #v[false, false, false, false],
      #v[false, false, false, false],
      #v[false, false, false, false]]⟩
  | .PASSIVE => ⟨ascii "PASSIVE", 3, #v[
      #v[false, false, false, false],
      #v[true, false, false, false],
      #v[true, false, false, false],
      #v[false, false, false, false]]⟩
  | .FIXED => ⟨ascii "FIXED", 3, #v[
      #v[false, true, false, false],
      #v[false, false, false, false],
      #v[true, false, false, false],
      #v[false, false, false, false]]⟩
  | .MANUAL => ⟨ascii "MANUAL", 3, #v[
      #v[false, true, false, false],
      #v[true, false, false, false],
      #v[false, false, false, false],
      #v[false, false, false, false]]⟩
  | .CROSSING => ⟨ascii "CROSSING", 4, #v[
      #v[false, true, false, false],
      #v[true, false, false, false],
      #v[false, false, false, true],
      #v[false, false, true, false]]⟩
  | .END => ⟨ascii "END", 1, #v[
      #v[false, false, false, false],
      #v[false, false, false, false],
      #v[false, false, false, false],
      #v[false, false, false, false]]⟩

/-- No type has more slots than the array. -/
theorem NodeType.slotCount_le (type : NodeType) : type.info.slotCount ≤ MAX_SLOTS := by
  cases type <;> decide

/-- Every type has a slot. -/
theorem NodeType.slotCount_pos (type : NodeType) : 0 < type.info.slotCount := by
  cases type <;> decide

/-- A type is recognised by its name. -/
theorem NodeType.name_injective : Function.Injective fun type : NodeType => type.info.name := by
  intro a b
  cases a <;> cases b <;> decide

/-- `Node`. -/
@[ext] structure Node extends HasMetadata where
  m_type : NodeType
  m_id : Identifier
  m_slots : Vector Identifier MAX_SLOTS
  deriving DecidableEq

namespace Node

/-- The constructor `Node(NodeType, Identifier)`. -/
def new (type : NodeType) (id : Identifier) : Node where
  m_type := type
  m_id := id
  m_slots := Vector.replicate MAX_SLOTS ID_NULL

/-- `sectionCount()`. -/
def sectionCount (node : Node) : SlotId := node.m_type.info.slotCount

/-- `section(SlotId)`. -/
def «section» (node : Node) (slot : SlotId) : Checked IdRef :=
  if slot > node.sectionCount then .ok ID_INVALID else Checked.read node.m_slots slot

/-- `slotOf(IdRef)`. -/
def slotOf (node : Node) (sectionId : IdRef) : Checked SlotId := do
  let found ← (List.range node.sectionCount).findM? fun i => do
    return (← Checked.read node.m_slots i) == sectionId
  return found.getD SLOT_INVALID

/-- `couldTraverse(SlotId, SlotId)`. -/
def couldTraverse (node : Node) (src dst : SlotId) : Checked Bool := do
  if src ≥ node.sectionCount || dst ≥ node.sectionCount then
    return false
  Checked.read (← Checked.read node.m_type.info.allowedRoutes src) dst

/-- The assignment `node->m_slots[slot] = sectionId` of `Model::link`. -/
def setSlot (node : Node) (slot : SlotId) (sectionId : IdRef) : Checked Node := do
  return { node with m_slots := ← Checked.write node.m_slots slot sectionId }

/-- The loop of `Model::unlink` over the slots of one node: the first that holds
the section, of all four, is set to `ID_NULL`. -/
def release (node : Node) (sectionId : IdRef) : Node :=
  match (List.finRange MAX_SLOTS).find? fun k => node.m_slots[k] == sectionId with
  | some k => { node with m_slots := node.m_slots.set k ID_NULL }
  | none => node

/-! ### The slots as a table -/

/-- What slot `k` holds, `ID_NULL` past the array. -/
def slotAt (node : Node) (k : SlotId) : Identifier := node.m_slots[k]?.getD ID_NULL

/-- Slot `k` is given the value `x`. -/
def put (node : Node) (k : SlotId) (x : Identifier) : Node :=
  { node with m_slots := node.m_slots.setIfInBounds k x }

/-- A slot that is written holds what was written, the others what they held. -/
theorem slotAt_put (node : Node) {k : SlotId} (hk : k < MAX_SLOTS) (x : Identifier) (j : SlotId) :
    (node.put k x).slotAt j = if j = k then x else node.slotAt j := by
  simp only [slotAt, put, Vector.getElem?_setIfInBounds]
  by_cases hj : j = k
  · simp [hj, hk]
  · simp [hj, Ne.symm hj]

/-- Past the array there is nothing. -/
theorem slotAt_of_ge (node : Node) {k : SlotId} (hk : MAX_SLOTS ≤ k) : node.slotAt k = ID_NULL := by
  simp [slotAt, hk]

/-- Within the array it is the element. -/
theorem slotAt_eq_getElem (node : Node) {k : SlotId} (hk : k < MAX_SLOTS) :
    node.slotAt k = node.m_slots[k] := by
  simp [slotAt, hk]

/-- Nodes are equal when their type, ID, metadata and slots are. -/
theorem ext_slotAt {node node' : Node} (htype : node.m_type = node'.m_type)
    (hid : node.m_id = node'.m_id) (hmeta : node.toHasMetadata = node'.toHasMetadata)
    (hslot : ∀ k < MAX_SLOTS, node.slotAt k = node'.slotAt k) : node = node' := by
  have hslots : node.m_slots = node'.m_slots := by
    refine Vector.ext fun k hk => ?_
    rw [← slotAt_eq_getElem node hk, ← slotAt_eq_getElem node' hk, hslot k hk]
  obtain ⟨_, _, _, _⟩ := node
  obtain ⟨_, _, _, _⟩ := node'
  simp_all

/-- No node has more slots than the array. -/
theorem sectionCount_le (node : Node) : node.sectionCount ≤ MAX_SLOTS := node.m_type.slotCount_le

/-- A slot of a node is an entry of the array. -/
theorem lt_maxSlots {node : Node} {k : SlotId} (hk : k < node.sectionCount) : k < MAX_SLOTS :=
  hk.trans_le node.sectionCount_le

/-- Below the slot count, `section` reads the slot. -/
theorem section_eq (node : Node) {k : SlotId} (hk : k < node.sectionCount) :
    node.section k = .ok (node.slotAt k) := by
  have hmax : k < MAX_SLOTS := lt_maxSlots hk
  rw [Node.section, if_neg hk.not_gt, Checked.read, dif_pos hmax, slotAt_eq_getElem node hmax]

/-- Below the slot count, the assignment to a slot is `put`. -/
theorem setSlot_eq (node : Node) {k : SlotId} (hk : k < node.sectionCount) (x : Identifier) :
    node.setSlot k x = .ok (node.put k x) := by
  have hmax : k < MAX_SLOTS := lt_maxSlots hk
  simp [setSlot, put, Checked.write, hmax, Vector.setIfInBounds, Array.setIfInBounds, pure,
    Except.pure, bind, Except.bind]

/-- Writing an entry of the array is `put`. -/
theorem put_eq_set (node : Node) (k : Fin MAX_SLOTS) (x : Identifier) :
    node.put k x = { node with m_slots := node.m_slots.set k x k.isLt } := by
  simp [put, Vector.setIfInBounds, Array.setIfInBounds]

/-- `release` empties the first slot that holds the section. -/
theorem release_find (node : Node) (x : IdRef) : node.release x =
    match (List.finRange MAX_SLOTS).find? fun k => node.m_slots.get k == x with
    | some k => node.put k ID_NULL
    | none => node := by
  change _ = match (List.finRange MAX_SLOTS).find? fun k => node.m_slots[k] == x with
    | some k => node.put k ID_NULL
    | none => node
  rw [release]
  cases (List.finRange MAX_SLOTS).find? fun k => node.m_slots[k] == x with
  | none => rfl
  | some k => exact (node.put_eq_set k ID_NULL).symm

/-- The element is what the slot holds. -/
theorem get_slot (node : Node) (k : Fin MAX_SLOTS) : node.m_slots.get k = node.slotAt k :=
  (slotAt_eq_getElem node k.isLt).symm

/-- A search of the array for a section held by one slot only ends there. -/
theorem find_slot_eq {node : Node} {k : SlotId} {x : Identifier} (hk : k < MAX_SLOTS)
    (hx : ∀ j, node.slotAt j = x ↔ j = k) :
    (List.finRange MAX_SLOTS).find? (fun j => node.m_slots.get j == x) = some ⟨k, hk⟩ := by
  rw [List.find?_eq_some_iff_getElem]
  refine ⟨?_, k, by simpa using hk, by simp, fun j hj => ?_⟩
  · rw [beq_iff_eq, get_slot, hx]
  · have hne := mt (hx j).1 hj.ne
    simpa [get_slot] using hne

/-- A section held by one slot only is released from that slot. -/
theorem release_eq {node : Node} {k : SlotId} {x : Identifier} (hk : k < MAX_SLOTS)
    (hx : ∀ j, node.slotAt j = x ↔ j = k) : node.release x = node.put k ID_NULL := by
  rw [release_find, find_slot_eq hk hx]

/-- A slot that holds something else is not touched. -/
theorem slotAt_release_of_ne {node : Node} {k : SlotId} {x : Identifier} (hx : node.slotAt k ≠ x) :
    (node.release x).slotAt k = node.slotAt k := by
  rw [release_find]
  cases hfind : (List.finRange MAX_SLOTS).find? fun j => node.m_slots.get j == x with
  | none => rfl
  | some j =>
      have hj : node.slotAt j = x := by simpa [get_slot] using List.find?_some hfind
      have hne : k ≠ j := by
        rintro rfl
        exact hx hj
      rw [slotAt_put node j.isLt, if_neg hne]

/-- `slotOf` searches the slots below the slot count, all of them in the array. -/
theorem slotOf_find (node : Node) (x : IdRef) : node.slotOf x
    = .ok (((List.range node.sectionCount).find? fun i => node.slotAt i == x).getD
      SLOT_INVALID) := by
  have hread : ∀ i ∈ List.range node.sectionCount,
      (do return (← Checked.read node.m_slots i) == x : Checked Bool)
        = .ok (node.slotAt i == x) := by
    intro i hi
    have hmax : i < MAX_SLOTS := lt_maxSlots (List.mem_range.1 hi)
    simp [Checked.read, hmax, slotAt_eq_getElem, pure, Except.pure, bind, Except.bind]
  rw [slotOf, Checked.findM?_ok hread]
  rfl

/-- A section held by one slot only, below the slot count, is found there. -/
theorem slotOf_eq {node : Node} {k : SlotId} {x : Identifier} (hk : k < node.sectionCount)
    (hx : ∀ j, node.slotAt j = x ↔ j = k) : node.slotOf x = .ok k := by
  have hfind : (List.range node.sectionCount).find? (fun i => node.slotAt i == x) = some k := by
    rw [List.find?_eq_some_iff_getElem]
    refine ⟨by simp [hx], k, by simpa using hk, by simp, fun j hj => ?_⟩
    simp [hx, hj.ne]
  rw [slotOf_find, hfind]
  rfl

/-- Past the slot count there is nothing to traverse. -/
theorem couldTraverse_eq_false {node : Node} {src dst : SlotId}
    (h : node.sectionCount ≤ src ∨ node.sectionCount ≤ dst) :
    node.couldTraverse src dst = .ok false := by
  simp [couldTraverse, h, pure, Except.pure]

/-- The routes are looked up inside the table. -/
theorem exists_couldTraverse_eq (node : Node) (src dst : SlotId) :
    ∃ b, node.couldTraverse src dst = .ok b := by
  by_cases hout : node.sectionCount ≤ src ∨ node.sectionCount ≤ dst
  · exact ⟨false, couldTraverse_eq_false hout⟩
  · push Not at hout
    have hsrc : src < MAX_SLOTS := lt_maxSlots hout.1
    have hdst : dst < MAX_SLOTS := lt_maxSlots hout.2
    refine ⟨(node.m_type.info.allowedRoutes[src])[dst], ?_⟩
    simp [couldTraverse, hout.1.not_ge, hout.2.not_ge, Checked.read, hsrc, hdst, bind, Except.bind]

end Node

end PiwcsPrw
