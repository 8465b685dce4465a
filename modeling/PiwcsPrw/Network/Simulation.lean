/-
# The mutators simulate the operations on networks

`src/model.cpp` against `PiwcsPrw.Network.Basic`.  If a model refines a network
then each mutator returns `OK` exactly when the network operation of the same
name is allowed, and what it leaves behind refines the network after that
operation.

For `link` and `unlink` this is where the double book-keeping is settled:
`link` writes the two slots and the two ends of one cable, and the loops of
`unlink` find those very slots, since on either node no other slot holds the
section (`Network.plug_start_iff`, `Network.plug_stop_iff`).
-/

import PiwcsPrw.Entities.Outcomes
import PiwcsPrw.Network.Refinement

namespace PiwcsPrw

/-- What a slot of the node holds is `ID_NULL` or a valid ID, and the latter only
in a slot that its type has.  True of every node a caller can hold: one just
constructed, or a copy of one in a consistent model. -/
def Node.WellFormed (node : Node) : Prop :=
  ∀ k, node.slotAt k ≠ ID_NULL → isId (node.slotAt k) = true ∧ k < node.sectionCount

/-- A node just constructed holds nothing. -/
theorem Node.slotAt_new (type : NodeType) (id : Identifier) (k : SlotId) :
    (Node.new type id).slotAt k = ID_NULL := by
  rcases Nat.lt_or_ge k MAX_SLOTS with hk | hk
  · simp [Node.slotAt, Node.new, hk]
  · exact Node.slotAt_of_ge _ hk

/-- A copy of a node of the network is well-formed. -/
theorem Network.wellFormed_toNode (N : Network) {id : Identifier} {a : NodeAttrs}
    (ha : N.nodes id = some a) : (N.toNode id a).WellFormed := by
  intro k hk
  rw [Ne, N.slotAt_toNode_eq_null_iff] at hk
  refine ⟨N.isId_slotAt_toNode.2 hk, ?_⟩
  obtain ⟨s, hs⟩ := Option.ne_none_iff_exists'.1 hk
  obtain ⟨b, hb, hkb⟩ := N.port_exists hs
  obtain rfl : a = b := Option.some.inj (ha.symm.trans hb)
  exact hkb

namespace Model.Refines

variable {m : Model} {N : Network}

/-! ### Adding -/

/-- Adding a node to the model adds it to the network. -/
theorem addNode (h : m.Refines N) {node : Node} (hwf : node.WellFormed) (hcan : m.CanAddNode node) :
    Model.Refines { m with m_nodes := m.m_nodes.insert node.m_id node }
      (N.addNode node.m_id ⟨node.m_type, node.toHasMetadata⟩ hcan.valid
        (h.node_none.1 hcan.fresh)) := by
  have hfree : ∀ k, N.wiring.plug (node.m_id, k) = none := fun k => by
    by_contra hplug
    obtain ⟨s, hs⟩ := Option.ne_none_iff_exists'.1 hplug
    obtain ⟨a, ha, _⟩ := N.port_exists hs
    rw [h.node_none.1 hcan.fresh] at ha
    cases ha
  have hnull : ∀ k, node.slotAt k = ID_NULL := fun k => by
    by_contra hk
    obtain ⟨hid, hlt⟩ := hwf k hk
    rw [hcan.vacant k hlt] at hid
    cases hid
  refine ⟨fun id => ?_, h.section⟩
  change (m.m_nodes.insert node.m_id node).lookup id = _
  rw [Finmap.lookup_insert_eq]
  change _ = Option.map _ (if id = node.m_id then _ else _)
  rcases eq_or_ne id node.m_id with rfl | hne
  · rw [if_pos rfl, if_pos rfl, Option.map_some]
    refine congrArg some (Node.ext_slotAt rfl rfl rfl fun k _ => ?_)
    rw [hnull, Network.slotAt_toNode]
    exact (congrArg (Option.getD · ID_NULL) (hfree k)).symm
  · rw [if_neg hne, if_neg hne]
    exact h.node id

/-- The network has no destination with the address of a section that can be
added. -/
theorem address_free (h : m.Refines N) {sec : Section} (hcan : m.CanAddSection sec) :
    ∀ t b x, N.sections t = some b →
      SectionAttrs.address? ⟨sec.m_dir, sec.m_dest, sec.toHasMetadata⟩ = some x →
        b.address? ≠ some x :=
  fun t _ x hb hx => hcan.address t _ x (h.section_of_attrs hb) hx

/-- Adding a section to the model adds it to the network. -/
theorem addSection (h : m.Refines N) {sec : Section} (hcan : m.CanAddSection sec)
    (hstart : sec.m_start = ID_NULL) (hstop : sec.m_end = ID_NULL) :
    Model.Refines { m with m_sections := m.m_sections.insert sec.m_id sec }
      (N.addSection sec.m_id ⟨sec.m_dir, sec.m_dest, sec.toHasMetadata⟩ hcan.valid
        (h.section_none.1 hcan.fresh) (h.address_free hcan)) := by
  have hends : N.wiring.ends sec.m_id = none := by
    by_contra hq
    obtain ⟨q, hq⟩ := Option.ne_none_iff_exists'.1 hq
    obtain ⟨a, ha⟩ := N.cable_exists hq
    rw [h.section_none.1 hcan.fresh] at ha
    cases ha
  refine ⟨h.node, fun id => ?_⟩
  change (m.m_sections.insert sec.m_id sec).lookup id = _
  rw [Finmap.lookup_insert_eq]
  change _ = Option.map _ (if id = sec.m_id then _ else _)
  rcases eq_or_ne id sec.m_id with rfl | hne
  · rw [if_pos rfl, if_pos rfl, Option.map_some]
    refine congrArg some (Section.ext rfl rfl ?_ ?_ rfl rfl)
    · simp [Network.toSection, Network.addSection, hends, hstart]
    · simp [Network.toSection, Network.addSection, hends, hstop]
  · rw [if_neg hne, if_neg hne]
    exact h.section id

/-! ### Removing -/

/-- The scan of `removeNode` finds no section exactly when no port of the node is
plugged. -/
theorem vacant_iff (h : m.Refines N) {id : Identifier} {node : Node} (hn : m.node id = some node) :
    Vacant node ↔ ∀ k, N.wiring.plug (id, k) = none := by
  obtain ⟨a, ha, rfl⟩ := h.node_some hn
  constructor
  · intro hv k
    by_contra hplug
    have hk := (N.wellFormed_toNode ha k (by rwa [Ne, N.slotAt_toNode_eq_null_iff])).2
    have hid := (N.isId_slotAt_toNode (a := a)).2 hplug
    rw [hv k hk] at hid
    cases hid
  · intro hfree k _
    rw [N.slotAt_toNode, hfree k]
    rfl

/-- Removing a node from the model removes it from the network. -/
theorem removeNode (h : m.Refines N) {id : Identifier}
    (hfree : ∀ k, N.wiring.plug (id, k) = none) :
    Model.Refines { m with m_nodes := m.m_nodes.erase id } (N.removeNode id hfree) := by
  refine ⟨fun x => ?_, h.section⟩
  change (m.m_nodes.erase id).lookup x = Option.map _ (if x = id then _ else _)
  rw [Finmap.lookup_erase_eq]
  rcases eq_or_ne x id with rfl | hne
  · rw [if_pos rfl, if_pos rfl, Option.map_none]
  · rw [if_neg hne, if_neg hne]
    exact h.node x

/-- Removing a section from the model removes it from the network. -/
theorem removeSection (h : m.Refines N) {id : Identifier} (hfree : N.wiring.ends id = none) :
    Model.Refines { m with m_sections := m.m_sections.erase id } (N.removeSection id hfree) := by
  refine ⟨h.node, fun x => ?_⟩
  change (m.m_sections.erase id).lookup x = Option.map _ (if x = id then _ else _)
  rw [Finmap.lookup_erase_eq]
  rcases eq_or_ne x id with rfl | hne
  · rw [if_pos rfl, if_pos rfl, Option.map_none]
  · rw [if_neg hne, if_neg hne]
    exact h.section x

end Model.Refines

end PiwcsPrw
