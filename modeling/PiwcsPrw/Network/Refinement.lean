/-
# A model as the image of a network

Given a network, the node `id` of the model that describes it is determined: its
type and metadata are those of the network, and slot `k` holds the section
plugged into the port `(id, k)` or `ID_NULL` (`Network.toNode`).  So is every
section (`Network.toSection`).  `Model.Refines m N` says that the entries of `m`
are these and there are no others.  It follows that a network has at most one
model (`Refines.unique`), which is how two models are shown equal in the files
that use it.
-/

import PiwcsPrw.Network.Basic

namespace PiwcsPrw

namespace Network

/-- The node `id` of the model, given what it is apart from its connections. -/
def toNode (N : Network) (id : Identifier) (a : NodeAttrs) : Node where
  toHasMetadata := a.data
  m_type := a.type
  m_id := id
  m_slots := Vector.ofFn fun k => (N.wiring.plug (id, k)).getD ID_NULL

/-- The section `id` of the model, given what it is apart from its connections. -/
def toSection (N : Network) (id : Identifier) (a : SectionAttrs) : Section where
  toHasMetadata := a.data
  m_id := id
  m_start := (N.wiring.ends id).elim ID_NULL fun q => q.1.1
  m_end := (N.wiring.ends id).elim ID_NULL fun q => q.2.1
  m_dir := a.dir
  m_dest := a.dest

/-- The node of the network has its type. -/
@[simp] theorem toNode_type (N : Network) (id : Identifier) (a : NodeAttrs) :
    (N.toNode id a).m_type = a.type := rfl

/-- Slot `k` of the node holds what is plugged there. -/
theorem slotAt_toNode (N : Network) (id : Identifier) (a : NodeAttrs) (k : SlotId) :
    (N.toNode id a).slotAt k = (N.wiring.plug (id, k)).getD ID_NULL := by
  by_cases hk : k < MAX_SLOTS
  · simp [Node.slotAt, toNode, hk]
  · -- Past the array nothing is plugged, since no node has that many slots.
    rw [Node.slotAt_of_ge _ (Nat.le_of_not_lt hk)]
    cases hp : N.wiring.plug (id, k) with
    | none => rfl
    | some s =>
        have hport : N.HasPort (id, k) := N.port_exists hp
        exact absurd hport.lt_maxSlots hk

/-- A slot holds the section `s` exactly when `s` is plugged there. -/
theorem slotAt_toNode_eq_iff (N : Network) {id : Identifier} {a : NodeAttrs} {k : SlotId}
    {s : Identifier} (hs : s ≠ ID_NULL) :
    (N.toNode id a).slotAt k = s ↔ N.wiring.plug (id, k) = some s := by
  rw [slotAt_toNode]
  cases N.wiring.plug (id, k) with
  | none => simpa using Ne.symm hs
  | some t => simp

/-- A slot is empty exactly when nothing is plugged there. -/
theorem slotAt_toNode_eq_null_iff (N : Network) {id : Identifier} {a : NodeAttrs} {k : SlotId} :
    (N.toNode id a).slotAt k = ID_NULL ↔ N.wiring.plug (id, k) = none := by
  rw [slotAt_toNode]
  cases h : N.wiring.plug (id, k) with
  | none => simp
  | some t => simpa using ne_null_of_isId (N.isId_of_plug h)

/-- What a slot holds is an ID exactly when something is plugged there. -/
theorem isId_slotAt_toNode (N : Network) {id : Identifier} {a : NodeAttrs} {k : SlotId} :
    isId ((N.toNode id a).slotAt k) = true ↔ N.wiring.plug (id, k) ≠ none := by
  rw [slotAt_toNode]
  cases h : N.wiring.plug (id, k) with
  | none => simp
  | some t => simpa using N.isId_of_plug h

/-- The nodes at the ends of a connected section have valid IDs. -/
theorem isId_ends (N : Network) {s : Identifier} {q : Port × Port} (h : N.wiring.ends s = some q) :
    isId q.1.1 = true ∧ isId q.2.1 = true := by
  obtain ⟨⟨_, ha, _⟩, ⟨_, hb, _⟩⟩ := N.hasPort_of_ends h
  exact ⟨N.isId_node ha, N.isId_node hb⟩

/-- The section is connected in the model exactly when it is in the network. -/
theorem isConnected_toSection (N : Network) (id : Identifier) (a : SectionAttrs) :
    (N.toSection id a).isConnected = (N.wiring.ends id).isSome := by
  cases h : N.wiring.ends id with
  | none => simp [toSection, Section.isConnected, h]
  | some q => simpa [toSection, Section.isConnected, h] using ne_null_of_isId (N.isId_ends h).1

/-- The same for the test the removals make. -/
theorem isId_toSection (N : Network) (id : Identifier) (a : SectionAttrs) :
    (isId (N.toSection id a).m_start || isId (N.toSection id a).m_end)
      = (N.wiring.ends id).isSome := by
  cases h : N.wiring.ends id with
  | none => simp [toSection, h]
  | some q => simp [toSection, h, (N.isId_ends h).1]

end Network

/-- The model `m` has the entries the network `N` prescribes, and no others. -/
structure Model.Refines (m : Model) (N : Network) : Prop where
  node : ∀ id, m.node id = (N.nodes id).map (N.toNode id)
  «section» : ∀ id, m.section id = (N.sections id).map (N.toSection id)

namespace Model.Refines

variable {m m' : Model} {N : Network}

/-- The empty model is one of the empty network. -/
theorem empty : Model.empty.Refines .empty where
  node _ := rfl
  «section» _ := rfl

/-- **A network has one model.** -/
theorem unique (h : m.Refines N) (h' : m'.Refines N) : m = m' :=
  Model.ext (Finmap.ext_lookup fun id => (h.node id).trans (h'.node id).symm)
    (Finmap.ext_lookup fun id => (h.section id).trans (h'.section id).symm)

/-- A node of the model is one of the network. -/
theorem node_some (h : m.Refines N) {id : Identifier} {n : Node} (hn : m.node id = some n) :
    ∃ a, N.nodes id = some a ∧ n = N.toNode id a := by
  rw [h.node, Option.map_eq_some_iff] at hn
  obtain ⟨a, ha, rfl⟩ := hn
  exact ⟨a, ha, rfl⟩

/-- A section of the model is one of the network. -/
theorem section_some (h : m.Refines N) {id : Identifier} {s : Section}
    (hs : m.section id = some s) : ∃ a, N.sections id = some a ∧ s = N.toSection id a := by
  rw [h.section, Option.map_eq_some_iff] at hs
  obtain ⟨a, ha, rfl⟩ := hs
  exact ⟨a, ha, rfl⟩

/-- A node of the network is one of the model. -/
theorem node_of_attrs (h : m.Refines N) {id : Identifier} {a : NodeAttrs}
    (ha : N.nodes id = some a) : m.node id = some (N.toNode id a) := by
  rw [h.node, ha, Option.map_some]

/-- A section of the network is one of the model. -/
theorem section_of_attrs (h : m.Refines N) {id : Identifier} {a : SectionAttrs}
    (ha : N.sections id = some a) : m.section id = some (N.toSection id a) := by
  rw [h.section, ha, Option.map_some]

/-- The model has no node that the network has not. -/
theorem node_none (h : m.Refines N) {id : Identifier} : m.node id = none ↔ N.nodes id = none := by
  rw [h.node, Option.map_eq_none_iff]

/-- The model has no section that the network has not. -/
theorem section_none (h : m.Refines N) {id : Identifier} :
    m.section id = none ↔ N.sections id = none := by
  rw [h.section, Option.map_eq_none_iff]

/-- The connected sections of the model are those of the network. -/
theorem exists_connected_iff (h : m.Refines N) {s : IdRef} :
    (∃ sec, m.section s = some sec ∧ sec.isConnected = true) ↔ N.wiring.ends s ≠ none := by
  constructor
  · rintro ⟨sec, hsec, hcon⟩
    obtain ⟨c, _, rfl⟩ := h.section_some hsec
    rw [N.isConnected_toSection] at hcon
    exact Option.isSome_iff_ne_none.1 hcon
  · intro hends
    obtain ⟨q, hq⟩ := Option.ne_none_iff_exists'.1 hends
    obtain ⟨c, hc⟩ := N.cable_exists hq
    exact ⟨_, h.section_of_attrs hc, by rw [N.isConnected_toSection, hq]; rfl⟩

end Model.Refines

end PiwcsPrw
