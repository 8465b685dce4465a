/-
# Editing metadata

`include/piwcsprwmodel/metadata.h`: the non-const `metadata()` of a node or a
section, reached through the pointers `Model::node` and `Model::section` return.
An edit touches one record field of one entity, and nothing of the network
around it.
-/

import PiwcsPrw.Network.Refinement

namespace PiwcsPrw

namespace Network

/-- The metadata of a node are edited. -/
def setNodeMetadata (N : Network) (id : Identifier) (edited : HasMetadata) : Network :=
  { N with
    nodes := fun x => (N.nodes x).map fun a => if x = id then { a with data := edited } else a
    isId_node := fun {x a} h => by
      obtain ⟨b, hb, _⟩ := Option.map_eq_some_iff.1 h
      exact N.isId_node hb
    port_exists := fun {p s} h => by
      obtain ⟨a, ha, hk⟩ := N.port_exists h
      refine ⟨_, by rw [ha]; rfl, ?_⟩
      split_ifs <;> exact hk }

/-- The metadata of a section are edited. -/
def setSectionMetadata (N : Network) (id : Identifier) (edited : HasMetadata) : Network :=
  { N with
    sections := fun x =>
      (N.sections x).map fun a => if x = id then { a with data := edited } else a
    isId_section := fun {x a} h => by
      obtain ⟨b, hb, _⟩ := Option.map_eq_some_iff.1 h
      exact N.isId_section hb
    address_unique := fun {s t a b x} hs ht ha hb => by
      obtain ⟨c, hc, rfl⟩ := Option.map_eq_some_iff.1 hs
      obtain ⟨d, hd, rfl⟩ := Option.map_eq_some_iff.1 ht
      refine N.address_unique (x := x) hc hd ?_ ?_
      · rw [← ha]; split_ifs <;> rfl
      · rw [← hb]; split_ifs <;> rfl
    cable_exists := fun {s q} h => by
      obtain ⟨a, ha⟩ := N.cable_exists h
      exact ⟨_, by rw [ha]; rfl⟩ }

end Network

/-! ### Editing one entry -/

section EditEntry

variable {V W : Type} {s : IdMap V} {t : Identifier → Option W} {f : Identifier → W → V}
  (h : ∀ x, s.lookup x = (t x).map (f x)) {id : Identifier} (edit : W → W)

include h

/-- A map whose entries stand for those of a table still does after the entry of
`id` was edited in both. -/
theorem lookup_edit_some {a : W} (ha : t id = some a) (x : Identifier) :
    (s.insert id (f id (edit a))).lookup x =
      ((t x).map fun a => if x = id then edit a else a).map (f x) := by
  rw [Finmap.lookup_insert_eq]
  rcases eq_or_ne x id with rfl | hne
  · simp [ha]
  · simp [hne, h x]

/-- Where there is no such entry nothing changes. -/
theorem lookup_edit_none (ha : t id = none) (x : Identifier) :
    s.lookup x = ((t x).map fun a => if x = id then edit a else a).map (f x) := by
  rcases eq_or_ne x id with rfl | hne
  · simp [h x, ha]
  · simp [hne, h x]

end EditEntry

namespace Model.Refines

variable {m : Model} {N : Network}

/-- Editing metadata of a node of the model edits them in the network. -/
theorem setNodeMetadata (h : m.Refines N) (id : IdRef) (edited : HasMetadata) :
    (m.setNodeMetadata id edited).Refines (N.setNodeMetadata id edited) := by
  cases hn : m.node id with
  | none =>
      rw [Model.setNodeMetadata, hn]
      exact ⟨lookup_edit_none h.node _ (h.node_none.1 hn), h.section⟩
  | some node =>
      obtain ⟨a, ha, rfl⟩ := h.node_some hn
      rw [Model.setNodeMetadata, hn]
      exact ⟨lookup_edit_some h.node (fun a => { a with data := edited }) ha, h.section⟩

/-- Editing metadata of a section of the model edits them in the network. -/
theorem setSectionMetadata (h : m.Refines N) (id : IdRef) (edited : HasMetadata) :
    (m.setSectionMetadata id edited).Refines (N.setSectionMetadata id edited) := by
  cases hs : m.section id with
  | none =>
      rw [Model.setSectionMetadata, hs]
      exact ⟨h.node, lookup_edit_none h.section _ (h.section_none.1 hs)⟩
  | some sec =>
      obtain ⟨a, ha, rfl⟩ := h.section_some hs
      rw [Model.setSectionMetadata, hs]
      exact ⟨h.node, lookup_edit_some h.section (fun a => { a with data := edited }) ha⟩

end Model.Refines

end PiwcsPrw
