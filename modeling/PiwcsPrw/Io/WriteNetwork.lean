/-
# Writing never fails

`writeLink`, `writeSections` and `writeModel` of `src/io_write.cpp`, on a model of
a network.

`writeLink` looks up the nodes at the ends of a connected section and searches
each for the slot that holds it.  In a model of a network both nodes are there
and each holds the section in one slot, so nothing is dereferenced that is null,
no slot is `SLOT_INVALID`, and what is written is the cable of the network
(`writeLink_eq`).  The document is then the entries of the two maps in the order
they are met (`writeModel_eq`).
-/

import PiwcsPrw.Io.Written
import PiwcsPrw.Network.Linking

namespace PiwcsPrw

variable (mj : Minijson)

/-- **`writeLink` writes the cable.** -/
theorem writeLink_eq {m : Model} {N : Network} (h : m.Refines N) {s : Identifier} {c : SectionAttrs}
    (hc : N.sections s = some c) :
    writeLink mj (N.toSection s c) m = .ok (writtenLink mj (N.wiring.ends s)) := by
  cases hq : N.wiring.ends s with
  | none =>
      rw [writeLink, N.isConnected_toSection, hq]
      rfl
  | some q =>
      obtain ⟨c', na, nb, hc', _, _, hcable⟩ := h.exists_cable hq
      obtain rfl : c = c' := Option.some.inj (hc.symm.trans hc')
      rw [writeLink, hcable.isConnected, hcable.node_start, hcable.node_end]
      simp only [Bool.not_true, Checked.deref_some, bind, Except.bind, hcable.slotOf_start,
        hcable.slotOf_stop, hcable.start_eq, hcable.end_eq]
      rfl

/-- The entries of the nodes. -/
def nodeEntries (orders : Orders) (m : Model) : Fields :=
  (m.m_nodes.walk orders.nodes).map fun r => writeNode (orders.nodeMetadata r.1) r.2 r.1

/-- The entries of the sections. -/
def sectionEntries (orders : Orders) (m : Model) (N : Network) : Fields :=
  (m.m_sections.walk orders.sections).map fun r =>
    writtenSection mj orders (N.wiring.ends r.1) r.2 r.1

/-- **`writeModel` writes the two lists of entries.** -/
theorem writeModel_eq {m : Model} {N : Network} (h : m.Refines N) {orders : Orders}
    (hv : orders.Visit m) : writeModel mj orders m =
      .ok (.array [.object (nodeEntries orders m), .object (sectionEntries mj orders m N)]) := by
  have hsections : (m.m_sections.walk orders.sections).mapM
      (fun r => writeSection mj orders r.2 r.1 m) = .ok (sectionEntries mj orders m N) := by
    refine Checked.mapM_ok fun r hr => ?_
    obtain ⟨c, hc, hsec⟩ := h.section_some ((Finmap.mem_walk hv.sections).1 hr)
    rw [writeSection, hsec, writeLink_eq mj h hc]
    rfl
  rw [writeModel, writeSections]
  simp only [hsections, bind, Except.bind]
  rfl

variable {mj} {orders : Orders} {m : Model} {N : Network}

/-- The entries written for the nodes. -/
theorem mem_nodeEntries (hv : orders.Visit m) {f : Bytes × Doc} : f ∈ nodeEntries orders m ↔
    ∃ n node, m.node n = some node ∧ writeNode (orders.nodeMetadata n) node n = f := by
  simp only [nodeEntries, List.mem_map, Prod.exists, Finmap.mem_walk hv.nodes]
  rfl

/-- The entries written for the sections. -/
theorem mem_sectionEntries (hv : orders.Visit m) {f : Bytes × Doc} :
    f ∈ sectionEntries mj orders m N ↔ ∃ s sec, m.section s = some sec ∧
      writtenSection mj orders (N.wiring.ends s) sec s = f := by
  simp only [sectionEntries, List.mem_map, Prod.exists, Finmap.mem_walk hv.sections]
  rfl

/-- The keys of the nodes, cut. -/
theorem keys_nodeEntries (hv : orders.Visit m) :
    (nodeEntries orders m).map Prod.fst = orders.nodes.map cStr := by
  rw [nodeEntries, List.map_map]
  exact hv.nodes.map_walk cStr

/-- The keys of the sections, cut. -/
theorem keys_sectionEntries (hv : orders.Visit m) :
    (sectionEntries mj orders m N).map Prod.fst = orders.sections.map cStr := by
  rw [sectionEntries, List.map_map]
  exact hv.sections.map_walk cStr

/-- Keys that stay apart when they are cut are written once. -/
theorem nodup_nodeEntries (hv : orders.Visit m)
    (hcut : Set.InjOn cStr {n | ∃ node, m.node n = some node}) :
    ((nodeEntries orders m).map Prod.fst).Nodup := by
  rw [keys_nodeEntries hv]
  exact hv.nodes.nodup_map (by simpa only [Model.exists_node_iff] using hcut)

/-- And so are those of the sections. -/
theorem nodup_sectionEntries (hv : orders.Visit m)
    (hcut : Set.InjOn cStr {s | ∃ sec, m.section s = some sec}) :
    ((sectionEntries mj orders m N).map Prod.fst).Nodup := by
  rw [keys_sectionEntries hv]
  exact hv.sections.nodup_map (by simpa only [Model.exists_section_iff] using hcut)

/-- No slot of a network lies past the array of a node. -/
theorem slotsBounded_ends (N : Network) (s : Identifier) : SlotsBounded (N.wiring.ends s) := by
  intro q hq
  obtain ⟨hfst, hsnd⟩ := N.hasPort_of_ends hq
  exact ⟨hfst.lt_maxSlots, hsnd.lt_maxSlots⟩

end PiwcsPrw
