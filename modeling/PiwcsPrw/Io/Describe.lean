/-
# The model a document describes

The format of `src/io_read.cpp` again, now from the other side: `Model.Describes`
says which model a document stands for, node by node, section by section and slot
by slot.  There is at most one (`Describes.unique`), and it is what the calls of
a consistent document build (`Model.Refines.describes`).
-/

import PiwcsPrw.Io.Consistent
import PiwcsPrw.Runs.Consistent

namespace PiwcsPrw

variable (mj : Minijson)

/-- The model a document describes. -/
structure Model.Describes (m : Model) (nodes sections : Fields) : Prop where
  node_iff : ∀ n, (∃ node, m.node n = some node) ↔ ∃ f ∈ nodes, f.1 = n
  node : ∀ f ∈ nodes, ∃ node, m.node f.1 = some node ∧ node.m_id = f.1 ∧
    typeOf f.2 = some node.m_type ∧ node.toHasMetadata = metadataOf (fieldsOf f.2)
  section_iff : ∀ s, (∃ sec, m.section s = some sec) ↔ ∃ f ∈ sections, f.1 = s
  «section» : ∀ f ∈ sections, ∃ start stop,
    m.section f.1 = some { sectionOf f with m_start := start, m_end := stop } ∧
    (∀ a i b j, AsksLink mj f a i b j → start = a ∧ stop = b) ∧
    ((∀ a i b j, ¬ AsksLink mj f a i b j) → start = ID_NULL ∧ stop = ID_NULL)
  holds_iff : ∀ p s, s ≠ ID_NULL → (m.Holds p s ↔ ∃ f ∈ sections, f.1 = s ∧ UsesPort mj f p)

namespace Model

variable {mj} {nodes sections : Fields} {m m' : Model}

/-- Two models of one document have the same sections. -/
theorem Describes.section_eq (h : m.Describes mj nodes sections)
    (h' : m'.Describes mj nodes sections) {f : Bytes × Doc} (hf : f ∈ sections) :
    m.section f.1 = m'.section f.1 := by
  obtain ⟨start, stop, hsec, hlinked, hfree⟩ := h.section f hf
  obtain ⟨start', stop', hsec', hlinked', hfree'⟩ := h'.section f hf
  have hends : start = start' ∧ stop = stop' := by
    by_cases hlink : ∃ a i b j, AsksLink mj f a i b j
    · obtain ⟨a, i, b, j, hlink⟩ := hlink
      obtain ⟨rfl, rfl⟩ := hlinked a i b j hlink
      obtain ⟨rfl, rfl⟩ := hlinked' _ i _ j hlink
      exact ⟨rfl, rfl⟩
    · simp only [not_exists] at hlink
      obtain ⟨rfl, rfl⟩ := hfree hlink
      obtain ⟨rfl, rfl⟩ := hfree' hlink
      exact ⟨rfl, rfl⟩
  rw [hsec, hsec', hends.1, hends.2]

/-- They have the same nodes. -/
theorem Describes.node_eq (h : m.Describes mj nodes sections)
    (h' : m'.Describes mj nodes sections) {f : Bytes × Doc} (hf : f ∈ nodes) :
    m.node f.1 = m'.node f.1 := by
  obtain ⟨node, hnode, hid, htype, hmeta⟩ := h.node f hf
  obtain ⟨node', hnode', hid', htype', hmeta'⟩ := h'.node f hf
  have hslot : ∀ k, node.slotAt k = node'.slotAt k := fun k =>
    slotAt_eq_of_holds_iff hnode hnode' fun s hs =>
      (h.holds_iff _ s hs).trans (h'.holds_iff _ s hs).symm
  have htypes : node.m_type = node'.m_type := Option.some.inj (htype.symm.trans htype')
  have heq : node = node' := Node.ext_slotAt htypes (hid.trans hid'.symm)
    (hmeta.trans hmeta'.symm) fun k _ => hslot k
  rw [hnode, hnode', heq]

/-- A described model has no node without an entry. -/
theorem Describes.node_none (h : m.Describes mj nodes sections) {n : Identifier}
    (hn : ¬ ∃ f ∈ nodes, f.1 = n) : m.node n = none := by
  rw [Option.eq_none_iff_forall_ne_some]
  exact fun node hnode => hn ((h.node_iff n).1 ⟨node, hnode⟩)

/-- Nor a section. -/
theorem Describes.section_none (h : m.Describes mj nodes sections) {s : Identifier}
    (hs : ¬ ∃ f ∈ sections, f.1 = s) : m.section s = none := by
  rw [Option.eq_none_iff_forall_ne_some]
  exact fun sec hsec => hs ((h.section_iff s).1 ⟨sec, hsec⟩)

/-- **A document describes one model.** -/
theorem Describes.unique (h : m.Describes mj nodes sections)
    (h' : m'.Describes mj nodes sections) : m = m' := by
  refine Model.ext (Finmap.ext_lookup fun n => ?_) (Finmap.ext_lookup fun s => ?_)
  · by_cases hn : ∃ f ∈ nodes, f.1 = n
    · obtain ⟨f, hf, rfl⟩ := hn
      exact h.node_eq h' hf
    · exact (h.node_none hn).trans (h'.node_none hn).symm
  · by_cases hs : ∃ f ∈ sections, f.1 = s
    · obtain ⟨f, hf, rfl⟩ := hs
      exact h.section_eq h' hf
    · exact (h.section_none hs).trans (h'.section_none hs).symm

/-- **What the calls of a document build is the model it describes.** -/
theorem Refines.describes {N : Network} (h : m.Refines N) (hcon : ConsistentDoc mj nodes sections)
    (hbuilt : N.Built (requests mj nodes sections)) : m.Describes mj nodes sections := by
  have hnode : ∀ f ∈ nodes, N.nodes f.1 = some ⟨(nodeOf f).m_type, (nodeOf f).toHasMetadata⟩ :=
    fun f hf => hbuilt.nodes_iff.2 ⟨_, addNode_mem_requests.2 ⟨f, hf, rfl⟩, rfl, rfl⟩
  have hsection : ∀ f ∈ sections, N.sections f.1 =
      some ⟨(sectionOf f).m_dir, (sectionOf f).m_dest, (sectionOf f).toHasMetadata⟩ :=
    fun f hf => hbuilt.sections_iff.2 ⟨_, addSection_mem_requests.2 ⟨f, hf, rfl⟩, rfl, rfl⟩
  have hends : ∀ {s a i b j}, N.wiring.ends s = some ((a, i), (b, j)) ↔
      ∃ f ∈ sections, f.1 = s ∧ AsksLink mj f a i b j := hbuilt.ends_iff.trans link_mem_requests
  constructor
  case node_iff =>
    intro n
    constructor
    · rintro ⟨node, hn⟩
      obtain ⟨a, ha, _⟩ := h.node_some hn
      obtain ⟨_, hmem, hid, _⟩ := hbuilt.nodes_iff.1 ha
      obtain ⟨f, hf, rfl⟩ := addNode_mem_requests.1 hmem
      exact ⟨f, hf, hid⟩
    · rintro ⟨f, hf, rfl⟩
      exact ⟨_, h.node_of_attrs (hnode f hf)⟩
  case node =>
    intro f hf
    obtain ⟨type, htype⟩ := (hcon.node f hf).1.exists_typeOf
    refine ⟨_, h.node_of_attrs (hnode f hf), rfl, ?_, rfl⟩
    rw [N.toNode_type, nodeOf, htype]
    rfl
  case section_iff =>
    intro s
    constructor
    · rintro ⟨sec, hs⟩
      obtain ⟨a, ha, _⟩ := h.section_some hs
      obtain ⟨_, hmem, hid, _⟩ := hbuilt.sections_iff.1 ha
      obtain ⟨f, hf, rfl⟩ := addSection_mem_requests.1 hmem
      exact ⟨f, hf, hid⟩
    · rintro ⟨f, hf, rfl⟩
      exact ⟨_, h.section_of_attrs (hsection f hf)⟩
  case «section» =>
    intro f hf
    refine ⟨_, _, h.section_of_attrs (hsection f hf), fun a i b j hlink => ?_, fun hlink => ?_⟩
    · rw [hends.2 ⟨f, hf, rfl, hlink⟩]
      exact ⟨rfl, rfl⟩
    · have hnone : N.wiring.ends f.1 = none := by
        rw [Option.eq_none_iff_forall_ne_some]
        rintro ⟨⟨a, i⟩, ⟨b, j⟩⟩ hq
        obtain ⟨g, hg, hkey, hlink'⟩ := hends.1 hq
        -- The key occurs once, so the entry that asks for the link is this one.
        rw [List.inj_on_of_nodup_map hcon.section_once hg hf hkey] at hlink'
        exact hlink a i b j hlink'
      rw [hnone]
      exact ⟨rfl, rfl⟩
  case holds_iff =>
    intro p s hs
    rw [h.holds_iff_plug hs, N.wiring.plug_iff]
    constructor
    · rintro ⟨⟨⟨a, i⟩, ⟨b, j⟩⟩, hq, hp⟩
      obtain ⟨f, hf, hkey, hlink⟩ := hends.1 hq
      exact ⟨f, hf, hkey, a, i, b, j, hlink, hp⟩
    · rintro ⟨f, hf, hkey, a, i, b, j, hlink, hp⟩
      exact ⟨_, hends.2 ⟨f, hf, hkey, hlink⟩, hp⟩

end Model

end PiwcsPrw
