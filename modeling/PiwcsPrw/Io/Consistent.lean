/-
# Consistent documents

The checks of `src/io_read.cpp`, all at once.

`ConsistentDoc` is the condition on a document, without an order: entries of the
right form, under keys that are IDs and occur once, no two destinations with one
address, and links between slots that the document has, no slot used twice.

The reader checks all this piecemeal, one call after the other.  That the checks
add up comes from `PiwcsPrw.Runs.BuildOrder`: the calls succeed when they can be
granted together, and for the calls of a document that is its consistency
(`buildable_requests_iff`).
-/

import PiwcsPrw.Io.Loop

namespace PiwcsPrw

open Json (lastOf)

variable (mj : Minijson)

/-- The document has a node `p.1` with a slot `p.2`. -/
def GivesPort (nodes : Fields) (p : Port) : Prop :=
  ∃ n ∈ nodes, n.1 = p.1 ∧ ∃ type, typeOf n.2 = some type ∧ p.2 < type.info.slotCount

/-- The link of the entry is at the port. -/
def UsesPort (f : Bytes × Doc) (p : Port) : Prop :=
  ∃ a i b j, AsksLink mj f a i b j ∧ (p = (a, i) ∨ p = (b, j))

/-- The address of the destination of a section entry. -/
def addressOf (f : Bytes × Doc) : Option Bytes :=
  (lastOf (ascii "dest") (fieldsOf f.2)).map fun d => (destOf d).m_address

/-- A consistent document of two parts. -/
structure ConsistentDoc (nodes sections : Fields) : Prop where
  node : ∀ n ∈ nodes, IsNode n.2 ∧ n.1 ≠ ID_NULL ∧ n.1[0]? ≠ some '#'.toUInt8
  node_once : (nodes.map Prod.fst).Nodup
  «section» : ∀ s ∈ sections, IsSection mj s.2 ∧ s.1 ≠ ID_NULL ∧ s.1[0]? ≠ some '#'.toUInt8
  section_once : (sections.map Prod.fst).Nodup
  address_once : sections.Pairwise fun s t =>
    ∀ adr, addressOf s = some adr → addressOf t ≠ some adr
  link_ports : ∀ s ∈ sections, ∀ a i b j, AsksLink mj s a i b j →
    GivesPort nodes (a, i) ∧ GivesPort nodes (b, j) ∧ a ≠ b
  port_once : sections.Pairwise fun s t => ∀ p, UsesPort mj s p → ¬ UsesPort mj t p

/-! ### The calls of a document -/

section Members

variable {mj} {nodes sections : Fields}

/-- The nodes requested are those of the entries. -/
theorem addNode_mem_requests {node : Node} :
    .addNode node ∈ requests mj nodes sections ↔ ∃ f ∈ nodes, nodeOf f = node := by
  have hsec : ∀ f, Op.addNode node ∉ sectionRequests mj f := by
    intro f hmem
    rcases List.mem_cons.1 hmem with h | h
    · cases h
    · obtain ⟨a, i, b, j, _, h⟩ := mem_linkRequest.1 h
      cases h
  simp [requests, hsec, nodeRequest]

/-- The sections requested are those of the entries. -/
theorem addSection_mem_requests {sec : Section} :
    .addSection sec ∈ requests mj nodes sections ↔ ∃ f ∈ sections, sectionOf f = sec := by
  have hlink : ∀ f, Op.addSection sec ∉ linkRequest mj f := by
    intro f hmem
    obtain ⟨a, i, b, j, _, h⟩ := mem_linkRequest.1 hmem
    cases h
  simp [requests, sectionRequests, hlink, nodeRequest, eq_comm]

/-- The links requested are those the entries ask for. -/
theorem link_mem_requests {s a b : Identifier} {i j : SlotId} :
    .link s a i b j ∈ requests mj nodes sections ↔
      ∃ f ∈ sections, f.1 = s ∧ AsksLink mj f a i b j := by
  simp only [requests, sectionRequests, List.mem_append, List.mem_map, nodeRequest, reduceCtorEq,
    and_false, exists_false, false_or, List.mem_flatMap, List.mem_cons, mem_linkRequest,
    Op.link.injEq]
  constructor
  · rintro ⟨f, hf, a, i, b, j, hlink, rfl, rfl, rfl, rfl, rfl⟩
    exact ⟨f, hf, rfl, hlink⟩
  · rintro ⟨f, hf, rfl, hlink⟩
    exact ⟨f, hf, a, i, b, j, hlink, rfl, rfl, rfl, rfl, rfl⟩

/-- A section has the address its entry gives it. -/
theorem address?_sectionOf (f : Bytes × Doc) : (sectionOf f).address? = addressOf f := by
  rw [addressOf, Section.address?, sectionOf, Section.new, Option.map_map]
  rfl

/-- A node of the document with a port. -/
theorem givesPort_iff (h : ∀ n ∈ nodes, IsNode n.2) {a : Identifier} {i : SlotId} :
    (∃ node, .addNode node ∈ requests mj nodes sections ∧ node.m_id = a ∧ i < node.sectionCount) ↔
      GivesPort nodes (a, i) := by
  simp only [addNode_mem_requests, GivesPort]
  constructor
  · rintro ⟨_, ⟨f, hf, rfl⟩, rfl, hi⟩
    obtain ⟨type, htype⟩ := (h f hf).exists_typeOf
    rw [nodeOf, htype] at hi
    exact ⟨f, hf, rfl, type, htype, hi⟩
  · rintro ⟨f, hf, rfl, type, htype, hi⟩
    refine ⟨_, ⟨f, hf, rfl⟩, rfl, ?_⟩
    rw [nodeOf, htype]
    exact hi

/-- Of two section entries, no call of the one stands against one of the other
when their keys, addresses and ports differ. -/
theorem compatible_sectionRequests_iff {f g : Bytes × Doc} :
    (∀ x ∈ sectionRequests mj f, ∀ y ∈ sectionRequests mj g, x.Compatible y) ↔
      f.1 ≠ g.1 ∧ (∀ adr, addressOf f = some adr → addressOf g ≠ some adr) ∧
        ∀ p, UsesPort mj f p → ¬ UsesPort mj g p := by
  have hlink : ∀ {f : Bytes × Doc} {a i b j}, AsksLink mj f a i b j →
      .link f.1 a i b j ∈ sectionRequests mj f := fun h =>
    List.mem_cons_of_mem _ (mem_linkRequest.2 ⟨_, _, _, _, h, rfl⟩)
  constructor
  · intro h
    obtain ⟨hkey, haddr⟩ := h _ (List.mem_cons_self ..) _ (List.mem_cons_self ..)
    simp only [address?_sectionOf] at haddr
    refine ⟨hkey, haddr, ?_⟩
    rintro p ⟨a, i, b, j, hf, hp⟩ ⟨c, k, d, l, hg, hq⟩
    obtain ⟨_, h₁, h₂, h₃, h₄⟩ := h _ (hlink hf) _ (hlink hg)
    rcases hp with rfl | rfl
    · exact hq.elim h₁ h₂
    · exact hq.elim h₃ h₄
  · rintro ⟨hkey, haddr, hport⟩ x hx y hy
    rcases List.mem_cons.1 hx with rfl | hx <;> rcases List.mem_cons.1 hy with rfl | hy
    · refine ⟨hkey, fun adr => ?_⟩
      rw [address?_sectionOf, address?_sectionOf]
      exact haddr adr
    · obtain ⟨c, k, d, l, _, rfl⟩ := mem_linkRequest.1 hy
      trivial
    · obtain ⟨a, i, b, j, _, rfl⟩ := mem_linkRequest.1 hx
      trivial
    · obtain ⟨a, i, b, j, hf, rfl⟩ := mem_linkRequest.1 hx
      obtain ⟨c, k, d, l, hg, rfl⟩ := mem_linkRequest.1 hy
      have hne : ∀ {p q}, (p = (a, i) ∨ p = (b, j)) → (q = (c, k) ∨ q = (d, l)) → p ≠ q := by
        rintro p q hp hq rfl
        exact hport p ⟨a, i, b, j, hf, hp⟩ ⟨c, k, d, l, hg, hq⟩
      exact ⟨hkey, hne (Or.inl rfl) (Or.inl rfl), hne (Or.inl rfl) (Or.inr rfl),
        hne (Or.inr rfl) (Or.inl rfl), hne (Or.inr rfl) (Or.inr rfl)⟩

/-- The calls of a document do not stand against each other when its keys,
addresses and ports occur once. -/
theorem pairwise_compatible_iff : (requests mj nodes sections).Pairwise Op.Compatible ↔
    (nodes.map Prod.fst).Nodup ∧ (sections.map Prod.fst).Nodup ∧
      (sections.Pairwise fun s t => ∀ adr, addressOf s = some adr → addressOf t ≠ some adr) ∧
        sections.Pairwise fun s t => ∀ p, UsesPort mj s p → ¬ UsesPort mj t p := by
  have hinner : ∀ f ∈ sections, (sectionRequests mj f).Pairwise Op.Compatible := by
    intro f _
    refine List.pairwise_cons.2 ⟨fun y hy => ?_, ?_⟩
    · obtain ⟨a, i, b, j, _, rfl⟩ := mem_linkRequest.1 hy
      trivial
    · rw [linkRequest]
      split
      · exact List.pairwise_singleton ..
      · exact .nil
  have hcross : ∀ x ∈ nodes.map nodeRequest, ∀ y ∈ sections.flatMap (sectionRequests mj),
      x.Compatible y := by
    intro x hx y hy
    obtain ⟨n, _, rfl⟩ := List.mem_map.1 hx
    obtain ⟨f, _, hy⟩ := List.mem_flatMap.1 hy
    rcases List.mem_cons.1 hy with rfl | hy
    · trivial
    · obtain ⟨a, i, b, j, _, rfl⟩ := mem_linkRequest.1 hy
      trivial
  rw [requests, List.pairwise_append, List.pairwise_flatMap, and_iff_left hcross,
    and_iff_right hinner, List.pairwise_map]
  simp only [compatible_sectionRequests_iff, List.pairwise_and_iff, List.Nodup, List.pairwise_map]
  rfl

/-- Under distinct keys, no call comes before one it needs. -/
theorem pairwise_not_needs (h : (sections.map Prod.fst).Nodup) :
    (requests mj nodes sections).Pairwise fun x y => ¬ x.Needs y := by
  have hsection : ∀ {f g : Bytes × Doc}, f.1 ≠ g.1 → ∀ x ∈ sectionRequests mj f,
      ∀ y ∈ sectionRequests mj g, ¬ x.Needs y := by
    intro f g hne x hx y hy hneeds
    rcases List.mem_cons.1 hx with rfl | hx
    · exact hneeds
    · obtain ⟨a, i, b, j, _, rfl⟩ := mem_linkRequest.1 hx
      rcases List.mem_cons.1 hy with rfl | hy
      · exact hne hneeds.symm
      · obtain ⟨c, k, d, l, _, rfl⟩ := mem_linkRequest.1 hy
        exact hneeds
  refine List.pairwise_append.2 ⟨?_, List.pairwise_flatMap.2 ⟨fun f _ => ?_, ?_⟩, ?_⟩
  · exact List.pairwise_map.2 (List.pairwise_of_forall fun _ _ h => h)
  · refine List.pairwise_cons.2 ⟨fun _ _ h => h, ?_⟩
    rw [linkRequest]
    split
    · exact List.pairwise_singleton ..
    · exact .nil
  · exact (List.pairwise_map.1 h).imp hsection
  · intro x hx y _ hneeds
    obtain ⟨n, _, rfl⟩ := List.mem_map.1 hx
    exact hneeds

/-- **The calls of a document can be granted together exactly when it is
consistent.** -/
theorem buildable_requests_iff (h : WellFormedEntries mj nodes sections) :
    Buildable (requests mj nodes sections) ↔ ConsistentDoc mj nodes sections := by
  constructor
  · rintro ⟨hadm, hcomp⟩
    obtain ⟨hn, hs, haddr, hport⟩ := pairwise_compatible_iff.1 hcomp
    refine ⟨fun f hf => ⟨h.node f hf, ?_⟩, hn, fun f hf => ⟨(h.section f hf).1, ?_⟩, hs, haddr,
      ?_, hport⟩
    · exact isId_iff.1 (hadm (.addNode (nodeOf f)) (addNode_mem_requests.2 ⟨f, hf, rfl⟩))
    · exact isId_iff.1 (hadm (.addSection (sectionOf f)) (addSection_mem_requests.2 ⟨f, hf, rfl⟩))
    · intro f hf a i b j hlink
      obtain ⟨_, ha, hb, hab⟩ := hadm _ (link_mem_requests.2 ⟨f, hf, rfl, hlink⟩)
      exact ⟨(givesPort_iff h.node).1 ha, (givesPort_iff h.node).1 hb, hab⟩
  · intro hcon
    refine ⟨fun op hop => ?_, pairwise_compatible_iff.2
      ⟨hcon.node_once, hcon.section_once, hcon.address_once, hcon.port_once⟩⟩
    cases op with
    | addNode node =>
        obtain ⟨f, hf, rfl⟩ := addNode_mem_requests.1 hop
        exact isId_iff.2 (hcon.node f hf).2
    | addSection sec =>
        obtain ⟨f, hf, rfl⟩ := addSection_mem_requests.1 hop
        exact isId_iff.2 (hcon.section f hf).2
    | link s a i b j =>
        obtain ⟨f, hf, rfl, hlink⟩ := link_mem_requests.1 hop
        obtain ⟨ha, hb, hab⟩ := hcon.link_ports f hf a i b j hlink
        exact ⟨⟨_, addSection_mem_requests.2 ⟨f, hf, rfl⟩, rfl⟩, (givesPort_iff h.node).2 ha,
          (givesPort_iff h.node).2 hb, hab⟩
    | removeNode | removeSection | unlink | nodeMetadata | sectionMetadata =>
        exact (builds_requests mj nodes sections _ hop).elim

/-- The network takes the calls of a document one after the other exactly when
the document is consistent. -/
theorem exists_runs_iff (h : WellFormedEntries mj nodes sections) :
    (∃ N, Network.empty.Runs (requests mj nodes sections) N) ↔ ConsistentDoc mj nodes sections := by
  rw [← buildable_requests_iff h]
  constructor
  · rintro ⟨N, hruns⟩
    exact (hruns.built (builds_requests mj nodes sections)).2
  · intro hbuildable
    have hcon := (buildable_requests_iff h).1 hbuildable
    exact Network.exists_runs (builds_requests mj nodes sections)
      (pairwise_not_needs hcon.section_once) hbuildable

end Members

end PiwcsPrw
