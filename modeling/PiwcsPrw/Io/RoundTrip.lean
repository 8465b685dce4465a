/-
# Reading undoes writing

`writeModel` and `readModel`; `test/io_wr.cpp` tries it on examples.

`Model.SameAs` is the comparison of the test, `modelsMustBeEqual`.  The document
written for a reachable model without NULs is consistent, whatever the order of
its entries (`consistentDoc_written`): the links name nodes that are entries
themselves, and no slot occurs twice because the network has no two cables in one
port.  So the document is read, and what it describes is the model, since it says
of each entity what the model has (`Describes.sameAs`).
-/

import PiwcsPrw.Io.Accept
import PiwcsPrw.Io.WriteNetwork
import PiwcsPrw.Runs.Reachable

namespace PiwcsPrw

/-! ### Equal models -/

/-- What `modelsMustBeEqual` compares of a destination. -/
def Destination.contents (dest : Destination) : Bytes × Bytes × Metadata :=
  (dest.m_address, dest.m_name, dest.records)

/-- `modelsMustBeEqual`: two models are equal, an absent metadata map counting as
an empty one. -/
structure Model.SameAs (m m' : Model) : Prop where
  nodes : ∀ n, (∃ node, m.node n = some node) ↔ ∃ node, m'.node n = some node
  node : ∀ {n node node'}, m.node n = some node → m'.node n = some node' →
    node.m_id = node'.m_id ∧ node.m_type = node'.m_type ∧
      (∀ k, node.slotAt k = node'.slotAt k) ∧ node.records = node'.records
  sections : ∀ s, (∃ sec, m.section s = some sec) ↔ ∃ sec, m'.section s = some sec
  «section» : ∀ {s sec sec'}, m.section s = some sec → m'.section s = some sec' →
    sec.m_id = sec'.m_id ∧ sec.m_start = sec'.m_start ∧ sec.m_end = sec'.m_end ∧
      sec.m_dir = sec'.m_dir ∧
      sec.m_dest.map Destination.contents = sec'.m_dest.map Destination.contents ∧
        sec.records = sec'.records

/-- Models are equal when each entity of the one has its like in the other, and
the other has no more. -/
theorem Model.SameAs.of_exists {m m' : Model}
    (hnode : ∀ n node, m.node n = some node → ∃ node', m'.node n = some node' ∧
      node.m_id = node'.m_id ∧ node.m_type = node'.m_type ∧
        (∀ k, node.slotAt k = node'.slotAt k) ∧ node.records = node'.records)
    (hnode' : ∀ n node', m'.node n = some node' → ∃ node, m.node n = some node)
    (hsec : ∀ s sec, m.section s = some sec → ∃ sec', m'.section s = some sec' ∧
      sec.m_id = sec'.m_id ∧ sec.m_start = sec'.m_start ∧ sec.m_end = sec'.m_end ∧
        sec.m_dir = sec'.m_dir ∧
          sec.m_dest.map Destination.contents = sec'.m_dest.map Destination.contents ∧
            sec.records = sec'.records)
    (hsec' : ∀ s sec', m'.section s = some sec' → ∃ sec, m.section s = some sec) :
    m.SameAs m' := by
  constructor
  case nodes =>
    intro n
    constructor
    · rintro ⟨node, hn⟩
      obtain ⟨node', hn', _⟩ := hnode n node hn
      exact ⟨node', hn'⟩
    · rintro ⟨node', hn'⟩
      exact hnode' n node' hn'
  case node =>
    intro n node node' hn hn'
    obtain ⟨node'', hn'', hsame⟩ := hnode n node hn
    obtain rfl := Option.some.inj (hn'.symm.trans hn'')
    exact hsame
  case sections =>
    intro s
    constructor
    · rintro ⟨sec, hs⟩
      obtain ⟨sec', hs', _⟩ := hsec s sec hs
      exact ⟨sec', hs'⟩
    · rintro ⟨sec', hs'⟩
      exact hsec' s sec' hs'
  case «section» =>
    intro s sec sec' hs hs'
    obtain ⟨sec'', hs'', hsame⟩ := hsec s sec hs
    obtain rfl := Option.some.inj (hs'.symm.trans hs'')
    exact hsame

/-- No record has a NUL. -/
def HasMetadata.NulFree (obj : HasMetadata) : Prop :=
  ∀ key value, obj.records.lookup key = some value →
    PiwcsPrw.NulFree key ∧ PiwcsPrw.NulFree value

/-- No string of the model has a NUL. -/
structure Model.NulFree (m : Model) : Prop where
  node : ∀ {n node}, m.node n = some node → PiwcsPrw.NulFree n ∧ node.toHasMetadata.NulFree
  «section» : ∀ {s sec}, m.section s = some sec → PiwcsPrw.NulFree s ∧ sec.toHasMetadata.NulFree
  dest : ∀ {s sec dest}, m.section s = some sec → sec.m_dest = some dest →
    PiwcsPrw.NulFree dest.m_address ∧ PiwcsPrw.NulFree dest.m_name ∧ dest.toHasMetadata.NulFree

/-- The keys of such metadata have no NUL. -/
theorem HasMetadata.NulFree.keys {obj : HasMetadata} (h : obj.NulFree) :
    ∀ k ∈ obj.records, PiwcsPrw.NulFree k := by
  intro k hk
  obtain ⟨v, hv⟩ := Finmap.mem_iff.1 hk
  exact (h k v hv).1

/-- The ID of a node is written whole. -/
theorem Model.NulFree.cStr_node {m : Model} (h : m.NulFree) {n : Identifier} {node : Node}
    (hn : m.node n = some node) : cStr n = n :=
  cStr_eq_self (h.node hn).1

/-- The ID of a section is written whole. -/
theorem Model.NulFree.cStr_section {m : Model} (h : m.NulFree) {s : Identifier} {sec : Section}
    (hs : m.section s = some sec) : cStr s = s :=
  cStr_eq_self (h.section hs).1

/-! ### The written document is consistent -/

section Written

variable {mj : Minijson} (hmj : mj.KeepsSlots) {m : Model} {N : Network} (h : m.Refines N)
  (hnul : m.NulFree) {orders : Orders} (hv : orders.Visit m)

/-- The link a written section asks for is the cable. -/
theorem asksLink_writtenSection (hmj : mj.KeepsSlots) (N : Network) {s : Identifier} {sec : Section}
    {a b : Bytes} {i j : SlotId} :
    AsksLink mj (writtenSection mj orders (N.wiring.ends s) sec s) a i b j ↔
      N.wiring.ends s = some ((a, i), (b, j)) := by
  rw [AsksLink, linkOf_writtenSection _ _ _ hmj (slotsBounded_ends N s)]
  rcases N.wiring.ends s with _ | ⟨⟨c, k⟩, ⟨d, l⟩⟩ <;> simp [and_assoc]

/-- Its ports are those of the cable. -/
theorem usesPort_writtenSection (hmj : mj.KeepsSlots) (N : Network) {s : Identifier} {sec : Section}
    {p : Port} : UsesPort mj (writtenSection mj orders (N.wiring.ends s) sec s) p ↔
      N.wiring.plug p = some s := by
  rw [N.wiring.plug_iff]
  constructor
  · rintro ⟨a, i, b, j, hlink, hp⟩
    exact ⟨_, (asksLink_writtenSection hmj N).1 hlink, hp⟩
  · rintro ⟨⟨⟨a, i⟩, ⟨b, j⟩⟩, hq, hp⟩
    exact ⟨a, i, b, j, (asksLink_writtenSection hmj N).2 hq, hp⟩

/-- The address is written. -/
theorem addressOf_writtenSection {ends : Option (Port × Port)} {sec : Section} {s : Identifier} :
    addressOf (writtenSection mj orders ends sec s) = sec.address? := by
  rw [← address?_sectionOf, sectionOf_writtenSection]
  cases hd : sec.m_dest <;> simp [Section.address?, Section.new, cutDestination, hd]

include hmj hv

/-- No link in the written document is broken. -/
theorem whole_written : ∀ f ∈ sectionEntries mj orders m N, (linkOf mj f.2).Whole := by
  intro f hf
  obtain ⟨s, sec, _, rfl⟩ := (mem_sectionEntries hv).1 hf
  rw [linkOf_writtenSection _ _ _ hmj (slotsBounded_ends N s)]
  cases N.wiring.ends s with
  | none => exact Or.inl rfl
  | some q => exact Or.inr ⟨_, _, _, _, rfl⟩

include h hnul

/-- **The document written for a model without NULs is consistent.** -/
theorem consistentDoc_written :
    ConsistentDoc mj (nodeEntries orders m) (sectionEntries mj orders m N) := by
  have hnodes : ((nodeEntries orders m).map Prod.fst).Nodup := nodup_nodeEntries hv <| by
    rintro x ⟨_, hx⟩ y ⟨_, hy⟩ hxy
    rwa [hnul.cStr_node hx, hnul.cStr_node hy] at hxy
  have hsections : ((sectionEntries mj orders m N).map Prod.fst).Nodup :=
    nodup_sectionEntries hv <| by
      rintro x ⟨_, hx⟩ y ⟨_, hy⟩ hxy
      rwa [hnul.cStr_section hx, hnul.cStr_section hy] at hxy
  -- Two entries of sections are of two sections, which share no address and no port.
  have hapart : ∀ {R : Bytes × Doc → Bytes × Doc → Prop},
      (∀ s t sec sec', s ≠ t → m.section s = some sec → m.section t = some sec' →
        R (writtenSection mj orders (N.wiring.ends s) sec s)
          (writtenSection mj orders (N.wiring.ends t) sec' t)) →
      (sectionEntries mj orders m N).Pairwise R := by
    intro R hR
    refine (List.pairwise_map.1 hsections).imp_of_mem fun hf hg hne => ?_
    obtain ⟨s, sec, hs, rfl⟩ := (mem_sectionEntries hv).1 hf
    obtain ⟨t, sec', ht, rfl⟩ := (mem_sectionEntries hv).1 hg
    exact hR s t sec sec' (fun hst => hne (congrArg cStr hst)) hs ht
  constructor
  case node =>
    intro f hf
    obtain ⟨n, node, hn, rfl⟩ := (mem_nodeEntries hv).1 hf
    obtain ⟨a, ha, _⟩ := h.node_some hn
    refine ⟨isNode_writeNode _ _ _, ?_⟩
    rw [writeNode, hnul.cStr_node hn]
    exact isId_iff.1 (N.isId_node ha)
  case node_once => exact hnodes
  case «section» =>
    intro f hf
    obtain ⟨s, sec, hs, rfl⟩ := (mem_sectionEntries hv).1 hf
    obtain ⟨c, hc, _⟩ := h.section_some hs
    refine ⟨isSection_writtenSection _ _ _ hmj (slotsBounded_ends N s), ?_⟩
    rw [writtenSection, hnul.cStr_section hs]
    exact isId_iff.1 (N.isId_section hc)
  case section_once => exact hsections
  case address_once =>
    refine hapart fun s t sec sec' hst hs ht adr => ?_
    obtain ⟨c, hc, rfl⟩ := h.section_some hs
    obtain ⟨d, hd, rfl⟩ := h.section_some ht
    rw [addressOf_writtenSection, addressOf_writtenSection]
    exact fun hx hy => hst (N.address_unique hc hd hx hy)
  case link_ports =>
    intro f hf a i b j hlink
    obtain ⟨s, sec, hs, rfl⟩ := (mem_sectionEntries hv).1 hf
    have hq := (asksLink_writtenSection hmj N).1 hlink
    have hport : ∀ p, N.HasPort p → GivesPort (nodeEntries orders m) p := by
      rintro p ⟨a, ha, hk⟩
      have hn := h.node_of_attrs ha
      refine ⟨_, (mem_nodeEntries hv).2 ⟨p.1, _, hn, rfl⟩, hnul.cStr_node hn, a.type, ?_, hk⟩
      exact typeOf_writeNode _ _ _
    exact ⟨hport _ (N.hasPort_of_ends hq).1, hport _ (N.hasPort_of_ends hq).2, N.ends_apart hq⟩
  case port_once =>
    refine hapart fun s t sec sec' hst hs ht p hp hp' => hst ?_
    have hplug := (usesPort_writtenSection hmj N).1 hp
    rw [(usesPort_writtenSection hmj N).1 hp'] at hplug
    exact (Option.some.inj hplug).symm

end Written

/-! ### What is read -/

section Read

variable {mj : Minijson} (hmj : mj.KeepsSlots) {m m' : Model} {N : Network} (h : m.Refines N)
  (hnul : m.NulFree) {orders : Orders} (hv : orders.Visit m)
  (hm' : m'.Describes mj (nodeEntries orders m) (sectionEntries mj orders m N))

include hmj h hnul hv hm'

/-- The slots hold what they held. -/
theorem holds_iff_of_describes {p : Port} {s : Identifier} (hs : s ≠ ID_NULL) :
    m.Holds p s ↔ m'.Holds p s := by
  rw [h.holds_iff_plug hs, hm'.holds_iff p s hs]
  constructor
  · intro hplug
    obtain ⟨c, hc⟩ := N.section_of_plug hplug
    have hsec := h.section_of_attrs hc
    exact ⟨_, (mem_sectionEntries hv).2 ⟨s, _, hsec, rfl⟩, hnul.cStr_section hsec,
      (usesPort_writtenSection hmj N).2 hplug⟩
  · rintro ⟨f, hf, hkey, hport⟩
    obtain ⟨t, sec, ht, rfl⟩ := (mem_sectionEntries hv).1 hf
    have hts : t = s := (hnul.cStr_section ht).symm.trans hkey
    exact hts ▸ (usesPort_writtenSection hmj N).1 hport

/-- A node is read as it was. -/
theorem node_of_describes {n : Identifier} {node : Node} (hn : m.node n = some node) :
    ∃ node', m'.node n = some node' ∧ node.m_id = node'.m_id ∧ node.m_type = node'.m_type ∧
      (∀ k, node.slotAt k = node'.slotAt k) ∧ node.records = node'.records := by
  obtain ⟨a, _, hnode⟩ := h.node_some hn
  obtain ⟨node', hn', hid, htype, hmeta⟩ :=
    hm'.node _ ((mem_nodeEntries hv).2 ⟨n, node, hn, rfl⟩)
  have hkey : (writeNode (orders.nodeMetadata n) node n).1 = n := hnul.cStr_node hn
  rw [hkey] at hn' hid
  rw [typeOf_writeNode, Option.some.injEq] at htype
  refine ⟨node', hn', ?_, htype, fun k => ?_, ?_⟩
  · rw [hid, hnode]
    rfl
  · exact Model.slotAt_eq_of_holds_iff hn hn' fun s => holds_iff_of_describes hmj h hnul hv hm'
  · rw [hmeta, metadataOf_writeNode,
      records_cutMetadata (hv.nodeMetadata hn) (hnul.node hn).2.keys]

/-- A section is read as it was. -/
theorem section_of_describes {s : Identifier} {sec : Section} (hs : m.section s = some sec) :
    ∃ sec', m'.section s = some sec' ∧ sec.m_id = sec'.m_id ∧ sec.m_start = sec'.m_start ∧
      sec.m_end = sec'.m_end ∧ sec.m_dir = sec'.m_dir ∧
        sec.m_dest.map Destination.contents = sec'.m_dest.map Destination.contents ∧
          sec.records = sec'.records := by
  obtain ⟨start, stop, hs', hlinked, hfree⟩ :=
    hm'.section _ ((mem_sectionEntries hv).2 ⟨s, sec, hs, rfl⟩)
  have hkey : cStr s = s := hnul.cStr_section hs
  rw [sectionOf_writtenSection, show (writtenSection mj orders (N.wiring.ends s) sec s).1 = s from
    hkey, hkey] at hs'
  have hends : sec.m_start = start ∧ sec.m_end = stop := by
    obtain ⟨c, _, rfl⟩ := h.section_some hs
    rcases hq : N.wiring.ends s with _ | ⟨⟨a, i⟩, ⟨b, j⟩⟩
    · obtain ⟨rfl, rfl⟩ := hfree fun a i b j hlink => by
        rw [asksLink_writtenSection hmj N, hq] at hlink
        cases hlink
      simp [Network.toSection, hq]
    · obtain ⟨rfl, rfl⟩ := hlinked a i b j ((asksLink_writtenSection hmj N).2 hq)
      simp [Network.toSection, hq]
  have hid : sec.m_id = s := by
    obtain ⟨c, _, rfl⟩ := h.section_some hs
    rfl
  have hdest : sec.m_dest.map Destination.contents =
      (sec.m_dest.map (cutDestination (orders.destMetadata s))).map Destination.contents := by
    cases hd : sec.m_dest with
    | none => rfl
    | some dest =>
        have hrecords := records_cutMetadata (hv.destMetadata hs hd) (hnul.dest hs hd).2.2.keys
        simp [Destination.contents, cutDestination, hrecords]
  exact ⟨_, hs', hid, hends.1, hends.2, rfl, hdest,
    (records_cutMetadata (hv.sectionMetadata hs) (hnul.section hs).2.keys).symm⟩

/-- **What the document describes is the model it was written for.** -/
theorem sameAs_of_describes : m.SameAs m' := by
  refine .of_exists (fun n node hn => node_of_describes hmj h hnul hv hm' hn) ?_
    (fun s sec hs => section_of_describes hmj h hnul hv hm' hs) ?_
  · intro n node' hn'
    obtain ⟨f, hf, rfl⟩ := (hm'.node_iff n).1 ⟨node', hn'⟩
    obtain ⟨n, node, hn, rfl⟩ := (mem_nodeEntries hv).1 hf
    exact ⟨node, (congrArg m.node (hnul.cStr_node hn)).trans hn⟩
  · intro s sec' hs'
    obtain ⟨f, hf, rfl⟩ := (hm'.section_iff s).1 ⟨sec', hs'⟩
    obtain ⟨s, sec, hs, rfl⟩ := (mem_sectionEntries hv).1 hf
    exact ⟨sec, (congrArg m.section (hnul.cStr_section hs)).trans hs⟩

end Read

/-- **Reading undoes writing**, whatever the order in which the maps are met. -/
theorem Reachable.read_written {mj : Minijson} (hmj : mj.KeepsSlots) {m : Model} (h : Reachable m)
    (hnul : m.NulFree) {orders : Orders} (hv : orders.Visit m) :
    ∃ doc m', writeModel mj orders m = .ok doc ∧ readModel mj doc = .ok m' ∧ m.SameAs m' := by
  obtain ⟨N, hN⟩ := h.refines
  obtain ⟨m', hread, hm'⟩ := exists_readModel (consistentDoc_written hmj hN hnul hv)
    (whole_written hmj hv)
  exact ⟨_, m', writeModel_eq mj hN hv, hread, sameAs_of_describes hmj hN hnul hv hm'⟩

/-- Orders of the maps of the small example. -/
def smallExampleOrders : Orders where
  nodes := [ascii "T1034", ascii "M145"]
  sections := [ascii "S400"]
  nodeMetadata _ := []
  sectionMetadata _ := []
  destMetadata _ := []

/-- The small example has no strings but its IDs. -/
theorem smallExample_bare :
    (∀ {n node}, smallExample.node n = some node → NulFree n ∧ node.records = ∅) ∧
      ∀ {s sec}, smallExample.section s = some sec →
        NulFree s ∧ sec.records = ∅ ∧ sec.m_dest = none := by
  constructor
  · intro n node hn
    rw [Model.node, smallExample, Finmap.lookup_insert_eq, Finmap.lookup_insert_eq] at hn
    split_ifs at hn with h₁ h₂
    · exact ⟨h₁ ▸ by decide, (Option.some.inj hn) ▸ rfl⟩
    · exact ⟨h₂ ▸ by decide, (Option.some.inj hn) ▸ rfl⟩
    · cases hn
  · intro s sec hs
    rw [Model.section, smallExample, Finmap.lookup_insert_eq] at hs
    split_ifs at hs with h
    · exact ⟨h ▸ by decide, (Option.some.inj hs) ▸ ⟨rfl, rfl⟩⟩
    · cases hs

/-- The small example is written and read back. -/
theorem smallExample_read_written : ∃ doc m', writeModel .plain smallExampleOrders smallExample =
    .ok doc ∧ readModel .plain doc = .ok m' ∧ smallExample.SameAs m' := by
  obtain ⟨hnode, hsection⟩ := smallExample_bare
  have hempty : Finmap.Visits [] (∅ : Metadata) := by decide
  refine Reachable.read_written (show ∀ k < 4, _ by decide) reachable_smallExample ⟨?_, ?_, ?_⟩
    ⟨by decide, by decide, ?_, ?_, ?_⟩
  · intro n node hn
    refine ⟨(hnode hn).1, fun key value h => ?_⟩
    rw [(hnode hn).2] at h
    cases h
  · intro s sec hs
    refine ⟨(hsection hs).1, fun key value h => ?_⟩
    rw [(hsection hs).2.1] at h
    cases h
  · intro s sec dest hs hd
    rw [(hsection hs).2.2] at hd
    cases hd
  · intro n node hn
    rw [(hnode hn).2]
    exact hempty
  · intro s sec hs
    rw [(hsection hs).2.1]
    exact hempty
  · intro s sec dest hs hd
    rw [(hsection hs).2.2] at hd
    cases hd

end PiwcsPrw
