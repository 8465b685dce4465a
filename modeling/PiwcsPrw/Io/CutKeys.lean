/-
# Models written alike

`writeMetadata`, `writeNode` and `writeSection` of `src/io_write.cpp` pass IDs and
metadata keys as `c_str()`, so the document has them up to their first NUL.  Where
that keeps the strings apart (`CutApart`), everything in a model can be read off
the document written for it, and two models written alike are the same
(`sameAs_of_entries_eq`).
-/

import PiwcsPrw.Io.RoundTrip

namespace PiwcsPrw

/-- The IDs of the nodes of the model are in `I`, those of its sections in `J`, and its
metadata keys in `K`. -/
structure Model.Over (m : Model) (I J K : Set Bytes) : Prop where
  node : ∀ {n node}, m.node n = some node → n ∈ I ∧ ∀ k ∈ node.records, k ∈ K
  «section» : ∀ {s sec}, m.section s = some sec → s ∈ J ∧ ∀ k ∈ sec.records, k ∈ K
  dest : ∀ {s sec dest}, m.section s = some sec → sec.m_dest = some dest →
    ∀ k ∈ dest.records, k ∈ K

/-- The IDs and keys stay apart when they are cut: IDs of nodes, IDs of sections, and
metadata keys where there are entities. -/
structure CutApart (I J K : Set Bytes) : Prop where
  nodeIds : Set.InjOn cStr {x ∈ I | isId x = true}
  sectionIds : Set.InjOn cStr {x ∈ J | isId x = true}
  keys : (∃ x ∈ I ∪ J, isId x = true) → Set.InjOn cStr K

/-! ### Strings that stay apart -/

section Apart

variable {K : Set Bytes} (hK : Set.InjOn cStr K)

include hK

/-- Metadata written alike are equal. -/
theorem records_eq_of_cutMetadata_eq {order order' : List Identifier} {obj obj' : HasMetadata}
    (hv : Finmap.Visits order obj.records) (hv' : Finmap.Visits order' obj'.records)
    (hobj : ∀ k ∈ obj.records, k ∈ K) (hobj' : ∀ k ∈ obj'.records, k ∈ K)
    (h : cutMetadata order obj = cutMetadata order' obj') : obj.records = obj'.records := by
  refine Finmap.ext_lookup fun key => ?_
  by_cases hkey : key ∈ K
  · rw [← lookup_cutMetadata hK hv hobj hkey, ← lookup_cutMetadata hK hv' hobj' hkey, h]
  · rw [Finmap.lookup_eq_none.2 (mt (hobj key) hkey), Finmap.lookup_eq_none.2 (mt (hobj' key) hkey)]

/-- Destinations written alike have the same contents. -/
theorem contents_eq_of_cutDestination_eq {order order' : List Identifier} {d d' : Destination}
    (hv : Finmap.Visits order d.records) (hv' : Finmap.Visits order' d'.records)
    (hd : ∀ k ∈ d.records, k ∈ K) (hd' : ∀ k ∈ d'.records, k ∈ K)
    (h : cutDestination order d = cutDestination order' d') : d.contents = d'.contents := by
  have hrecords : d.records = d'.records := records_eq_of_cutMetadata_eq hK hv hv' hd hd'
    (congrArg Destination.toHasMetadata h)
  have haddress : (cutDestination order d).m_address = d'.m_address := by rw [h]; rfl
  have hname : (cutDestination order d).m_name = d'.m_name := by rw [h]; rfl
  rw [Destination.contents, Destination.contents, hrecords, ← haddress, ← hname]
  rfl

end Apart

/-! ### What a document says of the model -/

section Alike

variable {mj : Minijson} (hmj : mj.KeepsSlots) {I J K : Set Bytes} (hcut : CutApart I J K)
  {m m' : Model} {N N' : Network} (h : m.Refines N) (h' : m'.Refines N')
  {orders orders' : Orders} (hv : orders.Visit m) (hv' : orders'.Visit m')
  (hover : m.Over I J K) (hover' : m'.Over I J K)

include hcut h h' hv hv' hover hover'

/-- A node of the one model is a node of the other. -/
theorem exists_node_of_nodeEntries_eq (heq : nodeEntries orders m = nodeEntries orders' m')
    {n : Identifier} {node : Node} (hn : m.node n = some node) :
    ∃ node', m'.node n = some node' ∧ node.m_type = node'.m_type ∧
      node.records = node'.records := by
  obtain ⟨a, ha, _⟩ := h.node_some hn
  have hmem := (mem_nodeEntries hv).2 ⟨n, node, hn, rfl⟩
  rw [heq, mem_nodeEntries hv'] at hmem
  obtain ⟨n', node', hn', hentry⟩ := hmem
  obtain ⟨b, hb, _⟩ := h'.node_some hn'
  have hkey : cStr n' = cStr n := congrArg Prod.fst hentry
  obtain rfl : n' = n :=
    hcut.nodeIds ⟨(hover'.node hn').1, N'.isId_node hb⟩ ⟨(hover.node hn).1, N.isId_node ha⟩ hkey
  have htype := congrArg (fun f => typeOf f.2) hentry
  have hmeta := congrArg (fun f => metadataOf (fieldsOf f.2)) hentry
  simp only [typeOf_writeNode, Option.some.injEq, metadataOf_writeNode] at htype hmeta
  exact ⟨node', hn', htype.symm, records_eq_of_cutMetadata_eq
    (hcut.keys ⟨n', Or.inl (hover.node hn).1, N.isId_node ha⟩) (hv.nodeMetadata hn)
    (hv'.nodeMetadata hn') (hover.node hn).2 (hover'.node hn').2 hmeta.symm⟩

include hmj

/-- A section of the one model is a section of the other, with the same cable. -/
theorem exists_section_of_sectionEntries_eq
    (heq : sectionEntries mj orders m N = sectionEntries mj orders' m' N')
    {s : Identifier} {sec : Section} (hs : m.section s = some sec) :
    ∃ sec', m'.section s = some sec' ∧ N.wiring.ends s = N'.wiring.ends s ∧
      sec.m_dir = sec'.m_dir ∧
        sec.m_dest.map Destination.contents = sec'.m_dest.map Destination.contents ∧
          sec.records = sec'.records := by
  obtain ⟨c, hc, _⟩ := h.section_some hs
  have hmem : writtenSection mj orders (N.wiring.ends s) sec s ∈ sectionEntries mj orders m N :=
    (mem_sectionEntries hv).2 ⟨s, sec, hs, rfl⟩
  rw [heq, mem_sectionEntries hv'] at hmem
  obtain ⟨s', sec', hs', hentry⟩ := hmem
  obtain ⟨d, hd, _⟩ := h'.section_some hs'
  have hkey : cStr s' = cStr s := congrArg Prod.fst hentry
  obtain rfl : s' = s := hcut.sectionIds ⟨(hover'.section hs').1, N'.isId_section hd⟩
    ⟨(hover.section hs).1, N.isId_section hc⟩ hkey
  have hK := hcut.keys ⟨s', Or.inr (hover.section hs).1, N.isId_section hc⟩
  have hlink := congrArg (fun f => linkOf mj f.2) hentry
  simp only [linkOf_writtenSection _ _ _ hmj (slotsBounded_ends _ _)] at hlink
  have hends : N.wiring.ends s' = N'.wiring.ends s' := by
    rcases hq : N.wiring.ends s' with _ | ⟨⟨a, i⟩, ⟨b, j⟩⟩ <;>
      rcases hq' : N'.wiring.ends s' with _ | ⟨⟨c, k⟩, ⟨d, l⟩⟩ <;> simp_all
  have hsection := congrArg sectionOf hentry
  simp only [sectionOf_writtenSection, Section.new, Section.mk.injEq, true_and] at hsection
  obtain ⟨hmeta, hdir, hdest⟩ := hsection
  have hcontents : sec.m_dest.map Destination.contents = sec'.m_dest.map Destination.contents := by
    cases hd : sec.m_dest with
    | none => simpa [hd] using hdest
    | some dest =>
        rw [hd, Option.map_some, Option.map_eq_some_iff] at hdest
        obtain ⟨dest', hd', hcutDest⟩ := hdest
        rw [hd', Option.map_some, Option.map_some, contents_eq_of_cutDestination_eq hK
          (hv.destMetadata hs hd) (hv'.destMetadata hs' hd') (hover.dest hs hd)
          (hover'.dest hs' hd') hcutDest.symm]
  exact ⟨sec', hs', hends, hdir.symm, hcontents, records_eq_of_cutMetadata_eq hK
    (hv.sectionMetadata hs) (hv'.sectionMetadata hs') (hover.section hs).2 (hover'.section hs').2
    hmeta.symm⟩

/-- **Models written alike are the same**, when their strings stay apart. -/
theorem sameAs_of_entries_eq (hnodes : nodeEntries orders m = nodeEntries orders' m')
    (hsections : sectionEntries mj orders m N = sectionEntries mj orders' m' N') : m.SameAs m' := by
  have hnode := fun n node (hn : m.node n = some node) =>
    exists_node_of_nodeEntries_eq hcut h h' hv hv' hover hover' hnodes hn
  have hnode' := fun n node (hn : m'.node n = some node) =>
    exists_node_of_nodeEntries_eq hcut h' h hv' hv hover' hover hnodes.symm hn
  have hsec := fun s sec (hs : m.section s = some sec) =>
    exists_section_of_sectionEntries_eq hmj hcut h h' hv hv' hover hover' hsections hs
  have hsec' := fun s sec (hs : m'.section s = some sec) =>
    exists_section_of_sectionEntries_eq hmj hcut h' h hv' hv hover' hover hsections.symm hs
  have hwiring : N.wiring = N'.wiring := by
    refine Wiring.eq_of_ends (funext fun s => Option.ext fun q => ⟨fun hq => ?_, fun hq => ?_⟩)
    · obtain ⟨c, hc⟩ := N.cable_exists hq
      obtain ⟨_, _, hends, _⟩ := hsec _ _ (h.section_of_attrs hc)
      exact hends ▸ hq
    · obtain ⟨c, hc⟩ := N'.cable_exists hq
      obtain ⟨_, _, hends, _⟩ := hsec' _ _ (h'.section_of_attrs hc)
      exact hends ▸ hq
  refine .of_exists (fun n node hn => ?_) ?_ (fun s sec hs => ?_) ?_
  · obtain ⟨node', hn', htype, hrecords⟩ := hnode n node hn
    obtain ⟨a, _, rfl⟩ := h.node_some hn
    obtain ⟨b, _, rfl⟩ := h'.node_some hn'
    refine ⟨_, hn', rfl, htype, fun k => ?_, hrecords⟩
    rw [N.slotAt_toNode, N'.slotAt_toNode, hwiring]
  · intro n node' hn'
    obtain ⟨node, hn, _⟩ := hnode' n node' hn'
    exact ⟨node, hn⟩
  · obtain ⟨sec', hs', hends, hdir, hdest, hrecords⟩ := hsec s sec hs
    obtain ⟨c, _, rfl⟩ := h.section_some hs
    obtain ⟨d, _, rfl⟩ := h'.section_some hs'
    refine ⟨_, hs', rfl, ?_, ?_, hdir, hdest, hrecords⟩ <;> simp only [Network.toSection, hends]
  · intro s sec' hs'
    obtain ⟨sec, hs, _⟩ := hsec' s sec' hs'
    exact ⟨sec, hs⟩

end Alike

end PiwcsPrw
