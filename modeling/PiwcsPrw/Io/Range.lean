/-
# What can be read

The models that `readModel` of `src/io_read.cpp` can return.

A document can say everything about a model but one thing: metadata are read into a
map that is allocated for the first record, so no empty map is ever read.  With
that exception **every reachable model can be read from some document, and no other
can** (`exists_readModel_iff`).  The document is not always one that `writeModel` of
`src/io_write.cpp` writes, which cuts names at a NUL.
-/

import PiwcsPrw.Io.Accept
import PiwcsPrw.Io.WriteNetwork
import PiwcsPrw.Runs.Exact

namespace PiwcsPrw

open Json (lastOf)

/-- No entity has a metadata map without records. -/
structure Model.NoEmptyMaps (m : Model) : Prop where
  node : ∀ {n node}, m.node n = some node → node.m_meta ≠ some ∅
  «section» : ∀ {s sec}, m.section s = some sec → sec.m_meta ≠ some ∅
  dest : ∀ {s sec dest}, m.section s = some sec → sec.m_dest = some dest → dest.m_meta ≠ some ∅

/-! ### Metadata -/

/-- A map that records were put into is not empty. -/
theorem addRecords_ne_empty (rs : List (Bytes × Bytes)) : addRecords none rs ≠ some ∅ := by
  cases rs using List.reverseRecOn with
  | nil => nofun
  | append_singleton rs r =>
      rw [addRecords_append]
      intro h
      have hlookup : ((addRecords none rs).getD ∅ |>.insert r.1 r.2).lookup r.1 = none := by
        rw [Option.some.inj h]
        rfl
      rw [Finmap.lookup_insert] at hlookup
      cases hlookup

/-- Records that list a map make that map. -/
theorem addRecords_walk {md : Metadata} (hmd : md ≠ ∅) {order : List Identifier}
    (hv : Finmap.Visits order md) : addRecords none (md.walk order) = some md := by
  have hlookup : (addRecords none (md.walk order)).getD ∅ = md := Finmap.ext_lookup fun key => by
    have hrecords := lookup_records_addRecords (md.walk order) key
    rw [HasMetadata.records] at hrecords
    have hnodup : ((md.walk order).map Prod.fst).Nodup := by
      rw [Finmap.map_fst_walk fun k hk => (hv.mem_iff k).1 hk]
      exact hv.nodup
    refine hrecords.trans (Option.ext fun v => ?_)
    rw [Json.lastOf_eq_some_iff hnodup, Finmap.mem_walk hv]
  cases h : addRecords none (md.walk order) with
  | none =>
      rw [h, Option.getD_none] at hlookup
      exact absurd hlookup.symm hmd
  | some md' =>
      rw [h, Option.getD_some] at hlookup
      rw [hlookup]

/-- All metadata without an empty map can be written into an entry. -/
theorem exists_metadataFields {obj : HasMetadata} (h : obj.m_meta ≠ some ∅) : ∃ fields : Fields,
    (∀ f ∈ fields, f.1 = ascii "metadata" ∧ IsMetadata f.2) ∧ metadataOf fields = obj := by
  obtain ⟨md?⟩ := obj
  cases md? with
  | none => exact ⟨[], List.forall_mem_nil _, rfl⟩
  | some md =>
      obtain ⟨order, hv⟩ := Finmap.exists_visits md
      refine ⟨[(ascii "metadata", .object ((md.walk order).map fun r => (r.1, .string r.2)))],
        List.forall_mem_singleton.2 ⟨rfl, _, rfl, fun f hf => ?_, List.forall_mem_nil _⟩, ?_⟩
      · obtain ⟨r, _, rfl⟩ := List.mem_map.1 hf
        exact ⟨r.2, rfl⟩
      · have hrecords : allRecords [(ascii "metadata",
            .object ((md.walk order).map fun r => (r.1, .string r.2)))] = md.walk order := by
          simp [allRecords, recordsOf, fieldsOf, recordOf, string?, Function.comp_def]
        rw [metadataOf, hrecords, addRecords_walk (fun hmd => h (by rw [hmd])) hv]

section Fields

variable {plain fields : Fields} (hfields : ∀ f ∈ fields, f.1 = ascii "metadata" ∧ IsMetadata f.2)

include hfields

/-- Metadata fields at the end hide no other field. -/
theorem lastOf_append_metadata {name : Bytes} (hname : name ≠ ascii "metadata") :
    lastOf name (plain ++ fields) = lastOf name plain := by
  rw [Json.lastOf_append, Json.lastOf_eq_none, Option.none_or]
  intro hmem
  obtain ⟨f, hf, rfl⟩ := List.mem_map.1 hmem
  exact hname (hfields f hf).1

omit hfields in
/-- Other fields in front add no metadata. -/
theorem metadataOf_append (hplain : ∀ f ∈ plain, f.1 ≠ ascii "metadata") :
    metadataOf (plain ++ fields) = metadataOf fields := by
  have hnone : allRecords plain = [] := List.flatMap_eq_nil_iff.2 fun f hf => if_neg (hplain f hf)
  rw [metadataOf, metadataOf, allRecords_append, hnone, List.nil_append]

end Fields

/-! ### Entries -/

/-- Every node has an entry. -/
theorem exists_nodeEntry (type : NodeType) (id : Identifier) {obj : HasMetadata}
    (h : obj.m_meta ≠ some ∅) : ∃ v, IsNode v ∧
      nodeOf (id, v) = { Node.new type id with toHasMetadata := obj } := by
  obtain ⟨fields, hfields, hobj⟩ := exists_metadataFields h
  refine ⟨.object ([(ascii "type", .string type.info.name)] ++ fields),
    ⟨_, rfl, fun f hf => ?_, fun name hname => ?_⟩, ?_⟩
  · rcases List.mem_append.1 hf with hf | hf
    · obtain rfl := List.mem_singleton.1 hf
      exact Or.inl ⟨rfl, type, rfl⟩
    · exact Or.inr (hfields f hf)
  · rw [List.mem_singleton.1 hname]
    exact List.mem_cons_self ..
  · have htype : typeOf (.object ([(ascii "type", .string type.info.name)] ++ fields))
        = some type := by
      rw [typeOf, fieldsOf, lastOf_append_metadata hfields (by decide)]
      exact nodeType?_eq_some_iff.2 rfl
    rw [nodeOf, htype, fieldsOf, metadataOf_append
      (List.forall_mem_singleton.2 (by decide : ascii "type" ≠ ascii "metadata")), hobj]
    rfl

/-- Every destination has an object. -/
theorem exists_destObject {dest : Destination} (h : dest.m_meta ≠ some ∅) :
    ∃ v, IsDest v ∧ destOf v = dest := by
  obtain ⟨fields, hfields, hobj⟩ := exists_metadataFields h
  have hplain : ∀ f ∈ [(ascii "address", (.string dest.m_address : Doc)),
      (ascii "name", .string dest.m_name)], f.1 = ascii "address" ∨ f.1 = ascii "name" := by simp
  refine ⟨.object ([(ascii "address", .string dest.m_address), (ascii "name", .string dest.m_name)]
    ++ fields), ⟨_, rfl, fun f hf => ?_, fun name hname => ?_⟩, ?_⟩
  · rcases List.mem_append.1 hf with hf | hf
    · refine Or.inl ⟨hplain f hf, ?_⟩
      simp only [List.mem_cons, List.not_mem_nil, or_false] at hf
      rcases hf with rfl | rfl <;> exact ⟨_, rfl⟩
    · exact Or.inr (hfields f hf)
  · simp only [List.mem_cons, List.not_mem_nil, or_false] at hname
    rcases hname with rfl | rfl <;> simp
  · rw [destOf, fieldsOf, lastOf_append_metadata hfields (by decide),
      lastOf_append_metadata hfields (by decide), metadataOf_append fun f hf => ?_, hobj]
    · rfl
    · rcases hplain f hf with hname | hname <;> rw [hname] <;> decide

section Entries

variable {mj : Minijson} (hmj : mj.KeepsSlots)

include hmj

/-- Every cable and direction has its fields. -/
theorem exists_linkFields (dir : AllowedTravel) {ends : Option (Port × Port)}
    (hends : SlotsBounded ends) : ∃ plain : Fields, (∀ f ∈ plain, SectionField mj f) ∧
      (∀ f ∈ plain, f.1 = ascii "link" ∨ f.1 = ascii "dir") ∧
        (lastOf (ascii "dir") plain).bind dir? = some dir ∧
          (lastOf (ascii "link") plain).elim {} (fun l => linkFields mj (fieldsOf l))
            = ends.elim {} fun q => ⟨some q.1.1, some q.1.2, some q.2.1, some q.2.2⟩ := by
  -- They are those that are written for a section that has nothing else.
  let orders : Orders := ⟨[], [], fun _ => [], fun _ => [], fun _ => []⟩
  let bare := Section.new ID_NULL dir none
  let plain : Fields := writtenLink mj ends ++ [(ascii "dir", .string (dirName dir))]
  have hplain : (writtenSection mj orders ends bare ID_NULL).2 = .object (plain ++ [] ++ []) := rfl
  rw [List.append_nil, List.append_nil] at hplain
  have hsection : IsSection mj (.object plain) :=
    hplain ▸ isSection_writtenSection orders bare ID_NULL hmj hends
  have hlink : linkOf mj (.object plain) =
      ends.elim {} fun q => ⟨some q.1.1, some q.1.2, some q.2.1, some q.2.2⟩ :=
    hplain ▸ linkOf_writtenSection orders bare ID_NULL hmj hends
  obtain ⟨_, hobject, hfields, _⟩ := hsection
  obtain rfl := Json.object.inj hobject
  refine ⟨plain, hfields, fun f hf => ?_, ?_, hlink⟩
  · rcases List.mem_append.1 hf with hf | hf
    · cases ends with
      | none => cases hf
      | some q => exact Or.inl (congrArg Prod.fst (List.mem_singleton.1 hf))
    · exact Or.inr (congrArg Prod.fst (List.mem_singleton.1 hf))
  · rw [Json.lastOf_append_singleton, if_pos rfl, Option.bind_some]
    exact dir?_dirName dir

/-- Every section, connected or not, has an entry. -/
theorem exists_sectionEntry (id : Identifier) (dir : AllowedTravel) {dest : Option Destination}
    (hdest : ∀ d, dest = some d → d.m_meta ≠ some ∅) {obj : HasMetadata}
    (h : obj.m_meta ≠ some ∅) {ends : Option (Port × Port)} (hends : SlotsBounded ends) :
    ∃ v, IsSection mj v ∧
      sectionOf (id, v) = { Section.new id dir dest with toHasMetadata := obj } ∧
        linkOf mj v = ends.elim {} fun q => ⟨some q.1.1, some q.1.2, some q.2.1, some q.2.2⟩ := by
  obtain ⟨fields, hfields, hobj⟩ := exists_metadataFields h
  obtain ⟨plain, hplain, hnames, hdir, hlink⟩ := exists_linkFields hmj dir hends
  obtain ⟨destFields, hdestFields, hdestOf⟩ : ∃ destFields : Fields,
      (∀ f ∈ destFields, f.1 = ascii "dest" ∧ IsDest f.2) ∧
        (lastOf (ascii "dest") destFields).map destOf = dest := by
    cases dest with
    | none => exact ⟨[], List.forall_mem_nil _, rfl⟩
    | some d =>
        obtain ⟨v, hv, rfl⟩ := exists_destObject (hdest d rfl)
        exact ⟨[(ascii "dest", v)], List.forall_mem_singleton.2 ⟨rfl, hv⟩, rfl⟩
  have hlast : ∀ name, name = ascii "link" ∨ name = ascii "dir" →
      lastOf name (plain ++ destFields ++ fields) = lastOf name plain := fun name hname => by
    rw [lastOf_append_metadata hfields (by rcases hname with rfl | rfl <;> decide),
      Json.lastOf_append, Json.lastOf_eq_none, Option.none_or]
    intro hmem
    obtain ⟨f, hf, rfl⟩ := List.mem_map.1 hmem
    rw [(hdestFields f hf).1] at hname
    revert hname
    decide
  have hnone : lastOf (ascii "dest") plain = none := Json.lastOf_eq_none fun hmem => by
    obtain ⟨f, hf, hname⟩ := List.mem_map.1 hmem
    have hlinkdir := hnames f hf
    rw [hname] at hlinkdir
    revert hlinkdir
    decide
  have hlastDest : lastOf (ascii "dest") (plain ++ destFields ++ fields)
      = lastOf (ascii "dest") destFields := by
    rw [lastOf_append_metadata hfields (by decide), Json.lastOf_append, hnone, Option.or_none]
  have hnotMeta : ∀ f ∈ plain ++ destFields, f.1 ≠ ascii "metadata" := fun f hf => by
    rcases List.mem_append.1 hf with hf | hf
    · rcases hnames f hf with hname | hname <;> rw [hname] <;> decide
    · rw [(hdestFields f hf).1]
      decide
  refine ⟨.object (plain ++ destFields ++ fields), ⟨_, rfl, fun f hf => ?_, List.forall_mem_nil _⟩,
    ?_, ?_⟩
  · rcases List.mem_append.1 hf with hf | hf
    · rcases List.mem_append.1 hf with hf | hf
      · exact hplain f hf
      · exact Or.inr (Or.inr (Or.inl (hdestFields f hf)))
    · exact Or.inr (Or.inr (Or.inr (hfields f hf)))
  · rw [sectionOf, fieldsOf, hlast _ (Or.inr rfl), hdir, hlastDest, hdestOf,
      metadataOf_append hnotMeta, hobj]
    rfl
  · rw [linkOf, fieldsOf, hlast _ (Or.inl rfl), hlink]

/-! ### Documents -/

omit hmj in
/-- What is read has no empty map. -/
theorem Model.Describes.noEmptyMaps {m : Model} {nodes sections : Fields}
    (h : m.Describes mj nodes sections) : m.NoEmptyMaps := by
  constructor
  case node =>
    intro n node hn
    obtain ⟨f, hf, rfl⟩ := (h.node_iff n).1 ⟨node, hn⟩
    obtain ⟨node', hn', _, _, hmeta⟩ := h.node f hf
    obtain rfl := Option.some.inj (hn.symm.trans hn')
    rw [hmeta]
    exact addRecords_ne_empty _
  case «section» =>
    intro s sec hs
    obtain ⟨f, hf, rfl⟩ := (h.section_iff s).1 ⟨sec, hs⟩
    obtain ⟨_, _, hs', _⟩ := h.section f hf
    obtain rfl := Option.some.inj (hs.symm.trans hs')
    exact addRecords_ne_empty _
  case dest =>
    intro s sec dest hs hd
    obtain ⟨f, hf, rfl⟩ := (h.section_iff s).1 ⟨sec, hs⟩
    obtain ⟨_, _, hs', _⟩ := h.section f hf
    obtain rfl := Option.some.inj (hs.symm.trans hs')
    obtain ⟨v, _, rfl⟩ := Option.map_eq_some_iff.1 hd
    exact addRecords_ne_empty _

omit hmj in
/-- The calls of entries under distinct keys are distinct. -/
theorem nodup_requests {nodes sections : Fields} (hn : (nodes.map Prod.fst).Nodup)
    (hs : (sections.map Prod.fst).Nodup) : (requests mj nodes sections).Nodup := by
  refine List.nodup_append.2 ⟨?_, List.nodup_flatMap.2 ⟨fun f _ => ?_, ?_⟩, ?_⟩
  · refine List.pairwise_map.2 ((List.pairwise_map.1 hn).imp fun hne heq => hne ?_)
    exact congrArg Node.m_id (Op.addNode.inj heq)
  · refine List.nodup_cons.2 ⟨fun hmem => ?_, ?_⟩
    · obtain ⟨a, i, b, j, _, hop⟩ := mem_linkRequest.1 hmem
      cases hop
    · rw [linkRequest]
      split
      · exact List.nodup_singleton _
      · exact .nil
  · refine (List.pairwise_map.1 hs).imp fun {f g} hne op hf hg => hne ?_
    rcases List.mem_cons.1 hf with rfl | hf <;> rcases List.mem_cons.1 hg with heq | hg
    · exact congrArg Section.m_id (Op.addSection.inj heq)
    · obtain ⟨_, _, _, _, _, hop⟩ := mem_linkRequest.1 hg
      cases hop
    · obtain ⟨_, _, _, _, _, rfl⟩ := mem_linkRequest.1 hf
      cases heq
    · obtain ⟨_, _, _, _, _, rfl⟩ := mem_linkRequest.1 hf
      obtain ⟨_, _, _, _, _, hop⟩ := mem_linkRequest.1 hg
      exact (Op.link.inj hop).1
  · intro op hop op' hop' heq
    subst heq
    obtain ⟨f, _, rfl⟩ := List.mem_map.1 hop
    obtain ⟨g, _, hg⟩ := List.mem_flatMap.1 hop'
    rcases List.mem_cons.1 hg with hg | hg
    · cases hg
    · obtain ⟨_, _, _, _, _, hg⟩ := mem_linkRequest.1 hg
      cases hg

omit hmj in
/-- One field for each key of a finite set. -/
theorem exists_fields {keys : Finset Bytes} {P : Bytes → Doc → Prop}
    (h : ∀ key ∈ keys, ∃ v, P key v) : ∃ fields : Fields, (fields.map Prod.fst).Nodup ∧
      (∀ f ∈ fields, P f.1 f.2) ∧ ∀ key, (∃ v, (key, v) ∈ fields) ↔ key ∈ keys := by
  have : Nonempty Doc := ⟨.null⟩
  choose! doc hdoc using h
  refine ⟨keys.toList.map fun key => (key, doc key), ?_, fun f hf => ?_, fun key => ?_⟩
  · simpa [Function.comp_def] using keys.nodup_toList
  · obtain ⟨key, hkey, rfl⟩ := List.mem_map.1 hf
    exact hdoc key (Finset.mem_toList.1 hkey)
  · simp

variable {m : Model} {N : Network} (h : m.Refines N) (hm : m.NoEmptyMaps)

include h hm

omit hmj in
/-- The nodes of a model have entries. -/
theorem exists_nodes : ∃ nodes : Fields, (nodes.map Prod.fst).Nodup ∧ (∀ f ∈ nodes, IsNode f.2) ∧
    ∀ node, (∃ f ∈ nodes, nodeOf f = node) ↔
      ∃ n a, N.nodes n = some a ∧ { Node.new a.type n with toHasMetadata := a.data } = node := by
  have hentry : ∀ n ∈ m.m_nodes.keys, ∃ v, ∃ a, N.nodes n = some a ∧ IsNode v ∧
      nodeOf (n, v) = { Node.new a.type n with toHasMetadata := a.data } := fun n hn => by
    obtain ⟨node, hnode⟩ := Model.exists_node_iff.2 (Finmap.mem_keys.1 hn)
    obtain ⟨a, ha, rfl⟩ := h.node_some hnode
    obtain ⟨v, hv⟩ := exists_nodeEntry a.type n (hm.node hnode)
    exact ⟨v, a, ha, hv⟩
  obtain ⟨nodes, hnodup, hnodes, hkeys⟩ := exists_fields hentry
  refine ⟨nodes, hnodup, fun f hf => (hnodes f hf).choose_spec.2.1, fun node => ⟨?_, ?_⟩⟩
  · rintro ⟨f, hf, rfl⟩
    obtain ⟨a, ha, _, hnodeOf⟩ := hnodes f hf
    exact ⟨f.1, a, ha, hnodeOf.symm⟩
  · rintro ⟨n, a, ha, rfl⟩
    obtain ⟨v, hv⟩ := (hkeys n).2
      (Finmap.mem_keys.2 (Model.exists_node_iff.1 ⟨_, h.node_of_attrs ha⟩))
    obtain ⟨b, hb, _, hnodeOf⟩ := hnodes _ hv
    obtain rfl := Option.some.inj (ha.symm.trans hb)
    exact ⟨_, hv, hnodeOf⟩

/-- And so do its sections, with their links. -/
theorem exists_sections : ∃ sections : Fields, (sections.map Prod.fst).Nodup ∧
    (∀ f ∈ sections, IsSection mj f.2 ∧ (linkOf mj f.2).Whole) ∧
      (∀ sec, (∃ f ∈ sections, sectionOf f = sec) ↔ ∃ s c, N.sections s = some c ∧
        { Section.new s c.dir c.dest with toHasMetadata := c.data } = sec) ∧
        ∀ s a i b j, (∃ f ∈ sections, f.1 = s ∧ AsksLink mj f a i b j) ↔
          N.wiring.ends s = some ((a, i), (b, j)) := by
  have hentry : ∀ s ∈ m.m_sections.keys, ∃ v, ∃ c, N.sections s = some c ∧ IsSection mj v ∧
      sectionOf (s, v) = { Section.new s c.dir c.dest with toHasMetadata := c.data } ∧
        linkOf mj v = (N.wiring.ends s).elim {} fun q =>
          ⟨some q.1.1, some q.1.2, some q.2.1, some q.2.2⟩ := fun s hs => by
    obtain ⟨sec, hsec⟩ := Model.exists_section_iff.2 (Finmap.mem_keys.1 hs)
    obtain ⟨c, hc, rfl⟩ := h.section_some hsec
    obtain ⟨v, hv⟩ := exists_sectionEntry hmj s c.dir (fun d hd => hm.dest hsec hd)
      (hm.section hsec) (slotsBounded_ends N s)
    exact ⟨v, c, hc, hv⟩
  obtain ⟨sections, hnodup, hsections, hkeys⟩ := exists_fields hentry
  have hfield : ∀ {s c}, N.sections s = some c → ∃ v, (s, v) ∈ sections := fun hc =>
    (hkeys _).2 (Finmap.mem_keys.2 (Model.exists_section_iff.1 ⟨_, h.section_of_attrs hc⟩))
  have hlink : ∀ f ∈ sections, ∀ a i b j,
      AsksLink mj f a i b j ↔ N.wiring.ends f.1 = some ((a, i), (b, j)) := fun f hf a i b j => by
    obtain ⟨_, _, _, _, hlinkOf⟩ := hsections f hf
    rw [AsksLink, hlinkOf]
    rcases N.wiring.ends f.1 with _ | ⟨⟨x, k⟩, ⟨y, l⟩⟩ <;> simp [and_assoc]
  refine ⟨sections, hnodup, fun f hf => ?_, fun sec => ⟨?_, ?_⟩, fun s a i b j => ⟨?_, ?_⟩⟩
  · obtain ⟨_, _, hsec, _, hlinkOf⟩ := hsections f hf
    refine ⟨hsec, ?_⟩
    rw [hlinkOf]
    cases N.wiring.ends f.1 with
    | none => exact Or.inl rfl
    | some q => exact Or.inr ⟨_, _, _, _, rfl⟩
  · rintro ⟨f, hf, rfl⟩
    obtain ⟨c, hc, _, hsectionOf, _⟩ := hsections f hf
    exact ⟨f.1, c, hc, hsectionOf.symm⟩
  · rintro ⟨s, c, hc, rfl⟩
    obtain ⟨v, hv⟩ := hfield hc
    obtain ⟨d, hd, _, hsectionOf, _⟩ := hsections _ hv
    obtain rfl := Option.some.inj (hc.symm.trans hd)
    exact ⟨_, hv, hsectionOf⟩
  · rintro ⟨f, hf, rfl, hasks⟩
    exact (hlink f hf a i b j).1 hasks
  · intro hq
    obtain ⟨c, hc⟩ := N.cable_exists hq
    obtain ⟨v, hv⟩ := hfield hc
    exact ⟨_, hv, rfl, (hlink _ hv a i b j).2 hq⟩

/-- **A model of a network without empty maps has a document**, whose calls build it. -/
theorem exists_document : ∃ nodes sections : Fields, WellFormedEntries mj nodes sections ∧
    (requests mj nodes sections).Nodup ∧ N.Built (requests mj nodes sections) := by
  obtain ⟨nodes, hn, hnodes, hnodeOf⟩ := exists_nodes h hm
  obtain ⟨sections, hs, hsections, hsectionOf, hlink⟩ := exists_sections hmj h hm
  refine ⟨nodes, sections, ⟨hnodes, hsections⟩, nodup_requests hn hs, ⟨?_, ?_, ?_⟩⟩
  · intro n a
    simp only [addNode_mem_requests, hnodeOf]
    constructor
    · intro ha
      exact ⟨_, ⟨n, a, ha, rfl⟩, rfl, rfl⟩
    · rintro ⟨_, ⟨n, b, hb, rfl⟩, rfl, rfl⟩
      exact hb
  · intro s c
    simp only [addSection_mem_requests, hsectionOf]
    constructor
    · intro hc
      exact ⟨_, ⟨s, c, hc, rfl⟩, rfl, rfl⟩
    · rintro ⟨_, ⟨s, d, hd, rfl⟩, rfl, rfl⟩
      exact hd
  · intro s a i b j
    rw [link_mem_requests, hlink]

omit h hm in
/-- **What `readModel` can return**: the reachable models without empty maps. -/
theorem exists_readModel_iff :
    (∃ doc, readModel mj doc = .ok m) ↔ Reachable m ∧ m.NoEmptyMaps := by
  constructor
  · rintro ⟨doc, hread⟩
    obtain ⟨_, _, _, _, N, _, hN⟩ := (readModel_eq_ok_iff mj).1 hread
    obtain ⟨_, _, _, _, _, hm⟩ := (readModel_eq_ok_iff_describes mj).1 hread
    exact ⟨hN.reachable, hm.noEmptyMaps⟩
  · rintro ⟨h, hm⟩
    obtain ⟨N, hN⟩ := h.refines
    obtain ⟨nodes, sections, hwf, hnodup, hbuilt⟩ := exists_document hmj hN hm
    have hcon := (buildable_requests_iff hwf).1
      (hbuilt.buildable (builds_requests mj nodes sections) hnodup)
    exact ⟨_, (readModel_eq_ok_iff_describes mj).2 ⟨nodes, sections, rfl, hcon,
      fun s hs => (hwf.section s hs).2, hN.describes hcon hbuilt⟩⟩

end Entries

/-- Metadata with one record, whose key has a NUL in it. -/
def nulRecord : HasMetadata where
  m_meta := some (Finmap.insert [97, 0, 98] (ascii "x") ∅)

/-- Some document is read as the small example with that record, whose key `writeModel` would
cut. -/
theorem exists_readModel_smallExample : ∃ doc, readModel .plain doc =
    .ok (smallExample.setSectionMetadata (ascii "S400") nulRecord) := by
  have hreach : Reachable (smallExample.setSectionMetadata (ascii "S400") nulRecord) :=
    .call (.sectionMetadata _ _) reachable_smallExample trivial rfl
  refine (exists_readModel_iff (show ∀ k < 4, _ by decide)).2 ⟨hreach, ?_⟩
  have hsmall : ∀ {s sec}, smallExample.section s = some sec →
      sec.m_meta = none ∧ sec.m_dest = none := by
    intro s sec hs
    rw [Model.section, smallExample, Finmap.lookup_insert_eq] at hs
    split_ifs at hs
    · cases hs
      exact ⟨rfl, rfl⟩
    · cases hs
  have hsec : ∀ {s sec}, (smallExample.setSectionMetadata (ascii "S400") nulRecord).section s
      = some sec → sec.m_meta ≠ some ∅ ∧ sec.m_dest = none := by
    intro s sec hs
    by_cases hkey : s = ascii "S400"
    · subst hkey
      obtain rfl := Option.some.inj hs
      exact ⟨by decide, rfl⟩
    · have hother : smallExample.section s = some sec :=
        (Finmap.lookup_insert_of_ne _ hkey).symm.trans hs
      rw [(hsmall hother).1, (hsmall hother).2]
      exact ⟨(Option.some_ne_none _).symm, rfl⟩
  refine ⟨fun {n node} hn => ?_, fun hs => (hsec hs).1, fun hs hdest => ?_⟩
  · change smallExample.node n = some node at hn
    rw [Model.node, smallExample, Finmap.lookup_insert_eq, Finmap.lookup_insert_eq] at hn
    split_ifs at hn <;> cases hn <;> exact (Option.some_ne_none _).symm
  · rw [(hsec hs).2] at hdest
    cases hdest

end PiwcsPrw
