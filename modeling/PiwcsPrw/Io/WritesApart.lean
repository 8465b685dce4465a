/-
# When no two models are written alike

`writeModel` of `src/io_write.cpp`, with `isId` of `src/util.cpp`, which lets every
byte into an ID.

`WritesApart` says of given sets of node IDs, section IDs and metadata keys that no
two different models with these strings are written alike, and that no document
written for one repeats a key.  It holds exactly when the strings of each set stay
apart up to their first NUL (`writesApart_iff`); a node and a section may be cut alike,
being written into different objects.  For all strings together it fails: an ID or a
key with a NUL is written like a shorter one (`not_writesApart`).
-/

import PiwcsPrw.Io.CutKeys

namespace PiwcsPrw

/-- The document can be written for the model. -/
structure Model.Yields (mj : Minijson) (m : Model) (doc : Doc) : Prop where
  reachable : Reachable m
  written : ∃ orders : Orders, orders.Visit m ∧ writeModel mj orders m = .ok doc

/-- Models over the strings are never written alike, nor with a repeated key. -/
structure WritesApart (mj : Minijson) (I J K : Set Bytes) : Prop where
  sameAs : ∀ {m m' : Model} {doc : Doc}, m.Yields mj doc → m'.Yields mj doc → m.Over I J K →
    m'.Over I J K → m.SameAs m'
  distinct : ∀ {m : Model} {doc : Doc}, m.Yields mj doc → m.Over I J K → doc.DistinctNames

/-! ### Repeated keys -/

section Distinct

variable {K : Set Bytes} (hK : Set.InjOn cStr K)

/-- At most one field is written for metadata. -/
theorem names_writeMetadata (order : List Identifier) (obj : HasMetadata) :
    (writeMetadata order obj).map Prod.fst = [] ∨
      (writeMetadata order obj).map Prod.fst = [ascii "metadata"] := by
  rw [writeMetadata]
  split
  · exact Or.inl rfl
  · exact Or.inr rfl

include hK

/-- A written metadata object repeats no key. -/
theorem distinctNames_writeMetadata {order : List Identifier} {obj : HasMetadata}
    (hv : Finmap.Visits order obj.records) (hobj : ∀ k ∈ obj.records, k ∈ K) :
    ∀ f ∈ writeMetadata order obj, f.2.DistinctNames := by
  intro f hf
  rw [writeMetadata] at hf
  split at hf
  · cases hf
  · obtain rfl := List.mem_singleton.1 hf
    refine .object ?_ fun g hg => ?_
    · rw [List.map_map]
      exact (hv.map_walk cStr).symm ▸ hv.nodup_map (hK.mono hobj)
    · obtain ⟨r, _, rfl⟩ := List.mem_map.1 hg
      exact .string r.2

/-- A written node repeats no name, nor do its metadata. -/
theorem distinctNames_writeNode {order : List Identifier} {node : Node}
    (hv : Finmap.Visits order node.records) (hnode : ∀ k ∈ node.records, k ∈ K) (id : Bytes) :
    (writeNode order node id).2.DistinctNames := by
  refine .object ?_ (List.forall_mem_cons.2 ⟨.string _, distinctNames_writeMetadata hK hv hnode⟩)
  rw [List.map_cons]
  rcases names_writeMetadata order node.toHasMetadata with h | h <;> rw [h] <;> simp +decide

/-- A written destination repeats no name, nor do its metadata. -/
theorem distinctNames_writeDestination {order : List Identifier} {sec : Section}
    (hv : ∀ dest, sec.m_dest = some dest → Finmap.Visits order dest.records)
    (hsec : ∀ dest, sec.m_dest = some dest → ∀ k ∈ dest.records, k ∈ K) :
    ∀ f ∈ writeDestination order sec, f.2.DistinctNames := by
  intro f hf
  rw [writeDestination] at hf
  split at hf
  · cases hf
  · rename_i dest hd
    obtain rfl := List.mem_singleton.1 hf
    refine .object ?_ fun g hg => ?_
    · rw [List.map_append]
      rcases names_writeMetadata order dest.toHasMetadata with h | h <;> rw [h] <;> simp +decide
    · rcases List.mem_append.1 hg with hg | hg
      · simp only [List.mem_cons, List.not_mem_nil, or_false] at hg
        rcases hg with rfl | rfl <;> exact .string _
      · exact distinctNames_writeMetadata hK (hv dest hd) (hsec dest hd) g hg

/-- A written section repeats no name, nor does anything in it. -/
theorem distinctNames_writtenSection {mj : Minijson} {orders : Orders}
    {ends : Option (Port × Port)} {sec : Section} {id : Bytes}
    (hv : Finmap.Visits (orders.sectionMetadata id) sec.records)
    (hvd : ∀ dest, sec.m_dest = some dest → Finmap.Visits (orders.destMetadata id) dest.records)
    (hsec : ∀ k ∈ sec.records, k ∈ K)
    (hdest : ∀ dest, sec.m_dest = some dest → ∀ k ∈ dest.records, k ∈ K) :
    (writtenSection mj orders ends sec id).2.DistinctNames := by
  have hlinkNames : (writtenLink mj ends).map Prod.fst = [] ∨
      (writtenLink mj ends).map Prod.fst = [ascii "link"] := by
    cases ends with
    | none => exact Or.inl rfl
    | some q => exact Or.inr rfl
  have hdestNames : (writeDestination (orders.destMetadata id) sec).map Prod.fst = [] ∨
      (writeDestination (orders.destMetadata id) sec).map Prod.fst = [ascii "dest"] := by
    rw [writeDestination]
    cases sec.m_dest with
    | none => exact Or.inl rfl
    | some dest => exact Or.inr rfl
  refine .object ?_ fun f hf => ?_
  · rw [List.map_append, List.map_append, List.map_append]
    rcases hlinkNames with h₁ | h₁ <;> rcases hdestNames with h₂ | h₂ <;>
      rcases names_writeMetadata (orders.sectionMetadata id) sec.toHasMetadata with h₃ | h₃ <;>
      rw [h₁, h₂, h₃] <;> simp +decide
  · simp only [List.append_assoc, List.mem_append, List.mem_singleton] at hf
    rcases hf with hf | rfl | hf | hf
    · cases ends with
      | none => cases hf
      | some q =>
          obtain rfl := List.mem_singleton.1 hf
          refine .object (by simp +decide) fun g hg => ?_
          simp only [List.mem_cons, List.not_mem_nil, or_false] at hg
          rcases hg with rfl | rfl | rfl | rfl
          · exact .string _
          · exact .number _
          · exact .string _
          · exact .number _
    · exact .string _
    · exact distinctNames_writeDestination hK hvd hdest f hf
    · exact distinctNames_writeMetadata hK hv hsec f hf

end Distinct

/-- **No name is repeated in a document written for strings that stay apart.** -/
theorem distinctNames_written {mj : Minijson} {I J K : Set Bytes} (hcut : CutApart I J K)
    {m : Model} {N : Network} (h : m.Refines N) {orders : Orders} (hv : orders.Visit m)
    (hover : m.Over I J K) : (Json.array [.object (nodeEntries orders m),
      .object (sectionEntries mj orders m N)]).DistinctNames := by
  have hnodeId : ∀ {n node}, m.node n = some node → n ∈ I ∧ isId n = true := fun hn =>
    ⟨(hover.node hn).1, let ⟨_, ha, _⟩ := h.node_some hn; N.isId_node ha⟩
  have hsectionId : ∀ {s sec}, m.section s = some sec → s ∈ J ∧ isId s = true := fun hs =>
    ⟨(hover.section hs).1, let ⟨_, hc, _⟩ := h.section_some hs; N.isId_section hc⟩
  refine .array fun v hv' => ?_
  simp only [List.mem_cons, List.not_mem_nil, or_false] at hv'
  rcases hv' with rfl | rfl
  · refine .object (nodup_nodeEntries hv ?_) fun f hf => ?_
    · rintro x ⟨_, hx⟩ y ⟨_, hy⟩ hxy
      exact hcut.nodeIds (hnodeId hx) (hnodeId hy) hxy
    · obtain ⟨n, node, hn, rfl⟩ := (mem_nodeEntries hv).1 hf
      exact distinctNames_writeNode (hcut.keys ⟨n, Or.inl (hnodeId hn).1, (hnodeId hn).2⟩)
        (hv.nodeMetadata hn) (hover.node hn).2 n
  · refine .object (nodup_sectionEntries hv ?_) fun f hf => ?_
    · rintro x ⟨_, hx⟩ y ⟨_, hy⟩ hxy
      exact hcut.sectionIds (hsectionId hx) (hsectionId hy) hxy
    · obtain ⟨s, sec, hs, rfl⟩ := (mem_sectionEntries hv).1 hf
      exact distinctNames_writtenSection (hcut.keys ⟨s, Or.inr (hsectionId hs).1, (hsectionId hs).2⟩)
        (hv.sectionMetadata hs) (fun dest hd => hv.destMetadata hs hd) (hover.section hs).2
        fun dest hd => hover.dest hs hd

/-! ### Metadata of one record -/

/-- The metadata of one record. -/
def oneRecord (key : Identifier) : HasMetadata where
  m_meta := some (Finmap.insert key [] ∅)

/-- Its map is met in one order. -/
theorem visits_oneRecord (key : Identifier) : Finmap.Visits [key] (oneRecord key).records := by
  refine Finmap.visits_iff.2 ⟨List.nodup_singleton key, ?_⟩
  ext x
  simp [oneRecord, HasMetadata.records, Finmap.mem_keys, Finmap.notMem_empty]

/-- Its one key maps to the empty string. -/
theorem lookup_oneRecord (key k : Identifier) :
    (oneRecord key).records.lookup k = if k = key then some [] else none := by
  rw [HasMetadata.records, oneRecord, Option.getD_some, Finmap.lookup_insert_eq,
    Finmap.lookup_empty]

/-- The key is written up to its first NUL. -/
theorem writeMetadata_oneRecord (key : Identifier) : writeMetadata [key] (oneRecord key) =
    [(ascii "metadata", .object [(cStr key, .string [])])] := by
  have hne : (oneRecord key).records ≠ ∅ := by
    intro hempty
    have hlookup := lookup_oneRecord key key
    rw [hempty, if_pos rfl] at hlookup
    cases hlookup
  rw [writeMetadata, HasMetadata.hasMetadata_eq]
  simp [hne, Finmap.walk, lookup_oneRecord]

/-- It has no other key. -/
theorem mem_oneRecord {key k : Identifier} (hk : k ∈ (oneRecord key).records) : k = key := by
  obtain ⟨v, hv⟩ := Finmap.mem_iff.1 hk
  rw [lookup_oneRecord] at hv
  split_ifs at hv with h
  exact h

/-- Different keys make different metadata. -/
theorem oneRecord_injective {k l : Identifier} (h : (oneRecord k).records = (oneRecord l).records) :
    k = l := by
  have hlookup := congrArg (Finmap.lookup k) h
  rw [lookup_oneRecord, lookup_oneRecord, if_pos rfl] at hlookup
  by_contra hne
  rw [if_neg hne] at hlookup
  cases hlookup

/-! ### One node or one section -/

/-- The model of one node with this metadata. -/
def oneNode (id : Identifier) (data : HasMetadata) : Model where
  m_nodes := Finmap.insert id { Node.new .THRU id with toHasMetadata := data } ∅
  m_sections := ∅

/-- The model of one section with this metadata. -/
def oneSection (id : Identifier) (data : HasMetadata) : Model where
  m_nodes := ∅
  m_sections := Finmap.insert id { Section.ofId id with toHasMetadata := data } ∅

/-- The orders of the maps of a model with these entities and this metadata. -/
def oneOrders (nodes sections keys : List Identifier) : Orders where
  nodes := nodes
  sections := sections
  nodeMetadata _ := keys
  sectionMetadata _ := keys
  destMetadata _ := []

/-- A map of one entry is met in one order. -/
theorem visits_insert_empty {α : Type} (id : Identifier) (v : α) :
    Finmap.Visits [id] (Finmap.insert id v (∅ : IdMap α)) :=
  Finmap.visits_iff.2 ⟨List.nodup_singleton id, by
    ext x; simp [Finmap.mem_keys, Finmap.notMem_empty]⟩

section OneEntity

variable {id : Identifier} {data : HasMetadata}

/-- The one node of `oneNode`. -/
theorem node_oneNode {n : Identifier} {node : Node} (hn : (oneNode id data).node n = some node) :
    n = id ∧ node = { Node.new .THRU id with toHasMetadata := data } := by
  rw [Model.node, oneNode, Finmap.lookup_insert_eq] at hn
  split_ifs at hn with h
  · exact ⟨h, (Option.some.inj hn).symm⟩
  · cases hn

/-- The one section of `oneSection`. -/
theorem section_oneSection {s : Identifier} {sec : Section}
    (hs : (oneSection id data).section s = some sec) :
    s = id ∧ sec = { Section.ofId id with toHasMetadata := data } := by
  rw [Model.section, oneSection, Finmap.lookup_insert_eq] at hs
  split_ifs at hs with h
  · exact ⟨h, (Option.some.inj hs).symm⟩
  · cases hs

/-- `oneNode` has no section. -/
theorem section_oneNode {s : Identifier} {sec : Section} :
    (oneNode id data).section s ≠ some sec := nofun

/-- `oneSection` has no node. -/
theorem node_oneSection {n : Identifier} {node : Node} :
    (oneSection id data).node n ≠ some node := nofun

/-- One call adds the node. -/
theorem reachable_oneNode (hid : isId id = true) : Reachable (oneNode id data) := by
  have hcan : Model.empty.CanAddNode { Node.new .THRU id with toHasMetadata := data } :=
    ⟨hid, rfl, fun k _ => congrArg isId (Node.slotAt_new .THRU id k)⟩
  have hop : (Op.addNode { Node.new .THRU id with toHasMetadata := data }).Constructed :=
    ⟨_, _, data, rfl⟩
  have hcall : (Op.addNode { Node.new .THRU id with toHasMetadata := data }).call .empty =
      .ok (true, oneNode id data) := by
    rw [Op.call, Model.addNode_ok hcan]
    rfl
  exact .call _ .empty hop hcall

/-- One call adds the section. -/
theorem reachable_oneSection (hid : isId id = true) : Reachable (oneSection id data) := by
  have hcan : Model.empty.CanAddSection { Section.ofId id with toHasMetadata := data } :=
    ⟨hid, rfl, fun _ _ _ hother => absurd hother nofun, rfl, rfl⟩
  have hop : (Op.addSection { Section.ofId id with toHasMetadata := data }).Constructed :=
    ⟨_, _, _, data, rfl⟩
  have hcall : (Op.addSection { Section.ofId id with toHasMetadata := data }).call .empty =
      .ok (true, oneSection id data) := by
    rw [Op.call, Model.addSection_ok hcan]
    rfl
  exact .call _ .empty hop hcall

/-- What is written for the node. -/
theorem yields_oneNode (mj : Minijson) (hid : isId id = true) {keys : List Identifier}
    (hkeys : Finmap.Visits keys data.records) : (oneNode id data).Yields mj
      (.array [.object [(cStr id, .object ((ascii "type", .string (ascii "THRU")) ::
        writeMetadata keys data))], .object []]) := by
  have hsections : Finmap.Visits [] (∅ : IdMap Section) := by decide
  refine ⟨reachable_oneNode hid, oneOrders [id] [] keys,
    ⟨visits_insert_empty _ _, hsections, ?_, ?_, ?_⟩, ?_⟩
  · intro n node hn
    rw [(node_oneNode hn).2]
    exact hkeys
  · exact fun hs => absurd hs section_oneNode
  · exact fun hs => absurd hs section_oneNode
  · simp [writeModel, writeNodes, writeSections, oneNode, oneOrders, Finmap.walk, bind,
      Except.bind, pure, Except.pure]
    rfl

/-- What is written for the section. -/
theorem yields_oneSection (mj : Minijson) (hid : isId id = true) {keys : List Identifier}
    (hkeys : Finmap.Visits keys data.records) : (oneSection id data).Yields mj
      (.array [.object [], .object [(cStr id, .object ((ascii "dir", .string (ascii "UNIDIR")) ::
        writeMetadata keys data))]]) := by
  have hnodes : Finmap.Visits [] (∅ : IdMap Node) := by decide
  refine ⟨reachable_oneSection hid, oneOrders [] [id] keys,
    ⟨hnodes, visits_insert_empty _ _, ?_, ?_, ?_⟩, ?_⟩
  · exact fun hn => absurd hn node_oneSection
  · intro s sec hs
    rw [(section_oneSection hs).2]
    exact hkeys
  · intro s sec dest hs hdest
    rw [(section_oneSection hs).2] at hdest
    cases hdest
  · simp [writeModel, writeNodes, writeSections, writeSection, writeLink, oneSection, oneOrders,
      Finmap.walk, bind, Except.bind, pure, Except.pure]
    rfl

/-- The strings of the node. -/
theorem over_oneNode {I J K : Set Bytes} (hid : id ∈ I) (hdata : ∀ k ∈ data.records, k ∈ K) :
    (oneNode id data).Over I J K where
  node hn := by
    obtain ⟨rfl, rfl⟩ := node_oneNode hn
    exact ⟨hid, hdata⟩
  «section» hs := absurd hs section_oneNode
  dest hs := absurd hs section_oneNode

/-- The strings of the section. -/
theorem over_oneSection {I J K : Set Bytes} (hid : id ∈ J) (hdata : ∀ k ∈ data.records, k ∈ K) :
    (oneSection id data).Over I J K where
  node hn := absurd hn node_oneSection
  «section» hs := by
    obtain ⟨rfl, rfl⟩ := section_oneSection hs
    exact ⟨hid, hdata⟩
  dest hs hdest := by
    rw [(section_oneSection hs).2] at hdest
    cases hdest

end OneEntity

section Alike

variable {mj : Minijson} {I J K : Set Bytes}

/-- Metadata that are not allocated are gone through without a step. -/
theorem visits_default : Finmap.Visits [] (HasMetadata.records {}) := by decide

/-- There are no records to keep apart in metadata that are not allocated. -/
theorem mem_records_default {k : Identifier} (hk : k ∈ HasMetadata.records {}) : k ∈ K :=
  absurd hk Finmap.notMem_empty

/-- **Node IDs that are cut alike** are equal: the models of one node each are written alike. -/
theorem WritesApart.nodeId_eq (h : WritesApart mj I J K) {x y : Identifier} (hxI : x ∈ I)
    (hyI : y ∈ I) (hx : isId x = true) (hy : isId y = true) (hxy : cStr x = cStr y) : x = y := by
  have hdoc := yields_oneNode mj hx visits_default
  rw [hxy] at hdoc
  have hsame := h.sameAs hdoc (yields_oneNode mj hy visits_default)
    (over_oneNode hxI fun _ => mem_records_default) (over_oneNode hyI fun _ => mem_records_default)
  obtain ⟨node, hn⟩ := (hsame.nodes x).1 ⟨_, Finmap.lookup_insert _⟩
  exact (node_oneNode hn).1

/-- **Section IDs that are cut alike** are equal: the models of one section each are written
alike. -/
theorem WritesApart.sectionId_eq (h : WritesApart mj I J K) {x y : Identifier} (hxJ : x ∈ J)
    (hyJ : y ∈ J) (hx : isId x = true) (hy : isId y = true) (hxy : cStr x = cStr y) : x = y := by
  have hdoc := yields_oneSection mj hx visits_default
  rw [hxy] at hdoc
  have hsame := h.sameAs hdoc (yields_oneSection mj hy visits_default)
    (over_oneSection hxJ fun _ => mem_records_default)
    (over_oneSection hyJ fun _ => mem_records_default)
  obtain ⟨sec, hs⟩ := (hsame.sections x).1 ⟨_, Finmap.lookup_insert _⟩
  exact (section_oneSection hs).1

/-- **Metadata keys that are cut alike** are equal: an entity with the one record is written
like one with the other, whichever kind of entity there is an ID for. -/
theorem WritesApart.key_eq (h : WritesApart mj I J K) {id k l : Identifier} (hid : id ∈ I ∪ J)
    (hvalid : isId id = true) (hk : k ∈ K) (hl : l ∈ K) (hkl : cStr k = cStr l) : k = l := by
  have hkeys : ∀ {key}, key ∈ K → ∀ k' ∈ (oneRecord key).records, k' ∈ K :=
    fun hkey k' hk' => mem_oneRecord hk' ▸ hkey
  have hwrite : writeMetadata [k] (oneRecord k) = writeMetadata [l] (oneRecord l) := by
    rw [writeMetadata_oneRecord, writeMetadata_oneRecord, hkl]
  rcases hid with hid | hid
  · have hdoc := yields_oneNode mj hvalid (visits_oneRecord k)
    rw [hwrite] at hdoc
    have hsame := h.sameAs hdoc (yields_oneNode mj hvalid (visits_oneRecord l))
      (over_oneNode hid (hkeys hk)) (over_oneNode hid (hkeys hl))
    obtain ⟨_, _, _, hrecords⟩ := hsame.node (Finmap.lookup_insert _) (Finmap.lookup_insert _)
    exact oneRecord_injective hrecords
  · have hdoc := yields_oneSection mj hvalid (visits_oneRecord k)
    rw [hwrite] at hdoc
    have hsame := h.sameAs hdoc (yields_oneSection mj hvalid (visits_oneRecord l))
      (over_oneSection hid (hkeys hk)) (over_oneSection hid (hkeys hl))
    obtain ⟨_, _, _, _, _, hrecords⟩ :=
      hsame.section (Finmap.lookup_insert _) (Finmap.lookup_insert _)
    exact oneRecord_injective hrecords

end Alike

/-! ### The condition -/

/-- **No two models over the strings are written alike, and no document repeats a
key, exactly when the strings stay apart up to their first NUL.** -/
theorem writesApart_iff {mj : Minijson} (hmj : mj.KeepsSlots) (I J K : Set Bytes) :
    WritesApart mj I J K ↔ CutApart I J K := by
  constructor
  · intro h
    refine ⟨fun x hx y hy hxy => ?nodeIds, fun x hx y hy hxy => ?sectionIds, ?keys⟩
    case nodeIds => exact h.nodeId_eq hx.1 hy.1 hx.2 hy.2 hxy
    case sectionIds => exact h.sectionId_eq hx.1 hy.1 hx.2 hy.2 hxy
    case keys =>
      rintro ⟨x, hx, hvalid⟩ k hk l hl hkl
      exact h.key_eq hx hvalid hk hl hkl
  · intro hcut
    constructor
    · rintro m m' doc ⟨hm, orders, hv, hwrite⟩ ⟨hm', orders', hv', hwrite'⟩ hover hover'
      obtain ⟨N, hN⟩ := hm.refines
      obtain ⟨N', hN'⟩ := hm'.refines
      rw [writeModel_eq mj hN hv] at hwrite
      rw [writeModel_eq mj hN' hv', ← hwrite] at hwrite'
      simp only [Except.ok.injEq, Json.array.injEq, List.cons.injEq, Json.object.injEq,
        and_true] at hwrite'
      exact sameAs_of_entries_eq hmj hcut hN hN' hv hv' hover hover' hwrite'.1.symm
        hwrite'.2.symm
    · rintro m doc ⟨hm, orders, hv, hwrite⟩ hover
      obtain ⟨N, hN⟩ := hm.refines
      rw [writeModel_eq mj hN hv] at hwrite
      obtain rfl := Except.ok.inj hwrite
      exact distinctNames_written hcut hN hv hover

/-- Over two node IDs without a NUL, and a section ID that is cut like one of them. -/
theorem writesApart_pair :
    WritesApart .plain {ascii "M145", ascii "T1034"} {ascii "M145" ++ [0]} ∅ := by
  refine (writesApart_iff (show ∀ k < 4, _ by decide) _ _ _).2
    ⟨?_, ?_, fun _ => Set.injOn_empty _⟩
  · rintro x ⟨rfl | rfl, _⟩ y ⟨rfl | rfl, _⟩ hxy
    · rfl
    · exact absurd hxy (by decide)
    · exact absurd hxy (by decide)
    · rfl
  · rintro x ⟨rfl, _⟩ y ⟨rfl, _⟩ _
    rfl

/-- **An ID with a NUL is written like a shorter one**, of a node or of a section, and so
is a metadata key: here `a`, NUL, `b` and `a`. -/
theorem not_writesApart : ¬ WritesApart .plain Set.univ Set.univ Set.univ ∧
    ¬ WritesApart .plain {[97, 0, 98], ascii "a"} ∅ ∅ ∧
    ¬ WritesApart .plain ∅ {[97, 0, 98], ascii "a"} ∅ ∧
    ¬ WritesApart .plain {ascii "a"} ∅ {[97, 0, 98], ascii "a"} := by
  have hid : isId (ascii "a") = true := by decide
  have hid' : isId [97, 0, 98] = true := by decide
  have hcut : cStr [97, 0, 98] = cStr (ascii "a") := by decide
  have hne : [97, 0, 98] ≠ ascii "a" := by decide
  refine ⟨fun h => ?_, fun h => ?_, fun h => ?_, fun h => ?_⟩
  · exact hne (h.nodeId_eq trivial trivial hid' hid hcut)
  · exact hne (h.nodeId_eq (Or.inl rfl) (Or.inr rfl) hid' hid hcut)
  · exact hne (h.sectionId_eq (Or.inl rfl) (Or.inr rfl) hid' hid hcut)
  · exact hne (h.key_eq (Or.inl rfl) hid (Or.inl rfl) (Or.inr rfl) hcut)

end PiwcsPrw
