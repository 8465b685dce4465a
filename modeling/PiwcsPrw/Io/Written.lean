/-
# What a written entry says

`src/io_write.cpp`, against `PiwcsPrw.Io.Document`.

The entries of a written document have the form a reader expects, and they say
what the writer was given, up to two things.  Keys are cut at their first NUL, and
the metadata are those records the cut keys leave apart (`cutMetadata`).  The
cable of a section is given here (`writtenLink`); that the writer finds it is the
subject of `PiwcsPrw.Io.WriteNetwork`.
-/

import PiwcsPrw.Io.Write
import PiwcsPrw.Network.Refinement

namespace PiwcsPrw

open Json (lastOf lastOf_append)

/-! ### Metadata -/

/-- The records as they are written. -/
def cutRecords (order : List Identifier) (obj : HasMetadata) : List (Bytes × Bytes) :=
  (obj.records.walk order).map fun r => (cStr r.1, r.2)

/-- The metadata the written records stand for. -/
def cutMetadata (order : List Identifier) (obj : HasMetadata) : HasMetadata where
  m_meta := addRecords none (cutRecords order obj)

/-- The records of earlier fields come first. -/
theorem allRecords_append (fields fields' : Fields) :
    allRecords (fields ++ fields') = allRecords fields ++ allRecords fields' :=
  List.flatMap_append ..

/-- All records are written, their keys cut. -/
theorem allRecords_writeMetadata (order : List Identifier) (obj : HasMetadata) :
    allRecords (writeMetadata order obj) = cutRecords order obj := by
  rw [writeMetadata, obj.hasMetadata_eq]
  by_cases h : obj.records = ∅
  · simp [h, cutRecords, Finmap.walk, allRecords]
  · simp [h, cutRecords, allRecords, recordsOf, fieldsOf, recordOf, string?, Function.comp_def]

/-- The writer writes a metadata object, or nothing. -/
theorem mem_writeMetadata {order : List Identifier} {obj : HasMetadata} {f : Bytes × Doc}
    (hf : f ∈ writeMetadata order obj) : f.1 = ascii "metadata" ∧ IsMetadata f.2 := by
  rw [writeMetadata] at hf
  split at hf
  · cases hf
  · obtain rfl := List.mem_singleton.1 hf
    refine ⟨rfl, _, rfl, fun g hg => ?_, List.forall_mem_nil _⟩
    obtain ⟨r, _, rfl⟩ := List.mem_map.1 hg
    exact ⟨r.2, rfl⟩

/-- Nothing but metadata is written for metadata. -/
theorem lastOf_writeMetadata {name : Bytes} (hname : name ≠ ascii "metadata")
    (order : List Identifier) (obj : HasMetadata) :
    lastOf name (writeMetadata order obj) = none := by
  refine Json.lastOf_eq_none fun hmem => ?_
  obtain ⟨f, hf, rfl⟩ := List.mem_map.1 hmem
  exact hname (mem_writeMetadata hf).1

/-- The keys are written in the order they are met, cut. -/
theorem keys_cutRecords {order : List Identifier} {obj : HasMetadata}
    (hv : Finmap.Visits order obj.records) :
    (cutRecords order obj).map Prod.fst = order.map cStr := by
  rw [cutRecords, List.map_map]
  exact hv.map_walk cStr

/-- Keys that stay apart when they are cut keep their values. -/
theorem lookup_cutMetadata {K : Set Bytes} (hK : Set.InjOn cStr K) {order : List Identifier}
    {obj : HasMetadata} (hv : Finmap.Visits order obj.records) (hobj : ∀ k ∈ obj.records, k ∈ K)
    {key : Bytes} (hkey : key ∈ K) :
    (cutMetadata order obj).records.lookup (cStr key) = obj.records.lookup key := by
  have hnodup : ((cutRecords order obj).map Prod.fst).Nodup := by
    rw [keys_cutRecords hv]
    exact hv.nodup_map (hK.mono hobj)
  rw [cutMetadata, lookup_records_addRecords]
  refine Option.ext fun v => ?_
  rw [Json.lastOf_eq_some_iff hnodup, cutRecords, List.mem_map]
  constructor
  · rintro ⟨⟨k, v'⟩, hmem, heq⟩
    obtain ⟨hk, rfl⟩ := Prod.mk.inj heq
    have hlookup := (Finmap.mem_walk hv).1 hmem
    rw [← hK (hobj k (Finmap.mem_of_lookup_eq_some hlookup)) hkey hk]
    exact hlookup
  · intro hlookup
    exact ⟨(key, v), (Finmap.mem_walk hv).2 hlookup, rfl⟩

/-- Without NULs the written records are the records. -/
theorem records_cutMetadata {order : List Identifier} {obj : HasMetadata}
    (hv : Finmap.Visits order obj.records) (hobj : ∀ k ∈ obj.records, NulFree k) :
    (cutMetadata order obj).records = obj.records := by
  have hinj : Set.InjOn cStr {k | NulFree k} := fun x hx y hy h => by
    rwa [cStr_eq_self hx, cStr_eq_self hy] at h
  refine Finmap.ext_lookup fun key => ?_
  by_cases hkey : NulFree key
  · have hlookup := lookup_cutMetadata hinj hv hobj hkey
    rwa [cStr_eq_self hkey] at hlookup
  · have hleft : key ∉ (cutRecords order obj).map Prod.fst := by
      rw [keys_cutRecords hv, List.mem_map]
      rintro ⟨k, hk, rfl⟩
      have hfree := hobj k ((hv.mem_iff k).1 hk)
      exact hkey (by rwa [cStr_eq_self hfree])
    have hright : key ∉ obj.records := fun hmem => hkey (hobj key hmem)
    rw [cutMetadata, lookup_records_addRecords, Json.lastOf_eq_none hleft,
      Finmap.lookup_eq_none.2 hright]

/-! ### Nodes -/

/-- A written node is a node entry. -/
theorem isNode_writeNode (order : List Identifier) (node : Node) (id : Bytes) :
    IsNode (writeNode order node id).2 := by
  refine ⟨_, rfl, fun f hf => ?_, fun name hname => ?_⟩
  · rcases List.mem_cons.1 hf with rfl | hf
    · exact Or.inl ⟨rfl, node.m_type, rfl⟩
    · exact Or.inr (mem_writeMetadata hf)
  · rw [List.mem_singleton.1 hname]
    exact List.mem_cons_self ..

/-- The type of a node is written. -/
theorem typeOf_writeNode (order : List Identifier) (node : Node) (id : Bytes) :
    typeOf (writeNode order node id).2 = some node.m_type := by
  have hlast : lastOf (ascii "type") (fieldsOf (writeNode order node id).2) =
      some (.string node.m_type.info.name) := by
    rw [writeNode, fieldsOf, ← List.singleton_append, lastOf_append,
      lastOf_writeMetadata (by decide)]
    rfl
  rw [typeOf, hlast]
  exact nodeType?_eq_some_iff.2 rfl

/-- The metadata of a node are written, their keys cut. -/
theorem metadataOf_writeNode (order : List Identifier) (node : Node) (id : Bytes) :
    metadataOf (fieldsOf (writeNode order node id).2) = cutMetadata order node.toHasMetadata := by
  rw [metadataOf, writeNode, fieldsOf, ← List.singleton_append, allRecords_append,
    allRecords_writeMetadata]
  rfl

/-! ### Sections -/

/-- The link the writer writes for a cable between two ports. -/
def writtenLink (mj : Minijson) : Option (Port × Port) → Fields
  | none => []
  | some q => [(ascii "link", .object [
    (ascii "startNode", .string q.1.1),
    (ascii "startSlot", .number (mj.slotText q.1.2)),
    (ascii "endNode", .string q.2.1),
    (ascii "endSlot", .number (mj.slotText q.2.2))])]

/-- What the writer writes for a section whose cable has these ends. -/
def writtenSection (mj : Minijson) (orders : Orders) (ends : Option (Port × Port)) (sec : Section)
    (id : Bytes) : Bytes × Doc :=
  (cStr id, .object (writtenLink mj ends ++ [(ascii "dir", .string (dirName sec.m_dir))] ++
    writeDestination (orders.destMetadata id) sec ++
    writeMetadata (orders.sectionMetadata id) sec.toHasMetadata))

/-- The destination the written fields stand for. -/
def cutDestination (order : List Identifier) (dest : Destination) : Destination :=
  { dest with toHasMetadata := cutMetadata order dest.toHasMetadata }

section Sections

variable (mj : Minijson) (orders : Orders) (ends : Option (Port × Port)) (sec : Section)
  (id : Bytes)

/-- The fields of a section occur once each, in the order link, direction,
destination, metadata. -/
theorem lastOf_writtenSection {name : Bytes} (hname : name ≠ ascii "metadata") :
    lastOf name (fieldsOf (writtenSection mj orders ends sec id).2) =
      (lastOf name (writeDestination (orders.destMetadata id) sec)).or
        ((lastOf name [(ascii "dir", .string (dirName sec.m_dir))]).or
          (lastOf name (writtenLink mj ends))) := by
  rw [writtenSection, fieldsOf, lastOf_append, lastOf_append, lastOf_append,
    lastOf_writeMetadata hname, Option.none_or]

/-- What is written for a destination is one. -/
theorem isDest_writeDestination {order : List Identifier} {f : Bytes × Doc}
    (hf : f ∈ writeDestination order sec) : f.1 = ascii "dest" ∧ IsDest f.2 := by
  rw [writeDestination] at hf
  split at hf
  · cases hf
  · rename_i dest _
    obtain rfl := List.mem_singleton.1 hf
    refine ⟨rfl, _, rfl, fun g hg => ?_, fun name hname => ?_⟩
    · rcases List.mem_append.1 hg with hg | hg
      · simp only [List.mem_cons, List.not_mem_nil, or_false] at hg
        rcases hg with rfl | rfl
        · exact Or.inl ⟨Or.inl rfl, _, rfl⟩
        · exact Or.inl ⟨Or.inr rfl, _, rfl⟩
      · exact Or.inr (mem_writeMetadata hg)
    · simp only [List.mem_cons, List.not_mem_nil, or_false] at hname
      rcases hname with rfl | rfl <;> simp

/-- And it is that of the section, its metadata keys cut. -/
theorem destOf_writeDestination {order : List Identifier} :
    (lastOf (ascii "dest") (writeDestination order sec)).map destOf =
      sec.m_dest.map (cutDestination order) := by
  rw [writeDestination]
  cases sec.m_dest with
  | none => rfl
  | some dest =>
      have hlast : ∀ name, name ≠ ascii "metadata" →
          lastOf name ([(ascii "address", .string dest.m_address),
              (ascii "name", .string dest.m_name)] ++ writeMetadata order dest.toHasMetadata)
            = lastOf name [(ascii "address", .string dest.m_address),
                (ascii "name", .string dest.m_name)] := by
        intro name hname
        rw [lastOf_append, lastOf_writeMetadata hname, Option.none_or]
      simp only [Json.lastOf_singleton, if_pos, Option.map_some, destOf, fieldsOf, cutDestination,
        hlast _ (show ascii "address" ≠ ascii "metadata" by decide),
        hlast _ (show ascii "name" ≠ ascii "metadata" by decide), metadataOf, allRecords_append,
        allRecords_writeMetadata]
      rfl

/-- Nothing else is written for it. -/
theorem lastOf_writeDestination {name : Bytes} (hname : name ≠ ascii "dest")
    (order : List Identifier) : lastOf name (writeDestination order sec) = none := by
  refine Json.lastOf_eq_none fun hmem => ?_
  obtain ⟨f, hf, rfl⟩ := List.mem_map.1 hmem
  exact hname (isDest_writeDestination sec hf).1

/-- Nothing but the link is written for a link. -/
theorem lastOf_writtenLink {name : Bytes} (hname : name ≠ ascii "link") :
    lastOf name (writtenLink mj ends) = none := by
  cases ends with
  | none => rfl
  | some q => exact if_neg hname.symm

/-- The metadata of a section are written, their keys cut. -/
theorem allRecords_writtenSection :
    allRecords (fieldsOf (writtenSection mj orders ends sec id).2) =
      cutRecords (orders.sectionMetadata id) sec.toHasMetadata := by
  have hdest : allRecords (writeDestination (orders.destMetadata id) sec) = [] := by
    rw [writeDestination]
    cases sec.m_dest <;> rfl
  have hlink : allRecords (writtenLink mj ends) = [] := by
    cases ends <;> rfl
  rw [writtenSection, fieldsOf, allRecords_append, allRecords_append, allRecords_append,
    allRecords_writeMetadata, hdest, hlink]
  rfl

/-- What the section entry says, apart from the link. -/
theorem sectionOf_writtenSection : sectionOf (writtenSection mj orders ends sec id) =
    { Section.new (cStr id) sec.m_dir
        (sec.m_dest.map (cutDestination (orders.destMetadata id))) with
      toHasMetadata := cutMetadata (orders.sectionMetadata id) sec.toHasMetadata } := by
  have hdir : (lastOf (ascii "dir") (fieldsOf (writtenSection mj orders ends sec id).2)).bind dir? =
      some sec.m_dir := by
    rw [lastOf_writtenSection _ _ _ _ _ (by decide), lastOf_writeDestination _ (by decide)]
    exact dir?_dirName sec.m_dir
  have hdest : lastOf (ascii "dest") (fieldsOf (writtenSection mj orders ends sec id).2) =
      lastOf (ascii "dest") (writeDestination (orders.destMetadata id) sec) := by
    rw [lastOf_writtenSection _ _ _ _ _ (by decide), lastOf_writtenLink _ _ (by decide)]
    exact Option.or_none
  rw [sectionOf, hdir, hdest, destOf_writeDestination, metadataOf, allRecords_writtenSection]
  rfl

/-- The numbers of the slots are read back. -/
def Minijson.KeepsSlots (mj : Minijson) : Prop :=
  ∀ k < MAX_SLOTS, mj.asSlotId (mj.slotText k) = .ok k

/-- The ends are slots a node can have. -/
def SlotsBounded (ends : Option (Port × Port)) : Prop :=
  ∀ q, ends = some q → q.1.2 < MAX_SLOTS ∧ q.2.2 < MAX_SLOTS

variable {mj ends} (hmj : mj.KeepsSlots) (hends : SlotsBounded ends)

include hmj hends

/-- The link it asks for. -/
theorem linkOf_writtenSection : linkOf mj (writtenSection mj orders ends sec id).2 =
    ends.elim {} fun q => ⟨some q.1.1, some q.1.2, some q.2.1, some q.2.2⟩ := by
  have hlink : lastOf (ascii "link") (fieldsOf (writtenSection mj orders ends sec id).2) =
      lastOf (ascii "link") (writtenLink mj ends) := by
    rw [lastOf_writtenSection _ _ _ _ _ (by decide), lastOf_writeDestination _ (by decide)]
    rfl
  rw [linkOf, hlink]
  cases ends with
  | none => rfl
  | some q =>
      obtain ⟨hi, hj⟩ := hends q rfl
      have hstart : slot? mj (.number (mj.slotText q.1.2)) = some q.1.2 := by
        rw [slot?, hmj _ hi]
        rfl
      have hstop : slot? mj (.number (mj.slotText q.2.2)) = some q.2.2 := by
        rw [slot?, hmj _ hj]
        rfl
      simp +decide [writtenLink, linkFields, fieldsOf, lastOf, string?, hstart, hstop]

/-- A written section is a section entry. -/
theorem isSection_writtenSection : IsSection mj (writtenSection mj orders ends sec id).2 := by
  refine ⟨_, rfl, fun f hf => ?_, List.forall_mem_nil _⟩
  simp only [List.append_assoc, List.mem_append, List.mem_singleton] at hf
  rcases hf with hf | rfl | hf | hf
  · cases ends with
    | none => cases hf
    | some q =>
        obtain rfl := List.mem_singleton.1 hf
        obtain ⟨hi, hj⟩ := hends q rfl
        refine Or.inl ⟨rfl, _, rfl, fun g hg => ?_, fun name hname => ?_⟩
        · simp only [List.mem_cons, List.not_mem_nil, or_false] at hg
          rcases hg with rfl | rfl | rfl | rfl
          · exact Or.inl ⟨Or.inl rfl, Or.inr ⟨_, rfl⟩⟩
          · exact Or.inr ⟨Or.inl rfl, Or.inr ⟨_, _, rfl, hmj _ hi⟩⟩
          · exact Or.inl ⟨Or.inr rfl, Or.inr ⟨_, rfl⟩⟩
          · exact Or.inr ⟨Or.inr rfl, Or.inr ⟨_, _, rfl, hmj _ hj⟩⟩
        · simpa using hname
  · exact Or.inr (Or.inl ⟨rfl, sec.m_dir, rfl⟩)
  · exact Or.inr (Or.inr (Or.inl (isDest_writeDestination sec hf)))
  · exact Or.inr (Or.inr (Or.inr (mem_writeMetadata hf)))

end Sections

end PiwcsPrw
