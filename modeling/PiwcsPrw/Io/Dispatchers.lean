/-
# The four dispatchers

`nodeDispatcher`, `linkDispatcher`, `destDispatcher` and `sectionDispatcher` of
`src/io_read.cpp`, with the functions that run them.

For each: what one field does to the target (`nodeUpd` and the like), what all
fields leave in it, which is what the last field of each name says, and from the
two that the dispatcher reads the object.
-/

import PiwcsPrw.Io.Entries

namespace PiwcsPrw

open Json (lastOf lastOf_append_singleton)

variable (mj : Minijson)

/-- Fields of other names add no records. -/
theorem allRecords_append_singleton (fields : Fields) (f : Bytes × Doc) :
    allRecords (fields ++ [f]) =
      allRecords fields ++ if f.1 = ascii "metadata" then recordsOf f.2 else [] := by
  rw [allRecords, List.flatMap_append, List.flatMap_singleton]
  rfl

/-! ### Nodes -/

/-- What a field of a node does to the data. -/
def nodeUpd (nd : NodeData) (f : Bytes × Doc) : NodeData :=
  if f.1 = ascii "type" then { nd with type := nodeType? f.2 }
  else if f.1 = ascii "metadata" then { nd with metadata := addRecords nd.metadata (recordsOf f.2) }
  else nd

/-- What the fields of a node make of the target. -/
theorem foldl_nodeUpd (fields : Fields) : fields.foldl nodeUpd {} =
    { metadata := addRecords none (allRecords fields)
      type := (lastOf (ascii "type") fields).bind nodeType? } := by
  induction fields using List.reverseRecOn with
  | nil => rfl
  | append_singleton fields f ih =>
      rw [List.foldl_append, List.foldl_cons, List.foldl_nil, ih, lastOf_append_singleton,
        allRecords_append_singleton]
      unfold nodeUpd
      split_ifs with h₁ h₂ h₂
      · exact absurd (h₁.symm.trans h₂) (by decide)
      · simp
      · simp [addRecords_append]
      · simp

/-- `nodeDispatcher` reads node entries. -/
theorem reads_nodeDispatcher : Reads (Json.dispatch mj.raise (nodeDispatcher mj) {}) IsNode
    fun v => { toMetadataData := ⟨(metadataOf (fieldsOf v)).m_meta⟩, type := typeOf v } := by
  refine (reads_dispatch mj NodeField nodeUpd ?_ ?_ ?_ {}).congr (fun v => Iff.rfl) fun v _ =>
    (foldl_nodeUpd (fieldsOf v)).symm
  · rintro f (⟨hf, _⟩ | ⟨hf, _⟩) <;> simp [nodeDispatcher, handler, optional_handler, hf]
  · intro h hmem t
    simp only [nodeDispatcher, List.mem_cons, List.not_mem_nil, or_false] at hmem
    rcases hmem with rfl | rfl
    · exact (reads_parseNodeType t).congr (fun v => by simp +decide [NodeField, handler])
        fun v _ => by simp [nodeUpd, handler]
    · exact ((reads_parseMetadata mj t.toMetadataData).map fun md =>
        ({ t with toMetadataData := md } : NodeData)).congr
          (fun v => by simp +decide [NodeField, optional_handler])
          fun v _ => by simp +decide [nodeUpd, optional_handler]
  · rfl

/-! ### Links -/

/-- What a field of a link does to it. -/
def linkUpd (l : Link) (f : Bytes × Doc) : Link :=
  if f.1 = ascii "startNode" then { l with startNode := string? f.2 }
  else if f.1 = ascii "startSlot" then { l with startSlot := slot? mj f.2 }
  else if f.1 = ascii "endNode" then { l with endNode := string? f.2 }
  else if f.1 = ascii "endSlot" then { l with endSlot := slot? mj f.2 }
  else l

/-- The names of the fields of a link. -/
def linkNames : List Bytes :=
  [ascii "startNode", ascii "startSlot", ascii "endNode", ascii "endSlot"]

/-- What the fields of a link make of the target: a later field replaces an earlier one. -/
theorem foldl_linkUpd (l : Link) (fields : Fields) : fields.foldl (linkUpd mj) l =
    { startNode := (lastOf (ascii "startNode") fields).elim l.startNode string?
      startSlot := (lastOf (ascii "startSlot") fields).elim l.startSlot (slot? mj)
      endNode := (lastOf (ascii "endNode") fields).elim l.endNode string?
      endSlot := (lastOf (ascii "endSlot") fields).elim l.endSlot (slot? mj) } := by
  induction fields using List.reverseRecOn with
  | nil => rfl
  | append_singleton fields f ih =>
      rw [List.foldl_append, List.foldl_cons, List.foldl_nil, ih]
      simp only [lastOf_append_singleton, linkUpd]
      split_ifs with h₁ h₂ h₃ h₄ <;> simp_all +decide

/-- Once all four names are given, nothing of an earlier link is left. -/
theorem foldl_linkUpd_eq (l : Link) {fields : Fields}
    (h : ∀ name ∈ linkNames, name ∈ fields.map Prod.fst) :
    fields.foldl (linkUpd mj) l = linkFields mj fields := by
  have hlast : ∀ name ∈ linkNames, ∃ v, lastOf name fields = some v := fun name hname =>
    Json.exists_lastOf (h name hname)
  obtain ⟨v₁, h₁⟩ := hlast (ascii "startNode") (by simp [linkNames])
  obtain ⟨v₂, h₂⟩ := hlast (ascii "startSlot") (by simp [linkNames])
  obtain ⟨v₃, h₃⟩ := hlast (ascii "endNode") (by simp [linkNames])
  obtain ⟨v₄, h₄⟩ := hlast (ascii "endSlot") (by simp [linkNames])
  rw [foldl_linkUpd, linkFields, h₁, h₂, h₃, h₄]
  rfl

/-- `linkDispatcher` reads links, whatever the target held. -/
theorem reads_linkDispatcher (l : Link) :
    Reads (Json.dispatch mj.raise (linkDispatcher mj) l) (IsLink mj)
      fun v => linkFields mj (fieldsOf v) := by
  refine (reads_dispatch mj (LinkField mj) (linkUpd mj) ?_ ?_ ?_ l).congr
    (fun v => Iff.rfl) ?_
  · rintro f (⟨hf | hf, _⟩ | ⟨hf | hf, _⟩) <;> simp [linkDispatcher, handler, hf]
  · intro h hmem t
    simp only [linkDispatcher, List.mem_cons, List.not_mem_nil, or_false] at hmem
    rcases hmem with rfl | rfl | rfl | rfl
    · exact (reads_asOptional_asString.map fun x => ({ t with startNode := x } : Link)).congr
        (fun v => by simp +decide [LinkField, handler])
        fun v _ => by simp [linkUpd, handler]
    · exact ((reads_asOptional_asSize mj).map fun x => ({ t with startSlot := x } : Link)).congr
        (fun v => by simp +decide [LinkField, handler])
        fun v _ => by simp +decide [linkUpd, handler]
    · exact (reads_asOptional_asString.map fun x => ({ t with endNode := x } : Link)).congr
        (fun v => by simp +decide [LinkField, handler])
        fun v _ => by simp +decide [linkUpd, handler]
    · exact ((reads_asOptional_asSize mj).map fun x => ({ t with endSlot := x } : Link)).congr
        (fun v => by simp +decide [LinkField, handler])
        fun v _ => by simp +decide [linkUpd, handler]
  · rfl
  · rintro v ⟨fields, rfl, _, hall⟩
    exact (foldl_linkUpd_eq mj l hall).symm

/-- `parseLink` replaces the link there was. -/
theorem reads_parseLink (s : SectionData) : Reads (parseLink mj s) (IsLink mj)
    fun v => { s with link := linkFields mj (fieldsOf v) } :=
  (reads_linkDispatcher mj s.link).map fun l => ({ s with link := l } : SectionData)

/-! ### Destinations -/

/-- What a field of a destination does to the data. -/
def destUpd (d : DestData) (f : Bytes × Doc) : DestData :=
  if f.1 = ascii "address" then { d with address := (string? f.2).getD [] }
  else if f.1 = ascii "name" then { d with name := (string? f.2).getD [] }
  else if f.1 = ascii "metadata" then { d with metadata := addRecords d.metadata (recordsOf f.2) }
  else d

/-- What the fields of a destination make of the target. -/
theorem foldl_destUpd (fields : Fields) : fields.foldl destUpd {} =
    { metadata := addRecords none (allRecords fields)
      address := ((lastOf (ascii "address") fields).bind string?).getD []
      name := ((lastOf (ascii "name") fields).bind string?).getD [] } := by
  induction fields using List.reverseRecOn with
  | nil => rfl
  | append_singleton fields f ih =>
      rw [List.foldl_append, List.foldl_cons, List.foldl_nil, ih, allRecords_append_singleton]
      simp only [lastOf_append_singleton, destUpd]
      split_ifs with h₁ h₂ h₃ <;> simp_all +decide [addRecords_append]

/-- `destDispatcher` reads destinations. -/
theorem reads_destDispatcher : Reads (Json.dispatch mj.raise (destDispatcher mj) {}) IsDest
    fun v => { metadata := (metadataOf (fieldsOf v)).m_meta
               address := (destOf v).m_address
               name := (destOf v).m_name } := by
  refine (reads_dispatch mj DestField destUpd ?_ ?_ ?_ {}).congr
    (fun v => Iff.rfl) fun v _ => (foldl_destUpd (fieldsOf v)).symm
  · rintro f (⟨hf | hf, _⟩ | ⟨hf, _⟩) <;> simp [destDispatcher, handler, optional_handler, hf]
  · intro h hmem t
    simp only [destDispatcher, List.mem_cons, List.not_mem_nil, or_false] at hmem
    rcases hmem with rfl | rfl | rfl
    · exact (reads_asString.map fun x => ({ t with address := x } : DestData)).congr
        (fun v => by simp +decide [DestField, handler])
        fun v _ => by simp [destUpd, handler]
    · exact (reads_asString.map fun x => ({ t with name := x } : DestData)).congr
        (fun v => by simp +decide [DestField, handler])
        fun v _ => by simp +decide [destUpd, handler]
    · exact ((reads_parseMetadata mj t.toMetadataData).map fun md =>
        ({ t with toMetadataData := md } : DestData)).congr
          (fun v => by simp +decide [DestField, optional_handler])
          fun v _ => by simp +decide [destUpd, optional_handler]
  · rfl

/-- An object without metadata gets what was read. -/
theorem installMetadata_empty (md : MetadataData) : installMetadata {} md = ⟨md.metadata⟩ := by
  obtain ⟨_ | md⟩ := md <;> rfl

/-- `parseDest` replaces the destination there was. -/
theorem reads_parseDest (s : SectionData) : Reads (parseDest mj s) IsDest
    fun v => { s with dest := some (destOf v) } := by
  refine ((reads_destDispatcher mj).map fun data => { s with
    dest := some { Destination.new data.address data.name with
      toHasMetadata := installMetadata {} data.toMetadataData } }).congr (fun v => Iff.rfl)
        fun v _ => ?_
  rw [installMetadata_empty]
  rfl

/-! ### Sections -/

/-- What a field of a section does to the data. -/
def sectionUpd (s : SectionData) (f : Bytes × Doc) : SectionData :=
  if f.1 = ascii "link" then { s with link := linkFields mj (fieldsOf f.2) }
  else if f.1 = ascii "dir" then { s with dir := (dir? f.2).getD .UNIDIR }
  else if f.1 = ascii "dest" then { s with dest := some (destOf f.2) }
  else if f.1 = ascii "metadata" then { s with metadata := addRecords s.metadata (recordsOf f.2) }
  else s

/-- What the fields of a section make of the target. -/
theorem foldl_sectionUpd (fields : Fields) : fields.foldl (sectionUpd mj) {} =
    { metadata := addRecords none (allRecords fields)
      link := (lastOf (ascii "link") fields).elim {} fun l => linkFields mj (fieldsOf l)
      dir := ((lastOf (ascii "dir") fields).bind dir?).getD .UNIDIR
      dest := (lastOf (ascii "dest") fields).map destOf } := by
  induction fields using List.reverseRecOn with
  | nil => rfl
  | append_singleton fields f ih =>
      rw [List.foldl_append, List.foldl_cons, List.foldl_nil, ih, allRecords_append_singleton]
      simp only [lastOf_append_singleton, sectionUpd]
      split_ifs with h₁ h₂ h₃ h₄ <;> simp_all +decide [addRecords_append]

/-- `sectionDispatcher` reads section entries. -/
theorem reads_sectionDispatcher :
    Reads (Json.dispatch mj.raise (sectionDispatcher mj) {}) (IsSection mj) fun v =>
      { metadata := (metadataOf (fieldsOf v)).m_meta
        link := linkOf mj v
        dir := ((lastOf (ascii "dir") (fieldsOf v)).bind dir?).getD .UNIDIR
        dest := (lastOf (ascii "dest") (fieldsOf v)).map destOf } := by
  refine (reads_dispatch mj (SectionField mj) (sectionUpd mj) ?_ ?_ ?_ {}).congr
    (fun v => Iff.rfl) fun v _ => (foldl_sectionUpd mj (fieldsOf v)).symm
  · rintro f (⟨hf, _⟩ | ⟨hf, _⟩ | ⟨hf, _⟩ | ⟨hf, _⟩) <;>
      simp [sectionDispatcher, optional_handler, hf]
  · intro h hmem t
    simp only [sectionDispatcher, List.mem_cons, List.not_mem_nil, or_false] at hmem
    rcases hmem with rfl | rfl | rfl | rfl
    · exact (reads_parseLink mj t).congr
        (fun v => by simp +decide [SectionField, optional_handler])
        fun v _ => by simp [sectionUpd, optional_handler]
    · exact (reads_asAllowedTravel.map fun x => ({ t with dir := x } : SectionData)).congr
        (fun v => by simp +decide [SectionField, optional_handler])
        fun v _ => by simp +decide [sectionUpd, optional_handler]
    · exact (reads_parseDest mj t).congr
        (fun v => by simp +decide [SectionField, optional_handler])
        fun v _ => by simp +decide [sectionUpd, optional_handler]
    · exact ((reads_parseMetadata mj t.toMetadataData).map fun md =>
        ({ t with toMetadataData := md } : SectionData)).congr
          (fun v => by simp +decide [SectionField, optional_handler])
          fun v _ => by simp +decide [sectionUpd, optional_handler]
  · rfl

end PiwcsPrw
