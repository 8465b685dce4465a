/-
# The order of the fields

`src/io_read.cpp` meets the fields of an object in the order of the text, and
`src/io_write.cpp` writes them in the order of a hash map.

**Reading does not depend on the order** (`readModel_of_rearranged`): each value that
`PiwcsPrw.Io.Document` reads off an object is the same for a rearranged one, and
what makes a document consistent speaks of all its entries or of any two of them.
So a document may go through a program that reorders its fields.

**And writing is canonical up to it** (`Reachable.written_rearranged_iff`): the
documents written for two models are rearrangements of each other exactly when the
models are equal.
-/

import PiwcsPrw.Foundation.Rearranged
import PiwcsPrw.Io.MetadataStore
import PiwcsPrw.Io.RoundTrip

namespace PiwcsPrw

open Json (lastOf valuesOf Rearranged SameFields)

/-! ### What an object stands for -/

section Values

variable {v w : Doc} {fs gs : Fields}

/-- A string is no other when it is rearranged. -/
theorem string?_of_rearranged (h : v.Rearranged w) : string? v = string? w := by
  cases h <;> rfl

/-- Nor is a slot. -/
theorem slot?_of_rearranged (mj : Minijson) (h : v.Rearranged w) : slot? mj v = slot? mj w := by
  cases h <;> rfl

/-- The fields of an object are rearranged with it. -/
theorem sameFields_fieldsOf (h : v.Rearranged w) : SameFields (fieldsOf v) (fieldsOf w) := by
  cases v with
  | object fs =>
      obtain ⟨gs, rfl, hsame⟩ := Rearranged.object_iff.1 h
      exact hsame
  | null | bool | number | string | array => cases h <;> exact .refl _

/-- Records with the same values for each key make the same metadata. -/
theorem addRecords_congr {rs rs' : List (Bytes × Bytes)}
    (h : ∀ key, valuesOf key rs = valuesOf key rs') : addRecords none rs = addRecords none rs' := by
  have hsome : ∀ (r : Bytes × Bytes) rs, ∃ md, addRecords none (r :: rs) = some md := by
    intro r rs
    induction rs using List.reverseRecOn with
    | nil => exact ⟨_, rfl⟩
    | append_singleton rs s _ =>
        rw [← List.cons_append, addRecords_append]
        exact ⟨_, rfl⟩
  have hrecords : (addRecords none rs).getD ∅ = (addRecords none rs').getD ∅ :=
    Finmap.ext_lookup fun key => by
      rw [addRecords_getD, addRecords_getD, Json.lookup_foldl_insert, Json.lookup_foldl_insert,
        Json.lastOf_eq_getLast?, Json.lastOf_eq_getLast?, h]
  cases rs with
  | nil =>
      cases rs' with
      | nil => rfl
      | cons r rs' =>
          have hr := h r.1
          rw [Json.valuesOf_cons, if_pos rfl] at hr
          cases hr
  | cons r rs =>
      cases rs' with
      | nil =>
          have hr := h r.1
          rw [Json.valuesOf_cons, if_pos rfl] at hr
          cases hr
      | cons r' rs' =>
          obtain ⟨md, hmd⟩ := hsome r rs
          obtain ⟨md', hmd'⟩ := hsome r' rs'
          rw [hmd, hmd', Option.getD_some, Option.getD_some] at hrecords
          rw [hmd, hmd', hrecords]

/-- The records of an entry under one key. -/
theorem valuesOf_allRecords (key : Bytes) (fs : Fields) :
    valuesOf key (allRecords fs) = (valuesOf (ascii "metadata") fs).flatMap fun v =>
      (valuesOf key (fieldsOf v)).map fun w => (string? w).getD [] := by
  induction fs with
  | nil => rfl
  | cons f fs ih =>
      rw [allRecords, List.flatMap_cons, Json.valuesOf_append, Json.valuesOf_cons,
        show valuesOf key (fs.flatMap _) = _ from ih]
      split_ifs
      · rw [List.flatMap_cons, recordsOf]
        congr 1
        exact Json.valuesOf_map key (fieldsOf f.2) fun w => (string? w).getD []
      · rfl

/-- Metadata do not depend on the order of the fields. -/
theorem metadataOf_of_sameFields (h : SameFields fs gs) : metadataOf fs = metadataOf gs := by
  rw [metadataOf, metadataOf]
  congr 1
  refine addRecords_congr fun key => ?_
  rw [valuesOf_allRecords, valuesOf_allRecords, List.flatMap_def, List.flatMap_def]
  congr 1
  refine Json.map_eq_of_forall₂ (fun v w hvw => ?_) (h _)
  exact Json.map_eq_of_forall₂ (fun _ _ h' => by rw [string?_of_rearranged h'])
    (sameFields_fieldsOf hvw key)

/-- Nor does a type. -/
theorem nodeType?_of_rearranged (h : v.Rearranged w) : nodeType? v = nodeType? w := by
  rw [nodeType?, nodeType?, string?_of_rearranged h]

/-- Nor does a direction. -/
theorem dir?_of_rearranged (h : v.Rearranged w) : dir? v = dir? w := by
  rw [dir?, dir?, string?_of_rearranged h]

/-- Nor does the type of a node entry. -/
theorem typeOf_of_rearranged (h : v.Rearranged w) : typeOf v = typeOf w :=
  (sameFields_fieldsOf h).bind_lastOf (fun _ _ => nodeType?_of_rearranged) _

/-- Nor do the parts of a link. -/
theorem linkFields_of_sameFields (mj : Minijson) (h : SameFields fs gs) :
    linkFields mj fs = linkFields mj gs := by
  have hstring := h.bind_lastOf fun _ _ => string?_of_rearranged
  have hslot := h.bind_lastOf fun _ _ => slot?_of_rearranged mj
  rw [linkFields, linkFields, hstring, hstring, hslot, hslot]

/-- Nor does a destination. -/
theorem destOf_of_rearranged (h : v.Rearranged w) : destOf v = destOf w := by
  have hfields := sameFields_fieldsOf h
  have hstring := hfields.bind_lastOf fun _ _ => string?_of_rearranged
  rw [destOf, destOf, metadataOf_of_sameFields hfields, hstring, hstring]

/-- Nor does the link of a section entry. -/
theorem linkOf_of_rearranged (mj : Minijson) (h : v.Rearranged w) : linkOf mj v = linkOf mj w := by
  have hmap := (sameFields_fieldsOf h).map_lastOf
    (fun _ _ h' => linkFields_of_sameFields mj (sameFields_fieldsOf h')) (ascii "link")
  have helim : ∀ o : Option Doc, (o.elim {} fun l => linkFields mj (fieldsOf l))
      = (o.map fun l => linkFields mj (fieldsOf l)).getD {} := fun o => by cases o <;> rfl
  rw [linkOf, linkOf, helim, helim, hmap]

/-- Nor does its address. -/
theorem addressOf_of_rearranged (key : Bytes) (h : v.Rearranged w) :
    addressOf (key, v) = addressOf (key, w) :=
  (sameFields_fieldsOf h).map_lastOf (fun _ _ h' => by rw [destOf_of_rearranged h']) _

/-- Nor does the section it stands for. -/
theorem sectionOf_of_rearranged (key : Bytes) (h : v.Rearranged w) :
    sectionOf (key, v) = sectionOf (key, w) := by
  have hfields := sameFields_fieldsOf h
  rw [sectionOf, sectionOf, hfields.bind_lastOf fun _ _ => dir?_of_rearranged,
    hfields.map_lastOf fun _ _ => destOf_of_rearranged, metadataOf_of_sameFields hfields]

end Values

/-! ### What an object may look like -/

section Forms

variable {v w : Doc}

/-- An object keeps its form when its fields do. -/
theorem IsObject.of_rearranged {A : Bytes × Doc → Prop} {required : List Bytes}
    (hA : ∀ name v w, v.Rearranged w → A (name, v) → A (name, w)) (h : v.Rearranged w)
    (hv : IsObject A required v) : IsObject A required w := by
  obtain ⟨fs, rfl, hfields, hrequired⟩ := hv
  obtain ⟨gs, rfl, hsame⟩ := Rearranged.object_iff.1 h
  refine ⟨gs, rfl, fun g hg => ?_, fun name hname => (hsame.mem_names name).1 (hrequired name hname)⟩
  obtain ⟨v, hv, hgv⟩ := hsame.symm.exists_mem hg
  exact hA _ _ _ hgv.symm (hfields _ hv)

/-- A rearranged string is a string. -/
theorem IsString.of_rearranged (h : v.Rearranged w) (hv : IsString v) : IsString w := by
  obtain ⟨s, rfl⟩ := hv
  exact ⟨s, h.eq_string⟩

/-- Rearranged metadata are metadata. -/
theorem IsMetadata.of_rearranged (h : v.Rearranged w) (hv : IsMetadata v) : IsMetadata w :=
  IsObject.of_rearranged (fun _ _ _ => IsString.of_rearranged) h hv

/-- A rearranged node entry is a node entry. -/
theorem IsNode.of_rearranged (h : v.Rearranged w) (hv : IsNode v) : IsNode w := by
  refine IsObject.of_rearranged (fun name v w h hv => ?_) h hv
  rcases hv with ⟨hname, type, rfl⟩ | ⟨hname, hv⟩
  · exact Or.inl ⟨hname, type, h.eq_string⟩
  · exact Or.inr ⟨hname, hv.of_rearranged h⟩

/-- A rearranged link is a link. -/
theorem IsLink.of_rearranged {mj : Minijson} (h : v.Rearranged w) (hv : IsLink mj v) :
    IsLink mj w := by
  refine IsObject.of_rearranged (fun name v w h hv => ?_) h hv
  rcases hv with ⟨hname, rfl | hv⟩ | ⟨hname, rfl | ⟨text, k, rfl, hk⟩⟩
  · exact Or.inl ⟨hname, Or.inl h.eq_null⟩
  · exact Or.inl ⟨hname, Or.inr (hv.of_rearranged h)⟩
  · exact Or.inr ⟨hname, Or.inl h.eq_null⟩
  · exact Or.inr ⟨hname, Or.inr ⟨text, k, h.eq_number, hk⟩⟩

/-- A rearranged destination is a destination. -/
theorem IsDest.of_rearranged (h : v.Rearranged w) (hv : IsDest v) : IsDest w := by
  refine IsObject.of_rearranged (fun name v w h hv => ?_) h hv
  rcases hv with ⟨hname, hv⟩ | ⟨hname, hv⟩
  · exact Or.inl ⟨hname, hv.of_rearranged h⟩
  · exact Or.inr ⟨hname, hv.of_rearranged h⟩

/-- A rearranged section entry is a section entry. -/
theorem IsSection.of_rearranged {mj : Minijson} (h : v.Rearranged w) (hv : IsSection mj v) :
    IsSection mj w := by
  refine IsObject.of_rearranged (fun name v w h hv => ?_) h hv
  rcases hv with ⟨hname, hv⟩ | ⟨hname, dir, rfl⟩ | ⟨hname, hv⟩ | ⟨hname, hv⟩
  · exact Or.inl ⟨hname, hv.of_rearranged h⟩
  · exact Or.inr (Or.inl ⟨hname, dir, h.eq_string⟩)
  · exact Or.inr (Or.inr (Or.inl ⟨hname, hv.of_rearranged h⟩))
  · exact Or.inr (Or.inr (Or.inr ⟨hname, hv.of_rearranged h⟩))

end Forms

/-! ### Documents -/

section Documents

variable {mj : Minijson} {nodes nodes' sections sections' : Fields}

/-- When names occur once, what holds of any two fields in their order holds of any
two of different names. -/
theorem pairwise_iff_of_nodup {R : Bytes × Doc → Bytes × Doc → Prop} [Std.Symm R]
    {fields : Fields} (h : (fields.map Prod.fst).Nodup) :
    fields.Pairwise R ↔ ∀ f ∈ fields, ∀ g ∈ fields, f.1 ≠ g.1 → R f g := by
  constructor
  · intro hpair f hf g hg hne
    exact hpair.forall hf hg fun heq => hne (by rw [heq])
  · intro hall
    exact (List.pairwise_map.1 h).imp_of_mem fun hf hg hne => hall _ hf _ hg hne

/-- Of any two entries, what does not see the order is kept. -/
theorem pairwise_of_sameFields {R : Bytes × Doc → Bytes × Doc → Prop} [Std.Symm R]
    (hcongr : ∀ key v w g, v.Rearranged w → R (key, v) g → R (key, w) g)
    (h : SameFields sections sections') (hnodup : (sections.map Prod.fst).Nodup)
    (hpair : sections.Pairwise R) : sections'.Pairwise R := by
  rw [pairwise_iff_of_nodup hnodup] at hpair
  refine (pairwise_iff_of_nodup (h.nodup_names.1 hnodup)).2 fun f hf g hg hne => ?_
  obtain ⟨v, hv, hfv⟩ := h.symm.exists_mem hf
  obtain ⟨w, hw, hgw⟩ := h.symm.exists_mem hg
  have hvw := hpair _ hv _ hw hne
  exact hcongr _ _ _ _ hfv.symm (symm (hcongr _ _ _ _ hgw.symm (symm hvw)))

/-- Rearranged section entries ask for the same link. -/
theorem asksLink_of_rearranged {v w : Doc} (key : Bytes) (h : v.Rearranged w) {a b : Bytes}
    {i j : SlotId} : AsksLink mj (key, v) a i b j ↔ AsksLink mj (key, w) a i b j := by
  rw [AsksLink, AsksLink, linkOf_of_rearranged mj h]

/-- And so they use the same ports. -/
theorem usesPort_of_rearranged {v w : Doc} (key : Bytes) (h : v.Rearranged w) {p : Port} :
    UsesPort mj (key, v) p ↔ UsesPort mj (key, w) p := by
  simp only [UsesPort, asksLink_of_rearranged key h]

/-- Rearranged node entries give the same ports. -/
theorem GivesPort.of_sameFields (h : SameFields nodes nodes') {p : Port} (hp : GivesPort nodes p) :
    GivesPort nodes' p := by
  obtain ⟨f, hf, hkey, type, htype, hslot⟩ := hp
  obtain ⟨w, hw, hfw⟩ := h.exists_mem hf
  exact ⟨_, hw, hkey, type, (typeOf_of_rearranged hfw).symm.trans htype, hslot⟩

/-- **A rearranged document is as consistent.** -/
theorem ConsistentDoc.of_sameFields (hn : SameFields nodes nodes')
    (hs : SameFields sections sections') (h : ConsistentDoc mj nodes sections) :
    ConsistentDoc mj nodes' sections' := by
  constructor
  case node =>
    intro f hf
    obtain ⟨v, hv, hfv⟩ := hn.symm.exists_mem hf
    exact ⟨(h.node _ hv).1.of_rearranged hfv.symm, (h.node _ hv).2⟩
  case node_once => exact hn.nodup_names.1 h.node_once
  case «section» =>
    intro f hf
    obtain ⟨v, hv, hfv⟩ := hs.symm.exists_mem hf
    exact ⟨(h.section _ hv).1.of_rearranged hfv.symm, (h.section _ hv).2⟩
  case section_once => exact hs.nodup_names.1 h.section_once
  case address_once =>
    have : Std.Symm fun f g => ∀ adr, addressOf f = some adr → addressOf g ≠ some adr :=
      ⟨fun f g hfg adr hadr hadr' => hfg adr hadr' hadr⟩
    refine pairwise_of_sameFields ?_ hs h.section_once h.address_once
    intro key v w g hvw hfg
    rwa [addressOf_of_rearranged key hvw] at hfg
  case link_ports =>
    intro f hf a i b j hlink
    obtain ⟨v, hv, hfv⟩ := hs.symm.exists_mem hf
    obtain ⟨ha, hb, hab⟩ :=
      h.link_ports _ hv a i b j ((asksLink_of_rearranged f.1 hfv).1 hlink)
    exact ⟨ha.of_sameFields hn, hb.of_sameFields hn, hab⟩
  case port_once =>
    have : Std.Symm fun f g => ∀ p, UsesPort mj f p → ¬ UsesPort mj g p :=
      ⟨fun f g hfg p hp hp' => hfg p hp' hp⟩
    refine pairwise_of_sameFields ?_ hs h.section_once h.port_once
    intro key v w g hvw hfg p hp
    exact hfg p ((usesPort_of_rearranged key hvw).2 hp)

/-- **And describes the same model.** -/
theorem Model.Describes.of_sameFields (hn : SameFields nodes nodes')
    (hs : SameFields sections sections') {m : Model} (h : m.Describes mj nodes sections) :
    m.Describes mj nodes' sections' := by
  have hkeys : ∀ {fs gs : Fields}, SameFields fs gs → ∀ key,
      (∃ f ∈ fs, f.1 = key) ↔ ∃ f ∈ gs, f.1 = key := fun hfg key => by
    simpa only [List.mem_map] using hfg.mem_names key
  constructor
  case node_iff => exact fun n => (h.node_iff n).trans (hkeys hn n)
  case node =>
    intro f hf
    obtain ⟨v, hv, hfv⟩ := hn.symm.exists_mem hf
    obtain ⟨node, hnode, hid, htype, hmeta⟩ := h.node _ hv
    exact ⟨node, hnode, hid, (typeOf_of_rearranged hfv).trans htype,
      hmeta.trans (metadataOf_of_sameFields (sameFields_fieldsOf hfv.symm))⟩
  case section_iff => exact fun s => (h.section_iff s).trans (hkeys hs s)
  case «section» =>
    intro f hf
    obtain ⟨v, hv, hfv⟩ := hs.symm.exists_mem hf
    obtain ⟨start, stop, hsec, hlinked, hfree⟩ := h.section _ hv
    rw [sectionOf_of_rearranged f.1 hfv.symm] at hsec
    simp only [asksLink_of_rearranged f.1 hfv.symm] at hlinked hfree
    exact ⟨start, stop, hsec, hlinked, hfree⟩
  case holds_iff =>
    intro p s hnull
    rw [h.holds_iff p s hnull]
    constructor
    · rintro ⟨f, hf, hkey, hp⟩
      obtain ⟨w, hw, hfw⟩ := hs.exists_mem hf
      exact ⟨_, hw, hkey, (usesPort_of_rearranged f.1 hfw).1 hp⟩
    · rintro ⟨f, hf, hkey, hp⟩
      obtain ⟨v, hv, hfv⟩ := hs.symm.exists_mem hf
      exact ⟨_, hv, hkey, (usesPort_of_rearranged f.1 hfv).1 hp⟩

end Documents

section Reading

variable (mj : Minijson)

/-- **What is read from a document is read from its rearrangements.** -/
theorem readModel_ok_of_rearranged {doc doc' : Doc} (h : doc.Rearranged doc') {m : Model}
    (hread : readModel mj doc = .ok m) : readModel mj doc' = .ok m := by
  obtain ⟨nodes, sections, rfl, hcon, hwhole, hm⟩ := (readModel_eq_ok_iff_describes mj).1 hread
  obtain ⟨_, rfl, hparts⟩ := Rearranged.array_iff.1 h
  obtain ⟨v, _, hv, hrest, rfl⟩ := List.forall₂_cons_left_iff.1 hparts
  obtain ⟨w, _, hw, hnil, rfl⟩ := List.forall₂_cons_left_iff.1 hrest
  obtain rfl := List.forall₂_nil_left_iff.1 hnil
  obtain ⟨nodes', rfl, hn⟩ := Rearranged.object_iff.1 hv
  obtain ⟨sections', rfl, hs⟩ := Rearranged.object_iff.1 hw
  refine (readModel_eq_ok_iff_describes mj).2 ⟨nodes', sections', rfl, hcon.of_sameFields hn hs,
    fun f hf => ?_, hm.of_sameFields hn hs⟩
  obtain ⟨x, hx, hfx⟩ := hs.symm.exists_mem hf
  rw [linkOf_of_rearranged mj hfx]
  exact hwhole _ hx

/-- **Reading does not depend on the order of the fields.**  Two documents that
differ only in it are read as the same model, or neither is read. -/
theorem readModel_of_rearranged {doc doc' : Doc} (h : doc.Rearranged doc') (m : Model) :
    readModel mj doc = .ok m ↔ readModel mj doc' = .ok m :=
  ⟨readModel_ok_of_rearranged mj h, readModel_ok_of_rearranged mj h.symm⟩

/-- The document of the first illustrated example with its nodes swapped. -/
theorem readModel_smallDoc_swapped : readModel .plain smallDoc = .ok smallExample ↔
    readModel .plain (.array [
      .object [(ascii "T1034", .object [(ascii "type", .string (ascii "THRU"))]),
        (ascii "M145", .object [(ascii "type", .string (ascii "MOTORIZED"))])],
      .object [(ascii "S400", .object [
        (ascii "link", .object [(ascii "startNode", .string (ascii "M145")),
          (ascii "startSlot", .number (ascii "2")), (ascii "endNode", .string (ascii "T1034")),
          (ascii "endSlot", .number (ascii "0"))]),
        (ascii "dir", .string (ascii "UNIDIR"))])]]) = .ok smallExample :=
  readModel_of_rearranged .plain (Rearranged.array_iff.2 ⟨_, rfl,
    .cons (.of_perm (.swap ..) (by decide)) (.cons (.refl _) .nil)⟩) smallExample

end Reading

/-! ### Equal models -/

namespace Model

variable {m m' m'' : Model} {N N' : Network}

/-- A model is the same as itself. -/
theorem SameAs.refl (m : Model) : m.SameAs m := by
  constructor
  case nodes => exact fun _ => Iff.rfl
  case node =>
    intro n node node' hn hn'
    obtain rfl := Option.some.inj (hn.symm.trans hn')
    exact ⟨rfl, rfl, fun _ => rfl, rfl⟩
  case sections => exact fun _ => Iff.rfl
  case «section» =>
    intro s sec sec' hs hs'
    obtain rfl := Option.some.inj (hs.symm.trans hs')
    exact ⟨rfl, rfl, rfl, rfl, rfl, rfl⟩

/-- Sameness of models goes both ways. -/
theorem SameAs.symm (h : m.SameAs m') : m'.SameAs m := by
  constructor
  case nodes => exact fun n => (h.nodes n).symm
  case node =>
    intro n node node' hn hn'
    obtain ⟨hid, htype, hslots, hrecords⟩ := h.node hn' hn
    exact ⟨hid.symm, htype.symm, fun k => (hslots k).symm, hrecords.symm⟩
  case sections => exact fun s => (h.sections s).symm
  case «section» =>
    intro s sec sec' hs hs'
    obtain ⟨hid, hstart, hstop, hdir, hdest, hrecords⟩ := h.section hs' hs
    exact ⟨hid.symm, hstart.symm, hstop.symm, hdir.symm, hdest.symm, hrecords.symm⟩

/-- Models the same as one model are the same. -/
theorem SameAs.trans (h : m.SameAs m') (h' : m'.SameAs m'') : m.SameAs m'' := by
  constructor
  case nodes => exact fun n => (h.nodes n).trans (h'.nodes n)
  case node =>
    intro n node node'' hn hn''
    obtain ⟨node', hn'⟩ := (h.nodes n).1 ⟨node, hn⟩
    obtain ⟨hid, htype, hslots, hrecords⟩ := h.node hn hn'
    obtain ⟨hid', htype', hslots', hrecords'⟩ := h'.node hn' hn''
    exact ⟨hid.trans hid', htype.trans htype', fun k => (hslots k).trans (hslots' k),
      hrecords.trans hrecords'⟩
  case sections => exact fun s => (h.sections s).trans (h'.sections s)
  case «section» =>
    intro s sec sec'' hs hs''
    obtain ⟨sec', hs'⟩ := (h.sections s).1 ⟨sec, hs⟩
    obtain ⟨hid, hstart, hstop, hdir, hdest, hrecords⟩ := h.section hs hs'
    obtain ⟨hid', hstart', hstop', hdir', hdest', hrecords'⟩ := h'.section hs' hs''
    exact ⟨hid.trans hid', hstart.trans hstart', hstop.trans hstop', hdir.trans hdir',
      hdest.trans hdest', hrecords.trans hrecords'⟩

/-- In equal models the same slots hold a section. -/
theorem SameAs.holds (hsame : m.SameAs m') {p : Port} {s : Identifier} (h : m.Holds p s) :
    m'.Holds p s := by
  obtain ⟨node, hn, hslot⟩ := h
  obtain ⟨node', hn'⟩ := (hsame.nodes p.1).1 ⟨node, hn⟩
  exact ⟨node', hn', ((hsame.node hn hn').2.2.1 p.2).symm.trans hslot⟩

/-- A cable of the one network is a cable of the other. -/
theorem SameAs.ends (hsame : m.SameAs m') (h : m.Refines N) (h' : m'.Refines N') {s : Identifier}
    {q : Port × Port} (hq : N.wiring.ends s = some q) : N'.wiring.ends s = some q := by
  obtain ⟨c, hc⟩ := N.cable_exists hq
  have hs := h.section_of_attrs hc
  obtain ⟨sec', hs'⟩ := (hsame.sections s).1 ⟨_, hs⟩
  obtain ⟨c', _, rfl⟩ := h'.section_some hs'
  obtain ⟨_, hstart, hstop, _⟩ := hsame.section hs hs'
  cases hq' : N'.wiring.ends s with
  | none =>
      rw [Network.toSection, Network.toSection, hq, hq'] at hstart
      exact absurd hstart (ne_null_of_isId (N.isId_ends hq).1)
  | some q' =>
      rw [Network.toSection, Network.toSection, hq, hq'] at hstart hstop
      simp only [Option.elim_some] at hstart hstop
      -- The slots of the other cable hold the section, and each node holds it once.
      have hnull := ne_null_of_isId (N.isId_section hc)
      have hplug : ∀ p, N'.wiring.plug p = some s → N.wiring.plug p = some s := fun p hp =>
        (h.holds_iff_plug hnull).1 (hsame.symm.holds ((h'.holds_iff_plug hnull).2 hp))
      have hfst := hplug _ (Wiring.plug_fst hq')
      have hsnd := hplug _ (Wiring.plug_snd hq')
      rw [← Prod.mk.eta (p := q'.1), ← hstart, N.plug_start_iff hq] at hfst
      rw [← Prod.mk.eta (p := q'.2), ← hstop, N.plug_stop_iff hq] at hsnd
      exact congrArg some (Prod.ext (Prod.ext hstart.symm hfst) (Prod.ext hstop.symm hsnd))

/-- Equal models are models of networks with the same cables. -/
theorem SameAs.wiring_eq (hsame : m.SameAs m') (h : m.Refines N) (h' : m'.Refines N') :
    N.wiring = N'.wiring :=
  Wiring.eq_of_ends (funext fun _ => Option.ext fun _ =>
    ⟨fun hq => hsame.ends h h' hq, fun hq => hsame.symm.ends h' h hq⟩)

end Model

/-! ### Written documents -/

section Writing

/-- Two loops over maps with the same keys write rearranged objects, when what they
write for one key is rearranged. -/
theorem rearranged_walks {V V' : Type} {s : Finmap fun _ : Bytes => V}
    {s' : Finmap fun _ : Bytes => V'} {order order' : List Bytes} (hv : Finmap.Visits order s)
    (hv' : Finmap.Visits order' s') (hkeys : ∀ k, k ∈ s ↔ k ∈ s') {g : Bytes × V → Bytes × Doc}
    {g' : Bytes × V' → Bytes × Doc} (hg : ∀ {k v}, s.lookup k = some v → (g (k, v)).1 = k)
    (hg' : ∀ {k v}, s'.lookup k = some v → (g' (k, v)).1 = k)
    (hvalue : ∀ {k v v'}, s.lookup k = some v → s'.lookup k = some v' →
      (g (k, v)).2.Rearranged (g' (k, v')).2) :
    Rearranged (.object ((s.walk order).map g)) (.object ((s'.walk order').map g')) := by
  have hnames : ((s.walk order).map g).map Prod.fst = order := by
    rw [List.map_map]
    refine Eq.trans (List.map_congr_left fun r hr => ?_)
      (Finmap.map_fst_walk fun k hk => (hv.mem_iff k).1 hk)
    exact hg ((Finmap.mem_walk hv).1 hr)
  have hnames' : ((s'.walk order').map g').map Prod.fst = order' := by
    rw [List.map_map]
    refine Eq.trans (List.map_congr_left fun r hr => ?_)
      (Finmap.map_fst_walk fun k hk => (hv'.mem_iff k).1 hk)
    exact hg' ((Finmap.mem_walk hv').1 hr)
  refine .of_nodup (by rw [hnames]; exact hv.nodup) (by rw [hnames']; exact hv'.nodup)
    (fun name => ?_) ?_
  · rw [hnames, hnames', hv.mem_iff, hv'.mem_iff, hkeys]
  · intro name v w hmem hmem'
    obtain ⟨⟨k, x⟩, hx, hentry⟩ := List.mem_map.1 hmem
    obtain ⟨⟨k', x'⟩, hx', hentry'⟩ := List.mem_map.1 hmem'
    rw [Finmap.mem_walk hv] at hx
    rw [Finmap.mem_walk hv'] at hx'
    have hk : k = name := (hg hx).symm.trans (congrArg Prod.fst hentry)
    have hk' : k' = name := (hg' hx').symm.trans (congrArg Prod.fst hentry')
    subst hk hk'
    have hrearranged := hvalue hx hx'
    rwa [hentry, hentry'] at hrearranged

/-- Metadata with the same records. -/
theorem sameFields_writeMetadata {order order' : List Identifier} {obj obj' : HasMetadata}
    (hv : Finmap.Visits order obj.records) (hv' : Finmap.Visits order' obj'.records)
    (hrecords : obj.records = obj'.records) (hnul : obj.NulFree) :
    SameFields (writeMetadata order obj) (writeMetadata order' obj') := by
  rw [writeMetadata_congr hrecords, writeMetadata, writeMetadata]
  rw [hrecords] at hv
  have hkey : ∀ {k v}, obj'.records.lookup k = some v → cStr k = k := fun hk =>
    cStr_eq_self (hnul _ _ (hrecords ▸ hk)).1
  split
  · exact .refl _
  · refine .singleton _ (rearranged_walks hv hv' (fun _ => Iff.rfl) hkey hkey ?_)
    intro k v v' hk hk'
    obtain rfl := Option.some.inj (hk.symm.trans hk')
    exact .refl _

/-- Nodes of one type with the same records. -/
theorem rearranged_writeNode {order order' : List Identifier} {node node' : Node}
    (hv : Finmap.Visits order node.records) (hv' : Finmap.Visits order' node'.records)
    (htype : node.m_type = node'.m_type) (hrecords : node.records = node'.records)
    (hnul : node.toHasMetadata.NulFree) (id : Bytes) :
    (writeNode order node id).2.Rearranged (writeNode order' node' id).2 := by
  rw [writeNode, writeNode, htype]
  exact Rearranged.object_iff.2 ⟨_, rfl,
    (SameFields.refl [_]).append (sameFields_writeMetadata hv hv' hrecords hnul)⟩

/-- Destinations with the same contents. -/
theorem sameFields_writeDestination {order order' : List Identifier} {sec sec' : Section}
    (hv : ∀ dest, sec.m_dest = some dest → Finmap.Visits order dest.records)
    (hv' : ∀ dest, sec'.m_dest = some dest → Finmap.Visits order' dest.records)
    (hdest : sec.m_dest.map Destination.contents = sec'.m_dest.map Destination.contents)
    (hnul : ∀ dest, sec.m_dest = some dest → dest.toHasMetadata.NulFree) :
    SameFields (writeDestination order sec) (writeDestination order' sec') := by
  rw [writeDestination, writeDestination]
  cases hd : sec.m_dest with
  | none =>
      rw [hd, Option.map_none, eq_comm, Option.map_eq_none_iff] at hdest
      rw [hdest]
      exact .refl _
  | some dest =>
      rw [hd, Option.map_some, eq_comm, Option.map_eq_some_iff] at hdest
      obtain ⟨dest', hd', hcontents⟩ := hdest
      simp only [Destination.contents, Prod.mk.injEq] at hcontents
      obtain ⟨haddress, hname, hrecords⟩ := hcontents
      rw [hd']
      simp only [haddress, hname]
      exact .singleton _ (Rearranged.object_iff.2 ⟨_, rfl, (SameFields.refl _).append
        (sameFields_writeMetadata (hv _ hd) (hv' _ hd') hrecords.symm (hnul _ hd))⟩)

variable {mj : Minijson} {m m' : Model} {N N' : Network} {orders orders' : Orders}

/-- **Equal models are written as rearrangements.** -/
theorem Model.SameAs.rearranged (hsame : m.SameAs m') (h : m.Refines N) (h' : m'.Refines N')
    (hnul : m.NulFree) (hnul' : m'.NulFree) (hv : orders.Visit m) (hv' : orders'.Visit m') :
    (Json.array [.object (nodeEntries orders m),
      .object (sectionEntries mj orders m N)]).Rearranged
        (.array [.object (nodeEntries orders' m'), .object (sectionEntries mj orders' m' N')]) := by
  have hwiring := hsame.wiring_eq h h'
  have hnodes : Rearranged (.object (nodeEntries orders m)) (.object (nodeEntries orders' m')) := by
    refine rearranged_walks hv.nodes hv'.nodes (fun n => ?_) hnul.cStr_node hnul'.cStr_node ?_
    · simpa only [Model.exists_node_iff] using hsame.nodes n
    · intro n node node' hn hn'
      obtain ⟨_, htype, _, hrecords⟩ := hsame.node hn hn'
      exact rearranged_writeNode (hv.nodeMetadata hn) (hv'.nodeMetadata hn') htype hrecords
        (hnul.node hn).2 n
  have hsections : Rearranged (.object (sectionEntries mj orders m N))
      (.object (sectionEntries mj orders' m' N')) := by
    refine rearranged_walks hv.sections hv'.sections (fun s => ?_) hnul.cStr_section
      hnul'.cStr_section ?_
    · simpa only [Model.exists_section_iff] using hsame.sections s
    · intro s sec sec' hs hs'
      obtain ⟨_, _, _, hdir, hdest, hrecords⟩ := hsame.section hs hs'
      have hfields := sameFields_writeDestination (fun _ => hv.destMetadata hs)
        (fun _ => hv'.destMetadata hs') hdest fun _ hd => (hnul.dest hs hd).2.2
      have hmeta := sameFields_writeMetadata (hv.sectionMetadata hs) (hv'.sectionMetadata hs')
        hrecords (hnul.section hs).2
      simp only [writtenSection, hwiring, hdir]
      exact Rearranged.object_iff.2 ⟨_, rfl, ((SameFields.refl _).append hfields).append hmeta⟩
  exact Rearranged.array_iff.2 ⟨_, rfl, .cons hnodes (.cons hsections .nil)⟩

/-- **Writing is canonical up to the order of the fields.**  The documents written for
two models are rearrangements of each other exactly when the models are equal. -/
theorem Reachable.written_rearranged_iff (hmj : mj.KeepsSlots) (h : Reachable m)
    (h' : Reachable m') (hnul : m.NulFree) (hnul' : m'.NulFree) (hv : orders.Visit m)
    (hv' : orders'.Visit m') : ∃ doc doc', writeModel mj orders m = .ok doc ∧
      writeModel mj orders' m' = .ok doc' ∧ (doc.Rearranged doc' ↔ m.SameAs m') := by
  obtain ⟨N, hN⟩ := h.refines
  obtain ⟨N', hN'⟩ := h'.refines
  refine ⟨_, _, writeModel_eq mj hN hv, writeModel_eq mj hN' hv', fun hdocs => ?_, fun hsame =>
    hsame.rearranged hN hN' hnul hnul' hv hv'⟩
  obtain ⟨r, hread, hr⟩ := exists_readModel (consistentDoc_written hmj hN hnul hv)
    (whole_written hmj hv)
  obtain ⟨r', hread', hr'⟩ := exists_readModel (consistentDoc_written hmj hN' hnul' hv')
    (whole_written hmj hv')
  obtain rfl : r = r' :=
    Except.ok.inj (((readModel_ok_of_rearranged mj hdocs hread).symm).trans hread')
  exact (sameAs_of_describes hmj hN hnul hv hr).trans
    (sameAs_of_describes hmj hN' hnul' hv' hr').symm

end Writing

/-- No string of the small example has a NUL. -/
theorem smallExample_nulFree : smallExample.NulFree := by
  obtain ⟨hnode, hsection⟩ := smallExample_bare
  have hbare : ∀ {obj : HasMetadata}, obj.records = ∅ → obj.NulFree := fun hobj key value h => by
    rw [hobj] at h
    cases h
  refine ⟨fun hn => ⟨(hnode hn).1, hbare (hnode hn).2⟩,
    fun hs => ⟨(hsection hs).1, hbare (hsection hs).2.1⟩, fun hs hd => ?_⟩
  rw [(hsection hs).2.2] at hd
  cases hd

/-- Its nodes may be met in any order. -/
theorem visit_smallExample {nodes : List Identifier}
    (h : Finmap.Visits nodes smallExample.m_nodes) :
    { smallExampleOrders with nodes := nodes }.Visit smallExample := by
  obtain ⟨hnode, hsection⟩ := smallExample_bare
  have hempty : Finmap.Visits [] (∅ : Metadata) := by decide
  have hsections : Finmap.Visits smallExampleOrders.sections smallExample.m_sections := by decide
  refine ⟨h, hsections, fun hn => ?_, fun hs => ?_, fun hs hd => ?_⟩
  · rw [(hnode hn).2]
    exact hempty
  · rw [(hsection hs).2.1]
    exact hempty
  · rw [(hsection hs).2.2] at hd
    cases hd

/-- The small example, written with its nodes in either order. -/
theorem smallExample_written_rearranged : ∃ doc doc',
    writeModel .plain { smallExampleOrders with nodes := [ascii "T1034", ascii "M145"] }
        smallExample = .ok doc ∧
      writeModel .plain { smallExampleOrders with nodes := [ascii "M145", ascii "T1034"] }
          smallExample = .ok doc' ∧
        (doc.Rearranged doc' ↔ smallExample.SameAs smallExample) :=
  Reachable.written_rearranged_iff (show ∀ k < 4, _ by decide) reachable_smallExample
    reachable_smallExample smallExample_nulFree smallExample_nulFree
    (visit_smallExample (by decide)) (visit_smallExample (by decide))

end PiwcsPrw
