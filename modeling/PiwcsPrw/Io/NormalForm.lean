/-
# Documents in normal form

`readModel` followed by `writeModel`, the two functions that `examples/main.cpp` applies
to its argument one after the other.

A document may spell a model in many ways: fields in any order, repeated names, empty
metadata, no direction.  Writing what was read leaves one spelling of each, up to the
order of the fields.  **That normal form is read as exactly the model that the
document was, and two documents stand for one model exactly when their normal forms
are rearrangements of each other** (`readModel_normal_form`).

Exactly, since a model that was read has no empty metadata map, the one thing that is
lost in a document.
-/

import PiwcsPrw.Io.FieldOrder
import PiwcsPrw.Io.Range

namespace PiwcsPrw

/-- Without empty maps, the records are all there is to metadata. -/
theorem HasMetadata.eq_of_records {obj obj' : HasMetadata} (h : obj.records = obj'.records)
    (hobj : obj.m_meta ≠ some ∅) (hobj' : obj'.m_meta ≠ some ∅) : obj = obj' := by
  obtain ⟨md⟩ := obj
  obtain ⟨md'⟩ := obj'
  cases md with
  | none =>
      cases md' with
      | none => rfl
      | some md' => exact absurd (congrArg some h.symm) hobj'
  | some md =>
      cases md' with
      | none => exact absurd (congrArg some h) hobj
      | some md' => exact congrArg (HasMetadata.mk ∘ some) h

namespace Model

variable {m m' : Model}

/-- Equal models without empty maps have the same nodes. -/
theorem SameAs.node_eq (h : m.SameAs m') (hm : m.NoEmptyMaps) (hm' : m'.NoEmptyMaps)
    {n : Identifier} {node : Node} (hn : m.node n = some node) : m'.node n = some node := by
  obtain ⟨node', hn'⟩ := (h.nodes n).1 ⟨node, hn⟩
  obtain ⟨hid, htype, hslots, hrecords⟩ := h.node hn hn'
  have hmeta := HasMetadata.eq_of_records hrecords (hm.node hn) (hm'.node hn')
  rw [hn', Node.ext_slotAt htype hid hmeta fun k _ => hslots k]

/-- And the same sections. -/
theorem SameAs.section_eq (h : m.SameAs m') (hm : m.NoEmptyMaps) (hm' : m'.NoEmptyMaps)
    {s : Identifier} {sec : Section} (hs : m.section s = some sec) : m'.section s = some sec := by
  obtain ⟨sec', hs'⟩ := (h.sections s).1 ⟨sec, hs⟩
  obtain ⟨hid, hstart, hstop, hdir, hdest, hrecords⟩ := h.section hs hs'
  have hmeta := HasMetadata.eq_of_records hrecords (hm.section hs) (hm'.section hs')
  have hdest' : sec.m_dest = sec'.m_dest := by
    cases hd : sec.m_dest with
    | none =>
        rw [hd, Option.map_none, eq_comm, Option.map_eq_none_iff] at hdest
        exact hdest.symm
    | some dest =>
        rw [hd, Option.map_some, eq_comm, Option.map_eq_some_iff] at hdest
        obtain ⟨dest', hd', hcontents⟩ := hdest
        simp only [Destination.contents, Prod.mk.injEq] at hcontents
        obtain ⟨haddress, hname, hdestRecords⟩ := hcontents
        have hdestMeta := HasMetadata.eq_of_records hdestRecords.symm (hm.dest hs hd)
          (hm'.dest hs' hd')
        rw [hd', Destination.ext (congrArg HasMetadata.m_meta hdestMeta) haddress.symm hname.symm]
  rw [hs', Section.ext (congrArg HasMetadata.m_meta hmeta) hid hstart hstop hdir hdest']

/-- **Equal models without empty maps are the same model.** -/
theorem SameAs.eq (h : m.SameAs m') (hm : m.NoEmptyMaps) (hm' : m'.NoEmptyMaps) : m = m' := by
  refine Model.ext (Finmap.ext_lookup fun n => Option.ext fun node => ⟨?_, ?_⟩)
    (Finmap.ext_lookup fun s => Option.ext fun sec => ⟨?_, ?_⟩)
  · exact h.node_eq hm hm'
  · exact h.symm.node_eq hm' hm
  · exact h.section_eq hm hm'
  · exact h.symm.section_eq hm' hm

end Model

variable {mj : Minijson}

/-- What is read is reachable and has no empty maps. -/
theorem noEmptyMaps_of_readModel {doc : Doc} {m : Model} (h : readModel mj doc = .ok m) :
    m.NoEmptyMaps := by
  obtain ⟨_, _, _, _, _, hm⟩ := (readModel_eq_ok_iff_describes mj).1 h
  exact hm.noEmptyMaps

/-- A model without NULs and empty maps is written, and read back as it was. -/
theorem exists_written_read (hmj : mj.KeepsSlots) {m : Model} {N : Network} (hN : m.Refines N)
    (hm : m.NoEmptyMaps) (hnul : m.NulFree) {orders : Orders} (hv : orders.Visit m) :
    readModel mj (.array [.object (nodeEntries orders m), .object (sectionEntries mj orders m N)])
      = .ok m := by
  obtain ⟨m', hread, hm'⟩ := exists_readModel (consistentDoc_written hmj hN hnul hv)
    (whole_written hmj hv)
  rw [hread, (sameAs_of_describes hmj hN hnul hv hm').eq hm hm'.noEmptyMaps]

/-- **Writing what was read gives a normal form** of the document: it is read as the same
model, and documents stand for the same model exactly when their normal forms are
rearrangements of each other. -/
theorem readModel_normal_form (hmj : mj.KeepsSlots) {doc doc' : Doc} {m m' : Model}
    (h : readModel mj doc = .ok m) (h' : readModel mj doc' = .ok m') (hnul : m.NulFree)
    (hnul' : m'.NulFree) {orders orders' : Orders} (hv : orders.Visit m) (hv' : orders'.Visit m') :
    ∃ normal normal', writeModel mj orders m = .ok normal ∧
      writeModel mj orders' m' = .ok normal' ∧ readModel mj normal = .ok m ∧
        readModel mj normal' = .ok m' ∧ (m = m' ↔ normal.Rearranged normal') := by
  obtain ⟨_, _, _, _, N, _, hN⟩ := (readModel_eq_ok_iff mj).1 h
  obtain ⟨_, _, _, _, N', _, hN'⟩ := (readModel_eq_ok_iff mj).1 h'
  have hm := noEmptyMaps_of_readModel h
  have hm' := noEmptyMaps_of_readModel h'
  have hread := exists_written_read hmj hN hm hnul hv
  have hread' := exists_written_read hmj hN' hm' hnul' hv'
  refine ⟨_, _, writeModel_eq mj hN hv, writeModel_eq mj hN' hv', hread, hread', ?_, fun hnormal => ?_⟩
  · rintro rfl
    exact (Model.SameAs.refl m).rearranged hN hN' hnul hnul' hv hv'
  · exact Except.ok.inj ((readModel_ok_of_rearranged mj hnormal hread).symm.trans hread')

/-- The document of the first illustrated example, twice, and its normal forms with the
nodes in either order. -/
theorem smallExample_normal_form : ∃ normal normal',
    writeModel .plain { smallExampleOrders with nodes := [ascii "T1034", ascii "M145"] }
        smallExample = .ok normal ∧
      writeModel .plain { smallExampleOrders with nodes := [ascii "M145", ascii "T1034"] }
          smallExample = .ok normal' ∧
        readModel .plain normal = .ok smallExample ∧ readModel .plain normal' = .ok smallExample ∧
          (smallExample = smallExample ↔ normal.Rearranged normal') :=
  readModel_normal_form (show ∀ k < 4, _ by decide) readModel_smallDoc readModel_smallDoc
    smallExample_nulFree smallExample_nulFree (visit_smallExample (by decide))
    (visit_smallExample (by decide))

end PiwcsPrw
