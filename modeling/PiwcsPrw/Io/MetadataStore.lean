/-
# The metadata store is a plain map

`src/metadata.cpp` and `writeMetadata` in `src/io_write.cpp`.

`PiwcsPrw.Entities.Metadata` shows that no answer of the class tells an object
without a map from one with an empty map.  Neither does the document: the writer
asks `hasMetadata()` before it opens a field, and then goes through the records.
-/

import PiwcsPrw.Entities.Metadata
import PiwcsPrw.Io.Write

namespace PiwcsPrw

/-- What is written depends on the records alone. -/
theorem writeMetadata_congr {obj obj' : HasMetadata} (h : obj.records = obj'.records)
    (order : List Identifier) : writeMetadata order obj = writeMetadata order obj' := by
  rw [writeMetadata, writeMetadata, obj.hasMetadata_eq, obj'.hasMetadata_eq, h]

/-- The two lists of fields differ at most in the order of the records in their one field
`metadata`. -/
def RecordsPermuted (fields fields' : Fields) : Prop :=
  fields = fields' ∨ ∃ entries entries' : Fields, entries.Perm entries' ∧
    fields = [(ascii "metadata", .object entries)] ∧
    fields' = [(ascii "metadata", .object entries')]

/-- Whatever orders the loops take, the same records are written. -/
theorem writeMetadata_permuted {obj obj' : HasMetadata} (h : obj.records = obj'.records)
    {order order' : List Identifier} (hv : Finmap.Visits order obj.records)
    (hv' : Finmap.Visits order' obj'.records) :
    RecordsPermuted (writeMetadata order obj) (writeMetadata order' obj') := by
  rw [writeMetadata_congr h, writeMetadata, writeMetadata]
  cases obj'.hasMetadata with
  | false => exact Or.inl rfl
  | true => exact Or.inr ⟨_, _, ((h ▸ hv).walk_perm hv').map _, rfl, rfl⟩

/-- **The metadata store is a plain finite map.**  In every run the answers are those
of the map of the records; on that map `metadata(key)` inserts an empty record where
there is none and otherwise changes nothing, and no operation changes a record it
does not touch; what it makes of one it touches is `MetadataOp.after`.  Objects with the
same records, whichever way they store them, answer and are written alike, up to the
order in which their maps are gone through. -/
theorem HasMetadata.plain_map (ops : List MetadataOp) (obj : HasMetadata) :
    ((Machine.run step ops obj).1 = (Machine.run Records.step ops obj.records).1 ∧
        (Machine.run step ops obj).2.records = (Machine.run Records.step ops obj.records).2) ∧
      ((∀ key map, key ∈ map → (Records.step (.openAt key) map).2 = map) ∧
        (∀ key map, key ∉ map → (Records.step (.openAt key) map).2 = map.insert key []) ∧
        (∀ op map, (∀ key, ¬ op.Touches key) → (Records.step op map).2 = map) ∧
        (∀ op key map, ¬ op.Touches key →
          (Records.step op map).2.lookup key = map.lookup key) ∧
        ∀ op key map, (Records.step op map).2.lookup key = op.after key (map.lookup key)) ∧
      ∀ obj' : HasMetadata, obj'.records = obj.records →
        (Machine.run step ops obj').1 = (Machine.run step ops obj).1 ∧
          (∀ order, writeMetadata order (Machine.run step ops obj').2
            = writeMetadata order (Machine.run step ops obj).2) ∧
          ∀ order order', Finmap.Visits order (Machine.run step ops obj').2.records →
            Finmap.Visits order' (Machine.run step ops obj).2.records →
            RecordsPermuted (writeMetadata order (Machine.run step ops obj').2)
              (writeMetadata order' (Machine.run step ops obj).2) := by
  refine ⟨obj.run_eq ops, ⟨fun key map hkey => if_pos hkey, fun key map hkey => if_neg hkey,
    fun op map hop => Records.step_of_touches_none hop map,
    fun op key map hop => Records.lookup_step_of_not_touches hop map, Records.lookup_step⟩,
    fun obj' hobj' => ?_⟩
  obtain ⟨hanswers, hrecords⟩ := obj.run_eq ops
  obtain ⟨hanswers', hrecords'⟩ := obj'.run_eq ops
  rw [hobj'] at hanswers' hrecords'
  have hsame := hrecords'.trans hrecords.symm
  exact ⟨hanswers'.trans hanswers.symm, writeMetadata_congr hsame,
    fun order order' hv hv' => writeMetadata_permuted hsame hv hv'⟩

/-- No map and an empty map: both answer an assignment and the lookup after it alike, and
two records are written alike though the loops take them in different orders. -/
theorem plain_map_empty :
    (Machine.run HasMetadata.step [.assign (ascii "k1") [], .has (ascii "k1")]
        { m_meta := some ∅ }).1
      = (Machine.run HasMetadata.step [.assign (ascii "k1") [], .has (ascii "k1")] {}).1 ∧
    RecordsPermuted
      (writeMetadata [ascii "k1", ascii "k2"] (Machine.run HasMetadata.step
        [.assign (ascii "k1") [], .assign (ascii "k2") []] { m_meta := some ∅ }).2)
      (writeMetadata [ascii "k2", ascii "k1"] (Machine.run HasMetadata.step
        [.assign (ascii "k1") [], .assign (ascii "k2") []] {}).2) := by
  have hone := (HasMetadata.plain_map [.assign (ascii "k1") [], .has (ascii "k1")] {}).2.2
    { m_meta := some ∅ } rfl
  have htwo := (HasMetadata.plain_map [.assign (ascii "k1") [], .assign (ascii "k2") []] {}).2.2
    { m_meta := some ∅ } rfl
  exact ⟨hone.1, htwo.2.2 _ _ (by decide) (by decide)⟩

end PiwcsPrw
