/-
# The metadata store

`include/piwcsprwmodel/metadata.h`, `src/metadata.cpp`, `test/metadata.cpp`.

The map is allocated by the first call of a non-const member, so there are two
ways of having no records: no map, and an empty map.  Some overloads create the
record they are asked for and some must not.

`HasMetadata.step` is the class as a machine: a method call, or an operation on
the map through the reference that `metadata()` returns.  That reference is to the map
inside the object, and a map once allocated stays, so an operation through a
reference kept from earlier is one through a fresh reference.

`Records.step` says what the store is for, on a plain finite map.
`HasMetadata.step_eq` compares the two: the answer to each operation is that of the
map of records, whichever way the object has of storing it.
-/

import PiwcsPrw.Entities.Identifier
import PiwcsPrw.Foundation.Machine

namespace PiwcsPrw

/-! ### The members of the class -/

namespace HasMetadata

/-- The non-const `metadata()`: the map, and the object that now has one. -/
def openMetadata (obj : HasMetadata) : Metadata × HasMetadata :=
  match obj.m_meta with
  | none => (∅, { m_meta := some ∅ })
  | some map => (map, obj)

/-- `hasMetadata(IdRef)`. -/
def hasMetadataAt (obj : HasMetadata) (key : IdRef) : Bool :=
  match obj.m_meta with
  | none => false
  | some map => (map.lookup key).isSome

/-- The const `metadata(IdRef)`. -/
def metadataAt (obj : HasMetadata) (key : IdRef) : Bytes :=
  match obj.m_meta with
  | none => []
  | some map =>
    match map.lookup key with
    | none => []
    | some value => value

/-- The non-const `metadata(IdRef)`: the value of the record, and the object that now
has the record. -/
def openMetadataAt (obj : HasMetadata) (key : IdRef) : Bytes × HasMetadata :=
  let (map, obj) := obj.openMetadata
  match map.lookup key with
  | none => ([], { m_meta := some (map.insert key []) })
  | some value => (value, obj)

/-- The assignment `obj.metadata(key) = value`. -/
def assignMetadataAt (obj : HasMetadata) (key : IdRef) (value : Bytes) : HasMetadata :=
  let (_, obj) := obj.openMetadataAt key
  { m_meta := obj.m_meta.map fun map => map.insert key value }

end HasMetadata

/-! ### Operations -/

/-- An operation on a map. -/
inductive MapEdit
  | emplace (key : IdRef) (value : Bytes)
  | subscript (key : IdRef)
  | insertOrAssign (key : IdRef) (value : Bytes)
  | erase (key : IdRef)
  | clear
  deriving DecidableEq

/-- The map after the operation.  `emplace` leaves a record that exists, and so does
`operator[]`. -/
def MapEdit.apply : MapEdit → Metadata → Metadata
  | emplace key value, map => if key ∈ map then map else map.insert key value
  | subscript key, map => if key ∈ map then map else map.insert key []
  | insertOrAssign key value, map => map.insert key value
  | erase key, map => map.erase key
  | clear, _ => ∅

/-- What the operation makes of the record `key`, given what it was. -/
def MapEdit.after (key : IdRef) (old : Option Bytes) : MapEdit → Option Bytes
  | emplace key' value => if key' = key then some (old.getD value) else old
  | subscript key' => if key' = key then some (old.getD []) else old
  | insertOrAssign key' value => if key' = key then some value else old
  | erase key' => if key' = key then none else old
  | clear => none

/-- The operation may change the record `key`. -/
def MapEdit.Touches (key : IdRef) : MapEdit → Prop
  | emplace key' _ | subscript key' | insertOrAssign key' _ | erase key' => key' = key
  | clear => True

/-- What is done with an object that has metadata. -/
inductive MetadataOp
  | hasAny
  | has (key : IdRef)
  | value (key : IdRef)
  | all
  | openAll
  | edit (e : MapEdit)
  | openAt (key : IdRef)
  | assign (key : IdRef) (value : Bytes)
  deriving DecidableEq

/-- What the operation makes of the record `key`, given what it was. -/
def MetadataOp.after (key : IdRef) (old : Option Bytes) : MetadataOp → Option Bytes
  | hasAny | has _ | value _ | all | openAll => old
  | edit e => e.after key old
  | openAt key' => if key' = key then some (old.getD []) else old
  | assign key' text => if key' = key then some text else old

/-- The operation may change the record `key`. -/
def MetadataOp.Touches (key : IdRef) : MetadataOp → Prop
  | hasAny | has _ | value _ | all | openAll => False
  | edit e => e.Touches key
  | openAt key' | assign key' _ => key' = key

/-- What an operation answers. -/
inductive MetadataAnswer
  | done
  | bool (b : Bool)
  | text (s : Bytes)
  | records (map : Metadata)
  deriving DecidableEq

/-- The class. -/
def HasMetadata.step : Machine HasMetadata MetadataOp MetadataAnswer
  | .hasAny, obj => (.bool obj.hasMetadata, obj)
  | .has key, obj => (.bool (obj.hasMetadataAt key), obj)
  | .value key, obj => (.text (obj.metadataAt key), obj)
  | .all, obj => (.records obj.records, obj)
  | .openAll, obj =>
    let (map, obj) := obj.openMetadata
    (.records map, obj)
  | .edit e, obj =>
    let (_, obj) := obj.openMetadata
    (.done, { m_meta := obj.m_meta.map e.apply })
  | .openAt key, obj =>
    let (value, obj) := obj.openMetadataAt key
    (.text value, obj)
  | .assign key value, obj => (.done, obj.assignMetadataAt key value)

/-- A plain finite map. -/
def Records.step : Machine Metadata MetadataOp MetadataAnswer
  | .hasAny, map => (.bool (map != ∅), map)
  | .has key, map => (.bool (map.lookup key).isSome, map)
  | .value key, map => (.text ((map.lookup key).getD []), map)
  | .all, map | .openAll, map => (.records map, map)
  | .edit e, map => (.done, e.apply map)
  | .openAt key, map =>
    (.text ((map.lookup key).getD []), if key ∈ map then map else map.insert key [])
  | .assign key value, map => (.done, map.insert key value)

/-! ### The comparison -/

namespace HasMetadata

variable (obj : HasMetadata)

/-- The reference is to the records, and the object then has a map of them. -/
theorem openMetadata_eq : obj.openMetadata = (obj.records, { m_meta := some obj.records }) := by
  obtain ⟨_ | map⟩ := obj <;> rfl

/-- A key is there when the records have it. -/
theorem hasMetadataAt_eq (key : IdRef) :
    obj.hasMetadataAt key = (obj.records.lookup key).isSome := by
  obtain ⟨_ | map⟩ := obj <;> simp [hasMetadataAt, records]

/-- The value of a key is that of its record, and empty without one. -/
theorem metadataAt_eq (key : IdRef) : obj.metadataAt key = (obj.records.lookup key).getD [] := by
  obtain ⟨_ | map⟩ := obj
  · simp [metadataAt, records]
  · cases h : map.lookup key <;> simp [metadataAt, records, h]

/-- A record is created only if there is none. -/
theorem openMetadataAt_eq (key : IdRef) :
    obj.openMetadataAt key = ((obj.records.lookup key).getD [],
      { m_meta := some (if key ∈ obj.records then obj.records else obj.records.insert key []) }) := by
  rw [openMetadataAt, openMetadata_eq]
  cases h : obj.records.lookup key with
  | none =>
      rw [if_neg (Finmap.lookup_eq_none.1 h)]
      simp [h]
  | some value =>
      rw [if_pos (Finmap.mem_of_lookup_eq_some h)]
      simp [h]

/-- **Each operation is that of the map of records.** -/
theorem step_eq (op : MetadataOp) :
    (step op obj).1 = (Records.step op obj.records).1 ∧
      (step op obj).2.records = (Records.step op obj.records).2 := by
  cases op with
  | hasAny => exact ⟨congrArg _ obj.hasMetadata_eq, rfl⟩
  | has key => exact ⟨congrArg _ (obj.hasMetadataAt_eq key), rfl⟩
  | value key => exact ⟨congrArg _ (obj.metadataAt_eq key), rfl⟩
  | all => exact ⟨rfl, rfl⟩
  | openAll =>
      have hstep : step .openAll obj = (.records obj.records, { m_meta := some obj.records }) := by
        simp only [step, openMetadata_eq]
      rw [hstep]
      exact ⟨rfl, rfl⟩
  | edit e =>
      have hstep : step (.edit e) obj = (.done, { m_meta := some (e.apply obj.records) }) := by
        simp only [step, openMetadata_eq, Option.map_some]
      rw [hstep]
      exact ⟨rfl, rfl⟩
  | openAt key =>
      rw [step, openMetadataAt_eq]
      exact ⟨rfl, rfl⟩
  | assign key value =>
      -- The record is created with the empty string first, and overwritten.
      have hstep : obj.assignMetadataAt key value
          = { m_meta := some (obj.records.insert key value) } := by
        rw [assignMetadataAt, openMetadataAt_eq]
        simp only [Option.map_some]
        split_ifs
        · rfl
        · rw [Finmap.insert_insert]
      refine ⟨rfl, ?_⟩
      rw [step, hstep]
      rfl

/-- **A run cannot tell the object from the map of its records.** -/
theorem run_eq (ops : List MetadataOp) :
    (Machine.run step ops obj).1 = (Machine.run Records.step ops obj.records).1 ∧
      (Machine.run step ops obj).2.records = (Machine.run Records.step ops obj.records).2 :=
  Machine.run_of_abstraction (fun op obj => obj.step_eq op) ops obj

/-- `Metadata.EmptyValVsNoVal` of the tests, asking before and after the assignment. -/
example : (Machine.run step [.has (ascii "k1"), .value (ascii "k1"), .assign (ascii "k1") [],
    .has (ascii "k1"), .value (ascii "k1")] {}).1
      = [.bool false, .text [], .done, .bool true, .text []] := by
  decide

end HasMetadata

/-! ### What the map does -/

/-- A record that is created only where there is none. -/
theorem Records.lookup_create (map : Metadata) (key key' : IdRef) (value : Bytes) :
    (if key' ∈ map then map else map.insert key' value).lookup key
      = if key' = key then some ((map.lookup key).getD value) else map.lookup key := by
  by_cases hkey : key' = key
  · subst hkey
    rw [if_pos rfl]
    by_cases hmem : key' ∈ map
    · obtain ⟨old, hold⟩ := Finmap.mem_iff.1 hmem
      rw [if_pos hmem, hold, Option.getD_some]
    · rw [if_neg hmem, Finmap.lookup_insert, Finmap.lookup_eq_none.2 hmem, Option.getD_none]
  · rw [if_neg hkey]
    split_ifs
    · rfl
    · exact Finmap.lookup_insert_of_ne _ (Ne.symm hkey)

/-- A record that is put in any case. -/
theorem Records.lookup_put (map : Metadata) (key key' : IdRef) (value : Bytes) :
    (map.insert key' value).lookup key = if key' = key then some value else map.lookup key := by
  rw [Finmap.lookup_insert_eq]
  exact if_congr eq_comm rfl rfl

/-- **What an operation on the map makes of each record.** -/
theorem MapEdit.lookup_apply (e : MapEdit) (key : IdRef) (map : Metadata) :
    (e.apply map).lookup key = e.after key (map.lookup key) := by
  cases e with
  | emplace key' value => exact Records.lookup_create map key key' value
  | subscript key' => exact Records.lookup_create map key key' []
  | insertOrAssign key' value => exact Records.lookup_put map key key' value
  | erase key' =>
      rw [apply, after]
      split_ifs with hkey
      · rw [hkey, Finmap.lookup_erase]
      · exact Finmap.lookup_erase_ne (Ne.symm hkey)
  | clear => exact Finmap.lookup_empty key

/-- An operation on the map leaves the records it does not touch. -/
theorem MapEdit.after_of_not_touches {e : MapEdit} {key : IdRef} (h : ¬ e.Touches key)
    (old : Option Bytes) : e.after key old = old := by
  cases e with
  | emplace | subscript | insertOrAssign | erase => exact if_neg h
  | clear => exact absurd trivial h

namespace Records

/-- **What an operation makes of each record.** -/
theorem lookup_step (op : MetadataOp) (key : IdRef) (map : Metadata) :
    (step op map).2.lookup key = op.after key (map.lookup key) := by
  cases op with
  | edit e => exact e.lookup_apply key map
  | openAt key' => exact lookup_create map key key' []
  | assign key' value => exact lookup_put map key key' value
  | hasAny | has | value | all | openAll => rfl

/-- **An operation leaves the records it does not touch.** -/
theorem lookup_step_of_not_touches {op : MetadataOp} {key : IdRef} (h : ¬ op.Touches key)
    (map : Metadata) : (step op map).2.lookup key = map.lookup key := by
  rw [lookup_step]
  cases op with
  | edit e => exact MapEdit.after_of_not_touches h _
  | openAt | assign => exact if_neg h
  | hasAny | has | value | all | openAll => rfl

/-- Lookups and the non-const `metadata()` change nothing. -/
theorem step_of_touches_none {op : MetadataOp} (h : ∀ key, ¬ op.Touches key) (map : Metadata) :
    (step op map).2 = map :=
  Finmap.ext_lookup fun key => lookup_step_of_not_touches (h key) map

end Records

end PiwcsPrw
