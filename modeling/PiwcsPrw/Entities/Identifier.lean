/-
# Identifiers, strings and metadata

`include/piwcsprwmodel/util.h`, `src/util.cpp`, `include/piwcsprwmodel/idmap.h`
and `src/metadata.cpp`.

A `std::string` is a list of bytes, with no byte excluded; identifiers and views
of them are such lists.  `c_str()` hands out the bytes up to the first NUL
(`cStr`), which is where a string and the text a C function sees of it differ.

`SlotId` is `std::size_t`.  The code only compares slots and counts them up to
a node's slot count, so the natural numbers stand for it, and a theorem about
every natural number is one about every `std::size_t`.

Metadata are kept in an optional map.  The two ways of having none, no map and
an empty map, answer every const member alike (`HasMetadata.records`).
-/

import PiwcsPrw.Foundation.FiniteMap
import Mathlib.Data.List.TakeWhile

namespace PiwcsPrw

/-- `std::string`: any bytes. -/
abbrev Bytes := List UInt8

/-- The bytes of a string literal of the source. -/
def ascii (s : String) : Bytes := s.toList.map Char.toUInt8

/-- The text a reader of `s.c_str()` sees: everything before the first NUL. -/
def cStr (s : Bytes) : Bytes := s.takeWhile (· != 0)

/-- A string without a NUL byte. -/
def NulFree (s : Bytes) : Prop := (0 : UInt8) ∉ s

instance (s : Bytes) : Decidable (NulFree s) := inferInstanceAs (Decidable ((0 : UInt8) ∉ s))

/-- Without a NUL, `c_str()` is the whole string. -/
theorem cStr_eq_self {s : Bytes} (h : NulFree s) : cStr s = s := by
  rw [cStr, List.takeWhile_eq_self_iff]
  intro b hb
  rw [bne_iff_ne]
  rintro rfl
  exact h hb

abbrev Identifier := Bytes
abbrev IdRef := Bytes

/-- `ID_NULL`, the empty string. -/
def ID_NULL : Identifier := []

def ID_INVALID : Identifier := ascii "#invalid"

/-- `isId`: not empty, and not beginning with `#`. -/
def isId (id : IdRef) : Bool := !id.isEmpty && id[0]? != some '#'.toUInt8

/-- `isIdOrNull`. -/
def isIdOrNull (id : IdRef) : Bool := id.isEmpty || isId id

/-- The null identifier is not an ID. -/
@[simp] theorem isId_null : isId ID_NULL = false := rfl

/-- An ID is not null. -/
theorem ne_null_of_isId {id : IdRef} (h : isId id = true) : id ≠ ID_NULL := by
  rintro rfl
  simp at h

/-- **What an ID is**: not null, and without `#` in front. -/
theorem isId_iff {id : IdRef} :
    isId id = true ↔ id ≠ ID_NULL ∧ id[0]? ≠ some '#'.toUInt8 := by
  simp [isId, ID_NULL]

/-- `SlotId`, that is `std::size_t`. -/
abbrev SlotId := ℕ

def SLOT_INVALID : SlotId := 255

/-- `IdMap`, an unordered map with identifiers as keys. -/
abbrev IdMap (V : Type) := Finmap fun _ : Identifier => V

/-! ### Metadata -/

/-- `Metadata`. -/
abbrev Metadata := IdMap Bytes

/-- `detail::HasMetadata`. -/
structure HasMetadata where
  m_meta : Option Metadata := none
  deriving DecidableEq

namespace HasMetadata

/-- The const `metadata()`: the map, or an empty one where there is none. -/
def records (obj : HasMetadata) : Metadata := obj.m_meta.getD ∅

/-- `hasMetadata()`: there is a map and it is not empty. -/
def hasMetadata (obj : HasMetadata) : Bool :=
  match obj.m_meta with
  | some map => map != ∅
  | none => false

/-- Both ways of having no records answer `hasMetadata()` alike. -/
theorem hasMetadata_eq (obj : HasMetadata) : obj.hasMetadata = (obj.records != ∅) := by
  cases h : obj.m_meta <;> simp [hasMetadata, records, h]

end HasMetadata

end PiwcsPrw
