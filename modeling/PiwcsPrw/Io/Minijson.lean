/-
# The JSON library and the exceptions of the reader

`include/piwcsprwmodel/io.h` declares the two exceptions of `readModel`.  The
JSON reader and writer are the third-party library minijson, which is not part
of the repository; what `src/io_read.cpp` and `src/io_write.cpp` use of it is the
parameter `Minijson`.

A document is a tree (`Doc`): the tree the writer is handed, which is the one the
reader delivers.  The conversions of `value` that involve text only are defined
here: a string is wanted as a string, a null makes an optional empty.  How a
number is converted to a `SlotId` and what an error says is up to the library.

Assumed of the reader is that it delivers the fields of an object in the order of the
text, with whole names and repeated ones as often as they stand there, and that a
dispatcher works as `Json.dispatch` does: each field goes to the handler of exactly its
name, and the first required handler without a field is what is reported at the end.
-/

import PiwcsPrw.Entities.Identifier
import PiwcsPrw.Foundation.Checked
import PiwcsPrw.Foundation.Json

namespace PiwcsPrw

/-- A JSON document. -/
abbrev Doc := Json Bytes

/-- The fields of an object. -/
abbrev Fields := List (Bytes × Doc)

/-- The exceptions: those of `readModel`, those of minijson it catches, and any
other that passes through. -/
inductive Exn
  | InvalidFormatError (what : Bytes)
  | IllegalModelError (what : Bytes)
  | parse_error (what : Bytes)
  | bad_value_cast
  | unhandled_field_error (field_name_truncated : Bytes)
  | missing_field_error (field_name_truncated : Bytes)
  | other
  deriving DecidableEq

/-- Why a reading ends early: an exception, or a step outside defined behaviour. -/
inductive Stop
  | thrown (e : Exn)
  | fault (f : Fault)
  deriving DecidableEq

/-- A value read, or what ended the reading. -/
abbrev Reading := Except Stop

/-- The exceptions that report that the input could not be parsed. -/
def Exn.IsFormat : Exn → Prop
  | .IllegalModelError _ | .other => False
  | _ => True

/-- The reading ended with such an exception. -/
def Stop.IsFormat : Stop → Prop
  | .thrown e => e.IsFormat
  | .fault _ => False

/-- The reading ended with an exception. -/
def Stop.IsThrown (s : Stop) : Prop := ∃ e, s = .thrown e

/-- A computation that throws nothing, as part of a reading. -/
def orFault {α : Type} : Checked α → Reading α
  | .ok a => .ok a
  | .error f => .error (.fault f)

/-- A value is a reading of it. -/
@[simp] theorem orFault_ok {α : Type} (a : α) : orFault (.ok a) = .ok a := rfl

/-- What is used of minijson. -/
structure Minijson where
  /-- `value::as<std::size_t>()`, on a value that is a number. -/
  asSlotId : Bytes → Except Exn SlotId
  /-- The number the writer writes for a `std::size_t`. -/
  slotText : SlotId → Bytes
  /-- `parse_error::what()` where an object or an array was expected. -/
  expected : Bytes
  /-- `field_name_truncated()`. -/
  truncated : Bytes → Bytes

namespace Minijson

variable (mj : Minijson)

/-- The exceptions of a dispatcher. -/
def raise : Json.Refusal Bytes → Stop
  | .notAnObject => .thrown (.parse_error mj.expected)
  | .unhandledField name => .thrown (.unhandled_field_error (mj.truncated name))
  | .missingField name => .thrown (.missing_field_error (mj.truncated name))

/-- What a dispatcher throws is thrown. -/
theorem isThrown_raise (r : Json.Refusal Bytes) : (mj.raise r).IsThrown := by
  cases r <;> exact ⟨_, rfl⟩

/-- `value::as<std::string_view>()`. -/
def asString : Doc → Reading Bytes
  | .string s => .ok s
  | _ => .error (.thrown .bad_value_cast)

/-- `value::as<std::size_t>()`. -/
def asSize : Doc → Reading SlotId
  | .number text =>
      match mj.asSlotId text with
      | .ok k => .ok k
      | .error e => .error (.thrown e)
  | _ => .error (.thrown .bad_value_cast)

/-- `value::as<std::optional<T>>()`. -/
def asOptional {α : Type} (as : Doc → Reading α) : Doc → Reading (Option α)
  | .null => .ok none
  | v => do return some (← as v)

/-- The number a list of decimal digits stands for. -/
def decimal (digits : Bytes) : ℕ := digits.foldl (fun n d => 10 * n + (d - '0'.toUInt8).toNat) 0

/-- A library that takes decimal numbers of 64 bits. -/
def plain : Minijson where
  asSlotId text :=
    if text ≠ [] ∧ text.all (fun d => '0'.toUInt8 ≤ d ∧ d ≤ '9'.toUInt8) ∧
        decimal text < UInt64.size then
      .ok (decimal text)
    else .error .bad_value_cast
  slotText k := ascii (toString k)
  expected := ascii "expected a nested value"
  truncated name := name.take 55

end Minijson

end PiwcsPrw
