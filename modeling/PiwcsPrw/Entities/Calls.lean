/-
# Calls on a model

`include/piwcsprwmodel/model.h`: the mutators as the public interface offers
them, and the metadata that `metadata()` of an entity gives write access to.

An `Op` is one call with its arguments.  `Op.call` makes it and says whether the
result is `OK` (the `operator!` of the result enumerations is the negation of
that), `Op.runAll` makes one call after the other, whatever they return.
`Op.answer` and `Op.answers` make the same calls and keep the whole result.
-/

import PiwcsPrw.Entities.Model

namespace PiwcsPrw

/-- A call on a model. -/
inductive Op
  | addNode (node : Node)
  | addSection (sec : Section)
  | removeNode (id : IdRef)
  | removeSection (id : IdRef)
  | link (sectionId startNodeId : IdRef) (startSlot : SlotId) (endNodeId : IdRef) (endSlot : SlotId)
  | unlink (sectionId : IdRef)
  | nodeMetadata (id : IdRef) (edited : HasMetadata)
  | sectionMetadata (id : IdRef) (edited : HasMetadata)
  deriving DecidableEq

/-- What a call returns. -/
inductive CallResult
  | add (r : AddResult)
  | remove (r : RemoveResult)
  | link (r : LinkResult)
  | unlink (r : UnlinkResult)
  | edited
  deriving DecidableEq, Repr

/-- The result is `OK`.  An edit of metadata returns nothing, and counts as `OK`. -/
def CallResult.isOk : CallResult → Bool
  | add r => r == .OK
  | remove r => r == .OK
  | link r => r == .OK
  | unlink r => r == .OK
  | edited => true

namespace Op

/-- Whether the call returns `OK`, and the model it leaves behind.  An edit of
metadata returns nothing, and counts as `OK`. -/
def call : Op → Model → Checked (Bool × Model)
  | addNode node, m => do
      let (r, m) ← m.addNode node
      return (r == .OK, m)
  | addSection sec, m =>
      let (r, m) := m.addSection sec
      return (r == .OK, m)
  | removeNode id, m => do
      let (r, m) ← m.removeNode id
      return (r == .OK, m)
  | removeSection id, m =>
      let (r, m) := m.removeSection id
      return (r == .OK, m)
  | link s a i b j, m => do
      let (r, m) ← m.link s a i b j
      return (r == .OK, m)
  | unlink s, m => do
      let (r, m) ← m.unlink s
      return (r == .OK, m)
  | nodeMetadata id edited, m => return (true, m.setNodeMetadata id edited)
  | sectionMetadata id edited, m => return (true, m.setSectionMetadata id edited)

/-- One call after the other: whether all returned `OK`, and the final model. -/
def runAll : List Op → Model → Checked (Bool × Model)
  | [], m => return (true, m)
  | op :: ops, m => do
      let (ok, m) ← op.call m
      let (oks, m) ← runAll ops m
      return (ok && oks, m)

/-- A list of calls begins with its first. -/
theorem exists_call_of_runAll {op : Op} {ops : List Op} {m m' : Model} {oks : Bool}
    (hrun : Op.runAll (op :: ops) m = .ok (oks, m')) :
    ∃ ok m₁ oks₁, op.call m = .ok (ok, m₁) ∧ Op.runAll ops m₁ = .ok (oks₁, m') := by
  rw [Op.runAll, Checked.bind_eq_ok_iff] at hrun
  obtain ⟨⟨ok, m₁⟩, hcall, hrest⟩ := hrun
  obtain ⟨⟨oks₁, m₂⟩, htail, hlast⟩ := Checked.bind_eq_ok_iff.1 hrest
  obtain ⟨_, rfl⟩ := Prod.mk.inj (Except.ok.inj hlast)
  exact ⟨ok, m₁, oks₁, hcall, htail⟩

/-- The result of the call, and the model it leaves behind. -/
def answer : Op → Model → Checked (CallResult × Model)
  | addNode node, m => do
      let (r, m) ← m.addNode node
      return (.add r, m)
  | addSection sec, m =>
      let (r, m) := m.addSection sec
      return (.add r, m)
  | removeNode id, m => do
      let (r, m) ← m.removeNode id
      return (.remove r, m)
  | removeSection id, m =>
      let (r, m) := m.removeSection id
      return (.remove r, m)
  | link s a i b j, m => do
      let (r, m) ← m.link s a i b j
      return (.link r, m)
  | unlink s, m => do
      let (r, m) ← m.unlink s
      return (.unlink r, m)
  | nodeMetadata id edited, m => return (.edited, m.setNodeMetadata id edited)
  | sectionMetadata id edited, m => return (.edited, m.setSectionMetadata id edited)

/-- The results of one call after the other, and the final model. -/
def answers : List Op → Model → Checked (List CallResult × Model)
  | [], m => return ([], m)
  | op :: ops, m => do
      let (r, m) ← op.answer m
      let (rs, m) ← answers ops m
      return (r :: rs, m)

/-- What a caller passes to `addNode` and `addSection` when it builds the value
on the spot: a constructor's result, given any metadata. -/
def Constructed : Op → Prop
  | addNode node => ∃ type id data, node = { Node.new type id with toHasMetadata := data }
  | addSection sec =>
      ∃ id dir dest data, sec = { Section.new id dir dest with toHasMetadata := data }
  | _ => True

end Op

end PiwcsPrw
