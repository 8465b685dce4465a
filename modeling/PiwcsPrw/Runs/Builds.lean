/-
# Debug and release builds agree

The two builds that `src/debug.h` makes of one source.

A debug build runs the `_ASSERT`s, which end the program when they fail, and the
`_FAIL`s, which never do.  **It nevertheless behaves as the release build, in every
run and when it writes the model the run ends with** (`Reachable.builds_agree`): no
assertion ends it, every call returns the same result, the models are the same, and
so are the documents.
-/

import PiwcsPrw.Io.Assertions
import PiwcsPrw.Network.Verdicts

namespace PiwcsPrw

/-! ### The debug build -/

/-- The result of a call in a debug build, and the model it leaves behind. -/
def Op.answerDebug : Op → Model → Debug (CallResult × Model)
  | .link s a i b j, m => do
      let (r, m) ← m.linkDebug s a i b j
      return (.link r, m)
  | .unlink s, m => do
      let (r, m) ← m.unlinkDebug s
      return (.unlink r, m)
  | op, m => op.answer m

/-- The results of one call after the other in a debug build, and the final model. -/
def Op.answersDebug : List Op → Model → Debug (List CallResult × Model)
  | [], m => return ([], m)
  | op :: ops, m => do
      let (r, m) ← op.answerDebug m
      let (rs, m) ← Op.answersDebug ops m
      return (r :: rs, m)

/-- `writeSection` in a debug build. -/
def writeSectionDebug (mj : Minijson) (orders : Orders) (sec : Section) (id : Bytes)
    (model : Model) : Debug (Bytes × Doc) := do
  let link ← writeLinkDebug mj sec model
  return (cStr id, .object (link ++ [(ascii "dir", .string (dirName sec.m_dir))] ++
    writeDestination (orders.destMetadata id) sec ++
    writeMetadata (orders.sectionMetadata id) sec.toHasMetadata))

/-- `writeSections` in a debug build. -/
def writeSectionsDebug (mj : Minijson) (orders : Orders) (model : Model) : Debug Doc := do
  let entries ← (model.m_sections.walk orders.sections).mapM fun (sectionId, sec) =>
    writeSectionDebug mj orders sec sectionId model
  return .object entries

/-- `writeModel` in a debug build. -/
def writeModelDebug (mj : Minijson) (orders : Orders) (model : Model) : Debug Doc := do
  let nodes := writeNodes orders model
  let sections ← writeSectionsDebug mj orders model
  return .array [nodes, sections]

/-! ### It adds nothing -/

namespace Model.Refines

variable {m : Model} {N : Network}

/-- A call gets through, with the result and the model of the release build. -/
theorem answerDebug (h : m.Refines N) {op : Op} (hop : op.WellFormed) :
    ∃ r m', op.answer m = .ok (r, m') ∧ (op.answerDebug m).result = .ok (r, m') ∧
      m'.Refines (N.next op) := by
  obtain ⟨m', hanswer, h'⟩ := h.answer hop
  refine ⟨_, m', hanswer, ?_, h'⟩
  cases op with
  | link s a i b j =>
      obtain ⟨⟨r, m₁⟩, hlink, heq⟩ := Checked.bind_eq_ok_iff.1 hanswer
      rw [Op.answerDebug, h.linkDebug, hlink, Asserting.lift_ok, pure_bind]
      exact congrArg Except.ok (Except.ok.inj heq)
  | unlink s =>
      obtain ⟨⟨r, m₁⟩, hunlink, heq⟩ := Checked.bind_eq_ok_iff.1 hanswer
      obtain ⟨r', hdebug, hrelease⟩ := h.unlinkDebug s
      obtain rfl := Except.ok.inj (hunlink.symm.trans hrelease)
      rw [Op.answerDebug, Asserting.result_bind hdebug]
      exact congrArg Except.ok (Except.ok.inj heq)
  | addNode | addSection | removeNode | removeSection | nodeMetadata | sectionMetadata =>
      change (liftM (Op.answer _ m) : Debug _).result = _
      rw [hanswer]
      rfl

/-- And so does a run. -/
theorem answersDebug (h : m.Refines N) {ops : List Op} (hops : ∀ op ∈ ops, op.WellFormed) :
    ∃ rs m' N', Op.answers ops m = .ok (rs, m') ∧ (Op.answersDebug ops m).result = .ok (rs, m') ∧
      m'.Refines N' := by
  induction ops generalizing m N with
  | nil => exact ⟨[], m, N, rfl, rfl, h⟩
  | cons op ops ih =>
      obtain ⟨r, m₁, hanswer, hdebug, h₁⟩ := h.answerDebug (hops op (List.mem_cons_self ..))
      obtain ⟨rs, m', N', hanswers, hdebugs, h'⟩ :=
        ih h₁ fun op h => hops op (List.mem_cons_of_mem _ h)
      refine ⟨r :: rs, m', N', ?_, ?_, h'⟩
      · rw [Op.answers, hanswer]
        simp only [bind, Except.bind, hanswers]
        rfl
      · rw [Op.answersDebug, Asserting.result_bind hdebug, Asserting.result_bind hdebugs]
        rfl

/-- Writing passes no failure point and fails no assertion. -/
theorem writeModelDebug (mj : Minijson) (h : m.Refines N) {orders : Orders}
    (hv : orders.Visit m) :
    PiwcsPrw.writeModelDebug mj orders m = Asserting.lift (writeModel mj orders m) := by
  have hentry : ∀ r ∈ m.m_sections.walk orders.sections,
      writeSectionDebug mj orders r.2 r.1 m
        = Asserting.lift (writeSection mj orders r.2 r.1 m) := fun r hr => by
    rw [writeSectionDebug, writeSection, h.writeLinkDebug mj ((Finmap.mem_walk hv.sections).1 hr),
      Asserting.lift_bind]
    rfl
  rw [PiwcsPrw.writeModelDebug, writeModel, writeSectionsDebug, writeSections,
    Asserting.mapM_eq_lift hentry, Asserting.lift_bind, Asserting.lift_bind]
  rfl

end Model.Refines

/-- **Debug and release builds agree.**  From any reachable model, a run of calls in a
debug build fails no assertion, returns the results of the release build, leaves the same
model, and that model is written as the same document. -/
theorem Reachable.builds_agree (mj : Minijson) {m : Model} (h : Reachable m) {ops : List Op}
    (hops : ∀ op ∈ ops, op.Passable) :
    ∃ rs m', Op.answers ops m = .ok (rs, m') ∧ (Op.answersDebug ops m).result = .ok (rs, m') ∧
      ∀ orders : Orders, orders.Visit m' →
        writeModelDebug mj orders m' = Asserting.lift (writeModel mj orders m') := by
  obtain ⟨N, hN⟩ := h.refines
  obtain ⟨rs, m', N', hanswers, hdebug, h'⟩ :=
    hN.answersDebug fun op hop => (hops op hop).wellFormed
  exact ⟨rs, m', hanswers, hdebug, fun orders hv => h'.writeModelDebug mj hv⟩

/-- The small example disconnected in both builds, although a `_FAIL` is executed. -/
theorem smallExample_builds_agree : ∃ m',
    Op.answers [.unlink (ascii "S400")] smallExample = .ok ([.unlink .OK], m') ∧
      (Op.answersDebug [.unlink (ascii "S400")] smallExample).result = .ok ([.unlink .OK], m') ∧
        (Op.answersDebug [.unlink (ascii "S400")] smallExample).failures ≠ [] := by
  have hops : ∀ op ∈ ([.unlink (ascii "S400")] : List Op), op.Passable := fun op hop => by
    rw [List.mem_singleton.1 hop]
    exact Or.inl trivial
  obtain ⟨rs, m', hanswers, hdebug, _⟩ := Reachable.builds_agree .plain reachable_smallExample hops
  have hresults : Op.answers [.unlink (ascii "S400")] smallExample = .ok ([.unlink .OK], _) := rfl
  obtain ⟨rfl, rfl⟩ := Prod.mk.inj (Except.ok.inj (hanswers.symm.trans hresults))
  exact ⟨_, hanswers, hdebug, by decide⟩

end PiwcsPrw
