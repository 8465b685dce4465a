/-
# Calls in either order

The mutators in `src/model.cpp`, two at a time.

Let two calls each return `OK` on the same reachable model.  Made one after the
other, either both return `OK` in both orders, or in either order the second is
refused; `Op.Excludes` decides which.  When both return `OK` the final model does
not depend on the order, unless one of the calls edits metadata of an entity that
the other edits or adds (`Reachable.calls_commute`).

A step changes each entry of the network by itself, and two calls seldom change the
same entry.  Where they do, one of them removes it.
-/

import PiwcsPrw.Network.Effects
import PiwcsPrw.Runs.History

namespace PiwcsPrw

namespace Op

/-- One of the calls edits metadata of an entity that the other edits or adds. -/
def Clashes : Op → Op → Prop
  | nodeMetadata n _, nodeMetadata n' _ => n = n'
  | nodeMetadata n _, addNode node | addNode node, nodeMetadata n _ => n = node.m_id
  | sectionMetadata s _, sectionMetadata s' _ => s = s'
  | sectionMetadata s _, addSection sec | addSection sec, sectionMetadata s _ => s = sec.m_id
  | _, _ => False

end Op

namespace Network

variable {N : Network} {op op' : Op}

/-- Two calls that neither exclude each other nor clash do not change one entry, unless
one of them clears it. -/
theorem not_overlap (hex : ¬ op.Excludes op') (hclash : ¬ op.Clashes op') :
    ¬ Edit.Overlap op.nodeEdit op'.nodeEdit ∧ ¬ Edit.Overlap op.sectionEdit op'.sectionEdit ∧
      ¬ Edit.Overlap op.endsEdit op'.endsEdit := by
  cases op with
  | addNode node =>
      cases op' with
      | addNode other => exact ⟨hex, id, id⟩
      | nodeMetadata n edited => exact ⟨fun he => hclash he.symm, id, id⟩
      | removeNode | addSection | removeSection | link | unlink | sectionMetadata =>
          exact ⟨id, id, id⟩
  | nodeMetadata n edited =>
      cases op' with
      | addNode | nodeMetadata => exact ⟨hclash, id, id⟩
      | removeNode | addSection | removeSection | link | unlink | sectionMetadata =>
          exact ⟨id, id, id⟩
  | addSection sec =>
      cases op' with
      | addSection other => exact ⟨id, fun he => hex (Or.inl he), id⟩
      | sectionMetadata s edited => exact ⟨id, fun he => hclash he.symm, id⟩
      | addNode | removeNode | removeSection | link | unlink | nodeMetadata => exact ⟨id, id, id⟩
  | sectionMetadata s edited =>
      cases op' with
      | addSection | sectionMetadata => exact ⟨id, hclash, id⟩
      | addNode | removeNode | removeSection | link | unlink | nodeMetadata => exact ⟨id, id, id⟩
  | link s a i b j =>
      cases op' with
      | link t c k d l => exact ⟨id, id, fun he => hex (Or.inl he)⟩
      | addNode | addSection | removeNode | removeSection | unlink | nodeMetadata
        | sectionMetadata => exact ⟨id, id, id⟩
  | removeNode | removeSection | unlink =>
      cases op' <;> exact ⟨id, id, id⟩

/-- **Two steps lead to the same network in either order.** -/
theorem Step.comm {N₁ N₂ N₁₂ N₂₁ : Network} (h₁ : N.Step op N₁) (h₁₂ : N₁.Step op' N₁₂)
    (h₂ : N.Step op' N₂) (h₂₁ : N₂.Step op N₂₁) (hclash : ¬ op.Clashes op') : N₁₂ = N₂₁ := by
  have hex : ¬ op.Excludes op' := (h₁.exists_step_iff ⟨_, h₂⟩).1 ⟨_, h₁₂⟩
  obtain ⟨hnodes, hsections, hends⟩ := not_overlap hex hclash
  refine ext (funext fun id => ?_) (funext fun id => ?_) (funext fun id => ?_)
  · rw [h₁₂.nodes_eq, h₁.nodes_eq, h₂₁.nodes_eq, h₂.nodes_eq]
    exact Edit.applyAt_comm h₁.nodeEdit_allowed h₂.nodeEdit_allowed hnodes id
  · rw [h₁₂.sections_eq, h₁.sections_eq, h₂₁.sections_eq, h₂.sections_eq]
    exact Edit.applyAt_comm h₁.sectionEdit_allowed h₂.sectionEdit_allowed hsections id
  · rw [h₁₂.ends_eq_applyAt, h₁.ends_eq_applyAt, h₂₁.ends_eq_applyAt, h₂.ends_eq_applyAt]
    exact Edit.applyAt_comm h₁.endsEdit_allowed h₂.endsEdit_allowed hends id

end Network

namespace Model.Refines

variable {m m' : Model} {N : Network}

/-- A call that returned `OK` was a step. -/
theorem step_of_call (h : m.Refines N) {op : Op} (hop : op.WellFormed)
    (hcall : op.call m = .ok (true, m')) : ∃ N', N.Step op N' ∧ m'.Refines N' := by
  rcases h.call hop with ⟨m₁, N₁, hcall₁, hstep, h₁⟩ | ⟨hcall₁, _⟩
  · rw [hcall₁, Except.ok.injEq, Prod.mk.injEq] at hcall
    exact ⟨N₁, hstep, hcall.2 ▸ h₁⟩
  · rw [hcall₁] at hcall
    cases hcall

/-- A call returns `OK` exactly when it is a step. -/
theorem exists_call_iff (h : m.Refines N) {op : Op} (hop : op.WellFormed) :
    (∃ m', op.call m = .ok (true, m')) ↔ ∃ N', N.Step op N' := by
  constructor
  · rintro ⟨m', hcall⟩
    obtain ⟨N', hstep, _⟩ := h.step_of_call hop hcall
    exact ⟨N', hstep⟩
  · rintro ⟨N', hstep⟩
    obtain ⟨m', hcall, _⟩ := h.call_of_step hop hstep
    exact ⟨m', hcall⟩

end Model.Refines

/-- **Two calls that return `OK` on the same model leave each other alone or rule each
other out**, and in the first case their order does not matter. -/
theorem Reachable.calls_commute {m m₁ m₂ : Model} (h : Reachable m) {op op' : Op}
    (hop : op.Passable) (hop' : op'.Passable) (h₁ : op.call m = .ok (true, m₁))
    (h₂ : op'.call m = .ok (true, m₂)) :
    ((∃ m', op'.call m₁ = .ok (true, m')) ↔ ¬ op.Excludes op') ∧
      ((∃ m', op.call m₂ = .ok (true, m')) ↔ ¬ op.Excludes op') ∧
      (¬ op.Clashes op' → ∀ m₁₂ m₂₁, op'.call m₁ = .ok (true, m₁₂) →
        op.call m₂ = .ok (true, m₂₁) → m₁₂ = m₂₁) := by
  obtain ⟨N, hN⟩ := h.refines
  obtain ⟨N₁, hstep₁, hN₁⟩ := hN.step_of_call hop.wellFormed h₁
  obtain ⟨N₂, hstep₂, hN₂⟩ := hN.step_of_call hop'.wellFormed h₂
  refine ⟨?_, ?_, fun hclash m₁₂ m₂₁ h₁₂ h₂₁ => ?_⟩
  · rw [hN₁.exists_call_iff hop'.wellFormed]
    exact hstep₁.exists_step_iff ⟨_, hstep₂⟩
  · rw [hN₂.exists_call_iff hop.wellFormed, hstep₂.exists_step_iff ⟨_, hstep₁⟩]
    exact not_congr ⟨Op.Excludes.symm, Op.Excludes.symm⟩
  · obtain ⟨N₁₂, hstep₁₂, hN₁₂⟩ := hN₁.step_of_call hop'.wellFormed h₁₂
    obtain ⟨N₂₁, hstep₂₁, hN₂₁⟩ := hN₂.step_of_call hop.wellFormed h₂₁
    obtain rfl := hstep₁.comm hstep₁₂ hstep₂ hstep₂₁ hclash
    exact hN₁₂.unique hN₂₁

/-- In the small example, disconnecting `S400` and adding another section go in either
order. -/
theorem smallExample_calls_commute : ∃ m₁ m₂ m',
    (Op.unlink (ascii "S400")).call smallExample = .ok (true, m₁) ∧
      (Op.addSection (.ofId (ascii "S1"))).call smallExample = .ok (true, m₂) ∧
        (Op.addSection (.ofId (ascii "S1"))).call m₁ = .ok (true, m') ∧
          (Op.unlink (ascii "S400")).call m₂ = .ok (true, m') := by
  have h₁ : (Op.unlink (ascii "S400")).call smallExample = .ok (true, _) := rfl
  have h₂ : (Op.addSection (.ofId (ascii "S1"))).call smallExample = .ok (true, _) := rfl
  have hunlink : (Op.unlink (ascii "S400")).Passable := Or.inl trivial
  have hadd : (Op.addSection (.ofId (ascii "S1"))).Passable := Or.inl ⟨_, _, _, {}, rfl⟩
  obtain ⟨hright, hleft, hsame⟩ :=
    Reachable.calls_commute reachable_smallExample hunlink hadd h₁ h₂
  obtain ⟨m₁₂, h₁₂⟩ := hright.2 id
  obtain ⟨m₂₁, h₂₁⟩ := hleft.2 id
  obtain rfl := hsame id m₁₂ m₂₁ h₁₂ h₂₁
  exact ⟨_, _, _, h₁, h₂, h₁₂, h₂₁⟩

end PiwcsPrw
