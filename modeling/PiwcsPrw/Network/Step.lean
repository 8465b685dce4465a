/-
# Calls as steps of the network

`Network.Step` says which calls a network allows and what network each leads to;
it is the purpose of the mutators without results, slots written twice or loops.
`Model.Refines.call` compares it with the code: on a model that refines a
network, a call returns `OK` exactly when the network can step, and then the new
model refines the new network; otherwise the model is what it was.  Either way
the call stays in defined behaviour.

`Network.Runs` is a list of steps and `Model.Refines.runAll` the same comparison
for a list of calls.
-/

import PiwcsPrw.Entities.Calls
import PiwcsPrw.Network.Editing
import PiwcsPrw.Network.Linking

namespace PiwcsPrw

/-- What the calls ask of the values they are given: slots that hold nothing but
IDs and only where the type has slots, and sections without ends. -/
def Op.WellFormed : Op → Prop
  | .addNode node => node.WellFormed
  | .addSection sec => sec.m_start = ID_NULL ∧ sec.m_end = ID_NULL
  | _ => True

/-- Constructed values are well formed. -/
theorem Op.Constructed.wellFormed {op : Op} (h : op.Constructed) : op.WellFormed := by
  cases op with
  | addNode node =>
      obtain ⟨type, id, data, rfl⟩ := h
      exact fun k hk => absurd (Node.slotAt_new type id k) hk
  | addSection sec =>
      obtain ⟨id, dir, dest, data, rfl⟩ := h
      exact ⟨rfl, rfl⟩
  | removeNode | removeSection | link | unlink | nodeMetadata | sectionMetadata => trivial

namespace Network

/-- A call the network allows, and the network after it. -/
inductive Step (N : Network) : Op → Network → Prop
  | addNode {node : Node} (hid : isId node.m_id = true) (hnew : N.nodes node.m_id = none)
      (hvacant : Model.Vacant node) :
      Step N (.addNode node) (N.addNode node.m_id ⟨node.m_type, node.toHasMetadata⟩ hid hnew)
  | addSection {sec : Section} (hid : isId sec.m_id = true) (hnew : N.sections sec.m_id = none)
      (haddr : ∀ t b x, N.sections t = some b →
        SectionAttrs.address? ⟨sec.m_dir, sec.m_dest, sec.toHasMetadata⟩ = some x →
          b.address? ≠ some x) :
      Step N (.addSection sec)
        (N.addSection sec.m_id ⟨sec.m_dir, sec.m_dest, sec.toHasMetadata⟩ hid hnew haddr)
  | removeNode {id : IdRef} (hknown : N.nodes id ≠ none)
      (hfree : ∀ k, N.wiring.plug (id, k) = none) : Step N (.removeNode id) (N.removeNode id hfree)
  | removeSection {id : IdRef} (hknown : N.sections id ≠ none) (hfree : N.wiring.ends id = none) :
      Step N (.removeSection id) (N.removeSection id hfree)
  | link {s a b : IdRef} {i j : SlotId} (h : N.CanLink s ((a, i), (b, j))) :
      Step N (.link s a i b j) (N.link s ((a, i), (b, j)) h)
  | unlink {s : IdRef} (hknown : N.wiring.ends s ≠ none) : Step N (.unlink s) (N.unlink s)
  | nodeMetadata (id : IdRef) (edited : HasMetadata) :
      Step N (.nodeMetadata id edited) (N.setNodeMetadata id edited)
  | sectionMetadata (id : IdRef) (edited : HasMetadata) :
      Step N (.sectionMetadata id edited) (N.setSectionMetadata id edited)

/-- A call leads to one network. -/
theorem Step.unique {N N₁ N₂ : Network} {op : Op} (h₁ : N.Step op N₁) (h₂ : N.Step op N₂) :
    N₁ = N₂ := by
  cases h₁ <;> cases h₂ <;> rfl

/-- One step after the other. -/
def Runs (N : Network) : List Op → Network → Prop
  | [], N' => N = N'
  | op :: ops, N' => ∃ N₁, N.Step op N₁ ∧ N₁.Runs ops N'

/-- A run of one call is a step. -/
@[simp] theorem runs_singleton {N N' : Network} {op : Op} : N.Runs [op] N' ↔ N.Step op N' := by
  simp [Runs]

/-- A run of two lists is a run of the one and then of the other. -/
theorem runs_append {N N' : Network} {ops ops' : List Op} :
    N.Runs (ops ++ ops') N' ↔ ∃ N₁, N.Runs ops N₁ ∧ N₁.Runs ops' N' := by
  induction ops generalizing N with
  | nil => simp [Runs]
  | cons op ops ih =>
      simp only [List.cons_append, Runs, ih]
      constructor
      · rintro ⟨N₁, hstep, N₂, hruns, hruns'⟩
        exact ⟨N₂, ⟨N₁, hstep, hruns⟩, hruns'⟩
      · rintro ⟨N₂, ⟨N₁, hstep, hruns⟩, hruns'⟩
        exact ⟨N₁, hstep, N₂, hruns, hruns'⟩

end Network

/-- The call returns `OK` and leaves behind a model of the network it steps to,
or the network cannot step and the call changes nothing. -/
def Model.Follows (m : Model) (N : Network) (op : Op) : Prop :=
  (∃ m' N', op.call m = .ok (true, m') ∧ N.Step op N' ∧ m'.Refines N') ∨
    (op.call m = .ok (false, m) ∧ ∀ N', ¬ N.Step op N')

namespace Model.Refines

variable {m : Model} {N : Network}

/-- **`addNode` follows the network.** -/
theorem follows_addNode (h : m.Refines N) {node : Node} (hwf : node.WellFormed) :
    m.Follows N (.addNode node) := by
  by_cases hcan : m.CanAddNode node
  · refine Or.inl ⟨_, _, ?_, .addNode hcan.valid (h.node_none.1 hcan.fresh) hcan.vacant,
      h.addNode hwf hcan⟩
    rw [Op.call, addNode_ok hcan]
    rfl
  · obtain ⟨r, hr, hrun⟩ := addNode_not_ok hcan
    have hcall : (Op.addNode node).call m = .ok (false, m) := by
      rw [Op.call, hrun, ← beq_eq_false_iff_ne.2 hr]
      rfl
    refine Or.inr ⟨hcall, ?_⟩
    intro N' hstep
    cases hstep with
    | addNode hid hnew hvacant => exact hcan ⟨hid, h.node_none.2 hnew, hvacant⟩

/-- **`addSection` follows the network.** -/
theorem follows_addSection (h : m.Refines N) {sec : Section} (hstart : sec.m_start = ID_NULL)
    (hstop : sec.m_end = ID_NULL) : m.Follows N (.addSection sec) := by
  by_cases hcan : m.CanAddSection sec
  · refine Or.inl ⟨_, _, ?_, .addSection hcan.valid (h.section_none.1 hcan.fresh)
      (h.address_free hcan), h.addSection hcan hstart hstop⟩
    rw [Op.call, addSection_ok hcan]
    rfl
  · obtain ⟨r, hr, hrun⟩ := addSection_not_ok hcan
    have hcall : (Op.addSection sec).call m = .ok (false, m) := by
      rw [Op.call, hrun, ← beq_eq_false_iff_ne.2 hr]
      rfl
    refine Or.inr ⟨hcall, ?_⟩
    intro N' hstep
    cases hstep with
    | addSection hid hnew haddr =>
        refine hcan ⟨hid, h.section_none.2 hnew, fun t other x hother hx => ?_, by simp [hstart],
          by simp [hstop]⟩
        obtain ⟨b, hb, rfl⟩ := h.section_some hother
        exact haddr t b x hb hx

/-- **`removeNode` follows the network.** -/
theorem follows_removeNode (h : m.Refines N) (id : IdRef) : m.Follows N (.removeNode id) := by
  cases hn : m.node id with
  | none =>
      have hcall : (Op.removeNode id).call m = .ok (false, m) := by
        rw [Op.call, removeNode_not_found hn]
        rfl
      refine Or.inr ⟨hcall, ?_⟩
      intro N' hstep
      cases hstep with
      | removeNode hknown hfree => exact hknown (h.node_none.1 hn)
  | some node =>
      have hknown : N.nodes id ≠ none := by
        rw [Ne, ← h.node_none, hn]
        simp
      by_cases hv : Vacant node
      · refine Or.inl ⟨_, _, ?_, .removeNode hknown ((h.vacant_iff hn).1 hv), h.removeNode _⟩
        rw [Op.call, removeNode_ok hn hv]
        rfl
      · have hcall : (Op.removeNode id).call m = .ok (false, m) := by
          rw [Op.call, removeNode_referenced hn hv]
          rfl
        refine Or.inr ⟨hcall, ?_⟩
        intro N' hstep
        cases hstep with
        | removeNode _ hfree => exact hv ((h.vacant_iff hn).2 hfree)

/-- **`removeSection` follows the network.** -/
theorem follows_removeSection (h : m.Refines N) (id : IdRef) :
    m.Follows N (.removeSection id) := by
  cases hs : m.section id with
  | none =>
      have hcall : (Op.removeSection id).call m = .ok (false, m) := by
        rw [Op.call, removeSection_not_found hs]
        rfl
      refine Or.inr ⟨hcall, ?_⟩
      intro N' hstep
      cases hstep with
      | removeSection hknown hfree => exact hknown (h.section_none.1 hs)
  | some sec =>
      obtain ⟨a, ha, rfl⟩ := h.section_some hs
      have hends := N.isId_toSection id a
      cases hq : N.wiring.ends id with
      | none =>
          rw [hq] at hends
          refine Or.inl ⟨_, _, ?_, .removeSection (by simp [ha]) hq, h.removeSection hq⟩
          rw [Op.call, removeSection_ok hs hends]
          rfl
      | some q =>
          rw [hq] at hends
          have hcall : (Op.removeSection id).call m = .ok (false, m) := by
            rw [Op.call, removeSection_referenced hs hends]
            rfl
          refine Or.inr ⟨hcall, ?_⟩
          intro N' hstep
          cases hstep with
          | removeSection _ hfree =>
              rw [hq] at hfree
              cases hfree

/-- **`link` follows the network.** -/
theorem follows_link (h : m.Refines N) (s a : IdRef) (i : SlotId) (b : IdRef) (j : SlotId) :
    m.Follows N (.link s a i b j) := by
  by_cases hcan : N.CanLink s ((a, i), (b, j))
  · obtain ⟨m', hrun, h'⟩ := h.link hcan
    have hcall : (Op.link s a i b j).call m = .ok (true, m') := by
      rw [Op.call, hrun]
      rfl
    exact Or.inl ⟨m', _, hcall, .link hcan, h'⟩
  · obtain ⟨r, hr, hrun⟩ := h.link_refused hcan
    have hcall : (Op.link s a i b j).call m = .ok (false, m) := by
      rw [Op.call, hrun, ← beq_eq_false_iff_ne.2 hr]
      rfl
    refine Or.inr ⟨hcall, ?_⟩
    intro N' hstep
    cases hstep with
    | link hcan' => exact hcan hcan'

/-- **`unlink` follows the network.** -/
theorem follows_unlink (h : m.Refines N) (s : IdRef) : m.Follows N (.unlink s) := by
  cases hq : N.wiring.ends s with
  | none =>
      obtain ⟨r, hr, hrun⟩ := h.unlink_refused hq
      have hcall : (Op.unlink s).call m = .ok (false, m) := by
        rw [Op.call, hrun, ← beq_eq_false_iff_ne.2 hr]
        rfl
      refine Or.inr ⟨hcall, ?_⟩
      intro N' hstep
      cases hstep with
      | unlink hknown => exact hknown hq
  | some q =>
      obtain ⟨m', hrun, h'⟩ := h.unlinked hq
      have hcall : (Op.unlink s).call m = .ok (true, m') := by
        rw [Op.call, hrun]
        rfl
      exact Or.inl ⟨m', _, hcall, .unlink (by simp [hq]), h'⟩

/-- **One call.**  It returns `OK` exactly when the network can step, and leaves
behind a model of the network it steps to; a refused call changes nothing. -/
theorem call (h : m.Refines N) {op : Op} (hop : op.WellFormed) : m.Follows N op := by
  cases op with
  | addNode node => exact h.follows_addNode hop
  | addSection sec => exact h.follows_addSection hop.1 hop.2
  | removeNode id => exact h.follows_removeNode id
  | removeSection id => exact h.follows_removeSection id
  | link s a i b j => exact h.follows_link s a i b j
  | unlink s => exact h.follows_unlink s
  | nodeMetadata id edited =>
      exact Or.inl ⟨_, _, rfl, .nodeMetadata id edited, h.setNodeMetadata id edited⟩
  | sectionMetadata id edited =>
      exact Or.inl ⟨_, _, rfl, .sectionMetadata id edited, h.setSectionMetadata id edited⟩

/-- A call the network allows returns `OK`. -/
theorem call_of_step (h : m.Refines N) {op : Op} (hop : op.WellFormed) {N' : Network}
    (hstep : N.Step op N') : ∃ m', op.call m = .ok (true, m') ∧ m'.Refines N' := by
  rcases h.call hop with ⟨m', N₁, hcall, hstep₁, h'⟩ | ⟨_, hno⟩
  · rw [hstep.unique hstep₁]
    exact ⟨m', hcall, h'⟩
  · exact absurd hstep (hno N')

/-- **A list of calls.**  All return `OK` exactly when the network can take the
steps one after the other, and then the final model refines the final network. -/
theorem runAll {ops : List Op} (hops : ∀ op ∈ ops, op.WellFormed) {m : Model} {N : Network}
    (h : m.Refines N) :
    ∃ oks m', Op.runAll ops m = .ok (oks, m') ∧ (oks = true ↔ ∃ N', N.Runs ops N') ∧
      ∀ N', N.Runs ops N' → m'.Refines N' := by
  induction ops generalizing m N with
  | nil =>
      refine ⟨true, m, rfl, ⟨fun _ => ⟨N, rfl⟩, fun _ => rfl⟩, ?_⟩
      rintro N' rfl
      exact h
  | cons op ops ih =>
      have hop := hops op (List.mem_cons_self ..)
      have ih := fun m N => ih (fun op h => hops op (List.mem_cons_of_mem _ h)) (m := m) (N := N)
      rcases h.call hop with ⟨m₁, N₁, hcall, hstep, h₁⟩ | ⟨hcall, hno⟩
      · obtain ⟨oks, m', hrun, hiff, hm'⟩ := ih m₁ N₁ h₁
        have hall : Op.runAll (op :: ops) m = .ok (oks, m') := by
          rw [Op.runAll, hcall]
          simp [hrun, pure, Except.pure, bind, Except.bind]
        refine ⟨oks, m', hall, ?_, ?_⟩
        · rw [hiff]
          constructor
          · rintro ⟨N', hN'⟩
            exact ⟨N', N₁, hstep, hN'⟩
          · rintro ⟨N', N₂, hstep₂, hN'⟩
            exact ⟨N', hstep.unique hstep₂ ▸ hN'⟩
        · rintro N' ⟨N₂, hstep₂, hN'⟩
          exact hm' N' (hstep.unique hstep₂ ▸ hN')
      · obtain ⟨oks, m', hrun, _, _⟩ := ih m N h
        have hall : Op.runAll (op :: ops) m = .ok (false, m') := by
          rw [Op.runAll, hcall]
          simp [hrun, pure, Except.pure, bind, Except.bind]
        refine ⟨false, m', hall, ?_, ?_⟩
        · simp only [Bool.false_eq_true, false_iff]
          rintro ⟨N', N₂, hstep, _⟩
          exact hno N₂ hstep
        · rintro N' ⟨N₂, hstep, _⟩
          exact absurd hstep (hno N₂)

/-- A network reached by steps from that of a model has a model. -/
theorem of_runs (h : m.Refines N) {ops : List Op} (hops : ∀ op ∈ ops, op.WellFormed) {N' : Network}
    (hruns : N.Runs ops N') : ∃ m' : Model, m'.Refines N' := by
  obtain ⟨_, m', _, _, hm'⟩ := h.runAll hops
  exact ⟨m', hm' N' hruns⟩

end Model.Refines

end PiwcsPrw
