/-
# Slots that do not exist

`Node::section` in `include/piwcsprwmodel/nodes.h`, `Node::couldTraverse` and
`Node::slotOf` in `src/nodes.cpp`, `Model::link` in `src/model.cpp`, and the
scans over the slots of a node.

A node has the slots below `sectionCount()`.  `couldTraverse` and `link` refuse a
slot by `>=`, the loops stop before it by `<`, and `Node::section` by `>`: the
slot `sectionCount()` itself gets through to the array.  For six of the seven types
that is an entry nobody writes, and `ID_NULL` is returned where the documentation
says `ID_INVALID`; for a `CROSSING`, which has as many slots as the array, it is the
entry after the last.

`SlotRangesAgree` is what the documentation asks of one slot of one node, and it
holds of every slot but that one (`Reachable.slotRangesAgree_iff`).  No function of
the library passes that slot to `Node::section`, so the scans stay inside.
-/

import PiwcsPrw.Algorithms.Completeness

namespace PiwcsPrw

/-- The slot `sectionCount()` is read from the array, if it has such an entry. -/
theorem Node.section_sectionCount (node : Node) :
    node.section node.sectionCount = Checked.read node.m_slots node.sectionCount :=
  if_neg (lt_irrefl _)

namespace Model

/-- `link` refuses slots that do not exist. -/
theorem link_not_found {m : Model} {s a b : IdRef} {i j : SlotId}
    (h : ∀ start stop, m.node a = some start → m.node b = some stop →
      start.sectionCount ≤ i ∨ stop.sectionCount ≤ j) :
    m.link s a i b j = .ok (.NOT_FOUND, m) := by
  cases hsec : m.section s with
  | none => simp [link, hsec, pure, Except.pure]
  | some sec =>
  cases hstart : m.node a with
  | none => simp [link, hsec, hstart, pure, Except.pure]
  | some start =>
  cases hstop : m.node b with
  | none => simp [link, hsec, hstart, hstop, pure, Except.pure]
  | some stop => simp [link, hsec, hstart, hstop, h start stop hstart hstop, pure, Except.pure]

/-- `link` finds what exists. -/
theorem link_found {m : Model} {s a b : IdRef} {i j : SlotId} {sec : Section} {start stop : Node}
    (hsec : m.section s = some sec) (hstart : m.node a = some start) (hstop : m.node b = some stop)
    (hi : i < start.sectionCount) (hj : j < stop.sectionCount) :
    ∃ r m', r ≠ .NOT_FOUND ∧ m.link s a i b j = .ok (r, m') := by
  have hrange : (decide (i ≥ start.sectionCount) || decide (j ≥ stop.sectionCount)) = false := by
    simp [hi, hj]
  simp only [link, hsec, hstart, hstop, hrange, Node.section_eq _ hi, Node.section_eq _ hj,
    Node.setSlot_eq _ hi, Node.setSlot_eq _ hj, Bool.false_eq_true, if_false, bind, Except.bind,
    pure, Except.pure]
  split_ifs <;> exact ⟨_, _, by simp, rfl⟩

/-- `link` stays inside the arrays. -/
theorem exists_link_eq (m : Model) (s a : IdRef) (i : SlotId) (b : IdRef) (j : SlotId) :
    ∃ r, m.link s a i b j = .ok r := by
  by_cases h : ∃ sec start stop, m.CanLink s a i b j sec start stop
  · obtain ⟨sec, start, stop, hcan⟩ := h
    exact ⟨_, link_ok hcan⟩
  · push Not at h
    obtain ⟨r, _, hrun⟩ := link_not_ok h
    exact ⟨_, hrun⟩

/-- The scan of `addNode` stays inside the array. -/
theorem exists_addNode_eq (m : Model) (node : Node) : ∃ r, m.addNode node = .ok r := by
  by_cases h : m.CanAddNode node
  · exact ⟨_, addNode_ok h⟩
  · obtain ⟨r, _, hrun⟩ := addNode_not_ok h
    exact ⟨_, hrun⟩

/-- The scan of `removeNode` stays inside the array. -/
theorem exists_removeNode_eq (m : Model) (id : IdRef) : ∃ r, m.removeNode id = .ok r := by
  cases hnode : m.node id with
  | none => exact ⟨_, removeNode_not_found hnode⟩
  | some node =>
      by_cases h : Vacant node
      · exact ⟨_, removeNode_ok hnode h⟩
      · exact ⟨_, removeNode_referenced hnode h⟩

/-- The scan of `isComplete` stays inside the arrays. -/
theorem exists_isComplete_eq (m : Model) (nodeOrder sectionOrder : List Identifier) :
    ∃ b, m.isComplete nodeOrder sectionOrder = .ok b := by
  rw [isComplete, Checked.anyM_ok fun e _ => hasFreeSlot_eq e.2]
  simp only [bind, Except.bind, pure, Except.pure]
  split_ifs <;> exact ⟨_, rfl⟩

/-- What the documentation asks of the slot `k` of the node `id`: past the slots of
the node `section`, `link` and `couldTraverse` all refuse it, below they do not, and
no array is read outside its bounds. -/
structure SlotRangesAgree (m : Model) (id : IdRef) (node : Node) (k k₂ : SlotId) : Prop where
  section_ge : node.sectionCount ≤ k → node.section k = .ok ID_INVALID
  section_lt : k < node.sectionCount → ∃ x, node.m_slots[k]? = some x ∧ node.section k = .ok x
  link_ge : node.sectionCount ≤ k → ∀ s other,
    m.link s id k other k₂ = .ok (.NOT_FOUND, m) ∧ m.link s other k₂ id k = .ok (.NOT_FOUND, m)
  link_lt : k < node.sectionCount → ∀ s sec other otherNode, m.section s = some sec →
    m.node other = some otherNode → k₂ < otherNode.sectionCount →
      (∃ r m', r ≠ .NOT_FOUND ∧ m.link s id k other k₂ = .ok (r, m')) ∧
        ∃ r m', r ≠ .NOT_FOUND ∧ m.link s other k₂ id k = .ok (r, m')
  couldTraverse_ge : node.sectionCount ≤ k →
    node.couldTraverse k k₂ = .ok false ∧ node.couldTraverse k₂ k = .ok false
  section_inside : ∃ x, node.section k = .ok x
  couldTraverse_inside : ∃ b, node.couldTraverse k k₂ = .ok b
  slotOf_inside : ∀ x, ∃ i, node.slotOf x = .ok i
  link_inside : ∀ s a i b j, ∃ r, m.link s a i b j = .ok r
  addNode_inside : ∀ added, ∃ r, m.addNode added = .ok r
  removeNode_inside : ∀ removed, ∃ r, m.removeNode removed = .ok r
  isComplete_inside : ∀ nodeOrder sectionOrder, ∃ b, m.isComplete nodeOrder sectionOrder = .ok b

end Model

/-- **The range checks agree on every slot but `sectionCount()`.** -/
theorem Reachable.slotRangesAgree_iff {m : Model} (h : Reachable m) {id : IdRef} {node : Node}
    (hnode : m.node id = some node) (k k₂ : SlotId) :
    m.SlotRangesAgree id node k k₂ ↔ k ≠ node.sectionCount := by
  constructor
  · rintro hagree rfl
    have hinvalid := hagree.section_ge le_rfl
    rw [Node.section_sectionCount, Checked.read] at hinvalid
    split_ifs at hinvalid with hmax
    obtain ⟨N, hN⟩ := h.refines
    have hnull := hN.consistent.slot_unused hnode le_rfl
    rw [Node.slotAt_eq_getElem node hmax, Except.ok.inj hinvalid] at hnull
    revert hnull
    decide
  · intro hne
    have hinvalid : node.sectionCount ≤ k → node.section k = .ok ID_INVALID := fun hk =>
      if_pos (lt_of_le_of_ne hk hne.symm)
    have hstored : k < node.sectionCount →
        ∃ x, node.m_slots[k]? = some x ∧ node.section k = .ok x := fun hk => by
      have hmax : k < MAX_SLOTS := Node.lt_maxSlots hk
      refine ⟨node.m_slots[k], Vector.getElem?_eq_getElem hmax, ?_⟩
      rw [Node.section_eq node hk, Node.slotAt_eq_getElem node hmax]
    have hrange : node.sectionCount ≤ k → ∀ start, m.node id = some start →
        start.sectionCount ≤ k := fun hk start hstart => by
      obtain rfl : node = start := Option.some.inj (hnode.symm.trans hstart)
      exact hk
    exact
      { section_ge := hinvalid
        section_lt := hstored
        link_ge := fun hk s other =>
          ⟨Model.link_not_found fun start _ hstart _ => Or.inl (hrange hk start hstart),
            Model.link_not_found fun _ stop _ hstop => Or.inr (hrange hk stop hstop)⟩
        link_lt := fun hk s sec other otherNode hsec hother hk₂ =>
          ⟨Model.link_found hsec hnode hother hk hk₂, Model.link_found hsec hother hnode hk₂ hk⟩
        couldTraverse_ge := fun hk =>
          ⟨Node.couldTraverse_eq_false (Or.inl hk), Node.couldTraverse_eq_false (Or.inr hk)⟩
        section_inside := by
          rcases Nat.lt_or_ge k node.sectionCount with hk | hk
          · obtain ⟨x, _, hx⟩ := hstored hk
            exact ⟨x, hx⟩
          · exact ⟨_, hinvalid hk⟩
        couldTraverse_inside := node.exists_couldTraverse_eq k k₂
        slotOf_inside := fun x => ⟨_, node.slotOf_find x⟩
        link_inside := m.exists_link_eq
        addNode_inside := m.exists_addNode_eq
        removeNode_inside := m.exists_removeNode_eq
        isComplete_inside := m.exists_isComplete_eq }

/-- In the small example the checks agree on the last slot of the turnout. -/
theorem smallExample_slotRangesAgree :
    ∃ node, smallExample.node (ascii "M145") = some node ∧
      smallExample.SlotRangesAgree (ascii "M145") node 2 7 := by
  have hnode : smallExample.node (ascii "M145") = some _ := rfl
  exact ⟨_, hnode, (Reachable.slotRangesAgree_iff reachable_smallExample hnode 2 7).2 (by decide)⟩

/-- They do not on slot `2` of the two-slot node, which `section` reads as empty; and
slot `4` of a crossing is read outside the array. -/
theorem not_slotRangesAgree :
    (¬ ∀ m, Reachable m → ∀ id node, m.node id = some node → ∀ k k₂,
      m.SlotRangesAgree id node k k₂) ∧
      (smallExample.node (ascii "T1034")).map (fun node => node.section 2) = some (.ok ID_NULL) ∧
      (Node.new .CROSSING (ascii "X1")).section 4 = .error .outOfBounds := by
  refine ⟨fun h => ?_, by decide, by decide⟩
  have hagree := h smallExample reachable_smallExample (ascii "T1034") _ rfl 2 0
  have hinvalid := hagree.section_ge (by decide)
  revert hinvalid
  decide

end PiwcsPrw
