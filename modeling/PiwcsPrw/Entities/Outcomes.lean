/-
# What each mutator does

`src/model.cpp`, one pair of statements per mutator: under which condition it
returns `OK` and with which model, and that it returns something else and the
same model otherwise.  The condition is the conjunction of the checks the code
makes one after the other, so nothing here says which of the other results is
returned.

None of this needs a consistent model, with one exception: `unlink` follows the
IDs at the ends of a connected section, so `unlink_ok` assumes that they are
found.
-/

import PiwcsPrw.Entities.Model

namespace PiwcsPrw

namespace Model

/-- The scan over the slots of a node never leaves the array, and finds the
first slot that holds an ID. -/
theorem hasSections_eq (node : Node) :
    hasSections node
      = .ok ((List.range node.sectionCount).any fun k => isId (node.slotAt k)) := by
  refine Checked.anyM_ok fun k hk => ?_
  rw [Node.section_eq node (List.mem_range.1 hk)]
  rfl

/-- No slot of the node holds an ID. -/
def Vacant (node : Node) : Prop := ∀ k < node.sectionCount, isId (node.slotAt k) = false

/-- The loop finds nothing in a vacant node. -/
theorem hasSections_of_vacant {node : Node} (h : Vacant node) : hasSections node = .ok false := by
  rw [hasSections_eq, List.any_eq_false.2]
  intro k hk
  simp [h k (List.mem_range.1 hk)]

/-- The loop finds the section that a slot holds. -/
theorem hasSections_of_not_vacant {node : Node} (h : ¬ Vacant node) :
    hasSections node = .ok true := by
  simp only [Vacant, not_forall, Bool.not_eq_false] at h
  obtain ⟨k, hk, hid⟩ := h
  rw [hasSections_eq, List.any_eq_true.2 ⟨k, List.mem_range.2 hk, hid⟩]

/-! ### Adding -/

/-- The checks of `addNode`. -/
structure CanAddNode (m : Model) (node : Node) : Prop where
  valid : isId node.m_id = true
  fresh : m.node node.m_id = none
  vacant : Vacant node

/-- **`addNode` adds the node** when its checks pass. -/
theorem addNode_ok {m : Model} {node : Node} (h : m.CanAddNode node) :
    m.addNode node = .ok (.OK, { m with m_nodes := m.m_nodes.insert node.m_id node }) := by
  simp [addNode, h.valid, h.fresh, hasSections_of_vacant h.vacant, pure, Except.pure, bind,
    Except.bind]

/-- Otherwise it changes nothing and does not return `OK`. -/
theorem addNode_not_ok {m : Model} {node : Node} (h : ¬ m.CanAddNode node) :
    ∃ r, r ≠ .OK ∧ m.addNode node = .ok (r, m) := by
  by_cases hid : isId node.m_id = true
  · cases hnode : m.node node.m_id with
    | some other => exact ⟨.DUPLICATE, by simp, by simp [addNode, hid, hnode, pure, Except.pure]⟩
    | none =>
        have hv : ¬ Vacant node := fun hv => h ⟨hid, hnode, hv⟩
        refine ⟨.HAS_REF, by simp, ?_⟩
        simp [addNode, hid, hnode, hasSections_of_not_vacant hv, pure, Except.pure, bind,
          Except.bind]
  · exact ⟨.BAD_ID, by simp, by simp [addNode, hid, pure, Except.pure]⟩

/-- A destination with the address of `sec` exists. -/
theorem addressTaken_iff {m : Model} {sec : Section} :
    m.addressTaken sec = true ↔ ∃ id other x, m.section id = some other ∧
      sec.address? = some x ∧ other.address? = some x := by
  unfold addressTaken Section.address?
  cases hd : sec.m_dest with
  | none => simp
  | some dest =>
      simp only [Finmap.any_iff, Option.map_some]
      constructor
      · rintro ⟨id, other, hother, hx⟩
        cases hod : other.m_dest with
        | none => simp [hod] at hx
        | some otherDest =>
            simp only [hod, beq_iff_eq] at hx
            exact ⟨id, other, dest.m_address, hother, rfl, by rw [hod, Option.map_some, hx]⟩
      · rintro ⟨id, other, x, hother, hx, hox⟩
        obtain ⟨otherDest, hod, hadr⟩ := Option.map_eq_some_iff.1 hox
        refine ⟨id, other, hother, ?_⟩
        rw [hod, beq_iff_eq, hadr]
        exact (Option.some.inj hx).symm

/-- The checks of `addSection`. -/
structure CanAddSection (m : Model) (sec : Section) : Prop where
  valid : isId sec.m_id = true
  fresh : m.section sec.m_id = none
  address : ∀ id other x, m.section id = some other → sec.address? = some x →
    other.address? ≠ some x
  start : isId sec.m_start = false
  stop : isId sec.m_end = false

/-- **`addSection` adds the section** when its checks pass. -/
theorem addSection_ok {m : Model} {sec : Section} (h : m.CanAddSection sec) :
    m.addSection sec = (.OK, { m with m_sections := m.m_sections.insert sec.m_id sec }) := by
  have haddr : m.addressTaken sec = false := by
    rw [Bool.eq_false_iff, Ne, addressTaken_iff]
    rintro ⟨id, other, x, hother, hx, hox⟩
    exact h.address id other x hother hx hox
  simp [addSection, h.valid, h.fresh, haddr, h.start, h.stop]

/-- Otherwise it changes nothing and does not return `OK`. -/
theorem addSection_not_ok {m : Model} {sec : Section} (h : ¬ m.CanAddSection sec) :
    ∃ r, r ≠ .OK ∧ m.addSection sec = (r, m) := by
  by_cases hid : isId sec.m_id = true
  swap
  · exact ⟨.BAD_ID, by simp, by simp [addSection, hid]⟩
  cases hsec : m.section sec.m_id with
  | some other => exact ⟨.DUPLICATE, by simp, by simp [addSection, hid, hsec]⟩
  | none =>
      by_cases haddr : m.addressTaken sec = true
      · exact ⟨.DUPLICATE, by simp, by simp [addSection, hid, hsec, haddr]⟩
      · -- The address is free, so what failed is one of the two ends.
        have href : (isId sec.m_start || isId sec.m_end) = true := by
          by_contra hends
          simp only [Bool.or_eq_true, not_or, Bool.not_eq_true] at hends
          refine h ⟨hid, hsec, fun id other x hother hx hox => ?_, hends.1, hends.2⟩
          exact haddr (addressTaken_iff.2 ⟨id, other, x, hother, hx, hox⟩)
        exact ⟨.HAS_REF, by simp, by simp only [addSection, hid, hsec, haddr, href]; rfl⟩

/-! ### Removing -/

/-- **`removeNode` removes a node** that holds no section. -/
theorem removeNode_ok {m : Model} {id : IdRef} {node : Node} (hnode : m.node id = some node)
    (h : Vacant node) : m.removeNode id = .ok (.OK, { m with m_nodes := m.m_nodes.erase id }) := by
  simp [removeNode, hnode, hasSections_of_vacant h, pure, Except.pure, bind, Except.bind]

/-- A node that holds a section stays. -/
theorem removeNode_referenced {m : Model} {id : IdRef} {node : Node} (hnode : m.node id = some node)
    (h : ¬ Vacant node) : m.removeNode id = .ok (.REFERENCED, m) := by
  simp [removeNode, hnode, hasSections_of_not_vacant h, pure, Except.pure, bind, Except.bind]

/-- Without such a node nothing is removed. -/
theorem removeNode_not_found {m : Model} {id : IdRef} (hnode : m.node id = none) :
    m.removeNode id = .ok (.NOT_FOUND, m) := by
  simp [removeNode, hnode, pure, Except.pure]

/-- **`removeSection` removes a section** that has no ends. -/
theorem removeSection_ok {m : Model} {id : IdRef} {sec : Section} (hsec : m.section id = some sec)
    (h : (isId sec.m_start || isId sec.m_end) = false) :
    m.removeSection id = (.OK, { m with m_sections := m.m_sections.erase id }) := by
  simp only [removeSection, hsec, h]
  rfl

/-- A section with an end stays. -/
theorem removeSection_referenced {m : Model} {id : IdRef} {sec : Section}
    (hsec : m.section id = some sec) (h : (isId sec.m_start || isId sec.m_end) = true) :
    m.removeSection id = (.REFERENCED, m) := by
  simp only [removeSection, hsec, h]
  rfl

/-- Without such a section nothing is removed. -/
theorem removeSection_not_found {m : Model} {id : IdRef} (hsec : m.section id = none) :
    m.removeSection id = (.NOT_FOUND, m) := by
  simp [removeSection, hsec]

/-! ### Linking -/

/-- The checks of `link`. -/
structure CanLink (m : Model) (s a : IdRef) (i : SlotId) (b : IdRef) (j : SlotId)
    (sec : Section) (start stop : Node) : Prop where
  has_section : m.section s = some sec
  has_start : m.node a = some start
  has_stop : m.node b = some stop
  apart : a ≠ b
  start_lt : i < start.sectionCount
  stop_lt : j < stop.sectionCount
  start_free : start.slotAt i = ID_NULL
  stop_free : stop.slotAt j = ID_NULL
  free : sec.m_start = ID_NULL

/-- The model after a successful `link`. -/
def linked (m : Model) (s a : IdRef) (i : SlotId) (b : IdRef) (j : SlotId) (sec : Section)
    (start stop : Node) : Model :=
  ⟨(m.m_nodes.insert a (start.put i s)).insert b (stop.put j s),
    m.m_sections.insert s { sec with m_start := a, m_end := b }⟩

/-- **`link` connects the section** when its checks pass. -/
theorem link_ok {m : Model} {s a b : IdRef} {i j : SlotId} {sec : Section} {start stop : Node}
    (h : m.CanLink s a i b j sec start stop) :
    m.link s a i b j = .ok (.OK, m.linked s a i b j sec start stop) := by
  obtain ⟨hsec, hstart, hstop, hab, hi, hj, hfi, hfj, hfree⟩ := h
  simp [link, linked, hsec, hstart, hstop, hi.not_ge, hj.not_ge, hab, Node.section_eq _ hi,
    Node.section_eq _ hj, hfi, hfj, Section.isConnected, hfree, Node.setSlot_eq _ hi,
    Node.setSlot_eq _ hj, pure, Except.pure, bind, Except.bind]

/-- Otherwise it changes nothing and does not return `OK`. -/
theorem link_not_ok {m : Model} {s a b : IdRef} {i j : SlotId}
    (h : ∀ sec start stop, ¬ m.CanLink s a i b j sec start stop) :
    ∃ r, r ≠ .OK ∧ m.link s a i b j = .ok (r, m) := by
  cases hsec : m.section s with
  | none => exact ⟨.NOT_FOUND, by simp, by simp [link, hsec, pure, Except.pure]⟩
  | some sec =>
  cases hstart : m.node a with
  | none => exact ⟨.NOT_FOUND, by simp, by simp [link, hsec, hstart, pure, Except.pure]⟩
  | some start =>
  cases hstop : m.node b with
  | none => exact ⟨.NOT_FOUND, by simp, by simp [link, hsec, hstart, hstop, pure, Except.pure]⟩
  | some stop =>
  by_cases hi : i < start.sectionCount
  swap
  · exact ⟨.NOT_FOUND, by simp, by
      simp [link, hsec, hstart, hstop, Nat.le_of_not_lt hi, pure, Except.pure]⟩
  by_cases hj : j < stop.sectionCount
  swap
  · exact ⟨.NOT_FOUND, by simp, by
      simp [link, hsec, hstart, hstop, Nat.le_of_not_lt hj, pure, Except.pure]⟩
  by_cases hab : a = b
  · exact ⟨.SAME_NODE, by simp, by
      simp_all [link, hi.not_ge, pure, Except.pure]⟩
  by_cases hfi : start.slotAt i = ID_NULL
  swap
  · exact ⟨.NODE_OCCUPIED, by simp, by
      simp [link, hsec, hstart, hstop, hi.not_ge, hj.not_ge, hab, Node.section_eq _ hi, hfi, pure,
        Except.pure, bind, Except.bind]⟩
  by_cases hfj : stop.slotAt j = ID_NULL
  swap
  · exact ⟨.NODE_OCCUPIED, by simp, by
      simp [link, hsec, hstart, hstop, hi.not_ge, hj.not_ge, hab, Node.section_eq _ hi,
        Node.section_eq _ hj, hfi, hfj, pure, Except.pure, bind, Except.bind]⟩
  -- Every other check has passed, so the section is already connected.
  have hcon : sec.m_start ≠ ID_NULL := fun hfree =>
    h sec start stop ⟨hsec, hstart, hstop, hab, hi, hj, hfi, hfj, hfree⟩
  exact ⟨.SECTION_OCCUPIED, by simp, by
    simp [link, hsec, hstart, hstop, hi.not_ge, hj.not_ge, hab, Node.section_eq _ hi,
      Node.section_eq _ hj, hfi, hfj, Section.isConnected, hcon, pure, Except.pure, bind,
      Except.bind]⟩

/-- **`unlink` releases a connected section**: both nodes lose it, and its ends are cleared. -/
theorem unlink_ok {m : Model} {s : IdRef} {sec : Section} {start stop : Node}
    (hsec : m.section s = some sec) (hcon : sec.m_start ≠ ID_NULL)
    (hstart : m.node sec.m_start = some start) (hstop : m.node sec.m_end = some stop)
    (hne : sec.m_start ≠ sec.m_end) :
    m.unlink s = .ok (.OK,
      ⟨(m.m_nodes.insert sec.m_start (start.release s)).insert sec.m_end (stop.release s),
        m.m_sections.insert s { sec with m_start := ID_NULL, m_end := ID_NULL }⟩) := by
  have hstop' : (m.m_nodes.insert sec.m_start (start.release s)).lookup sec.m_end = some stop := by
    rw [Finmap.lookup_insert_of_ne _ hne.symm]
    exact hstop
  simp only [node] at hstart
  simp [unlink, hsec, Section.isConnected, hcon, hstart, hstop', List.foldlM_cons, pure,
    Except.pure, bind, Except.bind]

/-- A section without ends is not linked. -/
theorem unlink_not_linked {m : Model} {s : IdRef} {sec : Section} (hsec : m.section s = some sec)
    (hcon : sec.m_start = ID_NULL) : m.unlink s = .ok (.NOT_LINKED, m) := by
  simp [unlink, hsec, Section.isConnected, hcon, pure, Except.pure]

/-- Without such a section nothing is unlinked. -/
theorem unlink_not_found {m : Model} {s : IdRef} (hsec : m.section s = none) :
    m.unlink s = .ok (.NOT_FOUND, m) := by
  simp [unlink, hsec, pure, Except.pure]

end Model

end PiwcsPrw
