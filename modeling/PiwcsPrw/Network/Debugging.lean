/-
# What the debug build adds to `link` and `unlink`

`src/model.cpp` with the statements of `src/debug.h`, on a model of a network.

`link` adds nothing: a section that is not connected has neither a start nor an
end, so the guard of its `_FAIL` is never met (`linkDebug_eq`).  `unlink` of a
section that is not connected adds nothing either.

On a connected section the nodes at both ends are found, they differ, and each
holds the section in a slot, so the `_ASSERT`s pass and the second `_FAIL` is not
reached.  The first is: its guard asks for an end, and there is one
(`unlinkDebug_connected`).  What `unlink` returns is the same in either build.
-/

import PiwcsPrw.Entities.Debug
import PiwcsPrw.Network.Step

namespace PiwcsPrw

namespace Model

/-- The message of the first `_FAIL` of `unlink`. -/
def startWithoutEnd : Bytes := ascii "section->start() != ID_NULL, section->end() == ID_NULL"

/-- `link` passes no failure point when no section has an end and no start. -/
theorem linkDebug_eq {m : Model} {s a b : IdRef} {i j : SlotId}
    (h : ∀ sec, m.section s = some sec → sec.m_start = ID_NULL → sec.m_end = ID_NULL) :
    m.linkDebug s a i b j = Asserting.lift (m.link s a i b j) := by
  cases hsec : m.section s with
  | none => simp only [linkDebug, link, hsec]; rfl
  | some sec =>
  cases hstart : m.node a with
  | none => simp only [linkDebug, link, hsec, hstart]; rfl
  | some start =>
  cases hstop : m.node b with
  | none => simp only [linkDebug, link, hsec, hstart, hstop]; rfl
  | some stop =>
  have hguard : sec.isConnected = false → (sec.m_end != ID_NULL) = false := fun hcon =>
    bne_eq_false_iff_eq.2 (h sec hsec (bne_eq_false_iff_eq.1 hcon))
  simp only [linkDebug, link, hsec, hstart, hstop]
  -- The guard is the only place where the builds differ; both sides are walked
  -- through statement by statement.
  split_ifs with hrange hsame hcon hend
  · rfl
  · rfl
  · rw [Asserting.lift_bind]
    refine bind_congr fun x => ?_
    rw [apply_ite Asserting.lift, Asserting.lift_bind]
    refine if_congr Iff.rfl rfl (bind_congr fun y => ?_)
    split_ifs <;> rfl
  · rw [hguard (Bool.eq_false_iff.2 hcon)] at hend
    cases hend
  · rw [Asserting.lift_bind]
    refine bind_congr fun x => ?_
    rw [apply_ite Asserting.lift, Asserting.lift_bind]
    refine if_congr Iff.rfl rfl (bind_congr fun y => ?_)
    rw [apply_ite Asserting.lift, Asserting.lift_bind]
    refine if_congr Iff.rfl rfl (bind_congr fun start' => ?_)
    rw [Asserting.lift_bind]
    exact bind_congr fun stop' => rfl

namespace HasCable

variable {m : Model} {s : IdRef} {q : Port × Port} {sec : Section} {start stop : Node}
  (h : m.HasCable s q sec start stop)

include h

/-- The loop of `unlink` over the start node sets its flag. -/
theorem releaseDebug_start : start.releaseDebug s = (start.release s, some true) :=
  Node.releaseDebug_eq h.start_lt_max ((h.start_slot _).2 rfl)

/-- The loop of `unlink` over the end node sets its flag. -/
theorem releaseDebug_stop : stop.releaseDebug s = (stop.release s, some true) :=
  Node.releaseDebug_eq h.stop_lt_max ((h.stop_slot _).2 rfl)

/-- `unlink` on a connected section passes the first failure point, and gets
through. -/
theorem unlinkDebug : m.unlinkDebug s
    = ⟨[startWithoutEnd], (Asserting.lift (m.unlink s) : Debug _).result⟩ := by
  have hcon : sec.m_start ≠ ID_NULL := by
    rw [h.start_eq]
    exact h.start_ne_null
  have hend : sec.m_end ≠ ID_NULL := by
    rw [h.end_eq]
    exact h.end_ne_null
  have hapart : sec.m_start ≠ sec.m_end := by
    rw [h.start_eq, h.end_eq]
    exact h.apart
  have hnode : m.m_nodes.lookup sec.m_start = some start := h.node_start
  have hnode' : m.m_nodes.lookup sec.m_end = some stop := h.node_end
  have hnext : (m.m_nodes.insert sec.m_start (start.release s)).lookup sec.m_end = some stop := by
    rw [Finmap.lookup_insert_of_ne _ hapart.symm, hnode']
  rw [unlink_ok h.has_section hcon h.node_start h.node_end hapart]
  simp [Model.unlinkDebug, node, h.has_section, h.isConnected, hend, hapart, hnode, hnode', hnext,
    List.foldlM_cons, h.releaseDebug_start, h.releaseDebug_stop, Asserting.map_fail,
    startWithoutEnd]

end HasCable

namespace Refines

variable {m : Model} {N : Network} {s : IdRef}

/-- In a model of a network a section has both ends or none. -/
theorem end_eq_null (h : m.Refines N) {sec : Section} (hsec : m.section s = some sec)
    (hstart : sec.m_start = ID_NULL) : sec.m_end = ID_NULL := by
  obtain ⟨c, _, rfl⟩ := h.section_some hsec
  have hq := N.toSection_start_eq_null_iff.1 hstart
  simp [Network.toSection, hq]

/-- **`link` passes no failure point.** -/
theorem linkDebug (h : m.Refines N) (a : IdRef) (i : SlotId) (b : IdRef) (j : SlotId) :
    m.linkDebug s a i b j = Asserting.lift (m.link s a i b j) :=
  linkDebug_eq fun _ hsec hstart => h.end_eq_null hsec hstart

/-- **`unlink` of a connected section passes the first failure point**, and no
other. -/
theorem unlinkDebug_connected (h : m.Refines N) (hq : N.wiring.ends s ≠ none) :
    m.unlinkDebug s
      = ⟨[startWithoutEnd], (Asserting.lift (m.unlink s) : Debug _).result⟩ := by
  obtain ⟨q, hq⟩ := Option.ne_none_iff_exists'.1 hq
  obtain ⟨_, _, _, _, _, _, hc⟩ := h.exists_cable hq
  exact hc.unlinkDebug

/-- `unlink` of anything else passes none. -/
theorem unlinkDebug_refused (h : m.Refines N) (hq : N.wiring.ends s = none) :
    m.unlinkDebug s = Asserting.lift (m.unlink s) := by
  cases hsec : m.section s with
  | none =>
      rw [unlink_not_found hsec]
      simp only [Model.unlinkDebug, hsec]
      rfl
  | some sec =>
      obtain ⟨c, _, rfl⟩ := h.section_some hsec
      have hcon := N.isConnected_toSection s c
      rw [hq] at hcon
      rw [unlink_not_linked hsec (N.toSection_start_eq_null_iff.2 hq)]
      simp only [Model.unlinkDebug, hsec, hcon]
      rfl

/-- No assertion of `unlink` fails. -/
theorem unlinkDebug (h : m.Refines N) (s : IdRef) :
    ∃ r, (m.unlinkDebug s).result = .ok r ∧ m.unlink s = .ok r := by
  cases hq : N.wiring.ends s with
  | none =>
      obtain ⟨r, _, hrun⟩ := h.unlink_refused hq
      rw [h.unlinkDebug_refused hq, hrun]
      exact ⟨_, rfl, rfl⟩
  | some q =>
      obtain ⟨m', hrun, _⟩ := h.unlinked hq
      rw [h.unlinkDebug_connected (by simp [hq]), hrun]
      exact ⟨_, rfl, rfl⟩

/-- **The debug build adds nothing to a call** that is not an `unlink` of a connected
section. -/
theorem callDebug_eq (h : m.Refines N) {op : Op}
    (hop : ∀ s, op = .unlink s → N.wiring.ends s = none) :
    op.callDebug m = Asserting.lift (op.call m) := by
  cases op with
  | link s a i b j =>
      rw [Op.callDebug, h.linkDebug, Op.call, Asserting.lift_bind]
      rfl
  | unlink s =>
      rw [Op.callDebug, h.unlinkDebug_refused (hop s rfl), Op.call, Asserting.lift_bind]
      rfl
  | addNode | addSection | removeNode | removeSection | nodeMetadata | sectionMetadata => rfl

/-- To such an `unlink` it adds one failure point. -/
theorem callDebug_connected (h : m.Refines N) (hq : N.wiring.ends s ≠ none) :
    (Op.unlink s).callDebug m
      = ⟨[startWithoutEnd], (Asserting.lift ((Op.unlink s).call m) : Debug _).result⟩ := by
  obtain ⟨r, _, hrun⟩ := h.unlinkDebug s
  rw [Op.callDebug, h.unlinkDebug_connected hq, Op.call, hrun]
  rfl

end Refines

end Model

end PiwcsPrw
