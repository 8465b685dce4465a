/-
# The assertions of `unlink` and of the writer hold

`Model::unlink` in `src/model.cpp` and `writeLink` in `src/io_write.cpp`.

Both take a connected section, follow its ends to two nodes and search each of
them for the section.  A release build does not ask whether the nodes are there,
and where the search fails `unlink` goes on and the writer writes
`SLOT_INVALID`.  A debug build asserts each of these.

`HasCable` is all of them at once: in a model of a network a connected section
is stored as a cable, so either search stops at the slot the cable sits in
(`HasCable.slotOf_start`, `HasCable.releaseDebug_start` and their counterparts at the
end).  With the history of the run that slot is the one the last `link` of the
section was given (`Reached.exists_network`).
-/

import PiwcsPrw.Io.WriteNetwork
import PiwcsPrw.Network.Debugging
import PiwcsPrw.Runs.History

namespace PiwcsPrw

/-- `writeLink` in a debug build. -/
def writeLinkDebug (mj : Minijson) (sec : Section) (model : Model) : Debug Fields := do
  if !sec.isConnected then
    return []
  Asserting.assert (model.node sec.m_start).isSome (ascii "start not found")
  Asserting.assert (model.node sec.m_end).isSome (ascii "end not found")
  let start ← Checked.deref (model.node sec.m_start)
  let stop ← Checked.deref (model.node sec.m_end)
  let startSlot ← start.slotOf sec.m_id
  let endSlot ← stop.slotOf sec.m_id
  Asserting.assert (startSlot != SLOT_INVALID) (ascii "start slot not found")
  Asserting.assert (endSlot != SLOT_INVALID) (ascii "end slot not found")
  return [(ascii "link", .object [
    (ascii "startNode", .string sec.m_start),
    (ascii "startSlot", .number (mj.slotText startSlot)),
    (ascii "endNode", .string sec.m_end),
    (ascii "endSlot", .number (mj.slotText endSlot))])]

/-- No slot of a node is `SLOT_INVALID`. -/
theorem Node.ne_slotInvalid {node : Node} {k : SlotId} (hk : k < node.sectionCount) :
    k ≠ SLOT_INVALID := by
  have hmax : k < MAX_SLOTS := lt_maxSlots hk
  have hinvalid : MAX_SLOTS < SLOT_INVALID := by decide
  exact (hmax.trans hinvalid).ne

namespace Model

namespace HasCable

variable {m : Model} {s : IdRef} {q : Port × Port} {sec : Section} {start stop : Node}
  (h : m.HasCable s q sec start stop)

include h

/-- The assertions of `writeLink` hold on a connected section. -/
theorem writeLinkDebug (mj : Minijson) :
    writeLinkDebug mj sec m = Asserting.lift (writeLink mj sec m) := by
  have hi : (q.1.2 != SLOT_INVALID) = true := bne_iff_ne.2 (Node.ne_slotInvalid h.start_lt)
  have hj : (q.2.2 != SLOT_INVALID) = true := bne_iff_ne.2 (Node.ne_slotInvalid h.stop_lt)
  simp [PiwcsPrw.writeLinkDebug, writeLink, h.isConnected, h.node_start, h.node_end,
    h.slotOf_start, h.slotOf_stop, hi, hj, Asserting.lift_bind]

end HasCable

namespace Refines

variable {m : Model} {N : Network} {s : IdRef}

/-- No assertion of `writeLink` fails. -/
theorem writeLinkDebug (mj : Minijson) (h : m.Refines N) {sec : Section}
    (hsec : m.section s = some sec) :
    PiwcsPrw.writeLinkDebug mj sec m = Asserting.lift (writeLink mj sec m) := by
  by_cases hcon : sec.isConnected = true
  · obtain ⟨q, start, stop, _, hc⟩ := h.cable_of_isConnected hsec hcon
    exact hc.writeLinkDebug mj
  · simp only [PiwcsPrw.writeLinkDebug, writeLink, hcon]
    rfl

end Refines

end Model

/-- **The assertions of `unlink` and of the writer hold in every reachable
model.**  Both end in a debug build; on a connected section both nodes are found,
each loop of `unlink` sets its flag, and `slotOf` finds on either node the slot
that the last `link` of the section was given. -/
theorem Reachable.assertions_hold (mj : Minijson) {m : Model} (h : Reachable m) :
    (∀ s, ∃ r, (m.unlinkDebug s).result = .ok r) ∧
      (∀ s sec, m.section s = some sec → ∃ link, (writeLinkDebug mj sec m).result = .ok link) ∧
      (∃ history, Reached history m) ∧
      ∀ history, Reached history m → ∀ s sec, m.section s = some sec → sec.isConnected = true →
        ∃ start stop i j, m.node sec.m_start = some start ∧ m.node sec.m_end = some stop ∧
          (start.releaseDebug s).2 = some true ∧ (stop.releaseDebug s).2 = some true ∧
          start.slotOf sec.m_id = .ok i ∧ i ≠ SLOT_INVALID ∧ i < start.sectionCount ∧
          stop.slotOf sec.m_id = .ok j ∧ j ≠ SLOT_INVALID ∧ j < stop.sectionCount ∧
          lastLink s history = some ((sec.m_start, i), (sec.m_end, j)) := by
  obtain ⟨N, hN⟩ := h.refines
  refine ⟨fun s => ?_, fun s sec hsec => ?_, h.exists_history, ?_⟩
  · obtain ⟨r, hr, _⟩ := hN.unlinkDebug s
    exact ⟨r, hr⟩
  · obtain ⟨c, hc, rfl⟩ := hN.section_some hsec
    rw [hN.writeLinkDebug mj hsec, writeLink_eq mj hN hc]
    exact ⟨_, rfl⟩
  · intro history hreached s sec hsec hcon
    obtain ⟨N', hN', hlast⟩ := hreached.exists_network
    obtain ⟨q, start, stop, hq, hc⟩ := hN'.cable_of_isConnected hsec hcon
    refine ⟨start, stop, q.1.2, q.2.2, hc.node_start, hc.node_end, ?_, ?_,
      hc.slotOf_start, Node.ne_slotInvalid hc.start_lt, hc.start_lt,
      hc.slotOf_stop, Node.ne_slotInvalid hc.stop_lt, hc.stop_lt, ?_⟩
    · rw [hc.releaseDebug_start]
    · rw [hc.releaseDebug_stop]
    · rw [hlast hq, hc.start_eq, hc.end_eq]

/-- In the small example the two nodes hold `S400` in the slots that its `link`
was given. -/
theorem smallExample_assertions_hold :
    ∃ history, Reached history smallExample ∧
      lastLink (ascii "S400") history = some ((ascii "M145", 2), (ascii "T1034", 0)) := by
  have hasserts := Reachable.assertions_hold .plain reachable_smallExample
  obtain ⟨_, _, ⟨history, hreached⟩, hfound⟩ := hasserts
  obtain ⟨start, stop, i, j, hstart, hstop, _, _, hi, _, _, hj, _, _, hlast⟩ :=
    hfound history hreached (ascii "S400") _ rfl rfl
  obtain rfl := Option.some.inj hstart
  obtain rfl := Option.some.inj hstop
  obtain rfl : i = 2 := Except.ok.inj (hi.symm.trans (by decide))
  obtain rfl : j = 0 := Except.ok.inj (hj.symm.trans (by decide))
  exact ⟨history, hreached, hlast⟩

end PiwcsPrw
