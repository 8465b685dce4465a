/-
# When `unlink` may be given a view of the model's own identifiers

`Model::unlink` in `src/model.cpp`, `Node::section` in
`include/piwcsprwmodel/nodes.h`.

A connected section has its ID in one slot of its start node, in one slot of its
end node, and among its own identifiers and keys.  The loops of `unlink` go to the
start node first.  If the argument shows the slot found there, it no longer reads
as the ID once that slot is `ID_NULL`, so the end node is searched for something
else and keeps the section, whose ends are then cleared all the same
(`HasCable.unlinkAt_start`).  With any other window the loops find both slots.

So a view gets the treatment of a string of its own exactly when it does not show
a slot of the start node (`WindowReachable.unlinksAsOwn_iff`).  A program that keeps
to this passes views to `unlink` in any run and never leaves the models it could
reach without them (`WindowReachable.reachable`).

`link` takes any views at all: it only assigns to strings that are empty, and no
view of those names an entity (`ViewReachable.links_as_own`).
-/

import PiwcsPrw.Entities.Window
import PiwcsPrw.Runs.Consistent
import PiwcsPrw.Runs.History

namespace PiwcsPrw

variable {cleared : Bytes → Bytes}

/-- The models reached when `unlink` is also given windows, none of which shows a slot
of the start node of the section it names. -/
inductive WindowReachable (cleared : Bytes → Bytes) : Model → Prop
  | empty : WindowReachable cleared .empty
  | call {m m' : Model} {ok : Bool} (op : Op) : WindowReachable cleared m → op.Passable →
      op.call m = .ok (ok, m') → WindowReachable cleared m'
  | unlink {m m' : Model} {r : UnlinkResult} (w : Window) : WindowReachable cleared m →
      w.AvoidsStart m → m.unlinkAt cleared w = .ok (r, m') → WindowReachable cleared m'

/-- Such runs stay within the reachable models. -/
theorem WindowReachable.reachable {m : Model} (h : WindowReachable cleared m) : Reachable m := by
  induction h with
  | empty => exact .empty
  | call op _ hop hcall ih => exact ih.call_passable hop hcall
  | @unlink m m' r w _ hw hrun ih =>
      rw [Model.unlinkAt_eq hw] at hrun
      have hcall : (Op.unlink (w.read m)).call m = .ok (r == .OK, m') := by
        rw [Op.call, hrun]
        rfl
      exact .call (.unlink (w.read m)) ih trivial hcall

/-- They reach all of them. -/
theorem Reachable.windowReachable {m : Model} (h : Reachable m) : WindowReachable cleared m := by
  obtain ⟨history, hm⟩ := h.exists_history
  clear h
  induction hm with
  | empty => exact .empty
  | call op _ hop hcall ih => exact .call op ih hop hcall

namespace Model

/-- With the window, `unlink` returns `OK` and leaves the model that it leaves when it
is given the ID as a string of its own: one that is consistent and in which no
slot holds the section. -/
def UnlinksAsOwn (cleared : Bytes → Bytes) (m : Model) (w : Window) (s : IdRef) : Prop :=
  ∃ m', m.unlinkAt cleared w = .ok (.OK, m') ∧ m.unlinkAt cleared (.own s) = .ok (.OK, m') ∧
    m'.Consistent ∧ ∀ p, ¬ m'.Holds p s

/-- A string of its own shows no slot. -/
theorem avoidsStart_own (m : Model) (s : IdRef) : (Window.own s).AvoidsStart m := by
  intro _ _ _ h
  cases h

namespace HasCable

variable {m : Model} {s : IdRef} {q : Port × Port} {sec : Section} {start stop : Node}
  (h : m.HasCable s q sec start stop)

include h

/-- A window on a slot of the start node that shows the section is on the slot the
cable sits in. -/
theorem slot_eq_of_read {k : SlotId} (hw : (Window.onto (.slot q.1.1 k)).read m = s) :
    k = q.1.2 := by
  rw [Window.read, cell, h.has_start, Option.bind_some] at hw
  exact (h.start_slot k).1 hw

/-- The loop over the start node, when the argument shows the slot it stops at. -/
theorem releaseAt_start :
    start.releaseAt cleared (.onto (.slot q.1.1 q.1.2)) q.1.1 s (List.finRange MAX_SLOTS)
      = (start.release s, cleared s) := by
  rw [Node.releaseAt_find, Node.release_find, Node.find_slot_eq h.start_lt_max h.start_slot]
  exact congrArg (Prod.mk _) (if_pos rfl)

/-- **`unlink` with a view of the slot of the start node**: the end node is searched
for what the view shows after the start node was done. -/
theorem unlinkAt_start :
    m.unlinkAt cleared (.onto (.slot q.1.1 q.1.2)) = .ok (.OK,
      ⟨(m.m_nodes.insert q.1.1 (start.release s)).insert q.2.1 (stop.release (cleared s)),
        m.m_sections.insert s { sec with m_start := ID_NULL, m_end := ID_NULL }⟩) := by
  have hread : (Window.onto (.slot q.1.1 q.1.2)).read m = s := by
    rw [Window.read, cell, h.has_start, Option.bind_some]
    exact (h.start_slot q.1.2).2 rfl
  have hna : m.m_nodes.lookup q.1.1 = some start := h.has_start
  have hnb : (m.m_nodes.insert q.1.1 (start.release s)).lookup q.2.1 = some stop := by
    rw [Finmap.lookup_insert_of_ne _ h.apart.symm]
    exact h.has_stop
  have hstop : stop.releaseAt cleared (.onto (.slot q.1.1 q.1.2)) q.2.1 (cleared s)
      (List.finRange MAX_SLOTS) = (stop.release (cleared s), cleared s) := by
    refine Node.releaseAt_of_ne fun k hk => ?_
    simp only [Window.onto.injEq, Cell.slot.injEq] at hk
    exact h.apart hk.1
  rw [unlinkAt, hread]
  simp only [h.has_section, h.isConnected, h.start_eq, h.end_eq]
  simp [hna, hnb, h.releaseAt_start, hstop, Checked.deref, bind, Except.bind, pure, Except.pure]

/-- The end node then still holds the section. -/
theorem holds_of_unlinkAt_start (hcleared : cleared s ≠ s) {m' : Model}
    (hrun : m.unlinkAt cleared (.onto (.slot q.1.1 q.1.2)) = .ok (.OK, m')) : m'.Holds q.2 s := by
  rw [h.unlinkAt_start, Except.ok.injEq, Prod.mk.injEq] at hrun
  obtain ⟨_, rfl⟩ := hrun
  have hslot : stop.slotAt q.2.2 = s := (h.stop_slot _).2 rfl
  refine ⟨stop.release (cleared s), Finmap.lookup_insert _, ?_⟩
  rw [Node.slotAt_release_of_ne, hslot]
  rw [hslot]
  exact hcleared.symm

end HasCable

end Model

/-- **`unlink` with a view of a stored identifier does what it does with a copy, exactly
when the view does not show a slot of the start node.** -/
theorem WindowReachable.unlinksAsOwn_iff {m : Model} (h : WindowReachable cleared m) {s : IdRef}
    {sec : Section} (hsec : m.section s = some sec) (hcon : sec.isConnected = true) {w : Window}
    (hw : w.read m = s) (hcleared : cleared s ≠ s) :
    m.UnlinksAsOwn cleared w s ↔ ∀ k, w ≠ .onto (.slot sec.m_start k) := by
  obtain ⟨N, hN⟩ := h.reachable.refines
  obtain ⟨q, start, stop, hq, hc⟩ := hN.cable_of_isConnected hsec hcon
  constructor
  · rintro ⟨m', hrun, _, _, hno⟩ k rfl
    rw [hc.start_eq] at hw hrun
    obtain rfl := hc.slot_eq_of_read hw
    exact hno q.2 (hc.holds_of_unlinkAt_start hcleared hrun)
  · intro havoid
    have hown : m.unlinkAt cleared (.own s) = m.unlink s := Model.unlinkAt_eq (m.avoidsStart_own s)
    have hview : m.unlinkAt cleared w = m.unlink s := by
      rw [Model.unlinkAt_eq, hw]
      intro sec' hsec'
      rw [hw, hsec, Option.some.injEq] at hsec'
      exact hsec' ▸ havoid
    obtain ⟨m', hrun, hN'⟩ := hN.unlinked hq
    refine ⟨m', by rw [hview, hrun], by rw [hown, hrun], hN'.consistent, fun p hp => ?_⟩
    have hs : s ≠ ID_NULL := (hN.consistent.section_key hsec).2.1
    rw [hN'.holds_iff_plug hs, Network.unlink_plug] at hp
    split_ifs at hp with hplug
    exact hplug hp

/-! ### The small example -/

/-- A view of a string that was assigned the empty one: the characters stay where they
are, but for the first, which becomes the terminating NUL. -/
def terminated (s : Bytes) : Bytes := 0 :: s.tail

/-- In the small example the slot of the end node may be passed on. -/
theorem smallExample_unlinksAsOwn :
    smallExample.UnlinksAsOwn terminated (.onto (.slot (ascii "T1034") 0)) (ascii "S400") := by
  have hsec : smallExample.section (ascii "S400") = some _ := rfl
  have hreach : WindowReachable terminated smallExample := reachable_smallExample.windowReachable
  refine (WindowReachable.unlinksAsOwn_iff hreach hsec rfl (by decide) (by decide)).2 fun k hk => ?_
  simp only [Window.onto.injEq, Cell.slot.injEq] at hk
  exact absurd hk.1 (by decide)

/-- The slot of the start node may not: `T1034` keeps `S400` in its slot `0`, and the
section `S400` has no ends. -/
theorem not_unlinksAsOwn :
    ¬ ∀ (cleared : Bytes → Bytes) (m : Model), Reachable m → ∀ s sec w,
      m.section s = some sec → sec.isConnected = true → Window.read w m = s → cleared s ≠ s →
        m.UnlinksAsOwn cleared w s := by
  intro h
  have hown := h terminated smallExample reachable_smallExample (ascii "S400") _
    (.onto (.slot (ascii "M145") 2)) rfl rfl (by decide) (by decide)
  obtain ⟨m', hrun, hcopy, _⟩ := hown
  -- What slot `0` of `T1034` holds afterwards.
  have hslot := congrArg
    (fun r => r.map fun r => (r.2.node (ascii "T1034")).map (Node.slotAt · 0)) (hrun.trans hcopy.symm)
  revert hslot
  decide

/-! ### `link` -/

variable {assigned : Bytes → Bytes → Bytes}

/-- The models reached when `link` is given any windows, and `unlink` windows that do not
show a slot of the start node of the section they name. -/
inductive ViewReachable (cleared : Bytes → Bytes) (assigned : Bytes → Bytes → Bytes) : Model → Prop
  | empty : ViewReachable cleared assigned .empty
  | call {m m' : Model} {ok : Bool} (op : Op) : ViewReachable cleared assigned m → op.Passable →
      op.call m = .ok (ok, m') → ViewReachable cleared assigned m'
  | link {m m' : Model} {r : LinkResult} (ws wa wb : Window) (i j : SlotId) :
      ViewReachable cleared assigned m → m.linkAt assigned ws wa i wb j = .ok (r, m') →
        ViewReachable cleared assigned m'
  | unlink {m m' : Model} {r : UnlinkResult} (w : Window) : ViewReachable cleared assigned m →
      w.AvoidsStart m → m.unlinkAt cleared w = .ok (r, m') → ViewReachable cleared assigned m'

/-- They are all the reachable ones. -/
theorem Reachable.viewReachable {m : Model} (h : Reachable m) :
    ViewReachable cleared assigned m := by
  obtain ⟨history, hm⟩ := h.exists_history
  clear h
  induction hm with
  | empty => exact .empty
  | call op _ hop hcall ih => exact .call op ih hop hcall

/-- In a reachable model nothing has an empty ID, so `link` reads what it was given. -/
theorem Reachable.linkAt_eq {m : Model} (h : Reachable m) (ws wa wb : Window) (i j : SlotId) :
    m.linkAt assigned ws wa i wb j = m.link (ws.read m) (wa.read m) i (wb.read m) j := by
  obtain ⟨N, hN⟩ := h.refines
  have hcon := hN.consistent
  exact Model.linkAt_eq (fun _ hsec => (hcon.section_key hsec).2.1)
    (fun _ hstart => (hcon.node_key hstart).2.1) (fun _ hstop => (hcon.node_key hstop).2.1) i j

/-- **`link` with any views of stored identifiers does what it does with copies**, in every
run that passes views to it, and such a run reaches no other models. -/
theorem ViewReachable.links_as_own {m : Model} (h : ViewReachable cleared assigned m) :
    Reachable m ∧ ∀ (ws wa wb : Window) (i j : SlotId),
      m.linkAt assigned ws wa i wb j = m.link (ws.read m) (wa.read m) i (wb.read m) j := by
  have hreach : Reachable m := by
    induction h with
    | empty => exact .empty
    | call op _ hop hcall ih => exact ih.call_passable hop hcall
    | @link m m' r ws wa wb i j _ hrun ih =>
        rw [ih.linkAt_eq] at hrun
        have hcall : (Op.link (ws.read m) (wa.read m) i (wb.read m) j).call m
            = .ok (r == .OK, m') := by
          rw [Op.call, hrun]
          rfl
        exact .call (.link (ws.read m) (wa.read m) i (wb.read m) j) ih trivial hcall
    | @unlink m m' r w _ hw hrun ih =>
        rw [Model.unlinkAt_eq hw] at hrun
        have hcall : (Op.unlink (w.read m)).call m = .ok (r == .OK, m') := by
          rw [Op.call, hrun]
          rfl
        exact .call (.unlink (w.read m)) ih trivial hcall
  exact ⟨hreach, fun ws wa wb i j => hreach.linkAt_eq ws wa wb i j⟩

/-- `T1034` and `M145` linked back by views of the identifiers that `S400` and its slots
held, in the small example without its cable. -/
theorem smallExample_links_as_own : ∃ m, smallExample.unlinkAt terminated (.own (ascii "S400")) =
    .ok (.OK, m) ∧ m.linkAt (fun value _ => value) (.onto (.sectionKey (ascii "S400")))
      (.onto (.nodeId (ascii "M145"))) 2 (.onto (.nodeKey (ascii "T1034"))) 0
        = .ok (.OK, smallExample) := by
  have hunlink : smallExample.unlinkAt terminated (.own (ascii "S400")) = .ok (.OK, _) := rfl
  have hsmall : ViewReachable terminated (fun value _ => value) smallExample :=
    reachable_smallExample.viewReachable
  have h := ViewReachable.links_as_own (.unlink _ hsmall (smallExample.avoidsStart_own _) hunlink)
  refine ⟨_, hunlink, ?_⟩
  rw [h.2]
  decide

end PiwcsPrw
