/-
# A complete model cannot be changed and stay complete

`isComplete` in `src/algorithms.cpp` and the mutators in `src/model.cpp`.

A network is complete when every slot has a cable and every section is connected
(`Network.Complete`); in a model of it that is what `isComplete` returns
(`isComplete_eq_true_iff`).  A step of a complete network is an addition or an `unlink`,
since every other mutator needs something free: `link` a free section, the
removals a node or a section without a cable (every type of node has a slot).
An addition brings a free slot or a free section, and an `unlink` leaves its
section free (`Network.Step.of_complete`).

So no mutator leads from a complete model to a complete one
(`Reachable.complete_closed`).  Edits of metadata are no mutators of the model,
and leave it complete.
-/

import PiwcsPrw.Algorithms.Completeness
import PiwcsPrw.Runs.History

namespace PiwcsPrw

/-- The call is one of the six mutators of `Model`. -/
def Op.isMutator : Op → Bool
  | nodeMetadata .. | sectionMetadata .. => false
  | _ => true

/-- The call adds an entity or disconnects a section. -/
def Op.opensUp : Op → Bool
  | addNode _ | addSection _ | unlink _ => true
  | _ => false

namespace Network

/-- Every slot of every node has a cable, and every section is connected. -/
structure Complete (N : Network) : Prop where
  plugged : ∀ {p}, N.HasPort p → N.wiring.plug p ≠ none
  connected : ∀ {s a}, N.sections s = some a → N.wiring.ends s ≠ none

/-- A node has a slot. -/
theorem hasPort_zero {N : Network} {id : Identifier} {a : NodeAttrs} (ha : N.nodes id = some a) :
    N.HasPort (id, 0) :=
  ⟨a, ha, a.type.slotCount_pos⟩

/-- **A mutator that changes a complete network** opens it up, and what it leaves
behind is not complete. -/
theorem Step.of_complete {N N' : Network} (hN : N.Complete) {op : Op} (hstep : N.Step op N')
    (hop : op.isMutator = true) : op.opensUp = true ∧ ¬ N'.Complete := by
  cases hstep with
  | @addNode node hid hnew hvacant =>
      refine ⟨rfl, fun hN' => ?_⟩
      -- Slot 0 of the new node is free, since no cable can have been there before.
      have hport : (N.addNode node.m_id ⟨node.m_type, node.toHasMetadata⟩ hid hnew).HasPort
          (node.m_id, 0) := hasPort_zero (if_pos rfl)
      obtain ⟨s, hs⟩ := Option.ne_none_iff_exists'.1 (hN'.plugged hport)
      obtain ⟨a, ha, _⟩ := N.port_exists hs
      rw [hnew] at ha
      cases ha
  | @addSection sec hid hnew haddr =>
      refine ⟨rfl, fun hN' => ?_⟩
      obtain ⟨q, hq⟩ := Option.ne_none_iff_exists'.1 (hN'.connected (s := sec.m_id) (if_pos rfl))
      obtain ⟨a, ha⟩ := N.cable_exists hq
      rw [hnew] at ha
      cases ha
  | removeNode hknown hfree =>
      obtain ⟨a, ha⟩ := Option.ne_none_iff_exists'.1 hknown
      exact absurd (hfree 0) (hN.plugged (hasPort_zero ha))
  | removeSection hknown hfree =>
      obtain ⟨a, ha⟩ := Option.ne_none_iff_exists'.1 hknown
      exact absurd hfree (hN.connected ha)
  | link hcan =>
      obtain ⟨a, ha⟩ := hcan.known
      exact absurd hcan.free (hN.connected ha)
  | @unlink s hknown =>
      refine ⟨rfl, fun hN' => ?_⟩
      obtain ⟨q, hq⟩ := Option.ne_none_iff_exists'.1 hknown
      obtain ⟨a, ha⟩ := N.cable_exists hq
      exact hN'.connected (s := s) ha (by simp)
  | nodeMetadata | sectionMetadata => cases hop

end Network

namespace Model.Refines

variable {m : Model} {N : Network}

/-- The slots of the model are the ports of the network. -/
theorem mem_ports (h : m.Refines N) {p : Port} : p ∈ m.ports ↔ N.HasPort p := by
  rw [Model.mem_ports]
  constructor
  · rintro ⟨node, hnode, hk⟩
    obtain ⟨a, ha, rfl⟩ := h.node_some hnode
    exact ⟨a, ha, hk⟩
  · rintro ⟨a, ha, hk⟩
    exact ⟨_, h.node_of_attrs ha, hk⟩

/-- All slots of the model are occupied and all sections connected exactly when the
network is complete. -/
theorem complete_iff (h : m.Refines N) :
    (m.occupied = m.ports ∧ m.connected = m.m_sections.keys) ↔ N.Complete := by
  constructor
  · rintro ⟨hports, hsections⟩
    refine ⟨fun hp => ?_, fun {s a} ha => ?_⟩
    · rw [← h.mem_occupied, hports, h.mem_ports]
      exact hp
    · rw [← h.mem_connected, hsections, Finmap.mem_keys, ← exists_section_iff]
      exact ⟨_, h.section_of_attrs ha⟩
  · intro hN
    refine ⟨Finset.Subset.antisymm (Finset.filter_subset _ _) fun p hp => ?_,
      Finset.Subset.antisymm (Finset.filter_subset _ _) fun s hs => ?_⟩
    · exact h.mem_occupied.2 (hN.plugged (h.mem_ports.1 hp))
    · rw [Finmap.mem_keys, ← exists_section_iff] at hs
      obtain ⟨sec, hsec⟩ := hs
      obtain ⟨a, ha, _⟩ := h.section_some hsec
      exact h.mem_connected.2 (hN.connected ha)

variable {nodeOrder sectionOrder : List Identifier} (hn : Finmap.Visits nodeOrder m.m_nodes)
  (hs : Finmap.Visits sectionOrder m.m_sections)

include hn hs

/-- **`isComplete` returns whether the network is complete.** -/
theorem isComplete_eq_true_iff (h : m.Refines N) :
    m.isComplete nodeOrder sectionOrder = .ok true ↔ N.Complete := by
  rw [Model.isComplete_eq hn hs, Except.ok.injEq, decide_eq_true_iff, h.complete_iff]

/-- Of a network that is not complete it returns that. -/
theorem isComplete_eq_false (h : m.Refines N) (hN : ¬ N.Complete) :
    m.isComplete nodeOrder sectionOrder = .ok false := by
  rw [Model.isComplete_eq hn hs, Except.ok.injEq, decide_eq_false_iff_not, h.complete_iff]
  exact hN

end Model.Refines

/-- The mutators that do not open a complete model up are refused. -/
theorem Model.Refines.call_of_complete {m : Model} {N : Network} (h : m.Refines N)
    (hN : N.Complete) {op : Op} (hop : op.WellFormed) (hmut : op.isMutator = true)
    (hno : op.opensUp = false) : op.call m = .ok (false, m) := by
  rcases h.call hop with ⟨m', N', _, hstep, _⟩ | ⟨hcall, _⟩
  · rw [(hstep.of_complete hN hmut).1] at hno
    cases hno
  · exact hcall

/-- **A complete model is closed off.**  No `link`, `removeNode` or `removeSection`
returns `OK`, and after an addition or an `unlink` that does, or any mutator
at all, the model is not complete. -/
theorem Reachable.complete_closed {m : Model} (h : Reachable m)
    {nodeOrder sectionOrder : List Identifier} (hn : Finmap.Visits nodeOrder m.m_nodes)
    (hs : Finmap.Visits sectionOrder m.m_sections)
    (hcomplete : m.isComplete nodeOrder sectionOrder = .ok true) :
    (∀ s a i b j, (Op.link s a i b j).call m = .ok (false, m)) ∧
      (∀ id, (Op.removeNode id).call m = .ok (false, m)) ∧
      (∀ id, (Op.removeSection id).call m = .ok (false, m)) ∧
      ∀ (op : Op) (m' : Model), op.Passable → op.isMutator = true → op.call m = .ok (true, m') →
        ∀ nodeOrder' sectionOrder', Finmap.Visits nodeOrder' m'.m_nodes →
          Finmap.Visits sectionOrder' m'.m_sections →
            m'.isComplete nodeOrder' sectionOrder' = .ok false := by
  obtain ⟨N, hN⟩ := h.refines
  have hNc : N.Complete := (hN.isComplete_eq_true_iff hn hs).1 hcomplete
  refine ⟨fun s a i b j => ?_, fun id => ?_, fun id => ?_, ?_⟩
  · exact hN.call_of_complete hNc trivial rfl rfl
  · exact hN.call_of_complete hNc trivial rfl rfl
  · exact hN.call_of_complete hNc trivial rfl rfl
  · intro op m' hop hmut hcall nodeOrder' sectionOrder' hn' hs'
    rcases hN.call hop.wellFormed with ⟨m₁, N₁, hcall₁, hstep, hN₁⟩ | ⟨hcall₁, _⟩
    · rw [hcall₁, Except.ok.injEq, Prod.mk.injEq] at hcall
      obtain ⟨_, rfl⟩ := hcall
      exact hN₁.isComplete_eq_false hn' hs' (hstep.of_complete hNc hmut).2
    · simp [hcall₁] at hcall

/-! ### The smallest complete model with a section -/

/-- The calls that put a section between two dead ends. -/
def shuttleCalls : List Op :=
  [.addNode (.new .END (ascii "E1")), .addNode (.new .END (ascii "E2")),
    .addSection (.new (ascii "S1") .BIDIR none),
    .link (ascii "S1") (ascii "E1") 0 (ascii "E2") 0]

/-- A section between two dead ends. -/
def shuttle : Model where
  m_nodes := (Finmap.insert (ascii "E1")
      { Node.new .END (ascii "E1") with m_slots := #v[ascii "S1", [], [], []] } ∅).insert
    (ascii "E2") { Node.new .END (ascii "E2") with m_slots := #v[ascii "S1", [], [], []] }
  m_sections := Finmap.insert (ascii "S1")
    { Section.new (ascii "S1") .BIDIR none with m_start := ascii "E1", m_end := ascii "E2" } ∅

/-- Its calls all return `OK`. -/
theorem reachable_shuttle : Reachable shuttle := by
  have hrun : Op.runAll shuttleCalls .empty = .ok (true, shuttle) := by decide
  refine .runAll (fun op hop => ?_) .empty hrun
  simp only [shuttleCalls, List.mem_cons, List.not_mem_nil, or_false] at hop
  rcases hop with rfl | rfl | rfl | rfl
  · exact ⟨_, _, {}, rfl⟩
  · exact ⟨_, _, {}, rfl⟩
  · exact ⟨_, _, _, {}, rfl⟩
  · trivial

/-- The section between two dead ends is complete, so no node can be removed. -/
theorem shuttle_complete_closed :
    shuttle.isComplete [ascii "E1", ascii "E2"] [ascii "S1"] = .ok true ∧
      ∀ id, (Op.removeNode id).call shuttle = .ok (false, shuttle) := by
  have hn : Finmap.Visits [ascii "E1", ascii "E2"] shuttle.m_nodes := by decide
  have hs : Finmap.Visits [ascii "S1"] shuttle.m_sections := by decide
  have hcomplete : shuttle.isComplete [ascii "E1", ascii "E2"] [ascii "S1"] = .ok true := by
    decide
  exact ⟨hcomplete, (Reachable.complete_closed reachable_shuttle hn hs hcomplete).2.1⟩

end PiwcsPrw
