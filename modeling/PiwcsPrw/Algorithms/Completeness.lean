/-
# Completeness

`src/algorithms.cpp`, `test/completeness.cpp`.

`isComplete` scans the slots of every node and then the sections, and returns at
the first that is empty or not connected.  The maps hand out their entries in
some order, which the translation takes as an argument.

Every section that is connected occupies two slots, and no slot is occupied
twice (`Wiring.card_ports`), so the occupied slots are twice the connected
sections (`Reachable.card_occupied`).  A model whose sections are all connected
is therefore complete as soon as the numbers agree: the occupied slots are among
all slots, and if they are as many they are all (`Reachable.isComplete_iff`).
-/

import PiwcsPrw.Runs.Consistent

namespace PiwcsPrw

namespace Model

/-- `isComplete`, on maps that hand out their keys in the given orders. -/
def isComplete (nodeOrder sectionOrder : List Identifier) (m : Model) : Checked Bool := do
  if ← (m.m_nodes.walk nodeOrder).anyM fun (_, node) =>
      (List.range node.sectionCount).anyM fun slot => do
        return (← node.section slot) == ID_NULL then
    return false
  if (m.m_sections.walk sectionOrder).any fun (_, sec) => !sec.isConnected then
    return false
  return true

/-! ### Counting slots and sections -/

/-- `sectionCount()` of the node, `0` where there is none. -/
def slotCount (m : Model) (n : IdRef) : ℕ := (m.node n).elim 0 Node.sectionCount

/-- All slots of all nodes. -/
def ports (m : Model) : Finset Port :=
  m.m_nodes.keys.biUnion fun n => (Finset.range (m.slotCount n)).image (Prod.mk n)

/-- What the slot holds. -/
def heldAt (m : Model) (p : Port) : Identifier := (m.node p.1).elim ID_NULL (Node.slotAt · p.2)

/-- The slots that hold something. -/
def occupied (m : Model) : Finset Port := m.ports.filter fun p => m.heldAt p ≠ ID_NULL

/-- The connected sections. -/
def connected (m : Model) : Finset Identifier :=
  m.m_sections.keys.filter fun s => (m.section s).elim false Section.isConnected

/-- The ports are the slots the nodes have. -/
theorem mem_ports {m : Model} {p : Port} :
    p ∈ m.ports ↔ ∃ node, m.node p.1 = some node ∧ p.2 < node.sectionCount := by
  simp only [ports, Finset.mem_biUnion, Finset.mem_image, Finset.mem_range]
  constructor
  · rintro ⟨n, _, k, hk, rfl⟩
    cases hnode : m.node n with
    | none => simp [slotCount, hnode] at hk
    | some node => exact ⟨node, rfl, by simpa [slotCount, hnode] using hk⟩
  · rintro ⟨node, hnode, hk⟩
    have hkey : p.1 ∈ m.m_nodes.keys := Finmap.mem_keys.2 (exists_node_iff.1 ⟨node, hnode⟩)
    exact ⟨p.1, hkey, p.2, by simpa [slotCount, hnode] using hk, rfl⟩

/-- There are as many slots as the slot counts of the nodes add up to. -/
theorem card_ports (m : Model) : m.ports.card = ∑ n ∈ m.m_nodes.keys, m.slotCount n := by
  have hdisj : (m.m_nodes.keys : Set Identifier).PairwiseDisjoint
      fun n => (Finset.range (m.slotCount n)).image (Prod.mk n) := by
    intro n _ n' _ hne
    refine Finset.disjoint_left.2 fun p hp hp' => hne ?_
    obtain ⟨k, _, rfl⟩ := Finset.mem_image.1 hp
    obtain ⟨k', _, heq⟩ := Finset.mem_image.1 hp'
    exact (congrArg Prod.fst heq).symm
  rw [ports, Finset.card_biUnion hdisj]
  refine Finset.sum_congr rfl fun n _ => ?_
  rw [Finset.card_image_of_injective _ (Prod.mk_right_injective n), Finset.card_range]

/-- The connected sections are those with ends. -/
theorem mem_connected {m : Model} {s : Identifier} :
    s ∈ m.connected ↔ ∃ sec, m.section s = some sec ∧ sec.isConnected = true := by
  rw [connected, Finset.mem_filter, Finmap.mem_keys, ← exists_section_iff]
  cases m.section s <;> simp

namespace Refines

variable {m : Model} {N : Network}

/-- The occupied slots are the ports with a cable. -/
theorem mem_occupied (h : m.Refines N) {p : Port} :
    p ∈ m.occupied ↔ N.wiring.plug p ≠ none := by
  rw [occupied, Finset.mem_filter, mem_ports]
  constructor
  · rintro ⟨⟨node, hnode, _⟩, hheld⟩
    obtain ⟨a, _, rfl⟩ := h.node_some hnode
    rwa [heldAt, hnode, Option.elim_some, Ne, N.slotAt_toNode_eq_null_iff] at hheld
  · intro hplug
    obtain ⟨s, hs⟩ := Option.ne_none_iff_exists'.1 hplug
    obtain ⟨a, ha, hk⟩ := N.port_exists hs
    have hnode := h.node_of_attrs ha
    refine ⟨⟨_, hnode, hk⟩, ?_⟩
    rwa [heldAt, hnode, Option.elim_some, Ne, N.slotAt_toNode_eq_null_iff]

/-- The connected sections are the cables with ends. -/
theorem mem_connected (h : m.Refines N) {s : Identifier} :
    s ∈ m.connected ↔ N.wiring.ends s ≠ none := by
  rw [Model.mem_connected, h.exists_connected_iff]

/-- **Slots and sections balance.** -/
theorem card_occupied (h : m.Refines N) : m.occupied.card = 2 * m.connected.card :=
  N.wiring.card_ports (fun _ => h.mem_occupied) (fun _ => h.mem_connected)

end Refines

/-! ### The scan -/

/-- The scan over the slots of a node never leaves the array. -/
theorem hasFreeSlot_eq (node : Node) :
    ((List.range node.sectionCount).anyM fun slot => do
      return (← node.section slot) == ID_NULL : Checked Bool)
    = .ok ((List.range node.sectionCount).any fun slot => node.slotAt slot == ID_NULL) := by
  refine Checked.anyM_ok fun slot hslot => ?_
  rw [Node.section_eq _ (List.mem_range.1 hslot)]
  rfl

/-- The scan over the nodes finds no empty slot exactly when all are occupied. -/
theorem any_free_eq_false_iff {order : List Identifier} {m : Model}
    (hn : Finmap.Visits order m.m_nodes) :
    (m.m_nodes.walk order).any (fun e =>
      (List.range e.2.sectionCount).any fun slot => e.2.slotAt slot == ID_NULL) = false ↔
      m.occupied = m.ports := by
  rw [occupied, Finset.filter_eq_self, List.any_eq_false]
  constructor
  · intro hno p hp hnull
    obtain ⟨node, hnode, hk⟩ := mem_ports.1 hp
    refine hno _ ((Finmap.mem_walk hn).2 hnode) (List.any_eq_true.2 ⟨p.2, by simpa using hk, ?_⟩)
    rw [heldAt, hnode] at hnull
    exact beq_iff_eq.2 hnull
  · rintro hall ⟨n, node⟩ he hany
    have hnode : m.node n = some node := (Finmap.mem_walk hn).1 he
    obtain ⟨k, hk, hnull⟩ := List.any_eq_true.1 hany
    refine hall (n, k) (mem_ports.2 ⟨node, hnode, List.mem_range.1 hk⟩) ?_
    rw [heldAt, hnode]
    exact beq_iff_eq.1 hnull

/-- The scan over the sections finds all connected exactly when they are. -/
theorem any_disconnected_eq_false_iff {order : List Identifier} {m : Model}
    (hs : Finmap.Visits order m.m_sections) :
    (m.m_sections.walk order).any (fun e => !e.2.isConnected) = false ↔
      m.connected = m.m_sections.keys := by
  rw [connected, Finset.filter_eq_self, List.any_eq_false]
  constructor
  · intro hno s hkey
    obtain ⟨sec, hsec⟩ := Finmap.mem_iff.1 (Finmap.mem_keys.1 hkey)
    have hcon := hno _ ((Finmap.mem_walk hs).2 hsec)
    simpa [«section», hsec] using hcon
  · rintro hall ⟨s, sec⟩ he
    have hsec := (Finmap.mem_walk hs).1 he
    have hcon := hall s (Finmap.mem_keys.2 (Finmap.mem_of_lookup_eq_some hsec))
    simpa [«section», hsec] using hcon

/-- The scan of `isComplete` leaves no array, and says whether every slot is
occupied and every section connected. -/
theorem isComplete_eq {nodeOrder sectionOrder : List Identifier} {m : Model}
    (hn : Finmap.Visits nodeOrder m.m_nodes) (hs : Finmap.Visits sectionOrder m.m_sections) :
    m.isComplete nodeOrder sectionOrder
      = .ok (decide (m.occupied = m.ports ∧ m.connected = m.m_sections.keys)) := by
  rw [isComplete, Checked.anyM_ok fun e _ => hasFreeSlot_eq e.2]
  simp only [bind, Except.bind, pure, Except.pure]
  split_ifs with hfree hdisconnected
  · have hne : m.occupied ≠ m.ports := fun heq => by
      rw [(any_free_eq_false_iff hn).2 heq] at hfree
      cases hfree
    simp [hne]
  · have hne : m.connected ≠ m.m_sections.keys := fun heq => by
      rw [(any_disconnected_eq_false_iff hs).2 heq] at hdisconnected
      cases hdisconnected
    simp [hne]
  · rw [Bool.not_eq_true] at hfree hdisconnected
    simp [(any_free_eq_false_iff hn).1 hfree, (any_disconnected_eq_false_iff hs).1 hdisconnected]

end Model

/-- All sections are connected exactly when all have both ends. -/
theorem Reachable.connected_eq_keys_iff {m : Model} (h : Reachable m) :
    m.connected = m.m_sections.keys ↔
      ∀ s sec, m.section s = some sec → sec.m_start ≠ ID_NULL ∧ sec.m_end ≠ ID_NULL := by
  constructor
  · intro hall s sec hsec
    have hmem : s ∈ m.connected :=
      hall ▸ Finmap.mem_keys.2 (Finmap.mem_of_lookup_eq_some hsec)
    obtain ⟨sec', hsec', hcon⟩ := Model.mem_connected.1 hmem
    obtain rfl : sec = sec' := Option.some.inj (hsec.symm.trans hsec')
    have hstart : sec.m_start ≠ ID_NULL := bne_iff_ne.1 hcon
    obtain ⟨N, hN⟩ := h.refines
    rcases hN.consistent.ends_known hsec with ⟨hnull, _⟩ | ⟨⟨_, stop, _, hstop⟩, _⟩
    · exact absurd hnull hstart
    · exact ⟨hstart, (hN.consistent.node_key hstop).2.1⟩
  · intro hall
    refine Finset.Subset.antisymm (Finset.filter_subset _ _) fun s hkey => ?_
    obtain ⟨sec, hsec⟩ := Finmap.mem_iff.1 (Finmap.mem_keys.1 hkey)
    exact Model.mem_connected.2 ⟨sec, hsec, bne_iff_ne.2 (hall s sec hsec).1⟩

/-- **Slots and sections balance, and `isComplete` is decided by that count.**
Twice as many slots are occupied as sections are connected; so `isComplete`
holds exactly when every section has both ends and there are twice as many slots
as sections. -/
theorem Reachable.isComplete_iff {m : Model} (h : Reachable m)
    {nodeOrder sectionOrder : List Identifier} (hn : Finmap.Visits nodeOrder m.m_nodes)
    (hs : Finmap.Visits sectionOrder m.m_sections) :
    m.occupied.card = 2 * m.connected.card ∧
      ∃ b, m.isComplete nodeOrder sectionOrder = .ok b ∧
        (b = true ↔
          (∀ s sec, m.section s = some sec → sec.m_start ≠ ID_NULL ∧ sec.m_end ≠ ID_NULL) ∧
            ∑ n ∈ m.m_nodes.keys, m.slotCount n = 2 * m.m_sections.keys.card) := by
  obtain ⟨N, hN⟩ := h.refines
  have hbalance := hN.card_occupied
  refine ⟨hbalance, _, Model.isComplete_eq hn hs, ?_⟩
  rw [decide_eq_true_iff, ← h.connected_eq_keys_iff, ← m.card_ports]
  constructor
  · rintro ⟨hports, hsections⟩
    exact ⟨hsections, by rw [← hports, hbalance, hsections]⟩
  · rintro ⟨hsections, hcount⟩
    refine ⟨Finset.eq_of_subset_of_card_le (Finset.filter_subset _ _) ?_, hsections⟩
    rw [hbalance, hsections]
    omega

/-- The small example has three empty slots: its one section fills two of five. -/
theorem smallExample_isComplete :
    smallExample.isComplete [ascii "M145", ascii "T1034"] [ascii "S400"] = .ok false ∧
      smallExample.occupied.card = 2 * smallExample.connected.card := by
  have hn : Finmap.Visits [ascii "M145", ascii "T1034"] smallExample.m_nodes := by decide
  have hs : Finmap.Visits [ascii "S400"] smallExample.m_sections := by decide
  exact ⟨by decide, (Reachable.isComplete_iff reachable_smallExample hn hs).1⟩

end PiwcsPrw
