/-
# Correct models

`include/piwcsprwmodel.h` (Allowed Travel and Correctness): models are called correct
when the paths allowed by the rules of sections and nodes have no dead ends and no
unreachable starting positions, except for bidirectional sections at `END` nodes.

`Model.PathsGoOn` says this in the answers of a model: wherever a train arrives at a slot,
some route from there leads to a section a train may leave by, and wherever one departs,
some route leads there from a section a train may arrive by.  `Model.Correct` asks of the
routes on that all of them can be taken, as the overview does where it says that `S309`
must provide a path for trains that choose to divert at `M106`.

Trains arrive at a motorized switch by one slot and may leave by two, the other way round
at a passive one, and at every other node they arrive by as many slots as they leave by.
Over all nodes as many slots are arrived at as are left, since every section leads from one
to another.  So as many motorized switches are left both ways as passive ones are entered
both ways (`Reachable.switches_balance`).
-/

import PiwcsPrw.Runs.Journeys

namespace PiwcsPrw

namespace Model

/-- The train is on its way to the slot of the node. -/
structure Arrives (m : Model) (t : Train) (node : Node) (slot : SlotId) : Prop where
  onTrack : m.OnTrack t
  at_node : m.ahead t = some node
  at_slot : node.slotOf t.cable = .ok slot

/-- The train is on its way from the slot of the node. -/
structure Departs (m : Model) (t : Train) (node : Node) (slot : SlotId) : Prop where
  onTrack : m.OnTrack t
  at_node : m.ahead t.flip = some node
  at_slot : node.slotOf t.cable = .ok slot

/-- No path has a dead end or a starting position that cannot be reached. -/
structure PathsGoOn (m : Model) : Prop where
  onward : ∀ t node i, m.Arrives t node i → node.m_type = .END ∧ m.OnTrack t.flip ∨
    ∃ j, node.couldTraverse i j = .ok true ∧ ∃ t', m.Departs t' node j
  reached : ∀ t node j, m.Departs t node j → node.m_type = .END ∧ m.OnTrack t.flip ∨
    ∃ i, node.couldTraverse i j = .ok true ∧ ∃ t', m.Arrives t' node i

/-- Moreover every route on can be taken: trains may divert at every switch. -/
structure Correct (m : Model) : Prop extends m.PathsGoOn where
  divert : ∀ t node i, m.Arrives t node i →
    ∀ j, node.couldTraverse i j = .ok true → ∃ t', m.Departs t' node j

/-- The node is a motorized switch that trains come to. -/
def MotorizedUsed (m : Model) (n : Identifier) : Prop :=
  ∃ node, m.node n = some node ∧ node.m_type = .MOTORIZED ∧ ∃ t i, m.Arrives t node i

/-- The node is a motorized switch that trains leave both straight and diverging. -/
def LeftBothWays (m : Model) (n : Identifier) : Prop :=
  ∃ node, m.node n = some node ∧ node.m_type = .MOTORIZED ∧
    (∃ t, m.Departs t node 1) ∧ ∃ t, m.Departs t node 2

/-- The node is a passive switch that trains enter both straight and diverging. -/
def EnteredBothWays (m : Model) (n : Identifier) : Prop :=
  ∃ node, m.node n = some node ∧ node.m_type = .PASSIVE ∧
    (∃ t, m.Arrives t node 1) ∧ ∃ t, m.Arrives t node 2

end Model

/-! ### One node -/

/-- A node lets trains through by the routes of its type. -/
theorem Node.couldTraverse_iff {node : Node} {i j : SlotId} :
    node.couldTraverse i j = .ok true ↔ (i, j) ∈ node.m_type.routeList := by
  rw [couldTraverse_eq_routes, Except.ok.injEq, NodeType.mem_routeList]

/-- A motorized switch lets trains through from its common track to both others. -/
theorem Node.couldTraverse_motorized {node : Node} (htype : node.m_type = .MOTORIZED)
    {i j : SlotId} : node.couldTraverse i j = .ok true ↔ i = 0 ∧ (j = 1 ∨ j = 2) := by
  have hroutes : NodeType.MOTORIZED.routeList = [(0, 1), (0, 2)] := by decide
  rw [couldTraverse_iff, htype, hroutes]
  simp [and_or_left]

/-- A passive switch lets trains through from both other tracks to its common one. -/
theorem Node.couldTraverse_passive {node : Node} (htype : node.m_type = .PASSIVE)
    {i j : SlotId} : node.couldTraverse i j = .ok true ↔ (i = 1 ∨ i = 2) ∧ j = 0 := by
  have hroutes : NodeType.PASSIVE.routeList = [(1, 0), (2, 0)] := by decide
  rw [couldTraverse_iff, htype, hroutes]
  simp [or_and_right]

/-- The slots of a node of the type at which trains arrive and from which they depart, as
they are in a model whose paths go on. -/
def NodeType.Fits (type : NodeType) (arrivals departures : Finset SlotId) : Prop :=
  (∀ i ∈ arrivals, type = .END ∧ i ∈ departures ∨
    ∃ r ∈ type.routeList, r.1 = i ∧ r.2 ∈ departures) ∧
  ∀ j ∈ departures, type = .END ∧ j ∈ arrivals ∨
    ∃ r ∈ type.routeList, r.2 = j ∧ r.1 ∈ arrivals

instance (type : NodeType) (arrivals departures : Finset SlotId) :
    Decidable (type.Fits arrivals departures) :=
  inferInstanceAs (Decidable (_ ∧ _))

/-- **One node**: a motorized switch left both ways is left at one more slot than it is
arrived at, a passive one entered both ways at one less, and all others at as many. -/
theorem NodeType.Fits.card {type : NodeType} {arrivals departures : Finset SlotId}
    (h : type.Fits arrivals departures) (harr : arrivals ⊆ Finset.range MAX_SLOTS)
    (hdep : departures ⊆ Finset.range MAX_SLOTS) :
    departures.card + (if type = .PASSIVE ∧ 1 ∈ arrivals ∧ 2 ∈ arrivals then 1 else 0)
      = arrivals.card
        + if type = .MOTORIZED ∧ 1 ∈ departures ∧ 2 ∈ departures then 1 else 0 := by
  have htable : ∀ A ∈ (Finset.range MAX_SLOTS).powerset, ∀ D ∈ (Finset.range MAX_SLOTS).powerset,
      type.Fits A D → D.card + (if type = .PASSIVE ∧ 1 ∈ A ∧ 2 ∈ A then 1 else 0)
        = A.card + if type = .MOTORIZED ∧ 1 ∈ D ∧ 2 ∈ D then 1 else 0 := by
    cases type <;> decide +kernel
  exact htable _ (Finset.mem_powerset.2 harr) _ (Finset.mem_powerset.2 hdep) h

/-! ### The nodes of a network -/

namespace Network

/-- Some train arrives at the port. -/
def Arrival (N : Network) (p : Port) : Prop := ∃ t, N.rails.OnTrack t ∧ N.wiring.arr t = some p

/-- Some train departs from the port. -/
def Departure (N : Network) (p : Port) : Prop := ∃ t, N.rails.OnTrack t ∧ N.wiring.dep t = some p

/-- A port trains arrive at is a slot of a node. -/
theorem Arrival.hasPort {N : Network} {p : Port} (h : N.Arrival p) : N.HasPort p := by
  obtain ⟨t, _, hp⟩ := h
  exact N.port_exists (Wiring.plug_of_dep (l := t.flip) hp)

/-- And so is a port they depart from. -/
theorem Departure.hasPort {N : Network} {p : Port} (h : N.Departure p) : N.HasPort p := by
  obtain ⟨t, _, hp⟩ := h
  exact N.port_exists (Wiring.plug_of_dep hp)

end Network

section Slots

open Classical

variable {q : Port → Prop} {n : Identifier} {k : SlotId}

/-- The slots of the node for which `q` holds. -/
noncomputable def slotsWith (q : Port → Prop) (n : Identifier) : Finset SlotId :=
  (Finset.range MAX_SLOTS).filter fun k => q (n, k)

/-- The slots are those of the array with the property. -/
theorem mem_slotsWith : k ∈ slotsWith q n ↔ k < MAX_SLOTS ∧ q (n, k) := by
  rw [slotsWith, Finset.mem_filter, Finset.mem_range]

/-- They lie in the array. -/
theorem slotsWith_subset (q : Port → Prop) (n : Identifier) :
    slotsWith q n ⊆ Finset.range MAX_SLOTS :=
  Finset.filter_subset _ _

/-- Trains arrive at no slot past the array. -/
theorem Network.mem_arrivals {N : Network} :
    k ∈ slotsWith N.Arrival n ↔ N.Arrival (n, k) := by
  rw [mem_slotsWith, and_iff_right_iff_imp]
  exact fun h => h.hasPort.lt_maxSlots

/-- Nor do they depart from one. -/
theorem Network.mem_departures {N : Network} :
    k ∈ slotsWith N.Departure n ↔ N.Departure (n, k) := by
  rw [mem_slotsWith, and_iff_right_iff_imp]
  exact fun h => h.hasPort.lt_maxSlots

/-- Ports are counted node by node. -/
theorem card_slotsWith (nodes : Finset Identifier) (q : Port → Prop) :
    ((nodes ×ˢ Finset.range MAX_SLOTS).filter q).card = ∑ n ∈ nodes, (slotsWith q n).card := by
  rw [Finset.card_filter, Finset.sum_product]
  exact Finset.sum_congr rfl fun n _ => (Finset.card_filter ..).symm

end Slots

namespace Model.Refines

variable {m : Model} {N : Network} {n : Identifier} {a : NodeAttrs} {k : SlotId} {t : Train}

/-- The node ahead and the slot there are the port the train arrives at. -/
theorem ahead_iff (h : m.Refines N) (ha : N.nodes n = some a) :
    m.ahead t = some (N.toNode n a) ∧ (N.toNode n a).slotOf t.cable = .ok k ↔
      N.wiring.arr t = some (n, k) := by
  constructor
  · rintro ⟨hnode, hslot⟩
    cases harr : N.wiring.arr t with
    | none =>
        rw [h.ahead_eq_none harr] at hnode
        cases hnode
    | some p =>
        obtain ⟨a', _, hahead, hslot'⟩ := h.exists_ahead harr
        have hsame : N.toNode n a = N.toNode p.1 a' := Option.some.inj (hnode.symm.trans hahead)
        rw [hsame, hslot', Except.ok.injEq] at hslot
        exact congrArg some (Prod.ext (congrArg Node.m_id hsame).symm hslot)
  · intro harr
    obtain ⟨a', ha', hahead, hslot⟩ := h.exists_ahead harr
    obtain rfl := Option.some.inj (ha.symm.trans ha')
    exact ⟨hahead, hslot⟩

/-- **Arriving in the model is arriving on the rails**, and so for departing. -/
theorem exists_arrives_iff (h : m.Refines N) (ha : N.nodes n = some a) :
    (∃ t, m.Arrives t (N.toNode n a) k) ↔ N.Arrival (n, k) := by
  refine exists_congr fun t => ?_
  rw [← h.onTrack_iff, ← h.ahead_iff ha]
  exact ⟨fun ht => ⟨ht.onTrack, ht.at_node, ht.at_slot⟩, fun ⟨hon, hnode, hslot⟩ =>
    ⟨hon, hnode, hslot⟩⟩

/-- Departing in the model is departing on the rails. -/
theorem exists_departs_iff (h : m.Refines N) (ha : N.nodes n = some a) :
    (∃ t, m.Departs t (N.toNode n a) k) ↔ N.Departure (n, k) := by
  refine exists_congr fun t => ?_
  rw [← h.onTrack_iff, ← Wiring.arr_flip, ← h.ahead_iff ha, Leg.flip_cable]
  exact ⟨fun ht => ⟨ht.onTrack, ht.at_node, ht.at_slot⟩, fun ⟨hon, hnode, hslot⟩ =>
    ⟨hon, hnode, hslot⟩⟩

/-- **A node of a model whose paths go on**: where trains arrive and depart fits its type. -/
theorem fits (h : m.Refines N) (hgo : m.PathsGoOn) (ha : N.nodes n = some a) :
    a.type.Fits (slotsWith N.Arrival n) (slotsWith N.Departure n) := by
  refine ⟨fun i hi => ?_, fun j hj => ?_⟩
  · rw [Network.mem_arrivals, ← h.exists_arrives_iff ha] at hi
    obtain ⟨t, ht⟩ := hi
    rcases hgo.onward t _ i ht with ⟨htype, hflip⟩ | ⟨j, hj, hdep⟩
    · have harr := (h.ahead_iff ha).1 ⟨ht.at_node, ht.at_slot⟩
      exact Or.inl ⟨htype, Network.mem_departures.2 ⟨t.flip, h.onTrack_iff.1 hflip, harr⟩⟩
    · have hmem := Network.mem_departures.2 ((h.exists_departs_iff ha).1 hdep)
      exact Or.inr ⟨(i, j), Node.couldTraverse_iff.1 hj, rfl, hmem⟩
  · rw [Network.mem_departures, ← h.exists_departs_iff ha] at hj
    obtain ⟨t, ht⟩ := hj
    rcases hgo.reached t _ j ht with ⟨htype, hflip⟩ | ⟨i, hi, harr⟩
    · have hdep := (h.ahead_iff (t := t.flip) ha).1 ⟨ht.at_node, ht.at_slot⟩
      exact Or.inl ⟨htype, Network.mem_arrivals.2 ⟨t.flip, h.onTrack_iff.1 hflip, hdep⟩⟩
    · have hmem := Network.mem_arrivals.2 ((h.exists_arrives_iff ha).1 harr)
      exact Or.inr ⟨(i, j), Node.couldTraverse_iff.1 hi, rfl, hmem⟩

/-- A motorized switch left both ways, on the rails. -/
theorem leftBothWays_iff (h : m.Refines N) (ha : N.nodes n = some a) : m.LeftBothWays n ↔
    a.type = .MOTORIZED ∧ 1 ∈ slotsWith N.Departure n ∧ 2 ∈ slotsWith N.Departure n := by
  rw [Network.mem_departures, Network.mem_departures, ← h.exists_departs_iff ha,
    ← h.exists_departs_iff ha]
  simp [LeftBothWays, h.node_of_attrs ha, Network.toNode]

/-- A passive switch entered both ways, on the rails. -/
theorem enteredBothWays_iff (h : m.Refines N) (ha : N.nodes n = some a) : m.EnteredBothWays n ↔
    a.type = .PASSIVE ∧ 1 ∈ slotsWith N.Arrival n ∧ 2 ∈ slotsWith N.Arrival n := by
  rw [Network.mem_arrivals, Network.mem_arrivals, ← h.exists_arrives_iff ha,
    ← h.exists_arrives_iff ha]
  simp [EnteredBothWays, h.node_of_attrs ha, Network.toNode]

/-- **Over all nodes as many slots are arrived at as are departed from.** -/
theorem sum_arrivals (h : m.Refines N) : ∑ n ∈ m.m_nodes.keys, (slotsWith N.Arrival n).card
    = ∑ n ∈ m.m_nodes.keys, (slotsWith N.Departure n).card := by
  classical
  have hmem : ∀ {p}, N.HasPort p → p ∈ m.m_nodes.keys ×ˢ Finset.range MAX_SLOTS := by
    rintro p hp
    obtain ⟨a, ha, _⟩ := id hp
    have hkey : p.1 ∈ m.m_nodes := exists_node_iff.1 ⟨_, h.node_of_attrs ha⟩
    exact Finset.mem_product.2 ⟨Finmap.mem_keys.2 hkey, Finset.mem_range.2 hp.lt_maxSlots⟩
  rw [← card_slotsWith, ← card_slotsWith]
  refine Rails.card_arrivals (R := N.rails) (fun p => ?_) fun p => ?_
  · rw [Finset.mem_filter]
    exact ⟨And.right, fun harr => ⟨hmem (Network.Arrival.hasPort harr), harr⟩⟩
  · rw [Finset.mem_filter]
    exact ⟨And.right, fun hdep => ⟨hmem (Network.Departure.hasPort hdep), hdep⟩⟩

open Classical in
/-- **A node of a model whose paths go on**, counted. -/
theorem card_departures (h : m.Refines N) (hgo : m.PathsGoOn) (hkey : n ∈ m.m_nodes.keys) :
    (slotsWith N.Departure n).card + (if m.EnteredBothWays n then 1 else 0)
      = (slotsWith N.Arrival n).card + if m.LeftBothWays n then 1 else 0 := by
  obtain ⟨node, hnode⟩ := exists_node_iff.2 (Finmap.mem_keys.1 hkey)
  obtain ⟨a, ha, rfl⟩ := h.node_some hnode
  have hcard := (h.fits hgo ha).card (slotsWith_subset _ _) (slotsWith_subset _ _)
  simpa only [h.leftBothWays_iff ha, h.enteredBothWays_iff ha] using hcard

end Model.Refines

open Classical in
/-- Nodes with a property are counted over all nodes. -/
theorem Model.ncard_nodes {m : Model} {q : Identifier → Prop}
    (hq : ∀ n, q n → ∃ node, m.node n = some node) :
    {n | q n}.ncard = ∑ n ∈ m.m_nodes.keys, if q n then 1 else 0 := by
  have hset : {n | q n} = ↑(m.m_nodes.keys.filter q) := by
    ext n
    rw [Set.mem_ofPred_eq, Finset.mem_coe, Finset.mem_filter]
    exact ⟨fun h => ⟨Finmap.mem_keys.2 (exists_node_iff.1 (hq n h)), h⟩, And.right⟩
  rw [hset, Set.ncard_coe_finset, Finset.card_filter]

/-- In a correct model the motorized switches that trains come to are left both ways. -/
theorem Model.Correct.motorizedUsed_iff {m : Model} (h : m.Correct) {n : Identifier} :
    m.MotorizedUsed n ↔ m.LeftBothWays n := by
  refine exists_congr fun node => and_congr_right fun _ => and_congr_right fun htype => ?_
  have hcould := fun i j => Node.couldTraverse_motorized htype (i := i) (j := j)
  constructor
  · rintro ⟨t, i, ht⟩
    rcases h.onward t node i ht with ⟨hend, _⟩ | ⟨j, hj, _⟩
    · rw [htype] at hend
      cases hend
    · obtain rfl := ((hcould i j).1 hj).1
      exact ⟨h.divert t node 0 ht 1 ((hcould 0 1).2 ⟨rfl, Or.inl rfl⟩),
        h.divert t node 0 ht 2 ((hcould 0 2).2 ⟨rfl, Or.inr rfl⟩)⟩
  · rintro ⟨⟨t, ht⟩, _⟩
    rcases h.reached t node 1 ht with ⟨hend, _⟩ | ⟨i, _, t', ht'⟩
    · rw [htype] at hend
      cases hend
    · exact ⟨t', i, ht'⟩

/-- **Switches balance.**  In a model whose paths go on as many motorized switches are left
both ways as passive ones are entered both ways; in a correct model these are all the
motorized switches that trains come to. -/
theorem Reachable.switches_balance {m : Model} (h : Reachable m) (hgo : m.PathsGoOn) :
    {n | m.LeftBothWays n}.ncard = {n | m.EnteredBothWays n}.ncard ∧
      (m.Correct → {n | m.MotorizedUsed n}.ncard = {n | m.EnteredBothWays n}.ncard) := by
  obtain ⟨N, hN⟩ := h.refines
  have hbalance : {n | m.LeftBothWays n}.ncard = {n | m.EnteredBothWays n}.ncard := by
    have hnodes := Finset.sum_congr (rfl : m.m_nodes.keys = m.m_nodes.keys) fun n hn =>
      hN.card_departures hgo hn
    rw [Finset.sum_add_distrib, Finset.sum_add_distrib, hN.sum_arrivals,
      ← Model.ncard_nodes fun n ⟨node, hnode, _⟩ => ⟨node, hnode⟩,
      ← Model.ncard_nodes fun n ⟨node, hnode, _⟩ => ⟨node, hnode⟩] at hnodes
    omega
  refine ⟨hbalance, fun hcorrect => ?_⟩
  have hused : {n | m.MotorizedUsed n} = {n | m.LeftBothWays n} :=
    Set.ext fun _ => hcorrect.motorizedUsed_iff
  rw [hused, hbalance]

/-! ### A passing loop -/

/-- The motorized switch of the loop. -/
def loopEntry : Node :=
  { Node.new .MOTORIZED (ascii "M1") with
    m_slots := #v[ascii "S3", ascii "S1", ascii "S2", []] }

/-- The passive switch of the loop. -/
def loopExit : Node :=
  { Node.new .PASSIVE (ascii "P1") with
    m_slots := #v[ascii "S3", ascii "S1", ascii "S2", []] }

/-- Two sections side by side, and one that leads back to where they part. -/
def passingLoop : Model where
  m_nodes := (Finmap.insert (ascii "P1") loopExit ∅).insert (ascii "M1") loopEntry
  m_sections := ((Finmap.insert (ascii "S1") { Section.ofId (ascii "S1") with
      m_start := ascii "M1", m_end := ascii "P1" } ∅).insert
    (ascii "S2") { Section.ofId (ascii "S2") with
      m_start := ascii "M1", m_end := ascii "P1" }).insert
    (ascii "S3") { Section.ofId (ascii "S3") with
      m_start := ascii "P1", m_end := ascii "M1" }

/-- The calls that build it. -/
def passingLoopCalls : List Op :=
  [.addNode (.new .MOTORIZED (ascii "M1")), .addNode (.new .PASSIVE (ascii "P1")),
    .addSection (.ofId (ascii "S1")), .addSection (.ofId (ascii "S2")),
    .addSection (.ofId (ascii "S3")), .link (ascii "S1") (ascii "M1") 1 (ascii "P1") 1,
    .link (ascii "S2") (ascii "M1") 2 (ascii "P1") 2,
    .link (ascii "S3") (ascii "P1") 0 (ascii "M1") 0]

/-- Its calls all return `OK`. -/
theorem reachable_passingLoop : Reachable passingLoop := by
  have hrun : Op.runAll passingLoopCalls .empty = .ok (true, passingLoop) := by decide
  have hops : ∀ op ∈ passingLoopCalls, op.Constructed := by
    simp only [passingLoopCalls, List.forall_mem_cons]
    exact ⟨⟨_, _, {}, rfl⟩, ⟨_, _, {}, rfl⟩, ⟨_, _, _, {}, rfl⟩, ⟨_, _, _, {}, rfl⟩,
      ⟨_, _, _, {}, rfl⟩, trivial, trivial, trivial, by simp⟩
  exact .runAll hops .empty hrun

/-- Trains go round it one way. -/
theorem passingLoop_onTrack {t : Train} (h : passingLoop.OnTrack t) :
    t = ⟨ascii "S1", false⟩ ∨ t = ⟨ascii "S2", false⟩ ∨ t = ⟨ascii "S3", false⟩ := by
  obtain ⟨s, reversed⟩ := t
  obtain ⟨sec, hsec, _, htravel⟩ := h
  have hkeys : passingLoop.m_sections.keys = {ascii "S1", ascii "S2", ascii "S3"} := by decide
  have hs : s ∈ passingLoop.m_sections.keys :=
    Finmap.mem_keys.2 (Finmap.mem_of_lookup_eq_some hsec)
  rw [hkeys, Finset.mem_insert, Finset.mem_insert, Finset.mem_singleton] at hs
  rw [Section.canTraverse_eq, Asserting.pure_inj] at htravel
  have hdir : sec.isBidir = false := by
    rcases hs with rfl | rfl | rfl <;> cases hsec <;> rfl
  cases reversed
  · simpa using hs
  · simp [hdir] at htravel

/-- Trains arrive at three slots of it. -/
theorem passingLoop_arrives {t : Train} {node : Node} {i : SlotId}
    (h : passingLoop.Arrives t node i) :
    (node = loopExit ∧ (i = 1 ∨ i = 2)) ∨ (node = loopEntry ∧ i = 0) := by
  obtain ⟨hon, hnode, hslot⟩ := h
  rcases passingLoop_onTrack hon with rfl | rfl | rfl
  · obtain rfl : loopExit = node := Option.some.inj hnode
    exact Or.inl ⟨rfl, Or.inl (Except.ok.inj hslot).symm⟩
  · obtain rfl : loopExit = node := Option.some.inj hnode
    exact Or.inl ⟨rfl, Or.inr (Except.ok.inj hslot).symm⟩
  · obtain rfl : loopEntry = node := Option.some.inj hnode
    exact Or.inr ⟨rfl, (Except.ok.inj hslot).symm⟩

/-- And they depart from three. -/
theorem passingLoop_departs {t : Train} {node : Node} {j : SlotId}
    (h : passingLoop.Departs t node j) :
    (node = loopEntry ∧ (j = 1 ∨ j = 2)) ∨ (node = loopExit ∧ j = 0) := by
  obtain ⟨hon, hnode, hslot⟩ := h
  rcases passingLoop_onTrack hon with rfl | rfl | rfl
  · obtain rfl : loopEntry = node := Option.some.inj hnode
    exact Or.inl ⟨rfl, Or.inl (Except.ok.inj hslot).symm⟩
  · obtain rfl : loopEntry = node := Option.some.inj hnode
    exact Or.inl ⟨rfl, Or.inr (Except.ok.inj hslot).symm⟩
  · obtain rfl : loopExit = node := Option.some.inj hnode
    exact Or.inr ⟨rfl, (Except.ok.inj hslot).symm⟩

/-- No path through the loop ends, and none begins. -/
theorem passingLoop_correct : passingLoop.Correct := by
  have hs1 : passingLoop.OnTrack ⟨ascii "S1", false⟩ := ⟨_, rfl, rfl, rfl⟩
  have hs2 : passingLoop.OnTrack ⟨ascii "S2", false⟩ := ⟨_, rfl, rfl, rfl⟩
  have hs3 : passingLoop.OnTrack ⟨ascii "S3", false⟩ := ⟨_, rfl, rfl, rfl⟩
  refine ⟨⟨?onward, ?reached⟩, ?divert⟩
  case onward =>
    intro t node i h
    rcases passingLoop_arrives h with ⟨rfl, hi⟩ | ⟨rfl, rfl⟩
    · exact Or.inr ⟨0, (Node.couldTraverse_passive rfl).2 ⟨hi, rfl⟩, _, hs3, rfl, rfl⟩
    · exact Or.inr ⟨1, (Node.couldTraverse_motorized rfl).2 ⟨rfl, Or.inl rfl⟩, _, hs1, rfl, rfl⟩
  case reached =>
    intro t node j h
    rcases passingLoop_departs h with ⟨rfl, hj⟩ | ⟨rfl, rfl⟩
    · exact Or.inr ⟨0, (Node.couldTraverse_motorized rfl).2 ⟨rfl, hj⟩, _, hs3, rfl, rfl⟩
    · exact Or.inr ⟨1, (Node.couldTraverse_passive rfl).2 ⟨Or.inl rfl, rfl⟩, _, hs1, rfl, rfl⟩
  case divert =>
    intro t node i h j hj
    rcases passingLoop_arrives h with ⟨rfl, _⟩ | ⟨rfl, _⟩
    · obtain rfl := ((Node.couldTraverse_passive rfl).1 hj).2
      exact ⟨_, hs3, rfl, rfl⟩
    · rcases ((Node.couldTraverse_motorized rfl).1 hj).2 with rfl | rfl
      · exact ⟨_, hs1, rfl, rfl⟩
      · exact ⟨_, hs2, rfl, rfl⟩

/-- The passive switch of the loop is entered both ways, and it is the only one. -/
theorem passingLoop_enteredBothWays : {n | passingLoop.EnteredBothWays n} = {ascii "P1"} := by
  have hs1 : passingLoop.OnTrack ⟨ascii "S1", false⟩ := ⟨_, rfl, rfl, rfl⟩
  have hs2 : passingLoop.OnTrack ⟨ascii "S2", false⟩ := ⟨_, rfl, rfl, rfl⟩
  ext n
  constructor
  · rintro ⟨node, hnode, _, ⟨t, ht⟩, _⟩
    rcases passingLoop_arrives ht with ⟨rfl, _⟩ | ⟨rfl, hslot⟩
    · obtain ⟨N, hN⟩ := reachable_passingLoop.refines
      obtain ⟨a, _, hexit⟩ := hN.node_some hnode
      exact (congrArg Node.m_id hexit).symm
    · cases hslot
  · rintro rfl
    exact ⟨loopExit, rfl, rfl, ⟨_, hs1, rfl, rfl⟩, ⟨_, hs2, rfl, rfl⟩⟩

/-- The loop has one switch of each kind. -/
theorem passingLoop_switches_balance : {n | passingLoop.EnteredBothWays n}.ncard = 1 ∧
    {n | passingLoop.LeftBothWays n}.ncard = {n | passingLoop.EnteredBothWays n}.ncard ∧
    {n | passingLoop.MotorizedUsed n}.ncard = {n | passingLoop.EnteredBothWays n}.ncard := by
  obtain ⟨hleft, hused⟩ :=
    Reachable.switches_balance reachable_passingLoop passingLoop_correct.toPathsGoOn
  exact ⟨by rw [passingLoop_enteredBothWays, Set.ncard_singleton], hleft,
    hused passingLoop_correct⟩

end PiwcsPrw
