/-
# The invariants describe the reachable models exactly

The class-enforced invariants of `include/piwcsprwmodel/model.h`.

Every reachable model is consistent (`PiwcsPrw.Runs.Consistent`).  Here is the
converse: a model with these invariants, however it came about, is one the mutators
can lead to (`reachable_iff_consistent`).  So the list of invariants is complete, and
what is proved of reachable models holds of whatever satisfies them.

A consistent model says where every cable runs, so a network can be read off it
(`Model.Consistent.exists_network`).  And what a network has can be requested:
all nodes first, then all sections, then all cables (`Network.calls`).  These
requests are compatible because each stands for something of the one network
(`Network.Built.buildable`), so they are granted, and what they build is that
network again (`Model.Refines.exists_build`).
-/

import PiwcsPrw.Runs.BuildOrder
import PiwcsPrw.Runs.Consistent

namespace PiwcsPrw

/-! ### The network of a consistent model -/

namespace Model

/-- The section in a slot. -/
def plugged (m : Model) (p : Port) : Option Identifier :=
  (m.node p.1).bind fun node => if node.slotAt p.2 = ID_NULL then none else some (node.slotAt p.2)

/-- A slot has a section plugged in when it holds its ID. -/
theorem plugged_eq_some_iff {m : Model} {p : Port} {s : Identifier} :
    m.plugged p = some s ↔ s ≠ ID_NULL ∧ m.Holds p s := by
  cases hnode : m.node p.1 with
  | none => simp [plugged, Holds, hnode]
  | some node =>
      simp only [plugged, Holds, hnode, Option.bind_some, Option.some.injEq, exists_eq_left']
      split_ifs with hnull
      · simp only [false_iff, not_and]
        exact fun hs hslot => hs (hslot.symm.trans hnull)
      · rw [Option.some.injEq]
        exact ⟨fun h => ⟨h ▸ hnull, h⟩, fun h => h.2⟩

/-- The section runs from the slot `q.1` to the slot `q.2`. -/
def Joins (m : Model) (s : Identifier) (q : Port × Port) : Prop :=
  ∃ sec, m.section s = some sec ∧ sec.m_start = q.1.1 ∧ sec.m_end = q.2.1 ∧
    m.Holds q.1 s ∧ m.Holds q.2 s

/-- The network says of each entity what the model says. -/
structure ReadOff (m : Model) (N : Network) : Prop where
  nodes : ∀ n, N.nodes n = (m.node n).map Node.attrs
  sections : ∀ s, N.sections s = (m.section s).map Section.attrs
  plug : N.wiring.plug = m.plugged
  ends : ∀ s q, N.wiring.ends s = some q ↔ m.Joins s q

namespace Consistent

variable {m : Model} (h : m.Consistent)

include h

/-- What a slot holds is a section of the model, and the slot is one the node has. -/
theorem section_of_holds {p : Port} {s : Identifier} (hs : s ≠ ID_NULL) (hp : m.Holds p s) :
    (∃ sec, m.section s = some sec) ∧ ∃ node, m.node p.1 = some node ∧ p.2 < node.sectionCount := by
  obtain ⟨node, hnode, hslot⟩ := hp
  have hlt : p.2 < node.sectionCount := by
    by_contra hge
    rw [h.slot_unused hnode (not_lt.1 hge)] at hslot
    exact hs hslot.symm
  refine ⟨?_, node, hnode, hlt⟩
  rcases h.slot_known hnode hlt with hnull | hsec
  · exact absurd (hslot.symm.trans hnull) hs
  · exact hslot ▸ hsec

/-- At either end of a section one slot holds it. -/
theorem holds_unique {n : Identifier} {s : Identifier} {sec : Section} {k k' : SlotId}
    (hsec : m.section s = some sec) (hend : n = sec.m_start ∨ n = sec.m_end)
    (hk : m.Holds (n, k) s) (hk' : m.Holds (n, k') s) : k = k' := by
  obtain ⟨node, hnode, _⟩ := id hk
  exact (h.holds_once hnode hsec hend).unique hk hk'

/-- A section with a start runs somewhere. -/
theorem exists_joins {s : Identifier} {sec : Section} (hsec : m.section s = some sec)
    (hstart : sec.m_start ≠ ID_NULL) : ∃ q, m.Joins s q := by
  rcases h.ends_known hsec with ⟨hnull, _⟩ | ⟨⟨start, stop, ha, hb⟩, _⟩
  · exact absurd hnull hstart
  · obtain ⟨i, hi, _⟩ := h.holds_once ha hsec (Or.inl rfl)
    obtain ⟨j, hj, _⟩ := h.holds_once hb hsec (Or.inr rfl)
    exact ⟨((sec.m_start, i), (sec.m_end, j)), sec, hsec, rfl, rfl, hi, hj⟩

/-- A section runs one way. -/
theorem joins_unique {s : Identifier} {q q' : Port × Port} (hq : m.Joins s q)
    (hq' : m.Joins s q') : q = q' := by
  obtain ⟨sec, hsec, ha, hb, hi, hj⟩ := hq
  obtain ⟨sec', hsec', ha', hb', hi', hj'⟩ := hq'
  obtain rfl : sec = sec' := Option.some.inj (hsec.symm.trans hsec')
  obtain ⟨⟨a, i⟩, b, j⟩ := q
  obtain ⟨⟨a', i'⟩, b', j'⟩ := q'
  simp only at ha hb ha' hb' hi hj hi' hj'
  subst ha hb ha' hb'
  rw [h.holds_unique hsec (Or.inl rfl) hi hi', h.holds_unique hsec (Or.inr rfl) hj hj']

/-- The node a section starts at is not the one it ends at. -/
theorem joins_apart {s : Identifier} {q : Port × Port} (hq : m.Joins s q) : q.1.1 ≠ q.2.1 := by
  obtain ⟨sec, hsec, ha, hb, ⟨node, hnode, _⟩, _⟩ := hq
  rcases h.ends_known hsec with ⟨hnull, _⟩ | ⟨_, hapart⟩
  · exact absurd (ha ▸ hnull) (h.node_key hnode).2.1
  · rwa [ha, hb] at hapart

/-- A slot holds a section exactly when the section runs from there or to there. -/
theorem plugged_iff_joins (p : Port) (s : Identifier) :
    m.plugged p = some s ↔ ∃ q, m.Joins s q ∧ (p = q.1 ∨ p = q.2) := by
  rw [plugged_eq_some_iff]
  constructor
  · rintro ⟨hs, hp⟩
    obtain ⟨⟨sec, hsec⟩, node, hnode, _⟩ := h.section_of_holds hs hp
    have hend := (h.holds_iff hnode hsec).1 ⟨p.2, hp⟩
    have hstart : sec.m_start ≠ ID_NULL := by
      intro hnull
      rcases h.ends_known hsec with ⟨_, hnull'⟩ | ⟨⟨start, _, ha, _⟩, _⟩
      · -- A section without ends has no node at them.
        rw [hnull, hnull', or_self] at hend
        exact (h.node_key hnode).2.1 hend
      · exact (h.node_key ha).2.1 hnull
    obtain ⟨q, hq⟩ := h.exists_joins hsec hstart
    refine ⟨q, hq, ?_⟩
    obtain ⟨sec', hsec', ha, hb, hi, hj⟩ := hq
    obtain rfl : sec = sec' := Option.some.inj (hsec.symm.trans hsec')
    rcases hend with ha' | hb'
    · have hpq : p.1 = q.1.1 := ha'.trans ha
      exact Or.inl (Prod.ext hpq (h.holds_unique hsec (Or.inl ha') hp (hpq ▸ hi)))
    · have hpq : p.1 = q.2.1 := hb'.trans hb
      exact Or.inr (Prod.ext hpq (h.holds_unique hsec (Or.inr hb') hp (hpq ▸ hj)))
  · rintro ⟨q, ⟨sec, hsec, _, _, hi, hj⟩, hp⟩
    refine ⟨(h.section_key hsec).2.1, ?_⟩
    rcases hp with rfl | rfl
    · exact hi
    · exact hj

/-- A network can be read off a consistent model. -/
theorem exists_readOff : ∃ N, m.ReadOff N := by
  have hwiring : ∃ w : Wiring Port Identifier, w.plug = m.plugged ∧
      ∀ s q, w.ends s = some q ↔ m.Joins s q :=
    Wiring.exists_of_joins h.joins_unique h.plugged_iff_joins
      fun hq he => h.joins_apart hq (congrArg Prod.fst he)
  obtain ⟨w, hplug, hends⟩ := hwiring
  let N : Network :=
    { nodes := fun n => (m.node n).map Node.attrs
      sections := fun s => (m.section s).map Section.attrs
      wiring := w
      isId_node := fun {n a} hn => by
        obtain ⟨node, hnode, _⟩ := Option.map_eq_some_iff.1 hn
        exact isId_iff.2 (h.node_key hnode).2
      isId_section := fun {s c} hs => by
        obtain ⟨sec, hsec, _⟩ := Option.map_eq_some_iff.1 hs
        exact isId_iff.2 (h.section_key hsec).2
      address_unique := fun {s t a b x} hs ht ha hb => by
        obtain ⟨sec, hsec, rfl⟩ := Option.map_eq_some_iff.1 hs
        obtain ⟨other, hother, rfl⟩ := Option.map_eq_some_iff.1 ht
        exact h.address_unique hsec hother ha hb
      port_exists := fun {p s} hp => by
        rw [hplug, plugged_eq_some_iff] at hp
        obtain ⟨_, node, hnode, hlt⟩ := h.section_of_holds hp.1 hp.2
        exact ⟨node.attrs, by rw [hnode]; rfl, hlt⟩
      cable_exists := fun {s q} hq => by
        obtain ⟨sec, hsec, _⟩ := (hends s q).1 hq
        exact ⟨sec.attrs, by rw [hsec]; rfl⟩
      ends_apart := fun {s q} hq => h.joins_apart ((hends s q).1 hq) }
  exact ⟨N, fun _ => rfl, fun _ => rfl, hplug, hends⟩

/-- Each node is the one the network has. -/
theorem node_eq_toNode {N : Network} (hN : m.ReadOff N) {n : Identifier} {node : Node}
    (hnode : m.node n = some node) : node = N.toNode n node.attrs := by
  refine Node.ext_slotAt rfl (h.node_key hnode).1.symm rfl fun k _ => ?_
  rw [N.slotAt_toNode, hN.plug, plugged, hnode, Option.bind_some]
  split_ifs with hnull
  · exact hnull
  · rfl

/-- Each section is the one the network has. -/
theorem section_eq_toSection {N : Network} (hN : m.ReadOff N) {s : Identifier} {sec : Section}
    (hsec : m.section s = some sec) : sec = N.toSection s sec.attrs := by
  have hends : sec.m_start = (N.wiring.ends s).elim ID_NULL (fun q => q.1.1) ∧
      sec.m_end = (N.wiring.ends s).elim ID_NULL fun q => q.2.1 := by
    cases hq : N.wiring.ends s with
    | none =>
        rcases h.ends_known hsec with hnull | ⟨⟨start, _, ha, _⟩, _⟩
        · exact hnull
        · obtain ⟨q, hq'⟩ := h.exists_joins hsec (h.node_key ha).2.1
          rw [(hN.ends s q).2 hq'] at hq
          cases hq
    | some q =>
        obtain ⟨sec', hsec', ha, hb, _⟩ := (hN.ends s q).1 hq
        obtain rfl : sec = sec' := Option.some.inj (hsec.symm.trans hsec')
        exact ⟨ha, hb⟩
  exact Section.ext rfl (h.section_key hsec).1.symm hends.1 hends.2 rfl rfl

/-- **A consistent model describes a network.** -/
theorem exists_network : ∃ N, m.Refines N := by
  obtain ⟨N, hN⟩ := h.exists_readOff
  refine ⟨N, fun n => ?_, fun s => ?_⟩
  · rw [hN.nodes]
    cases hnode : m.node n with
    | none => rfl
    | some node => exact congrArg some (h.node_eq_toNode hN hnode)
  · rw [hN.sections]
    cases hsec : m.section s with
    | none => rfl
    | some sec => exact congrArg some (h.section_eq_toSection hN hsec)

end Consistent

end Model

/-! ### The calls that build a network -/

namespace Network

section Compatible

variable {N : Network} {ops : List Op} (h : N.Built ops)

include h

/-- Of one node there is one request. -/
theorem Built.addNode_unique {node other : Node} (hx : .addNode node ∈ ops)
    (hy : .addNode other ∈ ops) (hbx : (Op.addNode node).Builds) (hby : (Op.addNode other).Builds)
    (hid : node.m_id = other.m_id) : node = other := by
  have hnode := h.nodes_iff.2 ⟨node, hx, rfl, rfl⟩
  have hother := h.nodes_iff.2 ⟨other, hy, rfl, rfl⟩
  obtain ⟨type, id, data, rfl⟩ := hbx
  obtain ⟨type', id', data', rfl⟩ := hby
  obtain rfl : id = id' := hid
  have heq := Option.some.inj (hnode.symm.trans hother)
  simp only [Node.new, NodeAttrs.mk.injEq] at heq
  obtain ⟨rfl, rfl⟩ := heq
  rfl

/-- Of one section there is one request. -/
theorem Built.addSection_unique {sec other : Section} (hx : .addSection sec ∈ ops)
    (hy : .addSection other ∈ ops) (hbx : (Op.addSection sec).Builds)
    (hby : (Op.addSection other).Builds) (hid : sec.m_id = other.m_id) : sec = other := by
  have hsec := h.sections_iff.2 ⟨sec, hx, rfl, rfl⟩
  have hother := h.sections_iff.2 ⟨other, hy, rfl, rfl⟩
  obtain ⟨id, dir, dest, data, rfl⟩ := hbx
  obtain ⟨id', dir', dest', data', rfl⟩ := hby
  obtain rfl : id = id' := hid
  have heq := Option.some.inj (hsec.symm.trans hother)
  simp only [Section.new, SectionAttrs.mk.injEq] at heq
  obtain ⟨rfl, rfl, rfl⟩ := heq
  rfl

omit h in
/-- Two sections share no port. -/
theorem ports_apart {s t : Identifier} {q r : Port × Port} (hs : N.wiring.ends s = some q)
    (ht : N.wiring.ends t = some r) (hst : s ≠ t) :
    q.1 ≠ r.1 ∧ q.1 ≠ r.2 ∧ q.2 ≠ r.1 ∧ q.2 ≠ r.2 := by
  have hport : ∀ {p p' : Port}, N.wiring.plug p = some s → N.wiring.plug p' = some t →
      p ≠ p' := by
    rintro p p' hp hp' rfl
    exact hst (Option.some.inj (hp.symm.trans hp'))
  exact ⟨hport (Wiring.plug_fst hs) (Wiring.plug_fst ht),
    hport (Wiring.plug_fst hs) (Wiring.plug_snd ht),
    hport (Wiring.plug_snd hs) (Wiring.plug_fst ht),
    hport (Wiring.plug_snd hs) (Wiring.plug_snd ht)⟩

/-- The requests of one network are compatible: where two claim the same, they are
the same. -/
theorem Built.compatible (hops : ∀ op ∈ ops, op.Builds) {x y : Op} (hx : x ∈ ops) (hy : y ∈ ops)
    (hne : x ≠ y) : x.Compatible y := by
  have hbx := hops x hx
  have hby := hops y hy
  cases x with
  | addNode node =>
      cases y with
      | addNode other => exact fun hid => hne (congrArg _ (h.addNode_unique hx hy hbx hby hid))
      | addSection | link => trivial
      | removeNode | removeSection | unlink | nodeMetadata | sectionMetadata => exact hby.elim
  | addSection sec =>
      cases y with
      | addSection other =>
          have hid : sec.m_id ≠ other.m_id := fun hid =>
            hne (congrArg _ (h.addSection_unique hx hy hbx hby hid))
          have hsec := h.sections_iff.2 ⟨sec, hx, rfl, rfl⟩
          have hother := h.sections_iff.2 ⟨other, hy, rfl, rfl⟩
          exact ⟨hid, fun adr hadr hadr' => hid (N.address_unique hsec hother hadr hadr')⟩
      | addNode | link => trivial
      | removeNode | removeSection | unlink | nodeMetadata | sectionMetadata => exact hby.elim
  | link s a i b j =>
      cases y with
      | link t c k d l =>
          have hs := h.ends_iff.2 hx
          have ht := h.ends_iff.2 hy
          have hst : s ≠ t := by
            rintro rfl
            have heq := Option.some.inj (hs.symm.trans ht)
            simp only [Prod.mk.injEq] at heq
            obtain ⟨⟨rfl, rfl⟩, rfl, rfl⟩ := heq
            exact hne rfl
          exact ⟨hst, ports_apart hs ht hst⟩
      | addNode | addSection => trivial
      | removeNode | removeSection | unlink | nodeMetadata | sectionMetadata => exact hby.elim
  | removeNode | removeSection | unlink | nodeMetadata | sectionMetadata => exact hbx.elim

end Compatible

/-- **What a network has can be requested together.** -/
theorem Built.buildable {N : Network} {ops : List Op} (h : N.Built ops)
    (hops : ∀ op ∈ ops, op.Builds) (hnodup : ops.Nodup) : Buildable ops where
  admissible op hop := by
    cases op with
    | addNode node => exact N.isId_node (h.nodes_iff.2 ⟨node, hop, rfl, rfl⟩)
    | addSection sec => exact N.isId_section (h.sections_iff.2 ⟨sec, hop, rfl, rfl⟩)
    | link s a i b j =>
        have hq := h.ends_iff.2 hop
        obtain ⟨hfst, hsnd⟩ := N.hasPort_of_ends hq
        exact ⟨h.known_iff.1 (N.cable_exists hq), h.hasPort_iff.1 hfst, h.hasPort_iff.1 hsnd,
          N.ends_apart hq⟩
    | removeNode | removeSection | unlink | nodeMetadata | sectionMetadata =>
        exact (hops _ hop).elim
  compatible := hnodup.pairwise_of_forall_ne fun _ hx _ hy hne => h.compatible hops hx hy hne

/-- The request for a node of the network. -/
def nodeCall (N : Network) (n : Identifier) : Option Op :=
  (N.nodes n).map fun a => .addNode { Node.new a.type n with toHasMetadata := a.data }

/-- The request for a section of the network. -/
def sectionCall (N : Network) (s : Identifier) : Option Op :=
  (N.sections s).map fun c => .addSection { Section.new s c.dir c.dest with toHasMetadata := c.data }

/-- The request for a cable of the network. -/
def linkCall (N : Network) (s : Identifier) : Option Op :=
  (N.wiring.ends s).map fun q => .link s q.1.1 q.1.2 q.2.1 q.2.2

/-- The requests for the listed nodes, then for the listed sections, then for their
cables. -/
def calls (N : Network) (ns ss : List Identifier) : List Op :=
  ns.filterMap N.nodeCall ++ (ss.filterMap N.sectionCall ++ ss.filterMap N.linkCall)

section Calls

variable {N : Network} {ns ss : List Identifier}

/-- What is requested for a node. -/
theorem nodeCall_eq_some_iff {n : Identifier} {op : Op} : N.nodeCall n = some op ↔
    ∃ a, N.nodes n = some a ∧ op = .addNode { Node.new a.type n with toHasMetadata := a.data } := by
  rw [nodeCall, Option.map_eq_some_iff]
  simp only [eq_comm]

/-- What is requested for a section. -/
theorem sectionCall_eq_some_iff {s : Identifier} {op : Op} : N.sectionCall s = some op ↔
    ∃ c, N.sections s = some c ∧
      op = .addSection { Section.new s c.dir c.dest with toHasMetadata := c.data } := by
  rw [sectionCall, Option.map_eq_some_iff]
  simp only [eq_comm]

/-- What is requested for a cable. -/
theorem linkCall_eq_some_iff {s : Identifier} {op : Op} : N.linkCall s = some op ↔
    ∃ q, N.wiring.ends s = some q ∧ op = .link s q.1.1 q.1.2 q.2.1 q.2.2 := by
  rw [linkCall, Option.map_eq_some_iff]
  simp only [eq_comm]

/-- What is requested for the listed nodes and sections. -/
theorem mem_calls {op : Op} : op ∈ N.calls ns ss ↔
    (∃ n ∈ ns, N.nodeCall n = some op) ∨ (∃ s ∈ ss, N.sectionCall s = some op) ∨
      ∃ s ∈ ss, N.linkCall s = some op := by
  simp only [calls, List.mem_append, List.mem_filterMap]

/-- The requests are additions of constructed values, and links. -/
theorem builds_calls : ∀ op ∈ N.calls ns ss, op.Builds := by
  intro op hop
  rcases mem_calls.1 hop with ⟨n, _, hn⟩ | ⟨s, _, hs⟩ | ⟨s, _, hs⟩
  · obtain ⟨a, _, rfl⟩ := nodeCall_eq_some_iff.1 hn
    exact ⟨_, _, _, rfl⟩
  · obtain ⟨c, _, rfl⟩ := sectionCall_eq_some_iff.1 hs
    exact ⟨_, _, _, _, rfl⟩
  · obtain ⟨q, _, rfl⟩ := linkCall_eq_some_iff.1 hs
    trivial

/-- No link comes before an addition it needs. -/
theorem pairwise_calls : (N.calls ns ss).Pairwise fun x y => ¬ x.Needs y := by
  have hnode : ∀ x ∈ ns.filterMap N.nodeCall, ∀ y, ¬ x.Needs y := by
    intro x hx y
    obtain ⟨n, _, hn⟩ := List.mem_filterMap.1 hx
    obtain ⟨a, _, rfl⟩ := nodeCall_eq_some_iff.1 hn
    exact id
  have hsection : ∀ x ∈ ss.filterMap N.sectionCall, ∀ y, ¬ x.Needs y := by
    intro x hx y
    obtain ⟨s, _, hs⟩ := List.mem_filterMap.1 hx
    obtain ⟨c, _, rfl⟩ := sectionCall_eq_some_iff.1 hs
    exact id
  have hlink : ∀ x ∈ ss.filterMap N.linkCall, ∀ y ∈ ss.filterMap N.linkCall, ¬ x.Needs y := by
    intro x hx y hy
    obtain ⟨s, _, hs⟩ := List.mem_filterMap.1 hx
    obtain ⟨t, _, ht⟩ := List.mem_filterMap.1 hy
    obtain ⟨_, _, rfl⟩ := linkCall_eq_some_iff.1 hs
    obtain ⟨_, _, rfl⟩ := linkCall_eq_some_iff.1 ht
    exact id
  refine List.pairwise_append.2 ⟨?_, List.pairwise_append.2 ⟨?_, ?_, ?_⟩, ?_⟩
  · exact List.pairwise_of_forall_mem_list fun x hx y _ => hnode x hx y
  · exact List.pairwise_of_forall_mem_list fun x hx y _ => hsection x hx y
  · exact List.pairwise_of_forall_mem_list hlink
  · exact fun x hx y _ => hsection x hx y
  · exact fun x hx y _ => hnode x hx y

/-- No request is made twice. -/
theorem nodup_calls (hns : ns.Nodup) (hss : ss.Nodup) : (N.calls ns ss).Nodup := by
  have hnode : ∀ {x op}, N.nodeCall x = some op → ∃ node, op = .addNode node ∧ node.m_id = x := by
    intro x op hx
    obtain ⟨a, _, rfl⟩ := nodeCall_eq_some_iff.1 hx
    exact ⟨_, rfl, rfl⟩
  have hsection : ∀ {x op}, N.sectionCall x = some op →
      ∃ sec, op = .addSection sec ∧ sec.m_id = x := by
    intro x op hx
    obtain ⟨c, _, rfl⟩ := sectionCall_eq_some_iff.1 hx
    exact ⟨_, rfl, rfl⟩
  have hlink : ∀ {x op}, N.linkCall x = some op → ∃ a i b j, op = .link x a i b j := by
    intro x op hx
    obtain ⟨q, _, rfl⟩ := linkCall_eq_some_iff.1 hx
    exact ⟨_, _, _, _, rfl⟩
  refine List.Nodup.append (hns.filterMap ?_) (List.Nodup.append (hss.filterMap ?_)
    (hss.filterMap ?_) ?_) ?_
  · intro x y op hx hy
    obtain ⟨_, rfl, rfl⟩ := hnode hx
    obtain ⟨_, he, rfl⟩ := hnode hy
    rw [Op.addNode.inj he]
  · intro x y op hx hy
    obtain ⟨_, rfl, rfl⟩ := hsection hx
    obtain ⟨_, he, rfl⟩ := hsection hy
    rw [Op.addSection.inj he]
  · intro x y op hx hy
    obtain ⟨_, _, _, _, rfl⟩ := hlink hx
    obtain ⟨_, _, _, _, he⟩ := hlink hy
    exact (Op.link.inj he).1
  · intro op hop hop'
    obtain ⟨x, _, hx⟩ := List.mem_filterMap.1 hop
    obtain ⟨y, _, hy⟩ := List.mem_filterMap.1 hop'
    obtain ⟨_, rfl, _⟩ := hsection hx
    obtain ⟨_, _, _, _, he⟩ := hlink hy
    cases he
  · intro op hop hop'
    obtain ⟨x, _, hx⟩ := List.mem_filterMap.1 hop
    obtain ⟨_, rfl, _⟩ := hnode hx
    rcases List.mem_append.1 hop' with hop' | hop'
    · obtain ⟨y, _, hy⟩ := List.mem_filterMap.1 hop'
      obtain ⟨_, he, _⟩ := hsection hy
      cases he
    · obtain ⟨y, _, hy⟩ := List.mem_filterMap.1 hop'
      obtain ⟨_, _, _, _, he⟩ := hlink hy
      cases he

/-- The requests for all nodes and sections stand for the whole network. -/
theorem built_calls (hns : ∀ n a, N.nodes n = some a → n ∈ ns)
    (hss : ∀ s c, N.sections s = some c → s ∈ ss) : N.Built (N.calls ns ss) where
  nodes_iff {n a} := by
    simp only [mem_calls, nodeCall_eq_some_iff, sectionCall_eq_some_iff, linkCall_eq_some_iff,
      reduceCtorEq, and_false, exists_false, or_false, Op.addNode.injEq]
    constructor
    · exact fun ha => ⟨_, ⟨n, hns n a ha, a, ha, rfl⟩, rfl, rfl⟩
    · rintro ⟨_, ⟨n', _, a', ha', rfl⟩, rfl, rfl⟩
      exact ha'
  sections_iff {s c} := by
    simp only [mem_calls, nodeCall_eq_some_iff, sectionCall_eq_some_iff, linkCall_eq_some_iff,
      reduceCtorEq, and_false, exists_false, or_false, false_or, Op.addSection.injEq]
    constructor
    · exact fun hc => ⟨_, ⟨s, hss s c hc, c, hc, rfl⟩, rfl, rfl⟩
    · rintro ⟨_, ⟨s', _, c', hc', rfl⟩, rfl, rfl⟩
      exact hc'
  ends_iff {s a i b j} := by
    simp only [mem_calls, nodeCall_eq_some_iff, sectionCall_eq_some_iff, linkCall_eq_some_iff,
      reduceCtorEq, and_false, exists_false, false_or, Op.link.injEq]
    constructor
    · intro hq
      obtain ⟨c, hc⟩ := N.cable_exists hq
      exact ⟨s, hss s c hc, _, hq, rfl, rfl, rfl, rfl, rfl⟩
    · rintro ⟨_, _, ⟨⟨a', i'⟩, b', j'⟩, hq, rfl, rfl, rfl, rfl, rfl⟩
      exact hq

end Calls

end Network

/-- **A model of a network is built by additions and links**, all of which return
`OK`. -/
theorem Model.Refines.exists_build {m : Model} {N : Network} (h : m.Refines N) :
    ∃ ops, (∀ op ∈ ops, op.Builds) ∧ Op.runAll ops .empty = .ok (true, m) := by
  have hns : ∀ n a, N.nodes n = some a → n ∈ m.m_nodes.keys.toList := fun n a ha => by
    rw [Finset.mem_toList, Finmap.mem_keys, ← Model.exists_node_iff]
    exact ⟨_, h.node_of_attrs ha⟩
  have hss : ∀ s c, N.sections s = some c → s ∈ m.m_sections.keys.toList := fun s c hc => by
    rw [Finset.mem_toList, Finmap.mem_keys, ← Model.exists_section_iff]
    exact ⟨_, h.section_of_attrs hc⟩
  let ops := N.calls m.m_nodes.keys.toList m.m_sections.keys.toList
  have hbuilt : N.Built ops := Network.built_calls hns hss
  have hops : ∀ op ∈ ops, op.Builds := Network.builds_calls
  have hbuildable : Buildable ops :=
    hbuilt.buildable hops (Network.nodup_calls (Finset.nodup_toList _) (Finset.nodup_toList _))
  obtain ⟨N', hruns⟩ := Network.exists_runs hops Network.pairwise_calls hbuildable
  obtain rfl : N' = N := (hruns.built hops).1.unique hbuilt fun _ => Iff.rfl
  obtain ⟨oks, m', hrun, hoks, hm'⟩ := Model.Refines.empty.runAll fun op hop =>
    (hops op hop).constructed.wellFormed
  refine ⟨ops, hops, ?_⟩
  rw [hrun, hoks.2 ⟨N', hruns⟩, (hm' N' hruns).unique h]

/-- A model of a network is reachable. -/
theorem Model.Refines.reachable {m : Model} {N : Network} (h : m.Refines N) : Reachable m := by
  obtain ⟨ops, hops, hrun⟩ := h.exists_build
  exact Reachable.runAll (fun op hop => (hops op hop).constructed) .empty hrun

/-- A model is reachable exactly when it is consistent. -/
theorem consistent_iff_reachable {m : Model} : m.Consistent ↔ Reachable m := by
  constructor
  · intro h
    obtain ⟨N, hN⟩ := h.exists_network
    exact hN.reachable
  · intro h
    obtain ⟨N, hN⟩ := h.refines
    exact hN.consistent

/-- A reachable model is built from nothing by additions and links. -/
theorem Reachable.exists_build {m : Model} (h : Reachable m) :
    ∃ ops, (∀ op ∈ ops, op.Builds) ∧ Op.runAll ops .empty = .ok (true, m) := by
  obtain ⟨N, hN⟩ := h.refines
  exact hN.exists_build

/-- **The invariants describe the reachable models exactly**, and these are the models
that additions and links build from nothing without a refusal. -/
theorem reachable_iff_consistent (m : Model) : (Reachable m ↔ m.Consistent) ∧
    (Reachable m ↔ ∃ ops, (∀ op ∈ ops, op.Builds) ∧ Op.runAll ops .empty = .ok (true, m)) := by
  refine ⟨consistent_iff_reachable.symm, fun h => h.exists_build, ?_⟩
  rintro ⟨ops, hops, hrun⟩
  exact Reachable.runAll (fun op hop => (hops op hop).constructed) .empty hrun

end PiwcsPrw
