/-
# `link` and `unlink` simulate a cable

`Model::link` and `Model::unlink` in `src/model.cpp`.

A change of one cable shows in two nodes and one section of the model
(`toNode_link`, `toSection_link` and their counterparts for `unlink`), and these
are the entries the two mutators write.  `link` succeeds exactly when the network
allows the cable (`canLink_iff`).

`HasCable` is a cable as the model stores it, in the words of the model alone:
the section, its two nodes, and the slot that holds it on each.  A search of either
node for the section ends at that slot, so `unlink`, which succeeds exactly on a
connected section, clears the two slots the cable sits in (`HasCable.unlink`).
-/

import PiwcsPrw.Network.Simulation

namespace PiwcsPrw

namespace Network

variable {N N' : Network} {s x : Identifier} {q : Port × Port}

/-- Where two networks differ in two ports on different nodes, their models
differ in one slot of each of these nodes. -/
theorem toNode_of_two_ports (hapart : q.1.1 ≠ q.2.1) (hi : q.1.2 < MAX_SLOTS)
    (hj : q.2.2 < MAX_SLOTS)
    (hplug : ∀ p, (N'.wiring.plug p).getD ID_NULL =
      if p = q.1 ∨ p = q.2 then x else (N.wiring.plug p).getD ID_NULL)
    (id : Identifier) (a : NodeAttrs) :
    N'.toNode id a =
      if id = q.1.1 then (N.toNode id a).put q.1.2 x
      else if id = q.2.1 then (N.toNode id a).put q.2.2 x
      else N.toNode id a := by
  have hslot : ∀ k, (N'.toNode id a).slotAt k =
      if (id, k) = q.1 ∨ (id, k) = q.2 then x else (N.toNode id a).slotAt k := fun k => by
    rw [slotAt_toNode, slotAt_toNode, hplug]
  split_ifs with h₁ h₂
  · refine Node.ext_slotAt rfl rfl rfl fun k _ => ?_
    rw [hslot, Node.slotAt_put _ hi]
    simp [Prod.ext_iff, h₁, hapart]
  · refine Node.ext_slotAt rfl rfl rfl fun k _ => ?_
    rw [hslot, Node.slotAt_put _ hj]
    simp [Prod.ext_iff, h₂, hapart.symm]
  · refine Node.ext_slotAt rfl rfl rfl fun k _ => ?_
    rw [hslot]
    simp [Prod.ext_iff, h₁, h₂]

/-- A new cable writes one slot of each of its nodes. -/
theorem toNode_link (h : N.CanLink s q) (id : Identifier) (a : NodeAttrs) :
    (N.link s q h).toNode id a =
      if id = q.1.1 then (N.toNode id a).put q.1.2 s
      else if id = q.2.1 then (N.toNode id a).put q.2.2 s
      else N.toNode id a := by
  refine toNode_of_two_ports h.apart h.fst.lt_maxSlots h.snd.lt_maxSlots (fun p => ?_) id a
  rw [link_plug]
  split_ifs <;> rfl

/-- A new cable writes both ends of its section. -/
theorem toSection_link (h : N.CanLink s q) (id : Identifier) (a : SectionAttrs) :
    (N.link s q h).toSection id a =
      if id = s then { N.toSection id a with m_start := q.1.1, m_end := q.2.1 }
      else N.toSection id a := by
  unfold toSection
  rw [link_ends]
  split_ifs with hs <;> simp [hs]

/-- Pulling a cable out empties one slot of each of its nodes. -/
theorem toNode_unlink (h : N.wiring.ends s = some q) (id : Identifier) (a : NodeAttrs) :
    (N.unlink s).toNode id a =
      if id = q.1.1 then (N.toNode id a).put q.1.2 ID_NULL
      else if id = q.2.1 then (N.toNode id a).put q.2.2 ID_NULL
      else N.toNode id a := by
  obtain ⟨hfst, hsnd⟩ := N.hasPort_of_ends h
  refine toNode_of_two_ports (N.ends_apart h) hfst.lt_maxSlots hsnd.lt_maxSlots (fun p => ?_) id a
  rw [unlink_plug]
  simp only [Wiring.plug_eq_some_iff h]
  split_ifs <;> rfl

/-- Pulling a cable out clears both ends of its section. -/
theorem toSection_unlink (N : Network) (s id : Identifier) (a : SectionAttrs) :
    (N.unlink s).toSection id a =
      if id = s then { N.toSection id a with m_start := ID_NULL, m_end := ID_NULL }
      else N.toSection id a := by
  unfold toSection
  rw [unlink_ends]
  split_ifs with hs <;> simp [hs]

/-- The start of a section of the model is `ID_NULL` exactly when the section is
not connected. -/
theorem toSection_start_eq_null_iff (N : Network) {id : Identifier} {a : SectionAttrs} :
    (N.toSection id a).m_start = ID_NULL ↔ N.wiring.ends id = none := by
  have h := N.isConnected_toSection id a
  rw [Section.isConnected] at h
  rw [← bne_eq_false_iff_eq, h, Option.isSome_eq_false_iff, Option.isNone_iff_eq_none]

end Network

namespace Model.Refines

variable {m : Model} {N : Network} {s a b : Identifier} {i j : SlotId}

/-- **`link` is allowed in the model exactly when it is in the network.** -/
theorem canLink_iff (h : m.Refines N) :
    (∃ sec start stop, m.CanLink s a i b j sec start stop) ↔ N.CanLink s ((a, i), (b, j)) := by
  constructor
  · rintro ⟨sec, start, stop, hsec, hstart, hstop, hab, hi, hj, hfi, hfj, hfree⟩
    obtain ⟨c, hc, rfl⟩ := h.section_some hsec
    obtain ⟨na, hna, rfl⟩ := h.node_some hstart
    obtain ⟨nb, hnb, rfl⟩ := h.node_some hstop
    exact ⟨⟨c, hc⟩, ⟨na, hna, hi⟩, ⟨nb, hnb, hj⟩, hab, N.slotAt_toNode_eq_null_iff.1 hfi,
      N.slotAt_toNode_eq_null_iff.1 hfj, N.toSection_start_eq_null_iff.1 hfree⟩
  · rintro ⟨⟨c, hc⟩, ⟨na, hna, hi⟩, ⟨nb, hnb, hj⟩, hab, hfi, hfj, hfree⟩
    exact ⟨N.toSection s c, N.toNode a na, N.toNode b nb, h.section_of_attrs hc,
      h.node_of_attrs hna, h.node_of_attrs hnb, hab, hi, hj, N.slotAt_toNode_eq_null_iff.2 hfi,
      N.slotAt_toNode_eq_null_iff.2 hfj, N.toSection_start_eq_null_iff.2 hfree⟩

/-- Writing one slot of each of two nodes and both ends of one section leads to a
network that differs in just these. -/
theorem write_cable (h : m.Refines N) {N' : Network} {q : Port × Port} {x y z : Identifier}
    (hnodes : N'.nodes = N.nodes) (hsections : N'.sections = N.sections)
    (hnode : ∀ id a, N'.toNode id a =
      if id = q.1.1 then (N.toNode id a).put q.1.2 x
      else if id = q.2.1 then (N.toNode id a).put q.2.2 x
      else N.toNode id a)
    (hsection : ∀ id a, N'.toSection id a =
      if id = s then { N.toSection id a with m_start := y, m_end := z } else N.toSection id a)
    (hapart : q.1.1 ≠ q.2.1) {c : SectionAttrs} {na nb : NodeAttrs} (hc : N.sections s = some c)
    (hna : N.nodes q.1.1 = some na) (hnb : N.nodes q.2.1 = some nb) :
    Model.Refines
      ⟨(m.m_nodes.insert q.1.1 ((N.toNode q.1.1 na).put q.1.2 x)).insert q.2.1
          ((N.toNode q.2.1 nb).put q.2.2 x),
        m.m_sections.insert s { N.toSection s c with m_start := y, m_end := z }⟩ N' := by
  constructor
  · intro id
    change ((m.m_nodes.insert q.1.1 _).insert q.2.1 _).lookup id = _
    rw [Finmap.lookup_insert_eq, Finmap.lookup_insert_eq, hnodes]
    rcases eq_or_ne id q.1.1 with rfl | hida
    · simp [hnode, hna, hapart]
    · rcases eq_or_ne id q.2.1 with rfl | hidb
      · simp [hnode, hnb, hida]
      · have hkeep : N'.toNode id = N.toNode id :=
          funext fun c => by rw [hnode, if_neg hida, if_neg hidb]
        rw [if_neg hidb, if_neg hida, hkeep]
        exact h.node id
  · intro id
    change (m.m_sections.insert s _).lookup id = _
    rw [Finmap.lookup_insert_eq, hsections]
    rcases eq_or_ne id s with rfl | hs
    · simp [hsection, hc]
    · have hkeep : N'.toSection id = N.toSection id :=
        funext fun c => by rw [hsection, if_neg hs]
      rw [if_neg hs, hkeep]
      exact h.section id

/-- The model `link` leaves behind refines the network with the new cable. -/
theorem linked (h : m.Refines N) {sec : Section} {start stop : Node}
    (hcan : m.CanLink s a i b j sec start stop) :
    (m.linked s a i b j sec start stop).Refines
      (N.link s ((a, i), (b, j)) (h.canLink_iff.1 ⟨sec, start, stop, hcan⟩)) := by
  obtain ⟨c, hc, rfl⟩ := h.section_some hcan.has_section
  obtain ⟨na, hna, rfl⟩ := h.node_some hcan.has_start
  obtain ⟨nb, hnb, rfl⟩ := h.node_some hcan.has_stop
  have hcable := h.canLink_iff.1 ⟨_, _, _, hcan⟩
  exact h.write_cable (N.link_nodes s _ hcable) (N.link_sections s _ hcable)
    (Network.toNode_link hcable) (Network.toSection_link hcable) hcan.apart hc hna hnb

/-- **`link` on a network that allows the cable.** -/
theorem link (h : m.Refines N) (hcan : N.CanLink s ((a, i), (b, j))) :
    ∃ m', m.link s a i b j = .ok (.OK, m') ∧ m'.Refines (N.link s ((a, i), (b, j)) hcan) := by
  obtain ⟨sec, start, stop, hm⟩ := h.canLink_iff.2 hcan
  exact ⟨_, link_ok hm, h.linked hm⟩

/-- `link` on a network that does not allow the cable. -/
theorem link_refused (h : m.Refines N) (hcan : ¬ N.CanLink s ((a, i), (b, j))) :
    ∃ r, r ≠ .OK ∧ m.link s a i b j = .ok (r, m) :=
  link_not_ok fun sec start stop hm => hcan (h.canLink_iff.1 ⟨sec, start, stop, hm⟩)

end Model.Refines

/-! ### A cable as the model stores it -/

/-- The section `s` of the model is connected from `q.1` to `q.2`: its ends name
two nodes, and each of these holds it in that slot and in no other. -/
structure Model.HasCable (m : Model) (s : IdRef) (q : Port × Port) (sec : Section)
    (start stop : Node) : Prop where
  has_section : m.section s = some sec
  id : sec.m_id = s
  start_eq : sec.m_start = q.1.1
  end_eq : sec.m_end = q.2.1
  has_start : m.node q.1.1 = some start
  has_stop : m.node q.2.1 = some stop
  start_ne_null : q.1.1 ≠ ID_NULL
  end_ne_null : q.2.1 ≠ ID_NULL
  apart : q.1.1 ≠ q.2.1
  start_lt : q.1.2 < start.sectionCount
  stop_lt : q.2.2 < stop.sectionCount
  start_slot : ∀ k, start.slotAt k = s ↔ k = q.1.2
  stop_slot : ∀ k, stop.slotAt k = s ↔ k = q.2.2

namespace Model.HasCable

variable {m : Model} {s : IdRef} {q : Port × Port} {sec : Section} {start stop : Node}
  (h : m.HasCable s q sec start stop)

include h

/-- The slot at the start lies in the array. -/
theorem start_lt_max : q.1.2 < MAX_SLOTS := Node.lt_maxSlots h.start_lt

/-- The slot at the end lies in the array. -/
theorem stop_lt_max : q.2.2 < MAX_SLOTS := Node.lt_maxSlots h.stop_lt

/-- The section is connected. -/
theorem isConnected : sec.isConnected = true := by
  rw [Section.isConnected, h.start_eq]
  exact bne_iff_ne.2 h.start_ne_null

/-- The section's start leads to its start node. -/
theorem node_start : m.node sec.m_start = some start := by rw [h.start_eq, h.has_start]

/-- The section's end leads to its end node. -/
theorem node_end : m.node sec.m_end = some stop := by rw [h.end_eq, h.has_stop]

/-- The section is found in the slot of its start node. -/
theorem slotOf_start : start.slotOf sec.m_id = .ok q.1.2 := by
  rw [h.id]
  exact Node.slotOf_eq h.start_lt h.start_slot

/-- The section is found in the slot of its end node. -/
theorem slotOf_stop : stop.slotOf sec.m_id = .ok q.2.2 := by
  rw [h.id]
  exact Node.slotOf_eq h.stop_lt h.stop_slot

/-- **`unlink` clears the two slots the cable sits in**, and both ends of its
section. -/
theorem unlink : m.unlink s = .ok (.OK,
    ⟨(m.m_nodes.insert q.1.1 (start.put q.1.2 ID_NULL)).insert q.2.1 (stop.put q.2.2 ID_NULL),
      m.m_sections.insert s { sec with m_start := ID_NULL, m_end := ID_NULL }⟩) := by
  have hcon : sec.m_start ≠ ID_NULL := by
    rw [h.start_eq]
    exact h.start_ne_null
  have hapart : sec.m_start ≠ sec.m_end := by
    rw [h.start_eq, h.end_eq]
    exact h.apart
  rw [unlink_ok h.has_section hcon h.node_start h.node_end hapart, h.start_eq, h.end_eq,
    Node.release_eq h.start_lt_max h.start_slot, Node.release_eq h.stop_lt_max h.stop_slot]

end Model.HasCable

namespace Model.Refines

variable {m : Model} {N : Network} {s : Identifier} {q : Port × Port}

/-- **A cable of the network is stored in the model.** -/
theorem exists_cable (h : m.Refines N) (hq : N.wiring.ends s = some q) :
    ∃ c na nb, N.sections s = some c ∧ N.nodes q.1.1 = some na ∧ N.nodes q.2.1 = some nb ∧
      m.HasCable s q (N.toSection s c) (N.toNode q.1.1 na) (N.toNode q.2.1 nb) := by
  obtain ⟨c, hc⟩ := N.cable_exists hq
  obtain ⟨⟨na, hna, hi⟩, ⟨nb, hnb, hj⟩⟩ := N.hasPort_of_ends hq
  have hs : s ≠ ID_NULL := ne_null_of_isId (N.isId_section hc)
  exact ⟨c, na, nb, hc, hna, hnb,
    { has_section := h.section_of_attrs hc
      id := rfl
      start_eq := by simp [Network.toSection, hq]
      end_eq := by simp [Network.toSection, hq]
      has_start := h.node_of_attrs hna
      has_stop := h.node_of_attrs hnb
      start_ne_null := ne_null_of_isId (N.isId_node hna)
      end_ne_null := ne_null_of_isId (N.isId_node hnb)
      apart := N.ends_apart hq
      start_lt := hi
      stop_lt := hj
      start_slot := fun k => by rw [N.slotAt_toNode_eq_iff hs, N.plug_start_iff hq]
      stop_slot := fun k => by rw [N.slotAt_toNode_eq_iff hs, N.plug_stop_iff hq] }⟩

/-- A connected section is stored as a cable. -/
theorem cable_of_isConnected (h : m.Refines N) {sec : Section} (hsec : m.section s = some sec)
    (hcon : sec.isConnected = true) :
    ∃ q start stop, N.wiring.ends s = some q ∧ m.HasCable s q sec start stop := by
  have hends := h.exists_connected_iff.1 ⟨sec, hsec, hcon⟩
  obtain ⟨q, hq⟩ := Option.ne_none_iff_exists'.1 hends
  obtain ⟨c, na, nb, _, _, _, hc⟩ := h.exists_cable hq
  obtain rfl := Option.some.inj (hsec.symm.trans hc.has_section)
  exact ⟨q, _, _, hq, hc⟩

/-- **`unlink` on a connected section**: the two slots its loops clear are the
two the cable sits in. -/
theorem unlink (h : m.Refines N) (hq : N.wiring.ends s = some q) :
    ∃ c na nb, N.sections s = some c ∧ N.nodes q.1.1 = some na ∧ N.nodes q.2.1 = some nb ∧
      m.unlink s = .ok (.OK,
        ⟨(m.m_nodes.insert q.1.1 ((N.toNode q.1.1 na).put q.1.2 ID_NULL)).insert q.2.1
            ((N.toNode q.2.1 nb).put q.2.2 ID_NULL),
          m.m_sections.insert s
            { N.toSection s c with m_start := ID_NULL, m_end := ID_NULL }⟩) := by
  obtain ⟨c, na, nb, hc, hna, hnb, hcable⟩ := h.exists_cable hq
  exact ⟨c, na, nb, hc, hna, hnb, hcable.unlink⟩

/-- The model `unlink` leaves behind refines the network without the cable. -/
theorem unlinked (h : m.Refines N) (hq : N.wiring.ends s = some q) :
    ∃ m', m.unlink s = .ok (.OK, m') ∧ m'.Refines (N.unlink s) := by
  obtain ⟨c, na, nb, hc, hna, hnb, hrun⟩ := h.unlink hq
  exact ⟨_, hrun, h.write_cable (N.unlink_nodes s) (N.unlink_sections s) (Network.toNode_unlink hq)
    (N.toSection_unlink s) (N.ends_apart hq) hc hna hnb⟩

/-- `unlink` on anything else. -/
theorem unlink_refused (h : m.Refines N) (hq : N.wiring.ends s = none) :
    ∃ r, r ≠ .OK ∧ m.unlink s = .ok (r, m) := by
  cases hsec : m.section s with
  | none => exact ⟨.NOT_FOUND, by simp, unlink_not_found hsec⟩
  | some sec =>
      obtain ⟨c, _, rfl⟩ := h.section_some hsec
      exact ⟨.NOT_LINKED, by simp,
        unlink_not_linked hsec (N.toSection_start_eq_null_iff.2 hq)⟩

end Model.Refines

end PiwcsPrw
