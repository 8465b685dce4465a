/-
# The network as rails

`include/piwcsprwmodel.h` (Allowed Travel and Correctness), on the network.

A section of a network is run along from start to end when travel on it is allowed, and
the other way when it is bidirectional; one goes on from a slot to a slot of the same
node when the type of the node has that route.  These are rails, `Network.rails`, and the
general facts about journeys on rails are facts about trains.

What a model answers about its network are these rails: a train is on track in the model
when it is on the rails (`Refines.onTrack_iff`), and asking a model for the way on leaves
no array, fails no assertion, and gives the next leg on the rails
(`Refines.exists_advance_eq`).  So the journeys of the model are those on the rails
(`Refines.journey_iff`).

What a connected section rests on stays as long as it is connected: no call but `unlink`
of that section takes it from its slots, turns it, or changes the types of the nodes at
its ends (`Step.keepsTrack`).
-/

import PiwcsPrw.Entities.Travel
import PiwcsPrw.Network.Effects

namespace PiwcsPrw

/-- The direction is allowed. -/
def AllowedTravel.allows (dir : AllowedTravel) (reversed : Bool) : Bool :=
  if reversed then dir == .BIDIR else dir != .NONE

/-- The direction opposite to an allowed one is allowed on bidirectional sections. -/
theorem AllowedTravel.allows_not {dir : AllowedTravel} {reversed : Bool}
    (h : dir.allows reversed = true) : dir.allows (!reversed) = true ↔ dir = .BIDIR := by
  revert h
  cases dir <;> cases reversed <;> decide

namespace Network

/-- Where trains may go. -/
def rails (N : Network) : Rails Port Identifier where
  wiring := N.wiring
  allowed t := ∃ c, N.sections t.cable = some c ∧ c.dir.allows t.reversed = true
  through p q := p.1 = q.1 ∧ ∃ a, N.nodes p.1 = some a ∧ a.type.routes p.2 q.2 = true

variable {N : Network} {t t' : Train} {p q : Port}

/-- A train arrives at another node than it departs from. -/
theorem dep_ne_arr (hq : N.wiring.dep t = some q) (hp : N.wiring.arr t = some p) :
    q.1 ≠ p.1 := by
  obtain ⟨r, hr, rfl⟩ := Option.map_eq_some_iff.1 hq
  obtain ⟨r', hr', rfl⟩ := Option.map_eq_some_iff.1 hp
  obtain rfl : r = r' := Option.some.inj (hr.symm.trans hr')
  obtain ⟨s, reversed⟩ := t
  cases reversed
  · exact N.ends_apart hr
  · exact (N.ends_apart hr).symm

/-- The train that leaves a node by a slot with a section. -/
theorem exists_leaving {s : Identifier} (hplug : N.wiring.plug p = some s) :
    ∃ c, N.sections s = some c ∧ N.wiring.dep ⟨s, (N.toSection s c).node 1 == p.1⟩ = some p := by
  obtain ⟨c, hc⟩ := N.section_of_plug hplug
  obtain ⟨q, hq, hpq⟩ := (N.wiring.plug_iff p s).1 hplug
  have hstop : (N.toSection s c).node 1 = q.2.1 := by simp [Section.node, Network.toSection, hq]
  refine ⟨c, hc, ?_⟩
  rw [hstop]
  rcases hpq with rfl | rfl
  · have hne : (q.2.1 == q.1.1) = false := beq_eq_false_iff_ne.2 (N.ends_apart hq).symm
    simp [Wiring.dep, hq, hne]
  · simp [Wiring.dep, hq]

/-- The way on from the train `t` at the slot `out` of the node ahead is `t'`. -/
def Leads (N : Network) (t : Train) (out : SlotId) (t' : Train) : Prop :=
  ∃ p, N.wiring.arr t = some p ∧ N.rails.through p (p.1, out) ∧
    N.wiring.dep t' = some (p.1, out) ∧ N.rails.allowed t'

/-- What leads on from the port `p` of a node. -/
theorem leads_iff {a : NodeAttrs} (harr : N.wiring.arr t = some p) (ha : N.nodes p.1 = some a)
    {out : SlotId} : N.Leads t out t' ↔ a.type.routes p.2 out = true ∧
      N.wiring.dep t' = some (p.1, out) ∧ N.rails.allowed t' := by
  have hthrough : N.rails.through p (p.1, out) ↔ a.type.routes p.2 out = true := by
    simp [rails, ha]
  simp [Leads, harr, hthrough]

/-- From a port with a section one train departs, if its direction is allowed. -/
theorem departs_iff {next : Train} {c : SectionAttrs} (hdep : N.wiring.dep next = some q)
    (hc : N.sections next.cable = some c) : N.wiring.dep t' = some q ∧ N.rails.allowed t' ↔
      c.dir.allows next.reversed = true ∧ t' = next := by
  constructor
  · rintro ⟨hdep', c', hc', hallows⟩
    obtain rfl : t' = next := Wiring.eq_of_dep hdep' hdep
    obtain rfl := Option.some.inj (hc.symm.trans hc')
    exact ⟨hallows, rfl⟩
  · rintro ⟨hallows, rfl⟩
    exact ⟨hdep, c, hc, hallows⟩

/-- **No train turns round**: the section that follows is another one. -/
theorem Leads.cable_ne {out : SlotId} (h : N.Leads t out t') : t'.cable ≠ t.cable := by
  intro hcable
  obtain ⟨p, hp, ⟨_, a, _, hroute⟩, hq, _⟩ := h
  have hside : t' = t ∨ t' = t.flip := by
    obtain ⟨s, reversed⟩ := t
    obtain ⟨s', reversed'⟩ := t'
    obtain rfl : s' = s := hcable
    cases reversed <;> cases reversed' <;> simp [Leg.flip]
  rcases hside with rfl | rfl
  · exact dep_ne_arr hq hp rfl
  · -- It would leave the node by the slot it came in at, and no route leads there.
    have hport : p = (p.1, out) := Option.some.inj (hp.symm.trans hq)
    exact NodeType.ne_of_routes hroute (congrArg Prod.snd hport)

/-- A train is led to by one slot only. -/
theorem Leads.slot_unique {out out' : SlotId} (h : N.Leads t out t') (h' : N.Leads t out' t') :
    out = out' := by
  obtain ⟨p, _, _, hdep, _⟩ := h
  obtain ⟨p', _, _, hdep', _⟩ := h'
  exact congrArg Prod.snd (Option.some.inj (hdep.symm.trans hdep'))

/-- The way on at a slot is the next leg, if the train is on track. -/
theorem leads_iff_next (h : N.rails.OnTrack t) :
    (∃ out, N.Leads t out t') ↔ N.rails.Next t t' := by
  constructor
  · rintro ⟨out, p, hp, hthrough, hdep, hallowed⟩
    exact ⟨h, ⟨hallowed, Wiring.exists_dep_iff.1 ⟨_, hdep⟩⟩, p, _, hp, hdep, hthrough⟩
  · rintro ⟨_, hon, p, q, hp, hq, hnode, hroute⟩
    obtain ⟨n, out⟩ := q
    obtain rfl : p.1 = n := hnode
    exact ⟨out, p, hp, ⟨rfl, hroute⟩, hq, hon.allowed⟩

end Network

namespace Model.Refines

variable {m : Model} {N : Network} {t t' : Train} {p : Port}

/-- **On track in the model is on the rails.** -/
theorem onTrack_iff (h : m.Refines N) : m.OnTrack t ↔ N.rails.OnTrack t := by
  constructor
  · rintro ⟨sec, hsec, hcon, htravel⟩
    obtain ⟨c, hc, rfl⟩ := h.section_some hsec
    refine ⟨⟨c, hc, ?_⟩, h.exists_connected_iff.1 ⟨_, hsec, hcon⟩⟩
    rw [Section.canTraverse_eq, Asserting.pure_inj] at htravel
    exact htravel
  · rintro ⟨⟨c, hc, hallows⟩, hends⟩
    obtain ⟨sec, hsec, hcon⟩ := h.exists_connected_iff.2 hends
    refine ⟨sec, hsec, hcon, ?_⟩
    obtain rfl := Option.some.inj (hsec.symm.trans (h.section_of_attrs hc))
    rw [Section.canTraverse_eq]
    exact congrArg pure hallows

/-- Nothing is called `ID_NULL`. -/
theorem node_null (h : m.Refines N) : m.node ID_NULL = none := by
  rw [h.node_none, Option.eq_none_iff_forall_not_mem]
  exact fun a ha => ne_null_of_isId (N.isId_node ha) rfl

/-- No section has the null identifier. -/
theorem section_null (h : m.Refines N) : m.section ID_NULL = none := by
  rw [h.section_none, Option.eq_none_iff_forall_not_mem]
  exact fun c hc => ne_null_of_isId (N.isId_section hc) rfl

/-- The node ahead of a train, and the slot in which it holds the train's section. -/
theorem exists_ahead (h : m.Refines N) (hp : N.wiring.arr t = some p) :
    ∃ a, N.nodes p.1 = some a ∧ m.ahead t = some (N.toNode p.1 a) ∧
      (N.toNode p.1 a).slotOf t.cable = .ok p.2 := by
  obtain ⟨q, hq, rfl⟩ := Option.map_eq_some_iff.1 hp
  obtain ⟨c, na, nb, hc, hna, hnb, hcable⟩ := h.exists_cable hq
  obtain ⟨s, reversed⟩ := t
  have hsec : m.section s = some (N.toSection s c) := hcable.has_section
  cases reversed
  · have hahead : m.ahead ⟨s, false⟩ = m.node (N.toSection s c).m_end := by
      simp [ahead, hsec, Section.node, Train.dst]
    exact ⟨nb, hnb, hahead.trans hcable.node_end, hcable.slotOf_stop⟩
  · have hahead : m.ahead ⟨s, true⟩ = m.node (N.toSection s c).m_start := by
      simp [ahead, hsec, Section.node, Train.dst]
    exact ⟨na, hna, hahead.trans hcable.node_start, hcable.slotOf_start⟩

/-- A train on a section that is unknown or not connected has no node ahead. -/
theorem ahead_eq_none (h : m.Refines N) (harr : N.wiring.arr t = none) : m.ahead t = none := by
  have hends : N.wiring.ends t.cable = none := by
    by_contra hne
    obtain ⟨p, hp⟩ := Wiring.exists_arr_iff.2 hne
    simp [harr] at hp
  cases hsec : m.section t.cable with
  | none => simp [ahead, hsec]
  | some sec =>
      obtain ⟨c, _, rfl⟩ := h.section_some hsec
      have hnode : (N.toSection t.cable c).node t.dst = ID_NULL := by
        obtain ⟨s, reversed⟩ := t
        cases reversed <;> simp [Section.node, Train.dst, Network.toSection, hends]
      simp [ahead, hsec, hnode, h.node_null]

/-- **Asking for the way on**: no array is left and no assertion fails, and the answer is
the way on along the rails. -/
theorem exists_advance_eq (h : m.Refines N) (t : Train) (out : SlotId) :
    ∃ r, m.advance t out = pure r ∧ ∀ t', r = some t' ↔ N.Leads t out t' := by
  cases harr : N.wiring.arr t with
  | none =>
      have hno : ∀ t', ¬ N.Leads t out t' := fun t' ⟨p, hp, _⟩ => by simp [harr] at hp
      exact ⟨none, by simp [advance, h.ahead_eq_none harr], fun t' => by simp [hno t']⟩
  | some p =>
      obtain ⟨a, ha, hahead, hslot⟩ := h.exists_ahead harr
      simp only [advance, hahead, hslot, Node.couldTraverseDebug_eq_routes, Asserting.liftM_ok,
        pure_bind, Network.toNode_type, Network.leads_iff harr ha]
      cases hroute : a.type.routes p.2 out with
      | false => exact ⟨none, rfl, fun t' => by simp⟩
      | true =>
          have hout : out < (N.toNode p.1 a).sectionCount := (NodeType.lt_of_routes hroute).2
          simp only [Node.section_eq _ hout, Asserting.liftM_ok, pure_bind, N.slotAt_toNode,
            true_and]
          cases hplug : N.wiring.plug (p.1, out) with
          | none =>
              have hno : ∀ t', N.wiring.dep t' ≠ some (p.1, out) := fun t' hdep => by
                simp [Wiring.plug_of_dep hdep] at hplug
              exact ⟨none, by simp [h.section_null], fun t' => by simp [hno t']⟩
          | some s =>
              obtain ⟨c, hc, hdep⟩ := Network.exists_leaving hplug
              let next : Train := ⟨s, (N.toSection s c).node 1 == p.1⟩
              refine ⟨if c.dir.allows next.reversed then some next else none, ?_, fun t' => ?_⟩
              · simp only [Option.getD_some, h.section_of_attrs hc, Section.canTraverse_eq, pure_bind]
                change (if c.dir.allows next.reversed = true then pure (some next) else pure none)
                  = pure _
                split_ifs <;> rfl
              · rw [Network.departs_iff hdep hc]
                split_ifs with hallows
                · rw [Option.some.injEq]
                  exact ⟨fun heq => ⟨hallows, heq.symm⟩, fun hnext => hnext.2.symm⟩
                · exact ⟨nofun, fun hnext => absurd hnext.1 hallows⟩

/-- **The answers lead on where the network does.** -/
theorem advance_eq_some_iff (h : m.Refines N) {out : SlotId} :
    m.advance t out = pure (some t') ↔ N.Leads t out t' := by
  obtain ⟨r, hr, hleads⟩ := h.exists_advance_eq t out
  rw [← hleads, hr, Asserting.pure_inj]

/-- **One step of a journey** in the model is one on the rails. -/
theorem exists_advance_iff (h : m.Refines N) (ht : N.rails.OnTrack t) :
    (∃ out, m.advance t out = pure (some t')) ↔ N.rails.Next t t' := by
  rw [← Network.leads_iff_next ht]
  exact exists_congr fun _ => h.advance_eq_some_iff

/-- **The journeys of the model are those on the rails.** -/
theorem journey_iff (h : m.Refines N) {ts : List Train} : m.Journey ts ↔ N.rails.Journey ts := by
  have hon : (∀ t ∈ ts, m.OnTrack t) ↔ ∀ t ∈ ts, N.rails.OnTrack t :=
    forall₂_congr fun t _ => h.onTrack_iff
  constructor
  · intro hj
    have hrails := hon.1 hj.onTrack
    exact ⟨hrails, hj.chain.imp_of_mem_imp fun t t' ht _ =>
      (h.exists_advance_iff (hrails t ht)).1⟩
  · intro hj
    exact ⟨hon.2 hj.onTrack, hj.chain.imp_of_mem_imp fun t t' ht _ =>
      (h.exists_advance_iff (hj.onTrack t ht)).2⟩

end Model.Refines

/-! ### What a step leaves -/

namespace Network

variable {N N' : Network} {op : Op} {s : Identifier}

/-- The section is still connected where it was, with its direction, to nodes of the
types they had. -/
structure KeepsTrack (N N' : Network) (s : Identifier) : Prop where
  ends : ∀ {q}, N.wiring.ends s = some q → N'.wiring.ends s = some q
  dir : ∀ {c}, N.wiring.ends s ≠ none → N.sections s = some c →
    ∃ c', N'.sections s = some c' ∧ c'.dir = c.dir
  type : ∀ {p a}, N.wiring.plug p = some s → N.nodes p.1 = some a →
    ∃ a', N'.nodes p.1 = some a' ∧ a'.type = a.type

/-- A network keeps its own tracks. -/
theorem KeepsTrack.refl (N : Network) (s : Identifier) : N.KeepsTrack N s :=
  ⟨id, fun _ hc => ⟨_, hc, rfl⟩, fun _ ha => ⟨_, ha, rfl⟩⟩

/-- The section is still plugged in where it was. -/
theorem KeepsTrack.plug (h : N.KeepsTrack N' s) {p : Port} (hp : N.wiring.plug p = some s) :
    N'.wiring.plug p = some s := by
  obtain ⟨q, hq, hpq⟩ := (N.wiring.plug_iff p s).1 hp
  exact (N'.wiring.plug_iff p s).2 ⟨q, h.ends hq, hpq⟩

/-- Tracks kept by one change after another are kept. -/
theorem KeepsTrack.trans {N₁ N₂ : Network} (h : N.KeepsTrack N₁ s) (h' : N₁.KeepsTrack N₂ s) :
    N.KeepsTrack N₂ s where
  ends hq := h'.ends (h.ends hq)
  dir hends hc := by
    obtain ⟨q, hq⟩ := Option.ne_none_iff_exists'.1 hends
    obtain ⟨c₁, hc₁, hdir₁⟩ := h.dir hends hc
    obtain ⟨c₂, hc₂, hdir₂⟩ := h'.dir (by simp [h.ends hq]) hc₁
    exact ⟨c₂, hc₂, hdir₂.trans hdir₁⟩
  type hp ha := by
    obtain ⟨a₁, ha₁, htype₁⟩ := h.type hp ha
    obtain ⟨a₂, ha₂, htype₂⟩ := h'.type (h.plug hp) ha₁
    exact ⟨a₂, ha₂, htype₂.trans htype₁⟩

/-- **What a section rests on stays until it is unlinked.** -/
theorem Step.keepsTrack (h : N.Step op N') (hop : op ≠ .unlink s) : N.KeepsTrack N' s := by
  refine ⟨fun {q} hq => ?_, fun {c} hends hc => ?_, fun {p a} hp ha => ?_⟩
  · rw [h.ends_eq_applyAt, hq]
    cases h with
    | @link t a b i j hcan =>
        have hne : s ≠ t := fun he => by rw [he, hcan.free] at hq; cases hq
        exact if_neg hne
    | @unlink t =>
        have hne : s ≠ t := fun he => hop (he ▸ rfl)
        exact if_neg hne
    | addNode | addSection | removeNode | removeSection | nodeMetadata | sectionMetadata => rfl
  · rw [h.sections_eq, hc]
    cases h with
    | @addSection sec _ hnew =>
        have hne : s ≠ sec.m_id := fun he => by rw [← he, hc] at hnew; cases hnew
        exact ⟨c, if_neg hne, rfl⟩
    | @removeSection t _ hfree =>
        have hne : s ≠ t := fun he => hends (he ▸ hfree)
        exact ⟨c, if_neg hne, rfl⟩
    | sectionMetadata t edited =>
        rw [Op.sectionEdit, Edit.applyAt_some, Edit.apply_modify]
        split_ifs
        · exact ⟨_, rfl, rfl⟩
        · exact ⟨c, rfl, rfl⟩
    | addNode | removeNode | link | unlink | nodeMetadata => exact ⟨c, rfl, rfl⟩
  · rw [h.nodes_eq, ha]
    cases h with
    | @addNode node _ hnew =>
        have hne : p.1 ≠ node.m_id := fun he => by rw [← he, ha] at hnew; cases hnew
        exact ⟨a, if_neg hne, rfl⟩
    | @removeNode n _ hfree =>
        have hne : p.1 ≠ n := by
          rintro rfl
          rw [hfree p.2] at hp
          cases hp
        exact ⟨a, if_neg hne, rfl⟩
    | nodeMetadata n edited =>
        rw [Op.nodeEdit, Edit.applyAt_some, Edit.apply_modify]
        split_ifs
        · exact ⟨_, rfl, rfl⟩
        · exact ⟨a, rfl, rfl⟩
    | addSection | removeSection | link | unlink | sectionMetadata => exact ⟨a, rfl, rfl⟩

variable {t t' : Train}

/-- A port a train departs from or arrives at is still that. -/
theorem KeepsTrack.dep (h : N.KeepsTrack N' t.cable) {p : Port} (hp : N.wiring.dep t = some p) :
    N'.wiring.dep t = some p := by
  obtain ⟨q, hq, rfl⟩ := Option.map_eq_some_iff.1 hp
  rw [Wiring.dep, h.ends hq, Option.map_some]

/-- A train on a section that is kept is still on track. -/
theorem KeepsTrack.onTrack (h : N.KeepsTrack N' t.cable) (ht : N.rails.OnTrack t) :
    N'.rails.OnTrack t := by
  obtain ⟨⟨c, hc, hallows⟩, hends⟩ := ht
  obtain ⟨q, hq⟩ := Option.ne_none_iff_exists'.1 hends
  obtain ⟨c', hc', hdir⟩ := h.dir hends hc
  have hends' : N'.wiring.ends t.cable ≠ none := by
    rw [h.ends hq]
    exact Option.some_ne_none q
  exact ⟨⟨c', hc', hdir ▸ hallows⟩, hends'⟩

/-- One train still follows another, on sections that are kept. -/
theorem KeepsTrack.next (h : N.KeepsTrack N' t.cable) (h' : N.KeepsTrack N' t'.cable)
    (hnext : N.rails.Next t t') : N'.rails.Next t t' := by
  obtain ⟨hon, hon', p, q, hp, hq, hnode, a, ha, hroute⟩ := hnext
  obtain ⟨a', ha', htype⟩ := h.type (Wiring.plug_of_dep (l := t.flip) hp) ha
  exact ⟨h.onTrack hon, h'.onTrack hon', p, q, KeepsTrack.dep (t := t.flip) h hp, h'.dep hq, hnode,
    a', ha', htype ▸ hroute⟩

end Network

end PiwcsPrw
