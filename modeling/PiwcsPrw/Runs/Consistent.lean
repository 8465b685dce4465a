/-
# Consistency is an invariant of every run

`include/piwcsprwmodel/model.h`, class-enforced invariants.

`Model.Consistent` states the invariants on the two maps themselves, slot by slot
and end by end, without a network in sight.  A model that refines a network has
them (`Model.Refines.consistent`), and every reachable model does
(`Reachable.invariants`).
-/

import PiwcsPrw.Runs.Reachable
import Mathlib.Data.Set.Card

namespace PiwcsPrw

/-- The slot `p.2` of the node `p.1` holds the section `s`. -/
def Model.Holds (m : Model) (p : Port) (s : IdRef) : Prop :=
  ∃ node, m.node p.1 = some node ∧ node.slotAt p.2 = s

/-- Slots that hold the same sections hold the same. -/
theorem Model.slotAt_eq_of_holds_iff {m m' : Model} {n : Identifier} {k : SlotId}
    {node node' : Node} (hnode : m.node n = some node) (hnode' : m'.node n = some node')
    (h : ∀ s, s ≠ ID_NULL → (m.Holds (n, k) s ↔ m'.Holds (n, k) s)) :
    node.slotAt k = node'.slotAt k := by
  have hiff : ∀ s, s ≠ ID_NULL → (node.slotAt k = s ↔ node'.slotAt k = s) := by
    intro s hs
    have hholds := h s hs
    simpa [Holds, hnode, hnode'] using hholds
  rcases eq_or_ne (node.slotAt k) ID_NULL with hnull | hne
  · rcases eq_or_ne (node'.slotAt k) ID_NULL with hnull' | hne'
    · rw [hnull, hnull']
    · exact (hiff _ hne').2 rfl
  · exact ((hiff _ hne).1 rfl).symm

/-- The invariants of `Model`. -/
structure Model.Consistent (m : Model) : Prop where
  node_key : ∀ {n node}, m.node n = some node →
    n = node.m_id ∧ n ≠ ID_NULL ∧ n[0]? ≠ some '#'.toUInt8
  section_key : ∀ {s sec}, m.section s = some sec →
    s = sec.m_id ∧ s ≠ ID_NULL ∧ s[0]? ≠ some '#'.toUInt8
  slot_known : ∀ {n node k}, m.node n = some node → k < node.sectionCount →
    node.slotAt k = ID_NULL ∨ ∃ sec, m.section (node.slotAt k) = some sec
  slot_unused : ∀ {n node k}, m.node n = some node → node.sectionCount ≤ k →
    node.slotAt k = ID_NULL
  ends_known : ∀ {s sec}, m.section s = some sec →
    (sec.m_start = ID_NULL ∧ sec.m_end = ID_NULL) ∨
      (∃ start stop, m.node sec.m_start = some start ∧ m.node sec.m_end = some stop) ∧
        sec.m_start ≠ sec.m_end
  holds_iff : ∀ {n node s sec}, m.node n = some node → m.section s = some sec →
    ((∃ k, m.Holds (n, k) s) ↔ n = sec.m_start ∨ n = sec.m_end)
  holds_once : ∀ {n node s sec}, m.node n = some node → m.section s = some sec →
    n = sec.m_start ∨ n = sec.m_end → ∃! k, m.Holds (n, k) s
  holds_twice : ∀ {s sec}, m.section s = some sec →
    {p | m.Holds p s}.ncard = if sec.isConnected then 2 else 0
  address_unique : ∀ {s t sec other x}, m.section s = some sec → m.section t = some other →
    sec.address? = some x → other.address? = some x → s = t

namespace Model.Refines

variable {m : Model} {N : Network}

/-- A slot of the model holds what is plugged into the port. -/
theorem holds_iff_plug (h : m.Refines N) {p : Port} {s : IdRef} (hs : s ≠ ID_NULL) :
    m.Holds p s ↔ N.wiring.plug p = some s := by
  constructor
  · rintro ⟨node, hnode, hslot⟩
    obtain ⟨a, _, rfl⟩ := h.node_some hnode
    exact (N.slotAt_toNode_eq_iff hs).1 hslot
  · intro hplug
    obtain ⟨a, ha, _⟩ := N.port_exists hplug
    exact ⟨N.toNode p.1 a, h.node_of_attrs ha, (N.slotAt_toNode_eq_iff hs).2 hplug⟩

/-- The ports that hold a section are the two ends of its cable, or none. -/
theorem setOf_holds (h : m.Refines N) {s : IdRef} (hs : s ≠ ID_NULL) :
    {p | m.Holds p s} = (N.wiring.ends s).elim ∅ fun q => {q.1, q.2} := by
  ext p
  rw [Set.mem_ofPred_eq, h.holds_iff_plug hs]
  cases hq : N.wiring.ends s with
  | none => simpa using Wiring.plug_ne_of_ends_eq_none hq p
  | some q => simpa using Wiring.plug_eq_some_iff hq p

/-- **A model that refines a network is consistent.** -/
theorem consistent (h : m.Refines N) : m.Consistent where
  node_key hnode := by
    obtain ⟨a, ha, rfl⟩ := h.node_some hnode
    exact ⟨rfl, isId_iff.1 (N.isId_node ha)⟩
  section_key hsec := by
    obtain ⟨c, hc, rfl⟩ := h.section_some hsec
    exact ⟨rfl, isId_iff.1 (N.isId_section hc)⟩
  slot_known {n node k} hnode _ := by
    obtain ⟨a, _, rfl⟩ := h.node_some hnode
    rw [N.slotAt_toNode]
    cases hplug : N.wiring.plug (n, k) with
    | none => exact Or.inl rfl
    | some s =>
        obtain ⟨c, hc⟩ := N.section_of_plug hplug
        exact Or.inr ⟨_, h.section_of_attrs hc⟩
  slot_unused {n node k} hnode hk := by
    obtain ⟨a, ha, rfl⟩ := h.node_some hnode
    by_contra hslot
    have hlt : k < a.type.info.slotCount := (N.wellFormed_toNode ha k hslot).2
    exact hk.not_gt hlt
  ends_known {s sec} hsec := by
    obtain ⟨c, _, rfl⟩ := h.section_some hsec
    cases hq : N.wiring.ends s with
    | none => exact Or.inl (by simp [Network.toSection, hq])
    | some q =>
        obtain ⟨⟨na, hna, _⟩, ⟨nb, hnb, _⟩⟩ := N.hasPort_of_ends hq
        refine Or.inr ?_
        simp only [Network.toSection, hq, Option.elim_some]
        exact ⟨⟨_, _, h.node_of_attrs hna, h.node_of_attrs hnb⟩, N.ends_apart hq⟩
  holds_iff {n node s sec} hnode hsec := by
    obtain ⟨a, ha, rfl⟩ := h.node_some hnode
    obtain ⟨c, hc, rfl⟩ := h.section_some hsec
    simp only [h.holds_iff_plug (ne_null_of_isId (N.isId_section hc)), Network.toSection]
    cases hq : N.wiring.ends s with
    | none =>
        have hn := ne_null_of_isId (N.isId_node ha)
        simpa [hn] using fun k => Wiring.plug_ne_of_ends_eq_none hq (n, k)
    | some q =>
        simp only [Wiring.plug_eq_some_iff hq, Prod.ext_iff, Option.elim_some]
        constructor
        · rintro ⟨k, hk | hk⟩
          · exact Or.inl hk.1
          · exact Or.inr hk.1
        · rintro (hn | hn)
          · exact ⟨q.1.2, Or.inl ⟨hn, rfl⟩⟩
          · exact ⟨q.2.2, Or.inr ⟨hn, rfl⟩⟩
  holds_once {n node s sec} hnode hsec hend := by
    obtain ⟨a, ha, rfl⟩ := h.node_some hnode
    obtain ⟨c, hc, rfl⟩ := h.section_some hsec
    simp only [h.holds_iff_plug (ne_null_of_isId (N.isId_section hc))]
    cases hq : N.wiring.ends s with
    | none =>
        have hn := ne_null_of_isId (N.isId_node ha)
        simp [Network.toSection, hq, hn] at hend
    | some q =>
        simp only [Network.toSection, hq, Option.elim_some] at hend
        -- Whichever end the node is, its slot is the one the cable sits in.
        rcases hend with rfl | rfl
        · exact ⟨q.1.2, (N.plug_start_iff hq _).2 rfl, fun k => (N.plug_start_iff hq k).1⟩
        · exact ⟨q.2.2, (N.plug_stop_iff hq _).2 rfl, fun k => (N.plug_stop_iff hq k).1⟩
  holds_twice {s sec} hsec := by
    obtain ⟨c, hc, rfl⟩ := h.section_some hsec
    rw [h.setOf_holds (ne_null_of_isId (N.isId_section hc)), N.isConnected_toSection]
    cases hq : N.wiring.ends s with
    | none => simp
    | some q => simpa using Set.ncard_pair (N.wiring.ends_ne s q hq)
  address_unique hs ht hx hy := by
    obtain ⟨c, hc, rfl⟩ := h.section_some hs
    obtain ⟨d, hd, rfl⟩ := h.section_some ht
    exact N.address_unique hc hd hx hy

end Model.Refines

/-- **Consistency is an invariant of every run.** -/
theorem Reachable.invariants {m : Model} (h : Reachable m) : m.Consistent := by
  obtain ⟨N, hN⟩ := h.refines
  exact hN.consistent

/-- The small example is consistent, and its section does occupy two slots. -/
theorem smallExample_consistent :
    smallExample.Consistent ∧ {p | smallExample.Holds p (ascii "S400")}.ncard = 2 := by
  have hcon := Reachable.invariants reachable_smallExample
  refine ⟨hcon, ?_⟩
  rw [hcon.holds_twice (show smallExample.section (ascii "S400") = some _ from rfl)]
  decide

end PiwcsPrw
