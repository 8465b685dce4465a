/-
# What the results of a run depend on

The mutators in `src/model.cpp`, over whole runs and with their whole results.

A run from the empty model returns what the abstract network says
(`answers_eq_run`).  The network in turn never looks at metadata, at travel
directions or at the names of destinations: two runs that differ in nothing else
return the same results, call by call, and end in models that differ in nothing else
(`answers_eq_of_alike`).
-/

import PiwcsPrw.Network.Verdicts
import PiwcsPrw.Runs.History

namespace PiwcsPrw

/-- The calls differ in metadata, travel directions and names of destinations at most. -/
def Op.Alike : Op → Op → Prop
  | addNode x, addNode y => x.m_type = y.m_type ∧ x.m_id = y.m_id ∧ x.m_slots = y.m_slots
  | addSection x, addSection y => x.m_id = y.m_id ∧ x.address? = y.address?
  | removeNode n, removeNode n' => n = n'
  | removeSection s, removeSection s' => s = s'
  | link s a i b j, link s' a' i' b' j' => s = s' ∧ a = a' ∧ i = i' ∧ b = b' ∧ j = j'
  | unlink s, unlink s' => s = s'
  | nodeMetadata .., nodeMetadata .. | sectionMetadata .., sectionMetadata .. => True
  | _, _ => False

namespace Network

/-- The networks differ in metadata, travel directions and names of destinations at
most. -/
structure Alike (N N' : Network) : Prop where
  nodes : ∀ n, (N.nodes n).map NodeAttrs.type = (N'.nodes n).map NodeAttrs.type
  sections : ∀ s,
    (N.sections s).map SectionAttrs.address? = (N'.sections s).map SectionAttrs.address?
  wiring : N.wiring = N'.wiring

variable {N N' : Network} {op op' : Op}

namespace Alike

/-- A network is like itself. -/
theorem refl (N : Network) : N.Alike N := ⟨fun _ => rfl, fun _ => rfl, rfl⟩

/-- Networks that are alike have the same nodes. -/
theorem nodes_none (h : N.Alike N') (n : Identifier) : N.nodes n = none ↔ N'.nodes n = none := by
  rw [← Option.map_eq_none_iff (f := NodeAttrs.type), h.nodes, Option.map_eq_none_iff]

/-- And the same sections. -/
theorem sections_none (h : N.Alike N') (s : Identifier) :
    N.sections s = none ↔ N'.sections s = none := by
  rw [← Option.map_eq_none_iff (f := SectionAttrs.address?), h.sections, Option.map_eq_none_iff]

/-- And the same ports. -/
theorem hasPort (h : N.Alike N') (p : Port) : N.HasPort p ↔ N'.HasPort p := by
  have hport : ∀ M : Network, M.HasPort p ↔
      ∃ type, (M.nodes p.1).map NodeAttrs.type = some type ∧ p.2 < type.info.slotCount := fun M => by
    simp [HasPort]
  rw [hport, hport, h.nodes]

/-- And the same addresses are taken in them. -/
theorem addressTaken (h : N.Alike N') {sec sec' : Section} (hsec : sec.address? = sec'.address?) :
    N.AddressTaken sec ↔ N'.AddressTaken sec' := by
  have htaken : ∀ (M : Network) (sec : Section), M.AddressTaken sec ↔ ∃ t x,
      (M.sections t).map SectionAttrs.address? = some (some x) ∧ sec.address? = some x :=
    fun M sec => by
      simp only [AddressTaken, Option.map_eq_some_iff]
      constructor
      · rintro ⟨t, b, x, hb, hx, hx'⟩
        exact ⟨t, x, ⟨b, hb, hx'⟩, hx⟩
      · rintro ⟨t, x, ⟨b, hb, hx'⟩, hx⟩
        exact ⟨t, b, x, hb, hx, hx'⟩
  rw [htaken, htaken, hsec]
  simp only [h.sections]

/-- **Alike calls on alike networks get the same result.** -/
theorem verdict_eq (h : N.Alike N') (hop : op.Alike op') : N.verdict op = N'.verdict op' := by
  classical
  cases op with
  | addNode x =>
      cases op' with
      | addNode y =>
          obtain ⟨htype, hid, hslots⟩ := hop
          have hvacant : Model.Vacant x ↔ Model.Vacant y := by
            simp only [Model.Vacant, Node.sectionCount, Node.slotAt, htype, hslots]
          rw [verdict, verdict, hid]
          exact congrArg _ (if_congr Iff.rfl rfl (if_congr (not_congr (h.nodes_none _)) rfl
            (if_congr (not_congr hvacant) rfl rfl)))
      | _ => exact hop.elim
  | addSection x =>
      cases op' with
      | addSection y =>
          rw [verdict, verdict, hop.1]
          exact congrArg _ (if_congr Iff.rfl rfl (if_congr (or_congr
            (not_congr (h.sections_none _)) (h.addressTaken hop.2)) rfl rfl))
      | _ => exact hop.elim
  | removeNode n =>
      cases op' with
      | removeNode n' =>
          obtain rfl : n = n' := hop
          rw [verdict, verdict, h.wiring]
          exact congrArg _ (if_congr (h.nodes_none n) rfl rfl)
      | _ => exact hop.elim
  | removeSection s =>
      cases op' with
      | removeSection s' =>
          obtain rfl : s = s' := hop
          rw [verdict, verdict, h.wiring]
          exact congrArg _ (if_congr (h.sections_none s) rfl rfl)
      | _ => exact hop.elim
  | link s a i b j =>
      cases op' with
      | link s' a' i' b' j' =>
          obtain ⟨rfl, rfl, rfl, rfl, rfl⟩ := hop
          rw [verdict, verdict, h.wiring]
          exact congrArg _ (if_congr (or_congr (h.sections_none s)
            (or_congr (not_congr (h.hasPort (a, i))) (not_congr (h.hasPort (b, j))))) rfl rfl)
      | _ => exact hop.elim
  | unlink s =>
      cases op' with
      | unlink s' =>
          obtain rfl : s = s' := hop
          rw [verdict, verdict, h.wiring]
          exact congrArg _ (if_congr (h.sections_none s) rfl rfl)
      | _ => exact hop.elim
  | nodeMetadata n edited =>
      cases op' with
      | nodeMetadata => rfl
      | _ => exact hop.elim
  | sectionMetadata s edited =>
      cases op' with
      | sectionMetadata => rfl
      | _ => exact hop.elim

/-- Alike steps of alike networks lead to alike networks. -/
theorem step (h : N.Alike N') (hop : op.Alike op') {N₁ N₁' : Network} (hstep : N.Step op N₁)
    (hstep' : N'.Step op' N₁') : N₁.Alike N₁' := by
  refine ⟨fun n => ?_, fun s => ?_, Wiring.eq_of_ends (funext fun s => ?_)⟩
  · have hn := h.nodes n
    rw [hstep.nodes_eq, hstep'.nodes_eq]
    cases op <;> cases op' <;> try first | exact hop.elim | exact hn
    case addNode.addNode =>
        rw [Op.nodeEdit, Op.nodeEdit, hop.2.1]
        exact Edit.map_applyAt_put hn n _ hop.1
    case removeNode.removeNode =>
        obtain rfl := hop
        exact Edit.map_applyAt_clear hn n _
    case nodeMetadata.nodeMetadata =>
        exact Edit.map_applyAt_modify hn n _ _ (fun _ => rfl) fun _ => rfl
  · have hs := h.sections s
    rw [hstep.sections_eq, hstep'.sections_eq]
    cases op <;> cases op' <;> try first | exact hop.elim | exact hs
    case addSection.addSection =>
        rw [Op.sectionEdit, Op.sectionEdit, hop.1]
        exact Edit.map_applyAt_put hs s _ hop.2
    case removeSection.removeSection =>
        obtain rfl := hop
        exact Edit.map_applyAt_clear hs s _
    case sectionMetadata.sectionMetadata =>
        exact Edit.map_applyAt_modify hs s _ _ (fun _ => rfl) fun _ => rfl
  · have hq := congrFun (congrArg Wiring.ends h.wiring) s
    rw [hstep.ends_eq_applyAt, hstep'.ends_eq_applyAt, hq]
    cases op <;> cases op' <;> try first | exact hop.elim | rfl
    case link.link =>
        obtain ⟨rfl, rfl, rfl, rfl, rfl⟩ := hop
        rfl
    case unlink.unlink =>
        obtain rfl := hop
        rfl

/-- **Alike calls lead from alike networks to alike ones.** -/
theorem next (h : N.Alike N') (hop : op.Alike op') : (N.next op).Alike (N'.next op') := by
  have hiff : (∃ N₁, N.Step op N₁) ↔ ∃ N₁, N'.Step op' N₁ := by
    rw [← N.isOk_verdict_iff, ← N'.isOk_verdict_iff, h.verdict_eq hop]
  by_cases hex : ∃ N₁, N.Step op N₁
  · obtain ⟨N₁', hstep'⟩ := hiff.1 hex
    obtain ⟨N₁, hstep⟩ := hex
    rw [next_of_step hstep, next_of_step hstep']
    exact h.step hop hstep hstep'
  · rw [next_of_refused (not_exists.1 hex), next_of_refused (not_exists.1 (mt hiff.2 hex))]
    exact h

end Alike

end Network

/-- The models differ in metadata, travel directions and names of destinations at most. -/
structure Model.Alike (m m' : Model) : Prop where
  node : ∀ n, (m.node n).map (fun node => (node.m_type, node.m_id, node.m_slots)) =
    (m'.node n).map fun node => (node.m_type, node.m_id, node.m_slots)
  «section» : ∀ s,
    (m.section s).map (fun sec => (sec.m_id, sec.m_start, sec.m_end, sec.address?)) =
      (m'.section s).map fun sec => (sec.m_id, sec.m_start, sec.m_end, sec.address?)

/-- Models of alike networks are alike. -/
theorem Model.Refines.alike {m m' : Model} {N N' : Network} (h : m.Refines N) (h' : m'.Refines N')
    (halike : N.Alike N') : m.Alike m' := by
  refine ⟨fun n => ?_, fun s => ?_⟩
  · have hn := halike.nodes n
    rw [h.node, h'.node]
    cases ha : N.nodes n <;> cases hb : N'.nodes n <;> simp_all [Network.toNode, halike.wiring]
  · have hs := halike.sections s
    rw [h.section, h'.section]
    cases ha : N.sections s <;> cases hb : N'.sections s <;>
      simp_all [Network.toSection, halike.wiring, Section.address?, SectionAttrs.address?]

/-- **The results of a run from the empty model** are those of the abstract network,
and so is the final model. -/
theorem answers_eq_run {ops : List Op} (hops : ∀ op ∈ ops, op.Passable) :
    ∃ m, Op.answers ops .empty = .ok ((Network.machine.run ops .empty).1, m) ∧
      m.Refines (Network.machine.run ops .empty).2 :=
  Model.Refines.empty.answers fun op hop => (hops op hop).wellFormed

/-- The results of two sections with the same address, as the abstract network has them. -/
theorem answers_eq_run_example :
    (Network.machine.run [.addSection (.new (ascii "S1") .NONE (some (.new (ascii "7") []))),
      .addSection (.new (ascii "S2") .NONE (some (.new (ascii "7") [])))] .empty).1
        = [.add .OK, .add .DUPLICATE] := by
  have hops : ∀ op ∈ ([.addSection (.new (ascii "S1") .NONE (some (.new (ascii "7") []))),
      .addSection (.new (ascii "S2") .NONE (some (.new (ascii "7") [])))] : List Op),
        op.Passable := fun op hop => by
    simp only [List.mem_cons, List.not_mem_nil, or_false] at hop
    rcases hop with rfl | rfl <;> exact Or.inl ⟨_, _, _, {}, rfl⟩
  obtain ⟨m, hrun, _⟩ := answers_eq_run hops
  have hresults : Op.answers [.addSection (.new (ascii "S1") .NONE (some (.new (ascii "7") []))),
      .addSection (.new (ascii "S2") .NONE (some (.new (ascii "7") [])))] .empty
        = .ok ([.add .OK, .add .DUPLICATE], _) := rfl
  exact (Prod.mk.inj (Except.ok.inj (hrun.symm.trans hresults))).1

/-- **Metadata, travel directions and names of destinations do not matter.**  Two runs
from the empty model that differ in nothing else return the same results, and end in
models that differ in nothing else. -/
theorem answers_eq_of_alike {ops ops' : List Op} (hops : ∀ op ∈ ops, op.Passable)
    (hops' : ∀ op ∈ ops', op.Passable) (halike : List.Forall₂ Op.Alike ops ops') :
    ∃ rs m m', Op.answers ops .empty = .ok (rs, m) ∧ Op.answers ops' .empty = .ok (rs, m') ∧
      m.Alike m' := by
  obtain ⟨m, hrun, hm⟩ := Model.Refines.empty.answers fun op hop => (hops op hop).wellFormed
  obtain ⟨m', hrun', hm'⟩ := Model.Refines.empty.answers fun op hop => (hops' op hop).wellFormed
  have hstep : ∀ (op op' : Op) (N N' : Network), op.Alike op' → N.Alike N' →
      (Network.machine op N).1 = (Network.machine op' N').1 ∧
        (Network.machine op N).2.Alike (Network.machine op' N').2 :=
    fun _ _ _ _ hop hN => ⟨Network.Alike.verdict_eq hN hop, hN.next hop⟩
  obtain ⟨hresults, hfinal⟩ := Machine.run_of_forall₂ hstep halike (Network.Alike.refl .empty)
  rw [← hresults] at hrun'
  exact ⟨_, m, m', hrun, hrun', hm.alike hm' hfinal⟩

/-- Two runs that differ in directions and in the name of a destination. -/
theorem answers_eq_of_alike_example : ∃ rs m m',
    Op.answers [.addSection (.new (ascii "S1") .NONE (some (.new (ascii "7") (ascii "Mine")))),
      .addSection (.ofId (ascii "S2"))] .empty = .ok (rs, m) ∧
        Op.answers [.addSection (.new (ascii "S1") .BIDIR (some (.new (ascii "7") []))),
          .addSection (.new (ascii "S2") .NONE none)] .empty = .ok (rs, m') ∧ m.Alike m' := by
  refine answers_eq_of_alike (fun op hop => ?_) (fun op hop => ?_)
    (.cons ⟨rfl, rfl⟩ (.cons ⟨rfl, rfl⟩ .nil))
  · simp only [List.mem_cons, List.not_mem_nil, or_false] at hop
    rcases hop with rfl | rfl <;> exact Or.inl ⟨_, _, _, {}, rfl⟩
  · simp only [List.mem_cons, List.not_mem_nil, or_false] at hop
    rcases hop with rfl | rfl <;> exact Or.inl ⟨_, _, _, {}, rfl⟩

end PiwcsPrw
