/-
# Every model can be completed

`isComplete` in `src/algorithms.cpp` and the mutators in `src/model.cpp`.

A model under construction has free slots and free sections.  None of them is a dead
end: a free slot is taken by a new section that leads to a new `END` node, and a free
section is connected between two of these (`Network.exists_fill`).  Either takes away
one free slot or section and brings no other, so additions and links lead from every
reachable model to a complete one, in which whatever was there before is as it was
(`Reachable.completable`).
-/

import PiwcsPrw.Algorithms.ClosedOff
import PiwcsPrw.Runs.BuildOrder
import PiwcsPrw.Runs.Undo

namespace PiwcsPrw

/-- When each element of a finite set can be taken out by itself, all can. -/
theorem exists_exhausted {σ α : Type*} [DecidableEq α] {P : σ → Prop} {free : σ → Finset α}
    (hstep : ∀ x, P x → ∀ a ∈ free x, ∃ y, P y ∧ free y = (free x).erase a) {x : σ} (hx : P x) :
    ∃ y, P y ∧ free y = ∅ := by
  generalize hn : (free x).card = n
  induction n generalizing x with
  | zero => exact ⟨x, hx, Finset.card_eq_zero.1 hn⟩
  | succ n ih =>
      have hpos : 0 < (free x).card := by omega
      obtain ⟨a, ha⟩ := Finset.card_pos.1 hpos
      obtain ⟨y, hy, hfree⟩ := hstep x hx a ha
      have hcard : (free y).card = n := by rw [hfree, Finset.card_erase_of_mem ha, hn]; rfl
      exact ih hy hcard

/-- There is a valid ID outside every finite set. -/
theorem exists_fresh_id (taken : Finset Identifier) : ∃ id, isId id = true ∧ id ∉ taken := by
  have hinj : Function.Injective fun k : ℕ => List.replicate (k + 1) (78 : UInt8) := fun k l hkl => by
    simpa using congrArg List.length hkl
  obtain ⟨id, ⟨k, rfl⟩, hid⟩ := (Set.infinite_range_of_injective hinj).exists_notMem_finset taken
  exact ⟨_, rfl, hid⟩

namespace Network

variable {N N' : Network}

/-- A slot without a cable, or a section that is not connected. -/
def Free (N : Network) : Port ⊕ Identifier → Prop
  | .inl p => N.HasPort p ∧ N.wiring.plug p = none
  | .inr s => (∃ c, N.sections s = some c) ∧ N.wiring.ends s = none

/-- The slots and sections a request brings. -/
def Brings : Op → Port ⊕ Identifier → Prop
  | .addNode node, .inl p => p.1 = node.m_id ∧ p.2 < node.sectionCount
  | .addSection sec, .inr s => s = sec.m_id
  | _, _ => False

/-- The slots and sections a request takes. -/
def Takes : Op → Port ⊕ Identifier → Prop
  | .link _ a i b j, .inl p => p = (a, i) ∨ p = (b, j)
  | .link s _ _ _ _, .inr t => t = s
  | _, _ => False

/-- **What is free after a request**: what was free and is not taken, and what it
brings. -/
theorem Step.free_iff {op : Op} (h : N.Step op N') (hop : op.Builds) (x : Port ⊕ Identifier) :
    N'.Free x ↔ (N.Free x ∧ ¬ Takes op x) ∨ Brings op x := by
  cases h with
  | @addNode node hid hnew hvacant =>
      cases x with
      | inl p =>
          by_cases hp : p.1 = node.m_id
          · have hfree : N.wiring.plug p = none := by
              by_contra hplug
              obtain ⟨s, hs⟩ := Option.ne_none_iff_exists'.1 hplug
              obtain ⟨a, ha, _⟩ := N.port_exists hs
              rw [hp, hnew] at ha
              cases ha
            simp [Free, HasPort, Network.addNode, Takes, Brings, hp, hnew, hfree, Node.sectionCount]
          · simp [Free, HasPort, Network.addNode, Takes, Brings, hp]
      | inr s => simp [Free, Network.addNode, Takes, Brings]
  | @addSection sec hid hnew haddr =>
      cases x with
      | inl p => simp [Free, HasPort, Network.addSection, Takes, Brings]
      | inr s =>
          by_cases hs : s = sec.m_id
          · have hfree : N.wiring.ends s = none := by
              by_contra hends
              obtain ⟨q, hq⟩ := Option.ne_none_iff_exists'.1 hends
              obtain ⟨c, hc⟩ := N.cable_exists hq
              rw [hs, hnew] at hc
              cases hc
            simp [Free, Network.addSection, Takes, Brings, ← hs, hfree]
          · simp [Free, Network.addSection, Takes, Brings, hs]
  | @link s a b i j hcan =>
      cases x with
      | inl p =>
          by_cases hp : p = (a, i) ∨ p = (b, j)
          · simp [Free, Takes, Brings, hp]
          · simp [Free, HasPort, Takes, Brings, hp]
      | inr t =>
          by_cases ht : t = s
          · simp [Free, Takes, Brings, ht]
          · simp [Free, Takes, Brings, ht]
  | removeNode | removeSection | unlink | nodeMetadata | sectionMetadata => exact hop.elim

/-- `N'` has what `N` has, with the same attributes and connections. -/
structure Extends (N N' : Network) : Prop where
  nodes : ∀ {n a}, N.nodes n = some a → N'.nodes n = some a
  sections : ∀ {s c}, N.sections s = some c → N'.sections s = some c
  ends : ∀ {s q}, N.wiring.ends s = some q → N'.wiring.ends s = some q

/-- A network extends itself. -/
theorem Extends.refl (N : Network) : N.Extends N := ⟨id, id, id⟩

/-- What is kept by one extension after another is kept. -/
theorem Extends.trans {N₁ N₂ N₃ : Network} (h : N₁.Extends N₂) (h' : N₂.Extends N₃) :
    N₁.Extends N₃ :=
  ⟨fun hn => h'.nodes (h.nodes hn), fun hs => h'.sections (h.sections hs),
    fun hq => h'.ends (h.ends hq)⟩

/-- A request leaves what is there as it is. -/
theorem Step.extends {op : Op} (h : N.Step op N') (hop : op.Builds) : N.Extends N' := by
  refine ⟨fun {n a} hn => ?_, fun {s c} hs => ?_, fun {s q} hq => ?_⟩
  · rw [h.nodes_eq, hn]
    cases h with
    | @addNode node hid hnew =>
        have hne : n ≠ node.m_id := fun he => by rw [← he, hn] at hnew; cases hnew
        exact if_neg hne
    | addSection | link => rfl
    | removeNode | removeSection | unlink | nodeMetadata | sectionMetadata => exact hop.elim
  · rw [h.sections_eq, hs]
    cases h with
    | @addSection sec hid hnew =>
        have hne : s ≠ sec.m_id := fun he => by rw [← he, hs] at hnew; cases hnew
        exact if_neg hne
    | addNode | link => rfl
    | removeNode | removeSection | unlink | nodeMetadata | sectionMetadata => exact hop.elim
  · rw [h.ends_eq_applyAt, hq]
    cases h with
    | @link t a b i j hcan =>
        have hne : s ≠ t := fun he => by rw [he, hcan.free] at hq; cases hq
        exact if_neg hne
    | addNode | addSection => rfl
    | removeNode | removeSection | unlink | nodeMetadata | sectionMetadata => exact hop.elim

/-- So do several. -/
theorem Runs.extends {ops : List Op} (hops : ∀ op ∈ ops, op.Builds) (h : N.Runs ops N') :
    N.Extends N' := by
  induction ops generalizing N with
  | nil =>
      obtain rfl : N = N' := h
      exact .refl N
  | cons op ops ih =>
      obtain ⟨N₁, hstep, hruns⟩ := h
      have hop := hops op (List.mem_cons_self ..)
      exact (hstep.extends hop).trans (ih (fun op h => hops op (List.mem_cons_of_mem _ h)) hruns)

/-- A free section can be connected at two free slots of different nodes. -/
theorem canLink_of_free {s : Identifier} {p q : Port} (hs : N.Free (.inr s)) (hp : N.Free (.inl p))
    (hq : N.Free (.inl q)) (hne : p.1 ≠ q.1) : N.CanLink s (p, q) :=
  ⟨hs.1, hp.1, hq.1, hne, hp.2, hq.2, hs.2⟩

/-- What is free after a link. -/
theorem Step.free_link {s a b : Identifier} {i j : SlotId} (h : N.Step (.link s a i b j) N')
    {x : Port ⊕ Identifier} : N'.Free x ↔
      N.Free x ∧ ¬ (x = .inl (a, i) ∨ x = .inl (b, j) ∨ x = .inr s) := by
  rw [h.free_iff trivial]
  cases x with
  | inl p => simp [Takes, Brings]
  | inr t => simp [Takes, Brings]

/-- Nothing is free that is not there. -/
theorem not_free_node {n : Identifier} {k : SlotId} (hn : N.nodes n = none) :
    ¬ N.Free (.inl (n, k)) := by
  rintro ⟨⟨a, ha, _⟩, _⟩
  rw [hn] at ha
  cases ha

/-- The same for sections. -/
theorem not_free_section {s : Identifier} (hs : N.sections s = none) : ¬ N.Free (.inr s) := by
  rintro ⟨⟨c, hc⟩, _⟩
  rw [hs] at hc
  cases hc

/-- A dead end brings one slot. -/
theorem brings_end {n : Identifier} {x : Port ⊕ Identifier} :
    Brings (.addNode (.new .END n)) x ↔ x = .inl (n, 0) := by
  cases x with
  | inl p => simp [Brings, Node.new, Node.sectionCount, NodeType.info, Prod.ext_iff]
  | inr s => simp [Brings]

/-- A section brings itself. -/
theorem brings_section {s : Identifier} {x : Port ⊕ Identifier} :
    Brings (.addSection (.ofId s)) x ↔ x = .inr s := by
  cases x with
  | inl p => simp [Brings]
  | inr t => simp [Brings, Section.ofId, Section.new]

end Network

namespace Model.Refines

variable {m : Model} {N : Network}

/-- There is a valid ID that no node has. -/
theorem exists_fresh_node (h : m.Refines N) : ∃ n, isId n = true ∧ N.nodes n = none := by
  obtain ⟨n, hid, hn⟩ := exists_fresh_id m.m_nodes.keys
  rw [Finmap.mem_keys, ← exists_node_iff] at hn
  exact ⟨n, hid, h.node_none.1 (Option.eq_none_iff_forall_ne_some.2 fun a ha => hn ⟨a, ha⟩)⟩

/-- There is a valid ID that no section has. -/
theorem exists_fresh_section (h : m.Refines N) : ∃ s, isId s = true ∧ N.sections s = none := by
  obtain ⟨s, hid, hs⟩ := exists_fresh_id m.m_sections.keys
  rw [Finmap.mem_keys, ← exists_section_iff] at hs
  exact ⟨s, hid, h.section_none.1 (Option.eq_none_iff_forall_ne_some.2 fun a ha => hs ⟨a, ha⟩)⟩

/-- A dead end can be added, which brings one free slot. -/
theorem exists_addEnd (h : m.Refines N) : ∃ (n : Identifier) (m' : Model) (N' : Network), N.nodes n = none ∧
    N.Step (.addNode (.new .END n)) N' ∧ m'.Refines N' ∧
      ∀ x, N'.Free x ↔ N.Free x ∨ x = .inl (n, 0) := by
  obtain ⟨n, hid, hnew⟩ := h.exists_fresh_node
  have hbuilds : (Op.addNode (.new .END n)).Builds := ⟨_, _, {}, rfl⟩
  have hstep : N.Step (.addNode (.new .END n)) _ := .addNode hid hnew fun k _ => by
    rw [Classical.not_not.1 fun hk => absurd (Node.slotAt_new .END n k) hk]
    rfl
  obtain ⟨m', _, hm'⟩ := h.call_of_step hbuilds.constructed.wellFormed hstep
  refine ⟨n, m', _, hnew, hstep, hm', fun x => ?_⟩
  rw [hstep.free_iff hbuilds, Network.brings_end, and_iff_left (by cases x <;> exact id)]

/-- A section can be added, which is free. -/
theorem exists_addSection (h : m.Refines N) : ∃ (s : Identifier) (m' : Model) (N' : Network), N.sections s = none ∧
    N.Step (.addSection (.ofId s)) N' ∧ m'.Refines N' ∧
      ∀ x, N'.Free x ↔ N.Free x ∨ x = .inr s := by
  obtain ⟨s, hid, hnew⟩ := h.exists_fresh_section
  have hbuilds : (Op.addSection (.ofId s)).Builds := ⟨_, _, _, {}, rfl⟩
  have hstep : N.Step (.addSection (.ofId s)) _ :=
    .addSection hid hnew fun t b x _ hx => by cases hx
  obtain ⟨m', _, hm'⟩ := h.call_of_step hbuilds.constructed.wellFormed hstep
  refine ⟨s, m', _, hnew, hstep, hm', fun x => ?_⟩
  rw [hstep.free_iff hbuilds, Network.brings_section, and_iff_left (by cases x <;> exact id)]

/-- **A free slot is no dead end**: a new section leads from it to a new node. -/
theorem exists_fill_port (h : m.Refines N) {p : Port} (hp : N.Free (.inl p)) :
    ∃ ops N', (∀ op ∈ ops, op.Builds) ∧ N.Runs ops N' ∧
      ∀ x, N'.Free x ↔ N.Free x ∧ x ≠ .inl p := by
  obtain ⟨n, m₁, N₁, hn, hstep₁, h₁, hfree₁⟩ := h.exists_addEnd
  obtain ⟨s, m₂, N₂, hs, hstep₂, h₂, hfree₂⟩ := h₁.exists_addSection
  have hne : p.1 ≠ n := fun he => by
    obtain ⟨⟨a, ha, _⟩, _⟩ := hp
    rw [he, hn] at ha
    cases ha
  have hcan : N₂.CanLink s (p, (n, 0)) := Network.canLink_of_free ((hfree₂ _).2 (Or.inr rfl))
    ((hfree₂ _).2 (Or.inl ((hfree₁ _).2 (Or.inl hp))))
    ((hfree₂ _).2 (Or.inl ((hfree₁ _).2 (Or.inr rfl)))) hne
  have hstep₃ : N₂.Step (.link s p.1 p.2 n 0) _ := .link hcan
  refine ⟨[.addNode (.new .END n), .addSection (.ofId s), .link s p.1 p.2 n 0], _, ?_,
    ⟨N₁, hstep₁, N₂, hstep₂, _, hstep₃, rfl⟩, fun x => ?_⟩
  · intro op hop
    simp only [List.mem_cons, List.not_mem_nil, or_false] at hop
    rcases hop with rfl | rfl | rfl
    · exact ⟨_, _, {}, rfl⟩
    · exact ⟨_, _, _, {}, rfl⟩
    · trivial
  · have hnode : ¬ N.Free (.inl (n, 0)) := Network.not_free_node hn
    have hsection : ¬ N.Free (.inr s) := fun hs' =>
      Network.not_free_section hs ((hfree₁ _).2 (Or.inl hs'))
    rw [hstep₃.free_link, hfree₂, hfree₁]
    constructor
    · rintro ⟨(hx | rfl) | rfl, htaken⟩
      · exact ⟨hx, fun he => htaken (Or.inl he)⟩
      · exact absurd (Or.inr (Or.inl rfl)) htaken
      · exact absurd (Or.inr (Or.inr rfl)) htaken
    · rintro ⟨hx, hxp⟩
      refine ⟨Or.inl (Or.inl hx), ?_⟩
      rintro (rfl | rfl | rfl)
      · exact hxp rfl
      · exact hnode hx
      · exact hsection hx

/-- **A free section is no dead end**: it can be connected between two new nodes. -/
theorem exists_fill_section (h : m.Refines N) {s : Identifier} (hs : N.Free (.inr s)) :
    ∃ ops N', (∀ op ∈ ops, op.Builds) ∧ N.Runs ops N' ∧
      ∀ x, N'.Free x ↔ N.Free x ∧ x ≠ .inr s := by
  obtain ⟨n, m₁, N₁, hn, hstep₁, h₁, hfree₁⟩ := h.exists_addEnd
  obtain ⟨n', m₂, N₂, hn', hstep₂, h₂, hfree₂⟩ := h₁.exists_addEnd
  have hne : n ≠ n' := by
    rintro rfl
    exact Network.not_free_node hn' ((hfree₁ _).2 (Or.inr rfl))
  have hcan : N₂.CanLink s ((n, 0), (n', 0)) := Network.canLink_of_free
    ((hfree₂ _).2 (Or.inl ((hfree₁ _).2 (Or.inl hs))))
    ((hfree₂ _).2 (Or.inl ((hfree₁ _).2 (Or.inr rfl)))) ((hfree₂ _).2 (Or.inr rfl)) hne
  have hstep₃ : N₂.Step (.link s n 0 n' 0) _ := .link hcan
  refine ⟨[.addNode (.new .END n), .addNode (.new .END n'), .link s n 0 n' 0], _, ?_,
    ⟨N₁, hstep₁, N₂, hstep₂, _, hstep₃, rfl⟩, fun x => ?_⟩
  · intro op hop
    simp only [List.mem_cons, List.not_mem_nil, or_false] at hop
    rcases hop with rfl | rfl | rfl
    · exact ⟨_, _, {}, rfl⟩
    · exact ⟨_, _, {}, rfl⟩
    · trivial
  · have hnode : ¬ N.Free (.inl (n, 0)) := Network.not_free_node hn
    have hnode' : ¬ N.Free (.inl (n', 0)) := fun hfree =>
      Network.not_free_node hn' ((hfree₁ _).2 (Or.inl hfree))
    rw [hstep₃.free_link, hfree₂, hfree₁]
    constructor
    · rintro ⟨(hx | rfl) | rfl, htaken⟩
      · exact ⟨hx, fun he => htaken (Or.inr (Or.inr he))⟩
      · exact absurd (Or.inl rfl) htaken
      · exact absurd (Or.inr (Or.inl rfl)) htaken
    · rintro ⟨hx, hxs⟩
      refine ⟨Or.inl (Or.inl hx), ?_⟩
      rintro (rfl | rfl | rfl)
      · exact hnode hx
      · exact hnode' hx
      · exact hxs rfl

end Model.Refines

/-! ### Completing a model -/

namespace Model

/-- The slots that hold nothing and the sections that are not connected. -/
def free (m : Model) : Finset (Port ⊕ Identifier) :=
  (m.ports \ m.occupied).disjSum (m.m_sections.keys \ m.connected)

/-- `m'` has the nodes and sections of `m` as they are in `m`: what a section of `m` is
connected to, and what a slot of `m` holds, has not changed. -/
structure Extends (m m' : Model) : Prop where
  node : ∀ n node, m.node n = some node → ∃ node', m'.node n = some node' ∧
    node'.attrs = node.attrs ∧ ∀ k, node.slotAt k ≠ ID_NULL → node'.slotAt k = node.slotAt k
  «section» : ∀ s sec, m.section s = some sec → ∃ sec', m'.section s = some sec' ∧
    sec'.attrs = sec.attrs ∧ (sec.isConnected = true → sec' = sec)

/-- The model is reached from the network by additions and links. -/
def GrownFrom (N : Network) (m' : Model) : Prop :=
  ∃ ops N', (∀ op ∈ ops, op.Builds) ∧ N.Runs ops N' ∧ m'.Refines N'

namespace Refines

variable {m m' : Model} {N N' : Network}

/-- The list has what is free in the network. -/
theorem mem_free (h : m.Refines N) (x : Port ⊕ Identifier) : x ∈ m.free ↔ N.Free x := by
  cases x with
  | inl p => simp [free, Network.Free, h.mem_ports, h.mem_occupied]
  | inr s =>
      have hknown : (∃ sec, m.section s = some sec) ↔ ∃ c, N.sections s = some c :=
        ⟨fun ⟨_, hsec⟩ => (h.section_some hsec).imp fun _ hc => hc.1,
          fun ⟨_, hc⟩ => ⟨_, h.section_of_attrs hc⟩⟩
      simp only [free, Network.Free, Finset.inr_mem_disjSum, Finset.mem_sdiff, Finmap.mem_keys,
        ← exists_section_iff, h.mem_connected, Classical.not_not, hknown]

/-- Nothing is free exactly in the models of complete networks. -/
theorem complete_of_free (h : m.Refines N) (hfree : m.free = ∅) : N.Complete := by
  have hno : ∀ x, ¬ N.Free x := fun x hx => by
    have hmem := (h.mem_free x).2 hx
    rw [hfree] at hmem
    cases hmem
  exact ⟨fun hp hplug => hno (.inl _) ⟨hp, hplug⟩, fun ha hends => hno (.inr _) ⟨⟨_, ha⟩, hends⟩⟩

/-- A larger network has a larger model. -/
theorem «extends» (h : m.Refines N) (h' : m'.Refines N') (hext : N.Extends N') :
    m.Extends m' := by
  refine ⟨fun n node hnode => ?_, fun s sec hsec => ?_⟩
  · obtain ⟨a, ha, rfl⟩ := h.node_some hnode
    refine ⟨_, h'.node_of_attrs (hext.nodes ha), rfl, fun k hk => ?_⟩
    rw [Ne, N.slotAt_toNode_eq_null_iff] at hk
    obtain ⟨s, hs⟩ := Option.ne_none_iff_exists'.1 hk
    obtain ⟨q, hq, hp⟩ := (N.wiring.plug_iff _ s).1 hs
    have hs' : N'.wiring.plug (n, k) = some s := (N'.wiring.plug_iff _ s).2 ⟨q, hext.ends hq, hp⟩
    rw [N'.slotAt_toNode, N.slotAt_toNode, hs, hs']
  · obtain ⟨c, hc, rfl⟩ := h.section_some hsec
    refine ⟨_, h'.section_of_attrs (hext.sections hc), rfl, fun hcon => ?_⟩
    rw [N.isConnected_toSection] at hcon
    obtain ⟨q, hq⟩ := Option.isSome_iff_exists.1 hcon
    rw [Network.toSection, Network.toSection, hq, hext.ends hq]

/-- A free slot or section can be taken by itself. -/
theorem exists_fill (h : m.Refines N) {x : Port ⊕ Identifier} (hx : N.Free x) :
    ∃ ops N', (∀ op ∈ ops, op.Builds) ∧ N.Runs ops N' ∧ ∀ y, N'.Free y ↔ N.Free y ∧ y ≠ x := by
  cases x with
  | inl p => exact h.exists_fill_port hx
  | inr s => exact h.exists_fill_section hx

/-- **Additions and links lead to a complete network.** -/
theorem exists_complete (h : m.Refines N) : ∃ m', GrownFrom N m' ∧ m'.free = ∅ := by
  refine exists_exhausted (fun m₁ hm₁ x hx => ?_) ⟨[], N, by simp, rfl, h⟩
  obtain ⟨ops, N₁, hops, hruns, h₁⟩ := hm₁
  obtain ⟨ops', N₂, hops', hruns', hfree⟩ := h₁.exists_fill ((h₁.mem_free x).1 hx)
  obtain ⟨m₂, h₂⟩ := h₁.of_runs (fun op hop => (hops' op hop).constructed.wellFormed) hruns'
  refine ⟨m₂, ⟨ops ++ ops', N₂, fun op hop => ?_, Network.runs_append.2 ⟨N₁, hruns, hruns'⟩, h₂⟩,
    Finset.ext fun y => ?_⟩
  · exact (List.mem_append.1 hop).elim (hops op) (hops' op)
  · rw [h₂.mem_free, hfree, Finset.mem_erase, h₁.mem_free, and_comm]

end Refines

end Model

/-- **Every reachable model can be completed** by additions and links that all return
`OK`, and that leave what is there as it is. -/
theorem Reachable.completable {m : Model} (h : Reachable m) :
    ∃ ops m', (∀ op ∈ ops, op.Builds) ∧ Op.runAll ops m = .ok (true, m') ∧ m.Extends m' ∧
      ∀ nodeOrder sectionOrder, Finmap.Visits nodeOrder m'.m_nodes →
        Finmap.Visits sectionOrder m'.m_sections →
          m'.isComplete nodeOrder sectionOrder = .ok true := by
  obtain ⟨N, hN⟩ := h.refines
  obtain ⟨m', ⟨ops, N', hops, hruns, hN'⟩, hfree⟩ := hN.exists_complete
  exact ⟨ops, m', hops,
    hN.runAll_of_runs hN' (fun op hop => (hops op hop).constructed.wellFormed) hruns,
    hN.extends hN' (hruns.extends hops),
    fun _ _ hn hs => (hN'.isComplete_eq_true_iff hn hs).2 (hN'.complete_of_free hfree)⟩

/-- The small example can be completed. -/
theorem smallExample_completable : ∃ ops m', Op.runAll ops smallExample = .ok (true, m') ∧
    smallExample.Extends m' ∧ ∃ nodeOrder sectionOrder,
      m'.isComplete nodeOrder sectionOrder = .ok true := by
  obtain ⟨ops, m', _, hrun, hext, hcomplete⟩ := Reachable.completable reachable_smallExample
  obtain ⟨nodeOrder, hn⟩ := Finmap.exists_visits m'.m_nodes
  obtain ⟨sectionOrder, hs⟩ := Finmap.exists_visits m'.m_sections
  exact ⟨ops, m', hrun, hext, nodeOrder, sectionOrder, hcomplete _ _ hn hs⟩

end PiwcsPrw
