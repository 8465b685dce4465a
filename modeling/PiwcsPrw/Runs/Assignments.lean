/-
# Assignments through the pointers a model gives out

`Model::node(IdRef)` and `Model::section(IdRef)` in `src/model.cpp`, the overloads
that return `Node *` and `Section *`.

These pointers are how metadata are edited, but they let a caller assign a whole
value: `*model.node(id) = node`.  The private fields come along, ends and slots
included, so the assignment can break what the mutators keep up.

It does not exactly when the new value fits where the old one was.  A node has to
keep its ID and hold the same sections, each once, in whatever slots its type has
(`Node.Fits`); so a node may change its type, and its sections may trade slots.  A
section has to keep its ID and its two ends, which may be exchanged, and its address
must not be taken (`Section.Fits`).  By `consistent_iff_reachable` a model after such
an assignment is one that the mutators alone could have led to
(`Reachable.assignments`).
-/

import PiwcsPrw.Runs.Exact

namespace PiwcsPrw

/-- The node can stand where `node` stood under the key `id`. -/
structure Node.Fits (node' : Node) (id : Identifier) (node : Node) : Prop where
  key : node'.m_id = id
  unused : ∀ k, node'.sectionCount ≤ k → node'.slotAt k = ID_NULL
  once : ∀ k k', node'.slotAt k ≠ ID_NULL → node'.slotAt k = node'.slotAt k' → k = k'
  same : ∀ s, s ≠ ID_NULL → ((∃ k, node'.slotAt k = s) ↔ ∃ k, node.slotAt k = s)

/-- The section can stand where `sec` stood under the key `id`. -/
structure Section.Fits (sec' : Section) (m : Model) (id : Identifier) (sec : Section) : Prop where
  key : sec'.m_id = id
  ends : sec'.m_start = sec.m_start ∧ sec'.m_end = sec.m_end ∨
    sec'.m_start = sec.m_end ∧ sec'.m_end = sec.m_start
  address : ∀ t other x, t ≠ id → m.section t = some other → sec'.address? = some x →
    other.address? ≠ some x

namespace Model

/-- `*model.node(id) = node`. -/
def assignNode (m : Model) (id : IdRef) (node : Node) : Checked Model := do
  let _ ← Checked.deref (m.node id)
  return { m with m_nodes := m.m_nodes.insert id node }

/-- `*model.section(id) = std::move(section)`. -/
def assignSection (m : Model) (id : IdRef) (sec : Section) : Checked Model := do
  let _ ← Checked.deref (m.section id)
  return { m with m_sections := m.m_sections.insert id sec }

/-- **A node that is there is assigned**, whatever the new value is. -/
theorem assignNode_some {m : Model} {id : IdRef} {node : Node} (hnode : m.node id = some node)
    (node' : Node) :
    m.assignNode id node' = .ok { m with m_nodes := m.m_nodes.insert id node' } := by
  rw [assignNode, hnode]
  rfl

/-- Without a node the pointer is null. -/
theorem assignNode_none {m : Model} {id : IdRef} (hnode : m.node id = none) (node' : Node) :
    m.assignNode id node' = .error .nullDereference := by
  rw [assignNode, hnode]
  rfl

/-- **A section that is there is assigned**, whatever the new value is. -/
theorem assignSection_some {m : Model} {id : IdRef} {sec : Section}
    (hsec : m.section id = some sec) (sec' : Section) :
    m.assignSection id sec' = .ok { m with m_sections := m.m_sections.insert id sec' } := by
  rw [assignSection, hsec]
  rfl

/-- Without a section the pointer is null. -/
theorem assignSection_none {m : Model} {id : IdRef} (hsec : m.section id = none) (sec' : Section) :
    m.assignSection id sec' = .error .nullDereference := by
  rw [assignSection, hsec]
  rfl

/-- Where the other invariants hold, a section occupies two slots or none. -/
theorem ncard_holds {m : Model} {s : IdRef} {sec : Section}
    (hkey : ∀ {n node}, m.node n = some node → n ≠ ID_NULL)
    (hends : (sec.m_start = ID_NULL ∧ sec.m_end = ID_NULL) ∨
      (∃ start stop, m.node sec.m_start = some start ∧ m.node sec.m_end = some stop) ∧
        sec.m_start ≠ sec.m_end)
    (hiff : ∀ {n node}, m.node n = some node →
      ((∃ k, m.Holds (n, k) s) ↔ n = sec.m_start ∨ n = sec.m_end))
    (honce : ∀ {n node}, m.node n = some node → n = sec.m_start ∨ n = sec.m_end →
      ∃! k, m.Holds (n, k) s) :
    {p | m.Holds p s}.ncard = if sec.isConnected then 2 else 0 := by
  rcases hends with ⟨ha, hb⟩ | ⟨⟨start, stop, ha, hb⟩, hapart⟩
  · have hnone : {p | m.Holds p s} = ∅ := by
      ext ⟨n, k⟩
      simp only [Set.mem_ofPred_eq, Set.mem_empty_iff_false, iff_false]
      intro hp
      obtain ⟨node, hnode, _⟩ := id hp
      have hn := (hiff hnode).1 ⟨k, hp⟩
      rw [ha, hb, or_self] at hn
      exact hkey hnode hn
    simp [hnone, Section.isConnected, ha]
  · obtain ⟨i, hi, hi'⟩ := honce ha (Or.inl rfl)
    obtain ⟨j, hj, hj'⟩ := honce hb (Or.inr rfl)
    have hpair : {p | m.Holds p s} = {(sec.m_start, i), (sec.m_end, j)} := by
      ext ⟨n, k⟩
      simp only [Set.mem_ofPred_eq, Set.mem_insert_iff, Set.mem_singleton_iff, Prod.mk.injEq]
      constructor
      · intro hp
        obtain ⟨node, hnode, _⟩ := id hp
        rcases (hiff hnode).1 ⟨k, hp⟩ with rfl | rfl
        · exact Or.inl ⟨rfl, hi' k hp⟩
        · exact Or.inr ⟨rfl, hj' k hp⟩
      · rintro (⟨rfl, rfl⟩ | ⟨rfl, rfl⟩)
        · exact hi
        · exact hj
    have hcon : sec.isConnected = true := bne_iff_ne.2 (hkey ha)
    rw [hpair, if_pos hcon]
    exact Set.ncard_pair fun he => hapart (congrArg Prod.fst he)

/-! ### Nodes -/

section Nodes

variable {m : Model} {id : IdRef} {node node' : Node} {n s : Identifier}

/-- The nodes after the assignment. -/
theorem node_assigned (m : Model) (id : IdRef) (node' : Node) (n : Identifier) :
    Model.node { m with m_nodes := m.m_nodes.insert id node' } n
      = if n = id then some node' else m.node n :=
  Finmap.lookup_insert_eq ..

/-- A node after the assignment is the new one, or one of the others. -/
theorem node_assigned_cases {x : Node}
    (hx : Model.node { m with m_nodes := m.m_nodes.insert id node' } n = some x) :
    (n = id ∧ x = node') ∨ (n ≠ id ∧ m.node n = some x) := by
  rw [node_assigned] at hx
  split_ifs at hx with hn
  · exact Or.inl ⟨hn, (Option.some.inj hx).symm⟩
  · exact Or.inr ⟨hn, hx⟩

/-- There are nodes where there were. -/
theorem exists_node_assigned_iff (hnode : m.node id = some node) :
    (∃ x, Model.node { m with m_nodes := m.m_nodes.insert id node' } n = some x) ↔
      ∃ x, m.node n = some x := by
  rw [node_assigned]
  split_ifs with hn
  · rw [hn, hnode]
    exact ⟨fun _ => ⟨node, rfl⟩, fun _ => ⟨node', rfl⟩⟩
  · exact Iff.rfl

/-- A node holds a section exactly when it did. -/
theorem exists_holds_assigned_iff (hnode : m.node id = some node) (hfits : node'.Fits id node)
    (hs : s ≠ ID_NULL) :
    (∃ k, Holds { m with m_nodes := m.m_nodes.insert id node' } (n, k) s) ↔
      ∃ k, m.Holds (n, k) s := by
  simp only [Holds, node_assigned]
  split_ifs with hn
  · subst hn
    simpa [hnode] using hfits.same s hs
  · exact Iff.rfl

/-- And once, if it did. -/
theorem existsUnique_holds_assigned (hnode : m.node id = some node) (hfits : node'.Fits id node)
    (hs : s ≠ ID_NULL) (h : ∃! k, m.Holds (n, k) s) :
    ∃! k, Holds { m with m_nodes := m.m_nodes.insert id node' } (n, k) s := by
  obtain ⟨k, hk⟩ := (exists_holds_assigned_iff hnode hfits hs).2 h.exists
  by_cases hn : n = id
  · subst hn
    refine ⟨k, hk, fun k' hk' => ?_⟩
    simp only [Holds, node_assigned, if_true, Option.some.injEq, exists_eq_left'] at hk hk'
    exact hfits.once k' k (hk' ▸ hs) (hk'.trans hk.symm)
  · simpa only [Holds, node_assigned, if_neg hn] using h

/-- The node that fits keeps the model consistent. -/
theorem Consistent.assign_node (h : m.Consistent) (hnode : m.node id = some node)
    (hfits : node'.Fits id node) :
    Consistent { m with m_nodes := m.m_nodes.insert id node' } := by
  let m' : Model := { m with m_nodes := m.m_nodes.insert id node' }
  have hkey : ∀ {n x}, m'.node n = some x → n = x.m_id ∧ n ≠ ID_NULL ∧ n[0]? ≠ some '#'.toUInt8 := by
    intro n x hx
    rcases node_assigned_cases hx with ⟨rfl, rfl⟩ | ⟨_, hx⟩
    · exact ⟨hfits.key.symm, (h.node_key hnode).2⟩
    · exact h.node_key hx
  have hends : ∀ {s sec}, m.section s = some sec → (sec.m_start = ID_NULL ∧ sec.m_end = ID_NULL) ∨
      (∃ start stop, m'.node sec.m_start = some start ∧ m'.node sec.m_end = some stop) ∧
        sec.m_start ≠ sec.m_end := by
    intro s sec hsec
    refine (h.ends_known hsec).imp_right ?_
    rintro ⟨⟨start, stop, ha, hb⟩, hapart⟩
    obtain ⟨x, hx⟩ := (exists_node_assigned_iff hnode).2 ⟨start, ha⟩
    obtain ⟨y, hy⟩ := (exists_node_assigned_iff hnode).2 ⟨stop, hb⟩
    exact ⟨⟨x, y, hx, hy⟩, hapart⟩
  have hiff : ∀ {n x s sec}, m'.node n = some x → m.section s = some sec →
      ((∃ k, m'.Holds (n, k) s) ↔ n = sec.m_start ∨ n = sec.m_end) := by
    intro n x s sec hx hsec
    obtain ⟨y, hy⟩ := (exists_node_assigned_iff hnode).1 ⟨x, hx⟩
    rw [exists_holds_assigned_iff hnode hfits (h.section_key hsec).2.1, h.holds_iff hy hsec]
  have honce : ∀ {n x s sec}, m'.node n = some x → m.section s = some sec →
      n = sec.m_start ∨ n = sec.m_end → ∃! k, m'.Holds (n, k) s := by
    intro n x s sec hx hsec hend
    obtain ⟨y, hy⟩ := (exists_node_assigned_iff hnode).1 ⟨x, hx⟩
    exact existsUnique_holds_assigned hnode hfits (h.section_key hsec).2.1
      (h.holds_once hy hsec hend)
  exact
    { node_key := hkey
      section_key := h.section_key
      slot_known := fun {n x k} hx hk => by
        rcases node_assigned_cases hx with ⟨rfl, rfl⟩ | ⟨_, hx⟩
        · by_cases hnull : x.slotAt k = ID_NULL
          · exact Or.inl hnull
          · obtain ⟨k', hk'⟩ := (hfits.same _ hnull).1 ⟨k, rfl⟩
            exact Or.inr (h.section_of_holds (p := (n, k')) hnull ⟨node, hnode, hk'⟩).1
        · exact h.slot_known hx hk
      slot_unused := fun {n x k} hx hk => by
        rcases node_assigned_cases hx with ⟨rfl, rfl⟩ | ⟨_, hx⟩
        · exact hfits.unused k hk
        · exact h.slot_unused hx hk
      ends_known := hends
      holds_iff := hiff
      holds_once := honce
      holds_twice := fun {s sec} hsec => ncard_holds (fun hx => (hkey hx).2.1) (hends hsec)
        (fun hx => hiff hx hsec) fun hx hend => honce hx hsec hend
      address_unique := h.address_unique }

/-- Only a node that fits does. -/
theorem Consistent.fits_node (h : m.Consistent) (hnode : m.node id = some node)
    (h' : Consistent { m with m_nodes := m.m_nodes.insert id node' }) : node'.Fits id node := by
  have hself : Model.node { m with m_nodes := m.m_nodes.insert id node' } id = some node' := by
    rw [node_assigned, if_pos rfl]
  have hslot : ∀ k s, node'.slotAt k = s →
      Holds { m with m_nodes := m.m_nodes.insert id node' } (id, k) s :=
    fun k s hk => ⟨node', hself, hk⟩
  refine ⟨(h'.node_key hself).1.symm, fun k hk => h'.slot_unused hself hk, ?_, ?_⟩
  · intro k k' hnull heq
    obtain ⟨⟨sec, hsec⟩, _⟩ := h'.section_of_holds hnull (hslot k _ rfl)
    have hend := (h'.holds_iff hself hsec).1 ⟨k, hslot k _ rfl⟩
    exact h'.holds_unique hsec hend (hslot k _ rfl) (hslot k' _ heq.symm)
  · intro s hs
    constructor
    · rintro ⟨k, hk⟩
      obtain ⟨⟨sec, hsec⟩, _⟩ := h'.section_of_holds hs (hslot k s hk)
      have hend := (h'.holds_iff hself hsec).1 ⟨k, hslot k s hk⟩
      obtain ⟨k', x, hx, hk'⟩ := (h.holds_iff hnode hsec).2 hend
      obtain rfl := Option.some.inj (hnode.symm.trans hx)
      exact ⟨k', hk'⟩
    · rintro ⟨k, hk⟩
      have hold : m.Holds (id, k) s := ⟨node, hnode, hk⟩
      obtain ⟨⟨sec, hsec⟩, _⟩ := h.section_of_holds hs hold
      have hend := (h.holds_iff hnode hsec).1 ⟨k, hold⟩
      obtain ⟨k', x, hx, hk'⟩ := (h'.holds_iff hself hsec).2 hend
      obtain rfl := Option.some.inj (hself.symm.trans hx)
      exact ⟨k', hk'⟩

end Nodes

/-! ### Sections -/

section Sections

variable {m : Model} {id : IdRef} {sec sec' : Section} {s : Identifier} {x : Section}

/-- The sections after the assignment. -/
theorem section_assigned (m : Model) (id : IdRef) (sec' : Section) (s : Identifier) :
    Model.section { m with m_sections := m.m_sections.insert id sec' } s
      = if s = id then some sec' else m.section s :=
  Finmap.lookup_insert_eq ..

/-- A section after the assignment is the new one, or one of the others. -/
theorem section_assigned_cases
    (hx : Model.section { m with m_sections := m.m_sections.insert id sec' } s = some x) :
    (s = id ∧ x = sec') ∨ (s ≠ id ∧ m.section s = some x) := by
  rw [section_assigned] at hx
  split_ifs at hx with hs
  · exact Or.inl ⟨hs, (Option.some.inj hx).symm⟩
  · exact Or.inr ⟨hs, hx⟩

/-- The ends of a section are those of the section that stood there, in either order. -/
theorem ends_assigned (hsec : m.section id = some sec) (hfits : sec'.Fits m id sec)
    (hx : Model.section { m with m_sections := m.m_sections.insert id sec' } s = some x) :
    ∃ y, m.section s = some y ∧
      (x.m_start = y.m_start ∧ x.m_end = y.m_end ∨ x.m_start = y.m_end ∧ x.m_end = y.m_start) := by
  rcases section_assigned_cases hx with ⟨rfl, rfl⟩ | ⟨_, hx⟩
  · exact ⟨sec, hsec, hfits.ends⟩
  · exact ⟨x, hx, Or.inl ⟨rfl, rfl⟩⟩

/-- So a node is at an end of the one exactly when it is at an end of the other. -/
theorem isEnd_assigned_iff (hsec : m.section id = some sec) (hfits : sec'.Fits m id sec)
    (hx : Model.section { m with m_sections := m.m_sections.insert id sec' } s = some x)
    (n : Identifier) :
    ∃ y, m.section s = some y ∧ (n = x.m_start ∨ n = x.m_end ↔ n = y.m_start ∨ n = y.m_end) := by
  obtain ⟨y, hy, ⟨ha, hb⟩ | ⟨ha, hb⟩⟩ := ends_assigned hsec hfits hx
  · exact ⟨y, hy, by rw [ha, hb]⟩
  · exact ⟨y, hy, by rw [ha, hb, or_comm]⟩

/-- The section that fits keeps the model consistent. -/
theorem Consistent.assign_section (h : m.Consistent) (hsec : m.section id = some sec)
    (hfits : sec'.Fits m id sec) :
    Consistent { m with m_sections := m.m_sections.insert id sec' } := by
  let m' : Model := { m with m_sections := m.m_sections.insert id sec' }
  have hends : ∀ {s x}, m'.section s = some x → (x.m_start = ID_NULL ∧ x.m_end = ID_NULL) ∨
      (∃ start stop, m.node x.m_start = some start ∧ m.node x.m_end = some stop) ∧
        x.m_start ≠ x.m_end := by
    intro s x hx
    obtain ⟨y, hy, ⟨ha, hb⟩ | ⟨ha, hb⟩⟩ := ends_assigned hsec hfits hx <;> rw [ha, hb]
    · exact h.ends_known hy
    · refine (h.ends_known hy).imp And.symm ?_
      rintro ⟨⟨start, stop, hstart, hstop⟩, hapart⟩
      exact ⟨⟨stop, start, hstop, hstart⟩, hapart.symm⟩
  have hiff : ∀ {n node s x}, m.node n = some node → m'.section s = some x →
      ((∃ k, m.Holds (n, k) s) ↔ n = x.m_start ∨ n = x.m_end) := by
    intro n node s x hnode hx
    obtain ⟨y, hy, hn⟩ := isEnd_assigned_iff hsec hfits hx n
    rw [h.holds_iff hnode hy, hn]
  have honce : ∀ {n node s x}, m.node n = some node → m'.section s = some x →
      n = x.m_start ∨ n = x.m_end → ∃! k, m.Holds (n, k) s := by
    intro n node s x hnode hx hend
    obtain ⟨y, hy, hn⟩ := isEnd_assigned_iff hsec hfits hx n
    exact h.holds_once hnode hy (hn.1 hend)
  exact
    { node_key := h.node_key
      section_key := fun {s x} hx => by
        rcases section_assigned_cases hx with ⟨rfl, rfl⟩ | ⟨_, hx⟩
        · exact ⟨hfits.key.symm, (h.section_key hsec).2⟩
        · exact h.section_key hx
      slot_known := fun {n node k} hnode hk => by
        refine (h.slot_known hnode hk).imp_right ?_
        rintro ⟨y, hy⟩
        rw [section_assigned]
        split_ifs
        · exact ⟨sec', rfl⟩
        · exact ⟨y, hy⟩
      slot_unused := h.slot_unused
      ends_known := hends
      holds_iff := hiff
      holds_once := honce
      holds_twice := fun {s x} hx => ncard_holds (fun hnode => (h.node_key hnode).2.1) (hends hx)
        (fun hnode => hiff hnode hx) fun hnode hn => honce hnode hx hn
      address_unique := fun {s t x y adr} hx hy hxa hya => by
        rcases section_assigned_cases hx with ⟨rfl, rfl⟩ | ⟨hs, hold⟩
        · rcases section_assigned_cases hy with ⟨rfl, _⟩ | ⟨ht, hold⟩
          · rfl
          · exact absurd hya (hfits.address t y adr ht hold hxa)
        · rcases section_assigned_cases hy with ⟨rfl, rfl⟩ | ⟨_, hold'⟩
          · exact absurd hxa (hfits.address s x adr hs hold hya)
          · exact h.address_unique hold hold' hxa hya }

/-- Only a section that fits does. -/
theorem Consistent.fits_section (h : m.Consistent) (hsec : m.section id = some sec)
    (h' : Consistent { m with m_sections := m.m_sections.insert id sec' }) :
    sec'.Fits m id sec := by
  have hself : Model.section { m with m_sections := m.m_sections.insert id sec' } id
      = some sec' := by
    rw [section_assigned, if_pos rfl]
  -- The nodes did not change, so the two sections have the same nodes at their ends.
  have hiff : ∀ {n node}, m.node n = some node →
      (n = sec'.m_start ∨ n = sec'.m_end ↔ n = sec.m_start ∨ n = sec.m_end) :=
    fun hnode => (h'.holds_iff hnode hself).symm.trans (h.holds_iff hnode hsec)
  have hnull : ∀ {n node}, m.node n = some node → n ≠ ID_NULL := fun hnode =>
    (h.node_key hnode).2.1
  refine ⟨(h'.section_key hself).1.symm, ?_, fun t other x ht hother hx hx' => ?_⟩
  · rcases h.ends_known hsec with ⟨ha, hb⟩ | ⟨⟨_, _, ha, hb⟩, hapart⟩
    · rcases h'.ends_known hself with ⟨ha', hb'⟩ | ⟨⟨_, _, ha', _⟩, _⟩
      · exact Or.inl ⟨ha'.trans ha.symm, hb'.trans hb.symm⟩
      · have hend := (hiff ha').1 (Or.inl rfl)
        rw [ha, hb, or_self] at hend
        exact absurd hend (hnull ha')
    · rcases (hiff ha).2 (Or.inl rfl) with has | hae
      · rcases (hiff hb).2 (Or.inr rfl) with hbs | hbe
        · exact absurd (has.trans hbs.symm) hapart
        · exact Or.inl ⟨has.symm, hbe.symm⟩
      · rcases (hiff hb).2 (Or.inr rfl) with hbs | hbe
        · exact Or.inr ⟨hbs.symm, hae.symm⟩
        · exact absurd (hae.trans hbe.symm) hapart
  · have hother' : Model.section { m with m_sections := m.m_sections.insert id sec' } t
        = some other := by rw [section_assigned, if_neg ht, hother]
    exact ht (h'.address_unique hother' hself hx' hx)

end Sections

end Model

/-- **Which assignments through `node(id)` and `section(id)` a model survives.**  The
model after the assignment is one the mutators could have led to exactly when the new
value fits where the old one stood.  Without such an entity the null pointer is
followed. -/
theorem Reachable.assignments {m : Model} (h : Reachable m) (id : IdRef) :
    (∀ node node', m.node id = some node →
      ∃ m', m.assignNode id node' = .ok m' ∧ (Reachable m' ↔ node'.Fits id node)) ∧
    (∀ sec sec', m.section id = some sec →
      ∃ m', m.assignSection id sec' = .ok m' ∧ (Reachable m' ↔ sec'.Fits m id sec)) ∧
    (m.node id = none → ∀ node', m.assignNode id node' = .error .nullDereference) ∧
    (m.section id = none → ∀ sec', m.assignSection id sec' = .error .nullDereference) := by
  have hcon := consistent_iff_reachable.2 h
  refine ⟨fun node node' hnode => ⟨_, Model.assignNode_some hnode node', ?_⟩,
    fun sec sec' hsec => ⟨_, Model.assignSection_some hsec sec', ?_⟩,
    Model.assignNode_none, Model.assignSection_none⟩
  · rw [← consistent_iff_reachable]
    exact ⟨hcon.fits_node hnode, hcon.assign_node hnode⟩
  · rw [← consistent_iff_reachable]
    exact ⟨hcon.fits_section hsec, hcon.assign_section hsec⟩

/-- In the small example `T1034` may not become a node without connections: the
section `S400` still ends there. -/
theorem smallExample_assignments : ∃ m',
    smallExample.assignNode (ascii "T1034") (.new .THRU (ascii "T1034")) = .ok m' ∧
      ¬ Reachable m' := by
  have hnode : smallExample.node (ascii "T1034") = some _ := rfl
  have hassign := (Reachable.assignments reachable_smallExample (ascii "T1034")).1
  obtain ⟨m', hrun, hiff⟩ := hassign _ (.new .THRU (ascii "T1034")) hnode
  refine ⟨m', hrun, fun hreach => ?_⟩
  obtain ⟨k, hk⟩ := ((hiff.1 hreach).same (ascii "S400") (by decide)).2 ⟨0, by decide⟩
  rw [Node.slotAt_new] at hk
  revert hk
  decide

end PiwcsPrw
