/-
# The fast checks of the removals

`Model::removeNode` and `Model::removeSection` in `src/model.cpp`.

Before it removes an entity the code asks whether anything still refers to it.
A node is referred to by the ends of sections and a section by the slots of
nodes; the code looks at neither, but at the slots of the node itself and at the
ends of the section itself, with the comment that this "is equivalent to
searching for references [...] but much faster".

`NamesNode` and `NamesSection` are that search.  In a model of a network both
sides of the comparison say that a cable is plugged in (`namesNode_iff` and
`vacant_iff`, `namesSection_iff` and `isId_toSection`), so in a reachable model
the comment is right (`Reachable.removal_checks`).

A node and a section may have the same ID.  What an end holds is the ID of a
node and what a slot holds is that of a section, so each search looks in the one
place that can name the entity in question.
-/

import PiwcsPrw.Runs.Consistent

namespace PiwcsPrw

namespace Model

/-- Some section starts or ends at the node `id`. -/
def NamesNode (m : Model) (id : IdRef) : Prop :=
  ∃ s sec, m.section s = some sec ∧ (sec.m_start = id ∨ sec.m_end = id)

/-- Some slot holds the section `id`. -/
def NamesSection (m : Model) (id : IdRef) : Prop := ∃ p, m.Holds p id

namespace Refines

variable {m : Model} {N : Network} {id : IdRef}

/-- A section starts or ends at the node exactly when one of its slots has a
cable. -/
theorem namesNode_iff (h : m.Refines N) (hid : id ≠ ID_NULL) :
    m.NamesNode id ↔ ∃ k, N.wiring.plug (id, k) ≠ none := by
  constructor
  · rintro ⟨s, sec, hsec, hend⟩
    obtain ⟨c, _, rfl⟩ := h.section_some hsec
    cases hq : N.wiring.ends s with
    | none =>
        simp only [Network.toSection, hq, Option.elim_none, or_self] at hend
        exact absurd hend.symm hid
    | some q =>
        simp only [Network.toSection, hq, Option.elim_some] at hend
        rcases hend with rfl | rfl
        · exact ⟨q.1.2, by simp [Wiring.plug_fst hq]⟩
        · exact ⟨q.2.2, by simp [Wiring.plug_snd hq]⟩
  · rintro ⟨k, hplug⟩
    obtain ⟨s, hs⟩ := Option.ne_none_iff_exists'.1 hplug
    obtain ⟨q, hq, hp⟩ := (N.wiring.plug_iff _ _).1 hs
    obtain ⟨c, hc⟩ := N.cable_exists hq
    refine ⟨s, _, h.section_of_attrs hc, ?_⟩
    simp only [Network.toSection, hq, Option.elim_some]
    exact hp.imp (fun he => congrArg Prod.fst he.symm) fun he => congrArg Prod.fst he.symm

/-- A slot holds the section exactly when its cable joins two ports. -/
theorem namesSection_iff (h : m.Refines N) (hid : id ≠ ID_NULL) :
    m.NamesSection id ↔ N.wiring.ends id ≠ none := by
  simp only [NamesSection, h.holds_iff_plug hid]
  constructor
  · rintro ⟨p, hp⟩ hnone
    exact Wiring.plug_ne_of_ends_eq_none hnone p hp
  · intro hends
    obtain ⟨q, hq⟩ := Option.ne_none_iff_exists'.1 hends
    exact ⟨q.1, Wiring.plug_fst hq⟩

/-- The scan over the slots of a node finds nothing exactly when no section names
the node. -/
theorem vacant_iff_not_namesNode (h : m.Refines N) {node : Node} (hnode : m.node id = some node) :
    Vacant node ↔ ¬ m.NamesNode id := by
  obtain ⟨a, ha, _⟩ := h.node_some hnode
  rw [h.vacant_iff hnode, h.namesNode_iff (ne_null_of_isId (N.isId_node ha))]
  push Not
  rfl

/-- The look at the ends of a section finds one exactly when some slot names the
section. -/
theorem ends_iff_namesSection (h : m.Refines N) {sec : Section} (hsec : m.section id = some sec) :
    (isId sec.m_start || isId sec.m_end) = true ↔ m.NamesSection id := by
  obtain ⟨c, hc, rfl⟩ := h.section_some hsec
  rw [N.isId_toSection, h.namesSection_iff (ne_null_of_isId (N.isId_section hc)),
    Option.isSome_iff_ne_none]

/-- `removeNode` against the search. -/
theorem removeNode_referenced_iff (h : m.Refines N) :
    (∃ m', m.removeNode id = .ok (.REFERENCED, m')) ↔ id ∈ m.m_nodes ∧ m.NamesNode id := by
  rw [← exists_node_iff]
  cases hnode : m.node id with
  | none => simp [removeNode_not_found hnode]
  | some node =>
      by_cases hv : Vacant node
      · have hno := (h.vacant_iff_not_namesNode hnode).1 hv
        simp [removeNode_ok hnode hv, hno]
      · have hnames : m.NamesNode id := by
          by_contra hno
          exact hv ((h.vacant_iff_not_namesNode hnode).2 hno)
        simp [removeNode_referenced hnode hv, hnames]

/-- `removeSection` against the search. -/
theorem removeSection_referenced_iff (h : m.Refines N) :
    (∃ m', m.removeSection id = (.REFERENCED, m')) ↔ id ∈ m.m_sections ∧ m.NamesSection id := by
  rw [← exists_section_iff]
  cases hsec : m.section id with
  | none => simp [removeSection_not_found hsec]
  | some sec =>
      by_cases hends : (isId sec.m_start || isId sec.m_end) = true
      · simp [removeSection_referenced hsec hends, (h.ends_iff_namesSection hsec).1 hends]
      · have hno := mt (h.ends_iff_namesSection hsec).2 hends
        rw [Bool.not_eq_true] at hends
        simp [removeSection_ok hsec hends, hno]

/-- Once a node is removed no section names it. -/
theorem not_namesNode_of_removeNode (h : m.Refines N) {m' : Model}
    (hrun : m.removeNode id = .ok (.OK, m')) : ¬ m'.NamesNode id := by
  cases hnode : m.node id with
  | none => simp [removeNode_not_found hnode] at hrun
  | some node =>
      by_cases hv : Vacant node
      · -- The sections are untouched, and the check has just passed.
        rw [removeNode_ok hnode hv, Except.ok.injEq, Prod.mk.injEq] at hrun
        obtain ⟨_, rfl⟩ := hrun
        exact (h.vacant_iff_not_namesNode hnode).1 hv
      · simp [removeNode_referenced hnode hv] at hrun

/-- Once a section is removed no slot names it. -/
theorem not_namesSection_of_removeSection (h : m.Refines N) {m' : Model}
    (hrun : m.removeSection id = (.OK, m')) : ¬ m'.NamesSection id := by
  cases hsec : m.section id with
  | none => simp [removeSection_not_found hsec] at hrun
  | some sec =>
      by_cases hends : (isId sec.m_start || isId sec.m_end) = true
      · simp [removeSection_referenced hsec hends] at hrun
      · have hno := mt (h.ends_iff_namesSection hsec).2 hends
        rw [Bool.not_eq_true] at hends
        rw [removeSection_ok hsec hends, Prod.mk.injEq] at hrun
        obtain ⟨_, rfl⟩ := hrun
        exact hno

end Refines

end Model

/-- **The fast checks find what the search finds.**  A removal is refused as
`REFERENCED` exactly when the entity exists and the rest of the model names it;
after one that returned `OK` nothing does. -/
theorem Reachable.removal_checks {m : Model} (h : Reachable m) (id : IdRef) :
    ((∃ m', m.removeNode id = .ok (.REFERENCED, m')) ↔ id ∈ m.m_nodes ∧ m.NamesNode id) ∧
      ((∃ m', m.removeSection id = (.REFERENCED, m')) ↔
        id ∈ m.m_sections ∧ m.NamesSection id) ∧
      (∀ m', m.removeNode id = .ok (.OK, m') → ¬ m'.NamesNode id) ∧
      ∀ m', m.removeSection id = (.OK, m') → ¬ m'.NamesSection id := by
  obtain ⟨N, hN⟩ := h.refines
  exact ⟨hN.removeNode_referenced_iff, hN.removeSection_referenced_iff,
    fun _ hrun => hN.not_namesNode_of_removeNode hrun,
    fun _ hrun => hN.not_namesSection_of_removeSection hrun⟩

/-- In the small example the section `S400` names both nodes. -/
theorem smallExample_removal_checks :
    ((∃ m', smallExample.removeNode (ascii "M145") = .ok (.REFERENCED, m')) ↔
        ascii "M145" ∈ smallExample.m_nodes ∧ smallExample.NamesNode (ascii "M145")) ∧
      smallExample.NamesNode (ascii "M145") :=
  ⟨(Reachable.removal_checks reachable_smallExample (ascii "M145")).1,
    ascii "S400", _, rfl, Or.inl rfl⟩

end PiwcsPrw
