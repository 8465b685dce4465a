/-
# What a mutator leaves alone

`src/model.cpp`, against the results documented in
`include/piwcsprwmodel/model.h`: "should addition fail, all objects remain valid
and no change is made", and the like for the other mutators.

`Settles` is the shape of all six results: the call returns, a result other than
`OK` comes with the very same model, and `OK` comes with a stated effect.  The
effects are written entry by entry, so that they say what stays as well as what
changes.  `Model.Framed` collects them and `Reachable.framed` proves them of
every reachable model.  Only `unlink` needs that much: the other five are what
they are on any model.
-/

import PiwcsPrw.Runs.Reachable

namespace PiwcsPrw

/-- The call returns; failing it changes nothing, and succeeding it has the
given effect. -/
def Settles {R : Type} (OK : R) (m : Model) (call : Checked (R × Model)) (effect : Model → Prop) :
    Prop :=
  ∃ r m', call = .ok (r, m') ∧ (r ≠ OK → m' = m) ∧ (r = OK → effect m')

namespace Model

/-- The node, and nothing else, is added. -/
def AddsNode (m : Model) (node : Node) (m' : Model) : Prop :=
  m.node node.m_id = none ∧ m'.m_sections = m.m_sections ∧
    ∀ n, m'.node n = if n = node.m_id then some node else m.node n

/-- The section, and nothing else, is added. -/
def AddsSection (m : Model) (sec : Section) (m' : Model) : Prop :=
  m.section sec.m_id = none ∧ m'.m_nodes = m.m_nodes ∧
    ∀ s, m'.section s = if s = sec.m_id then some sec else m.section s

/-- The node, and nothing else, is removed. -/
def RemovesNode (m : Model) (id : IdRef) (m' : Model) : Prop :=
  m.node id ≠ none ∧ m'.m_sections = m.m_sections ∧
    ∀ n, m'.node n = if n = id then none else m.node n

/-- The section, and nothing else, is removed. -/
def RemovesSection (m : Model) (id : IdRef) (m' : Model) : Prop :=
  m.section id ≠ none ∧ m'.m_nodes = m.m_nodes ∧
    ∀ s, m'.section s = if s = id then none else m.section s

/-- Slot `i` of `a` and slot `j` of `b` are set to `s`, and the ends of `s` to
`a` and `b`; nothing else changes. -/
def Links (m : Model) (s a : IdRef) (i : SlotId) (b : IdRef) (j : SlotId) (m' : Model) : Prop :=
  ∃ sec start stop, m.section s = some sec ∧ m.node a = some start ∧ m.node b = some stop ∧
    (∀ n, m'.node n = if n = a then some (start.put i s)
      else if n = b then some (stop.put j s) else m.node n) ∧
    ∀ t, m'.section t = if t = s then some { sec with m_start := a, m_end := b }
      else m.section t

/-- The one slot of its start and the one slot of its end that hold `s` are set
to `ID_NULL`, and so are the ends of `s`; nothing else changes. -/
def Unlinks (m : Model) (s : IdRef) (m' : Model) : Prop :=
  ∃ sec start stop i j, m.section s = some sec ∧ m.node sec.m_start = some start ∧
    m.node sec.m_end = some stop ∧ sec.m_start ≠ sec.m_end ∧
    (∀ k, start.slotAt k = s ↔ k = i) ∧ (∀ k, stop.slotAt k = s ↔ k = j) ∧
    (∀ n, m'.node n = if n = sec.m_start then some (start.put i ID_NULL)
      else if n = sec.m_end then some (stop.put j ID_NULL) else m.node n) ∧
    ∀ t, m'.section t = if t = s then some { sec with m_start := ID_NULL, m_end := ID_NULL }
      else m.section t

/-- What each of the six mutators may change in the model `m`, and when `link`
returns `OK`. -/
structure Framed (m : Model) : Prop where
  addNode : ∀ node, Settles .OK m (m.addNode node) (m.AddsNode node)
  addSection : ∀ sec, Settles .OK m (.ok (m.addSection sec)) (m.AddsSection sec)
  removeNode : ∀ id, Settles .OK m (m.removeNode id) (m.RemovesNode id)
  removeSection : ∀ id, Settles .OK m (.ok (m.removeSection id)) (m.RemovesSection id)
  link : ∀ s a i b j, Settles .OK m (m.link s a i b j) (m.Links s a i b j)
  unlink : ∀ s, Settles .OK m (m.unlink s) (m.Unlinks s)
  link_ok_iff : ∀ s a i b j, (∃ m', m.link s a i b j = .ok (.OK, m')) ↔
    ∃ sec start stop, m.section s = some sec ∧ m.node a = some start ∧ m.node b = some stop ∧
      a ≠ b ∧ i < start.sectionCount ∧ j < stop.sectionCount ∧ start.slotAt i = ID_NULL ∧
      stop.slotAt j = ID_NULL ∧ sec.isConnected = false

end Model

/-- A call that returns `OK`. -/
theorem Settles.of_ok {R : Type} {OK : R} {m m' : Model} {call : Checked (R × Model)}
    {effect : Model → Prop} (hcall : call = .ok (OK, m')) (h : effect m') :
    Settles OK m call effect :=
  ⟨OK, m', hcall, fun hne => absurd rfl hne, fun _ => h⟩

/-- A call that fails. -/
theorem Settles.of_not_ok {R : Type} {OK r : R} {m : Model} {call : Checked (R × Model)}
    {effect : Model → Prop} (hr : r ≠ OK) (hcall : call = .ok (r, m)) : Settles OK m call effect :=
  ⟨r, m, hcall, fun _ => rfl, fun h => absurd h hr⟩

namespace Model

/-! ### On any model -/

/-- **`addNode` on any model.** -/
theorem addNode_settles (m : Model) (node : Node) :
    Settles .OK m (m.addNode node) (m.AddsNode node) := by
  by_cases hcan : m.CanAddNode node
  · exact .of_ok (addNode_ok hcan) ⟨hcan.fresh, rfl, fun n => Finmap.lookup_insert_eq ..⟩
  · obtain ⟨r, hr, hcall⟩ := addNode_not_ok hcan
    exact .of_not_ok hr hcall

/-- **`addSection` on any model.** -/
theorem addSection_settles (m : Model) (sec : Section) :
    Settles .OK m (.ok (m.addSection sec)) (m.AddsSection sec) := by
  by_cases hcan : m.CanAddSection sec
  · exact .of_ok (congrArg _ (addSection_ok hcan))
      ⟨hcan.fresh, rfl, fun s => Finmap.lookup_insert_eq ..⟩
  · obtain ⟨r, hr, hcall⟩ := addSection_not_ok hcan
    exact .of_not_ok hr (congrArg _ hcall)

/-- **`removeNode` on any model.** -/
theorem removeNode_settles (m : Model) (id : IdRef) :
    Settles .OK m (m.removeNode id) (m.RemovesNode id) := by
  cases hnode : m.node id with
  | none => exact .of_not_ok (by decide) (removeNode_not_found hnode)
  | some node =>
      by_cases hv : Vacant node
      · exact .of_ok (removeNode_ok hnode hv)
          ⟨by simp [hnode], rfl, fun n => Finmap.lookup_erase_eq ..⟩
      · exact .of_not_ok (by decide) (removeNode_referenced hnode hv)

/-- **`removeSection` on any model.** -/
theorem removeSection_settles (m : Model) (id : IdRef) :
    Settles .OK m (.ok (m.removeSection id)) (m.RemovesSection id) := by
  cases hsec : m.section id with
  | none => exact .of_not_ok (by decide) (congrArg _ (removeSection_not_found hsec))
  | some sec =>
      cases hends : isId sec.m_start || isId sec.m_end with
      | false =>
          exact .of_ok (congrArg _ (removeSection_ok hsec hends))
            ⟨by simp [hsec], rfl, fun s => Finmap.lookup_erase_eq ..⟩
      | true => exact .of_not_ok (by decide) (congrArg _ (removeSection_referenced hsec hends))

/-- Every lookup after two nodes were written. -/
theorem lookup_write_two (nodes : IdMap Node) {a b : Identifier} (hab : a ≠ b) (x y : Node)
    (n : Identifier) : ((nodes.insert a x).insert b y).lookup n =
      if n = a then some x else if n = b then some y else nodes.lookup n := by
  rw [Finmap.lookup_insert_eq, Finmap.lookup_insert_eq]
  rcases eq_or_ne n a with rfl | hna
  · rw [if_neg hab, if_pos rfl, if_pos rfl]
  · rw [if_neg hna, if_neg hna]

/-- **`link` on any model.** -/
theorem link_settles (m : Model) (s a : IdRef) (i : SlotId) (b : IdRef) (j : SlotId) :
    Settles .OK m (m.link s a i b j) (m.Links s a i b j) := by
  by_cases hcan : ∃ sec start stop, m.CanLink s a i b j sec start stop
  · obtain ⟨sec, start, stop, hcan⟩ := hcan
    exact .of_ok (link_ok hcan) ⟨sec, start, stop, hcan.has_section, hcan.has_start,
      hcan.has_stop, lookup_write_two m.m_nodes hcan.apart _ _,
      fun t => Finmap.lookup_insert_eq ..⟩
  · obtain ⟨r, hr, hcall⟩ := link_not_ok fun sec start stop h => hcan ⟨sec, start, stop, h⟩
    exact .of_not_ok hr hcall

/-- When `link` returns `OK`. -/
theorem link_ok_iff (m : Model) (s a : IdRef) (i : SlotId) (b : IdRef) (j : SlotId) :
    (∃ m', m.link s a i b j = .ok (.OK, m')) ↔
      ∃ sec start stop, m.CanLink s a i b j sec start stop := by
  constructor
  · rintro ⟨m', hcall⟩
    by_contra hno
    obtain ⟨r, hr, hcall'⟩ := link_not_ok fun sec start stop h => hno ⟨sec, start, stop, h⟩
    rw [hcall, Except.ok.injEq, Prod.mk.injEq] at hcall'
    exact hr hcall'.1.symm
  · rintro ⟨sec, start, stop, hcan⟩
    exact ⟨_, link_ok hcan⟩

/-! ### On a model of a network -/

/-- **`unlink` on a model of a network**, where it finds both slots. -/
theorem Refines.unlink_settles {m : Model} {N : Network} (h : m.Refines N) (s : IdRef) :
    Settles .OK m (m.unlink s) (m.Unlinks s) := by
  cases hq : N.wiring.ends s with
  | none =>
      obtain ⟨r, hr, hcall⟩ := h.unlink_refused hq
      exact .of_not_ok hr hcall
  | some q =>
      obtain ⟨c, na, nb, hc, hna, hnb, hcall⟩ := h.unlink hq
      have hs := ne_null_of_isId (N.isId_section hc)
      have hstart : (N.toSection s c).m_start = q.1.1 := by simp [Network.toSection, hq]
      have hstop : (N.toSection s c).m_end = q.2.1 := by simp [Network.toSection, hq]
      refine .of_ok hcall ⟨N.toSection s c, N.toNode q.1.1 na, N.toNode q.2.1 nb, q.1.2, q.2.2,
        h.section_of_attrs hc, ?_, ?_, ?_, fun k => ?_, fun k => ?_, ?_,
        fun t => Finmap.lookup_insert_eq ..⟩
      · rw [hstart]
        exact h.node_of_attrs hna
      · rw [hstop]
        exact h.node_of_attrs hnb
      · rw [hstart, hstop]
        exact N.ends_apart hq
      · rw [N.slotAt_toNode_eq_iff hs, N.plug_start_iff hq]
      · rw [N.slotAt_toNode_eq_iff hs, N.plug_stop_iff hq]
      · rw [hstart, hstop]
        exact lookup_write_two m.m_nodes (N.ends_apart hq) _ _

end Model

/-- **Failed mutations change nothing, and successful ones only what they
name.** -/
theorem Reachable.framed {m : Model} (h : Reachable m) : m.Framed where
  addNode := m.addNode_settles
  addSection := m.addSection_settles
  removeNode := m.removeNode_settles
  removeSection := m.removeSection_settles
  link := m.link_settles
  unlink := by
    obtain ⟨N, hN⟩ := h.refines
    exact hN.unlink_settles
  link_ok_iff s a i b j := by
    rw [m.link_ok_iff]
    constructor
    · rintro ⟨sec, start, stop, hsec, hstart, hstop, hab, hi, hj, hfi, hfj, hfree⟩
      refine ⟨sec, start, stop, hsec, hstart, hstop, hab, hi, hj, hfi, hfj, ?_⟩
      rw [Section.isConnected, hfree, bne_self_eq_false]
    · rintro ⟨sec, start, stop, hsec, hstart, hstop, hab, hi, hj, hfi, hfj, hfree⟩
      rw [Section.isConnected, bne_eq_false_iff_eq] at hfree
      exact ⟨sec, start, stop, hsec, hstart, hstop, hab, hi, hj, hfi, hfj, hfree⟩

/-- In particular of the small example. -/
theorem smallExample_framed : smallExample.Framed := Reachable.framed reachable_smallExample

end PiwcsPrw
