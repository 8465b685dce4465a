/-
# Asking for the way on

`include/piwcsprwmodel.h` (Allowed Travel and Correctness), and what answers it:
`Section::node`, `isConnected` and `canTraverse`, `Node::slotOf`, `section` and
`couldTraverse`, `Model::node` and `section`.

The library knows of no trains.  It says of a section in which directions it may be
traversed and of a node from which slot to which, and a program that moves a train
through the model asks one after the other, with the IDs and slots the answers
contain.  `Model.advance` asks for the section that follows at a slot of the node
ahead, and `Model.Journey` is a list of trains each of which is what it answers for
the one before.  This is a debug build, so that an assertion that fails on the way
would show.

`couldTraverse` looks its answer up in the table of the node's type
(`Node.couldTraverse_eq_routes`), and `canTraverse` in a direction of the section
is one comparison (`Section.canTraverse_eq`).
-/

import PiwcsPrw.Entities.Debug
import PiwcsPrw.Foundation.Journeys

namespace PiwcsPrw

/-- A section and the direction in which a train is on it: from start to end, or
reversed. -/
abbrev Train := Leg Identifier

/-- The end of the section, `0` or `1`, that the train comes from. -/
def Train.src (t : Train) : SlotId := if t.reversed then 1 else 0

/-- The end of the section that the train goes to. -/
def Train.dst (t : Train) : SlotId := if t.reversed then 0 else 1

namespace Model

/-- The train is on a connected section that it may traverse. -/
def OnTrack (m : Model) (t : Train) : Prop :=
  ∃ sec, m.section t.cable = some sec ∧ sec.isConnected = true ∧
    sec.canTraverse t.src t.dst = pure true

/-- The node the train goes to. -/
def ahead (m : Model) (t : Train) : Option Node := do
  let sec ← m.section t.cable
  m.node (sec.node t.dst)

/-- Where the train is after the node ahead, if it may leave that node by the slot
`out`. -/
def advance (m : Model) (t : Train) (out : SlotId) : Debug (Option Train) := do
  match m.ahead t with
  | none => return none
  | some node =>
    let slot ← node.slotOf t.cable
    if !(← node.couldTraverseDebug slot out) then
      return none
    let nextId ← node.section out
    match m.section nextId with
    | none => return none
    | some next =>
      let train : Train := ⟨nextId, next.node 1 == node.m_id⟩
      if ← next.canTraverse train.src train.dst then
        return some train
      return none

/-- A journey: trains on track, each of them a way on from the one before. -/
structure Journey (m : Model) (ts : List Train) : Prop where
  onTrack : ∀ t ∈ ts, m.OnTrack t
  chain : ts.IsChain fun t t' => ∃ out, m.advance t out = pure (some t')

end Model

/-! ### The tables behind the answers -/

/-- The entry of the table of routes, `false` past it. -/
def NodeType.routes (type : NodeType) (src dst : SlotId) : Bool :=
  ((type.info.allowedRoutes[src]?).bind fun row => row[dst]?).getD false

/-- The routes of a type, one by one. -/
def NodeType.routeList (type : NodeType) : List (SlotId × SlotId) :=
  ((List.range MAX_SLOTS).product (List.range MAX_SLOTS)).filter fun r => type.routes r.1 r.2

/-- The list has the routes of the table. -/
theorem NodeType.mem_routeList {type : NodeType} {src dst : SlotId} :
    (src, dst) ∈ type.routeList ↔ type.routes src dst = true := by
  rw [routeList, List.mem_filter, List.pair_mem_product, List.mem_range, List.mem_range,
    and_iff_right_iff_imp]
  intro h
  have hsrc : src < MAX_SLOTS := by
    by_contra hge
    simp [routes, Vector.getElem?_eq_none (Nat.le_of_not_lt hge)] at h
  have hdst : dst < MAX_SLOTS := by
    by_contra hge
    simp [routes, Vector.getElem?_eq_getElem hsrc,
      Vector.getElem?_eq_none (Nat.le_of_not_lt hge)] at h
  exact ⟨hsrc, hdst⟩

/-- There are no routes from or to slots that do not exist. -/
theorem NodeType.lt_of_routes {type : NodeType} {src dst : SlotId}
    (h : type.routes src dst = true) : src < type.info.slotCount ∧ dst < type.info.slotCount := by
  have htable : ∀ r ∈ type.routeList, r.1 < type.info.slotCount ∧ r.2 < type.info.slotCount := by
    cases type <;> decide
  exact htable _ (mem_routeList.2 h)

/-- No route leads back into the slot it comes from. -/
theorem NodeType.ne_of_routes {type : NodeType} {src dst : SlotId}
    (h : type.routes src dst = true) : src ≠ dst := by
  have htable : ∀ r ∈ type.routeList, r.1 ≠ r.2 := by
    cases type <;> decide
  exact htable _ (mem_routeList.2 h)

/-- **`couldTraverse` looks into the table of routes**, and never past it. -/
theorem Node.couldTraverse_eq_routes (node : Node) (src dst : SlotId) :
    node.couldTraverse src dst = .ok (node.m_type.routes src dst) := by
  by_cases hin : src < node.sectionCount ∧ dst < node.sectionCount
  · have hsrc : src < MAX_SLOTS := lt_maxSlots hin.1
    have hdst : dst < MAX_SLOTS := lt_maxSlots hin.2
    simp [couldTraverse, hin.1.not_ge, hin.2.not_ge, Checked.read, hsrc, hdst, bind, Except.bind,
      NodeType.routes]
  · have hfalse : node.m_type.routes src dst = false := by
      rw [← Bool.not_eq_true]
      exact fun hroute => hin (NodeType.lt_of_routes hroute)
    rw [not_and_or, not_lt, not_lt] at hin
    rw [couldTraverse_eq_false hin, hfalse]

/-- **No assertion of `couldTraverse` fails**, and the answer is the table's. -/
theorem Node.couldTraverseDebug_eq_routes (node : Node) (src dst : SlotId) :
    node.couldTraverseDebug src dst = pure (node.m_type.routes src dst) := by
  rw [couldTraverseDebug_eq, couldTraverse_eq_routes, Asserting.lift_ok]

/-- In the direction of the section it may be traversed when travel is allowed, in the
other when it is bidirectional. -/
theorem Section.canTraverse_eq (sec : Section) (t : Train) : sec.canTraverse t.src t.dst
    = pure (if t.reversed then sec.isBidir else sec.allowsTravel) := by
  obtain ⟨s, reversed⟩ := t
  obtain ⟨data, id, start, stop, dir, dest⟩ := sec
  cases reversed <;> cases dir <;> rfl

/-! ### Routes through a node -/

/-- The types that let trains through both ways wherever they let them through. -/
def NodeType.bothWays (type : NodeType) : Bool :=
  type == .THRU || type == .MANUAL || type == .CROSSING

/-- **Which way a node can be passed back.**  A route leads back exactly through nodes
of three types. -/
theorem NodeType.routes_back {type : NodeType} {src dst : SlotId}
    (h : type.routes src dst = true) : type.routes dst src = true ↔ type.bothWays = true := by
  have htable : ∀ r ∈ type.routeList, type.routes r.2 r.1 = type.bothWays := by
    cases type <;> decide
  rw [htable _ (mem_routeList.2 h)]

/-- Only a motorized switch has two ways on. -/
theorem NodeType.routes_unique_dst {type : NodeType} (htype : type ≠ .MOTORIZED)
    {src dst dst' : SlotId} (h : type.routes src dst = true) (h' : type.routes src dst' = true) :
    dst = dst' := by
  have htable : ∀ r ∈ type.routeList, ∀ r' ∈ type.routeList, r.1 = r'.1 → r.2 = r'.2 := by
    revert htype
    cases type <;> decide
  exact htable _ (mem_routeList.2 h) _ (mem_routeList.2 h') rfl

/-- Only a passive switch has two ways in. -/
theorem NodeType.routes_unique_src {type : NodeType} (htype : type ≠ .PASSIVE)
    {src src' dst : SlotId} (h : type.routes src dst = true) (h' : type.routes src' dst = true) :
    src = src' := by
  have htable : ∀ r ∈ type.routeList, ∀ r' ∈ type.routeList, r.2 = r'.2 → r.1 = r'.1 := by
    revert htype
    cases type <;> decide
  exact htable _ (mem_routeList.2 h) _ (mem_routeList.2 h') rfl

end PiwcsPrw
