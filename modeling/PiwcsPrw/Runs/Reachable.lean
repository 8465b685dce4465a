/-
# The models a program can reach

A program owns a `Model` and calls its mutators in any order, whatever they
return; between calls it edits metadata through the pointers `node(id)` and
`section(id)`.  The nodes and sections it passes are values it constructed, with
any metadata, or nodes copied out of a model it reached (sections cannot be
copied).

Every reachable model refines a network (`Reachable.refines`): one call keeps
the refinement (`Model.Refines.call`), so a run does.  The file ends with the
small example of `include/piwcsprwmodel.h`, which the results about reachable
models are tried on.
-/

import PiwcsPrw.Network.Step

namespace PiwcsPrw

/-- The models reached from the empty one. -/
inductive Reachable : Model → Prop
  | empty : Reachable .empty
  | call {m m' : Model} {ok : Bool} (op : Op) : Reachable m → op.Constructed →
      op.call m = .ok (ok, m') → Reachable m'
  | copy {m m₀ m' : Model} {ok : Bool} {id : IdRef} {node : Node} (data : HasMetadata) :
      Reachable m → Reachable m₀ → m₀.node id = some node →
        (Op.addNode { node with toHasMetadata := data }).call m = .ok (ok, m') → Reachable m'

/-- One call on a model of a network leaves a model of a network. -/
theorem Model.Refines.call_refines {m m' : Model} {N : Network} (h : m.Refines N) {op : Op}
    (hop : op.WellFormed) {ok : Bool} (hcall : op.call m = .ok (ok, m')) : ∃ N', m'.Refines N' := by
  rcases h.call hop with ⟨m₁, N₁, hcall₁, _, h₁⟩ | ⟨hcall₁, _⟩
  · rw [hcall₁, Except.ok.injEq, Prod.mk.injEq] at hcall
    exact ⟨N₁, hcall.2 ▸ h₁⟩
  · rw [hcall₁, Except.ok.injEq, Prod.mk.injEq] at hcall
    exact ⟨N, hcall.2 ▸ h⟩

/-- **Every reachable model refines a network.** -/
theorem Reachable.refines {m : Model} (h : Reachable m) : ∃ N, m.Refines N := by
  induction h with
  | empty => exact ⟨.empty, .empty⟩
  | call op _ hop hcall ih =>
      obtain ⟨N, hN⟩ := ih
      exact hN.call_refines hop.wellFormed hcall
  | copy data _ _ hnode hcall ih ih₀ =>
      obtain ⟨N, hN⟩ := ih
      obtain ⟨N₀, hN₀⟩ := ih₀
      obtain ⟨a, ha, rfl⟩ := hN₀.node_some hnode
      -- The copy brings its slots along, which a consistent model keeps in order.
      have hwf : (Op.addNode { N₀.toNode _ a with toHasMetadata := data }).WellFormed :=
        N₀.wellFormed_toNode ha
      exact hN.call_refines hwf hcall

/-- A run of calls on constructed values stays within the reachable models. -/
theorem Reachable.runAll {ops : List Op} (hops : ∀ op ∈ ops, op.Constructed) {m m' : Model}
    {oks : Bool} (h : Reachable m) (hrun : Op.runAll ops m = .ok (oks, m')) : Reachable m' := by
  induction ops generalizing m oks with
  | nil =>
      rw [Op.runAll, pure, Except.instMonad] at hrun
      obtain ⟨_, rfl⟩ := Prod.mk.inj (Except.ok.inj hrun)
      exact h
  | cons op ops ih =>
      have hop := hops op (List.mem_cons_self ..)
      rw [Op.runAll] at hrun
      cases hcall : op.call m with
      | error e =>
          rw [hcall] at hrun
          cases hrun
      | ok r =>
          cases hrest : Op.runAll ops r.2 with
          | error e =>
              simp [hcall, hrest, bind, Except.bind] at hrun
          | ok r' =>
              simp only [hcall, hrest, bind, Except.bind, pure, Except.pure] at hrun
              obtain ⟨_, rfl⟩ := Prod.mk.inj (Except.ok.inj hrun)
              exact ih (fun op hmem => hops op (List.mem_cons_of_mem _ hmem)) (.call op h hop hcall)
                hrest

/-! ### The small example -/

/-- The calls that build the first illustrated example: slot `2` of `M145` is
connected to the start of `S400`, slot `0` of `T1034` to its end. -/
def smallExampleCalls : List Op :=
  [.addNode (.new .MOTORIZED (ascii "M145")), .addNode (.new .THRU (ascii "T1034")),
    .addSection (.ofId (ascii "S400")), .link (ascii "S400") (ascii "M145") 2 (ascii "T1034") 0]

/-- The first illustrated example. -/
def smallExample : Model where
  m_nodes := (Finmap.insert (ascii "M145")
      { Node.new .MOTORIZED (ascii "M145") with m_slots := #v[[], [], ascii "S400", []] } ∅).insert
    (ascii "T1034")
      { Node.new .THRU (ascii "T1034") with m_slots := #v[ascii "S400", [], [], []] }
  m_sections := Finmap.insert (ascii "S400")
    { Section.ofId (ascii "S400") with m_start := ascii "M145", m_end := ascii "T1034" } ∅

/-- They all return `OK`, and build it. -/
theorem runAll_smallExampleCalls :
    Op.runAll smallExampleCalls .empty = .ok (true, smallExample) := by
  decide

/-- **The first illustrated example can be reached.** -/
theorem reachable_smallExample : Reachable smallExample := by
  refine .runAll (fun op hop => ?_) .empty runAll_smallExampleCalls
  simp only [smallExampleCalls, List.mem_cons, List.not_mem_nil, or_false] at hop
  rcases hop with rfl | rfl | rfl | rfl
  · exact ⟨_, _, {}, rfl⟩
  · exact ⟨_, _, {}, rfl⟩
  · exact ⟨_, _, _, {}, rfl⟩
  · trivial

end PiwcsPrw
