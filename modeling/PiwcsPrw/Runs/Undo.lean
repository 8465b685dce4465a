/-
# Every run can be taken back

The mutators in `src/model.cpp`, over whole runs.

A call that returned `OK` can be taken back by one call of the public interface, and
which one can be read off the model before the call (`Model.undo`): what was added is
removed, what was removed is added again as it was, a section is connected again at the
slots `slotOf` found it in.  Taking back all the calls of a run that returned `OK`, the
last one first, all of these return `OK` and the model is the one before the run
(`Reachable.undone`).

So from any reachable model every other one can be reached (`Reachable.leads_to`): the
calls that built the one are taken back, and the other is built.
-/

import PiwcsPrw.Runs.Commute
import PiwcsPrw.Runs.Exact
import PiwcsPrw.Runs.Inverse

namespace PiwcsPrw

namespace Model

/-- The call that takes a call back, read off the model before it. -/
def undo (m : Model) : Op → Checked Op
  | .addNode node => return .removeNode node.m_id
  | .addSection sec => return .removeSection sec.m_id
  | .removeNode n => do return .addNode (← Checked.deref (m.node n))
  | .removeSection s => do return .addSection (← Checked.deref (m.section s))
  | .link s _ _ _ _ => return .unlink s
  | .unlink s => do
      let sec ← Checked.deref (m.section s)
      let start ← Checked.deref (m.node sec.m_start)
      let stop ← Checked.deref (m.node sec.m_end)
      return .link s sec.m_start (← start.slotOf sec.m_id) sec.m_end (← stop.slotOf sec.m_id)
  | .nodeMetadata n _ => return .nodeMetadata n ((m.node n).elim {} Node.toHasMetadata)
  | .sectionMetadata s _ => return .sectionMetadata s ((m.section s).elim {} Section.toHasMetadata)

/-- The calls that take back a run: one for each call that returned `OK`, the last one
first. -/
def undoAll (m : Model) : List Op → Checked (List Op)
  | [] => return []
  | op :: ops => do
      let (ok, m') ← op.call m
      let calls ← m'.undoAll ops
      if ok then return calls ++ [← m.undo op] else return calls

end Model

namespace Network

variable {N N' : Network}

/-- A node just added can be removed, which gives back the network. -/
theorem step_removeNode_addNode {n : Identifier} {a : NodeAttrs} (hid : isId n = true)
    (hnew : N.nodes n = none) : (N.addNode n a hid hnew).Step (.removeNode n) N := by
  have hknown : (N.addNode n a hid hnew).nodes n ≠ none := by simp [addNode]
  have hfree : ∀ k, (N.addNode n a hid hnew).wiring.plug (n, k) = none := fun k => by
    by_contra hplug
    obtain ⟨s, hs⟩ := Option.ne_none_iff_exists'.1 hplug
    obtain ⟨b, hb, _⟩ := N.port_exists hs
    rw [hnew] at hb
    cases hb
  convert Step.removeNode hknown hfree using 1
  refine ext (funext fun x => ?_) rfl rfl
  by_cases hx : x = n
  · simp [removeNode, hx, hnew]
  · simp [removeNode, addNode, hx]

/-- A section just added can be removed, which gives back the network. -/
theorem step_removeSection_addSection {s : Identifier} {c : SectionAttrs} (hid : isId s = true)
    (hnew : N.sections s = none)
    (haddr : ∀ t b x, N.sections t = some b → c.address? = some x → b.address? ≠ some x) :
    (N.addSection s c hid hnew haddr).Step (.removeSection s) N := by
  have hknown : (N.addSection s c hid hnew haddr).sections s ≠ none := by simp [addSection]
  have hfree : (N.addSection s c hid hnew haddr).wiring.ends s = none := by
    by_contra hends
    obtain ⟨q, hq⟩ := Option.ne_none_iff_exists'.1 hends
    obtain ⟨b, hb⟩ := N.cable_exists hq
    rw [hnew] at hb
    cases hb
  convert Step.removeSection hknown hfree using 1
  refine ext rfl (funext fun x => ?_) rfl
  by_cases hx : x = s
  · simp [removeSection, hx, hnew]
  · simp [removeSection, addSection, hx]

/-- A node whose slots are free is one a constructor returns. -/
theorem toNode_eq_new {n : Identifier} {a : NodeAttrs} (hfree : ∀ k, N.wiring.plug (n, k) = none) :
    N.toNode n a = { Node.new a.type n with toHasMetadata := a.data } := by
  refine Node.ext_slotAt rfl rfl rfl fun k _ => ?_
  rw [N.slotAt_toNode_eq_null_iff.2 (hfree k)]
  exact (Classical.not_not.1 fun hk => absurd (Node.slotAt_new a.type n k) hk).symm

/-- A node just removed can be added again, which gives back the network. -/
theorem step_addNode_removeNode {n : Identifier} {a : NodeAttrs} (ha : N.nodes n = some a)
    (hfree : ∀ k, N.wiring.plug (n, k) = none) :
    (N.removeNode n hfree).Step (.addNode (N.toNode n a)) N := by
  have hvacant : Model.Vacant (N.toNode n a) := fun k _ => by
    rw [N.slotAt_toNode_eq_null_iff.2 (hfree k)]
    rfl
  have hstep : (N.removeNode n hfree).Step (.addNode (N.toNode n a)) _ :=
    .addNode (N.isId_node ha) (if_pos rfl) hvacant
  convert hstep using 1
  refine ext (funext fun x => ?_) rfl rfl
  by_cases hx : x = n
  · simp [addNode, toNode, hx, ha]
  · simp [addNode, removeNode, toNode, hx]

/-- A section just removed can be added again, which gives back the network. -/
theorem step_addSection_removeSection {s : Identifier} {c : SectionAttrs}
    (hc : N.sections s = some c) (hfree : N.wiring.ends s = none) :
    (N.removeSection s hfree).Step (.addSection (N.toSection s c)) N := by
  have haddr : ∀ t b x, (N.removeSection s hfree).sections t = some b → c.address? = some x →
      b.address? ≠ some x := fun t b x hb hx hx' => by
    by_cases ht : t = s
    · simp [removeSection, ht] at hb
    · exact ht (N.address_unique (by simpa [removeSection, ht] using hb) hc hx' hx)
  have hstep : (N.removeSection s hfree).Step (.addSection (N.toSection s c)) _ :=
    .addSection (N.isId_section hc) (if_pos rfl) haddr
  convert hstep using 1
  refine ext rfl (funext fun x => ?_) rfl
  by_cases hx : x = s
  · simp [addSection, toSection, hx, hc]
  · simp [addSection, removeSection, toSection, hx]

/-- Metadata are edited back. -/
theorem step_nodeMetadata (N : Network) (n : Identifier) (edited : HasMetadata) :
    (N.setNodeMetadata n edited).Step
      (.nodeMetadata n ((N.nodes n).elim {} NodeAttrs.data)) N := by
  convert Step.nodeMetadata (N := N.setNodeMetadata n edited) n _ using 1
  refine ext (funext fun x => ?_) rfl rfl
  by_cases hx : x = n
  · cases hn : N.nodes n <;> simp [setNodeMetadata, hx, hn]
  · cases hn : N.nodes x <;> simp [setNodeMetadata, hx, hn]

/-- And so are those of a section. -/
theorem step_sectionMetadata (N : Network) (s : Identifier) (edited : HasMetadata) :
    (N.setSectionMetadata s edited).Step
      (.sectionMetadata s ((N.sections s).elim {} SectionAttrs.data)) N := by
  convert Step.sectionMetadata (N := N.setSectionMetadata s edited) s _ using 1
  refine ext rfl (funext fun x => ?_) rfl
  by_cases hx : x = s
  · cases hs : N.sections s <;> simp [setSectionMetadata, hx, hs]
  · cases hs : N.sections x <;> simp [setSectionMetadata, hx, hs]

end Network

namespace Model.Refines

variable {m : Model} {N N' : Network}

/-- **A step is taken back by the call read off the model before it.** -/
theorem undo (h : m.Refines N) {op : Op} (hstep : N.Step op N') :
    ∃ back, m.undo op = .ok back ∧ back.Constructed ∧ N'.Step back N := by
  cases hstep with
  | addNode hid hnew hvacant =>
      exact ⟨_, rfl, trivial, N.step_removeNode_addNode hid hnew⟩
  | addSection hid hnew haddr =>
      exact ⟨_, rfl, trivial, N.step_removeSection_addSection hid hnew haddr⟩
  | @removeNode n hknown hfree =>
      obtain ⟨a, ha⟩ := Option.ne_none_iff_exists'.1 hknown
      have hback : m.undo (.removeNode n) = .ok (.addNode (N.toNode n a)) := by
        simp [Model.undo, h.node_of_attrs ha, bind, Except.bind, pure, Except.pure]
      exact ⟨_, hback, ⟨_, _, _, N.toNode_eq_new hfree⟩, N.step_addNode_removeNode ha hfree⟩
  | @removeSection s hknown hfree =>
      obtain ⟨c, hc⟩ := Option.ne_none_iff_exists'.1 hknown
      have hback : m.undo (.removeSection s) = .ok (.addSection (N.toSection s c)) := by
        simp [Model.undo, h.section_of_attrs hc, bind, Except.bind, pure, Except.pure]
      have hnew : N.toSection s c = { Section.new s c.dir c.dest with toHasMetadata := c.data } := by
        simp [Network.toSection, Section.new, hfree]
      exact ⟨_, hback, ⟨_, _, _, _, hnew⟩, N.step_addSection_removeSection hc hfree⟩
  | @link s a b i j hcan =>
      have hstep : (N.link s ((a, i), (b, j)) hcan).Step (.unlink s) _ := .unlink (by simp)
      rw [N.unlink_link hcan] at hstep
      exact ⟨_, rfl, trivial, hstep⟩
  | @unlink s hknown =>
      obtain ⟨q, hq⟩ := Option.ne_none_iff_exists'.1 hknown
      obtain ⟨c, na, nb, hc, hna, hnb, hcable⟩ := h.exists_cable hq
      have hback : m.undo (.unlink s) = .ok (.link s q.1.1 q.1.2 q.2.1 q.2.2) := by
        simp only [Model.undo, hcable.has_section, Checked.deref_some, bind, Except.bind, pure,
          Except.pure, hcable.has_start, hcable.has_stop, hcable.slotOf_start, hcable.slotOf_stop,
          hcable.start_eq, hcable.end_eq]
      have hstep : (N.unlink s).Step (.link s q.1.1 q.1.2 q.2.1 q.2.2) _ :=
        .link (N.canLink_unlink hq)
      rw [N.link_unlink hq] at hstep
      exact ⟨_, hback, trivial, hstep⟩
  | nodeMetadata n edited =>
      have hdata : (m.node n).elim {} Node.toHasMetadata
          = (N.nodes n).elim {} NodeAttrs.data := by
        rw [h.node]
        cases N.nodes n <;> rfl
      exact ⟨_, rfl, trivial, hdata ▸ N.step_nodeMetadata n edited⟩
  | sectionMetadata s edited =>
      have hdata : (m.section s).elim {} Section.toHasMetadata
          = (N.sections s).elim {} SectionAttrs.data := by
        rw [h.section]
        cases N.sections s <;> rfl
      exact ⟨_, rfl, trivial, hdata ▸ N.step_sectionMetadata s edited⟩

/-- **A run is taken back by the calls read off it.** -/
theorem undoAll {ops : List Op} (hops : ∀ op ∈ ops, op.WellFormed) {m : Model} {N : Network}
    (h : m.Refines N) :
    ∃ oks m' calls N', Op.runAll ops m = .ok (oks, m') ∧ m.undoAll ops = .ok calls ∧
      m'.Refines N' ∧ (∀ op ∈ calls, op.Constructed) ∧ N'.Runs calls N := by
  induction ops generalizing m N with
  | nil => exact ⟨true, m, [], N, rfl, rfl, h, by simp, rfl⟩
  | cons op ops ih =>
      have hop := hops op (List.mem_cons_self ..)
      have ih := fun m N => ih (fun op h => hops op (List.mem_cons_of_mem _ h)) (m := m) (N := N)
      rcases h.call hop with ⟨m₁, N₁, hcall, hstep, h₁⟩ | ⟨hcall, _⟩
      · obtain ⟨oks, m', calls, N', hrun, hundo, h', hcon, hruns⟩ := ih m₁ N₁ h₁
        obtain ⟨back, hback, hbackcon, hbackstep⟩ := h.undo hstep
        refine ⟨oks, m', calls ++ [back], N', ?_, ?_, h', ?_, ?_⟩
        · simp [Op.runAll, hcall, hrun, bind, Except.bind, pure, Except.pure]
        · simp [Model.undoAll, hcall, hundo, hback, bind, Except.bind, pure, Except.pure]
        · intro op hmem
          rcases List.mem_append.1 hmem with hmem | hmem
          · exact hcon op hmem
          · exact List.mem_singleton.1 hmem ▸ hbackcon
        · exact Network.runs_append.2 ⟨N₁, hruns, Network.runs_singleton.2 hbackstep⟩
      · obtain ⟨oks, m', calls, N', hrun, hundo, h', hcon, hruns⟩ := ih m N h
        refine ⟨false, m', calls, N', ?_, ?_, h', hcon, hruns⟩
        · simp [Op.runAll, hcall, hrun, bind, Except.bind, pure, Except.pure]
        · simp [Model.undoAll, hcall, hundo, bind, Except.bind, pure, Except.pure]

/-- Calls that are steps of the network lead to its model. -/
theorem runAll_of_runs (h : m.Refines N) {m' : Model} (h' : m'.Refines N') {ops : List Op}
    (hops : ∀ op ∈ ops, op.WellFormed) (hruns : N.Runs ops N') :
    Op.runAll ops m = .ok (true, m') := by
  obtain ⟨oks, m₁, hrun, hiff, hm₁⟩ := h.runAll hops
  rw [hrun, hiff.2 ⟨_, hruns⟩, (hm₁ _ hruns).unique h']

end Model.Refines

/-- **Every run can be taken back.**  Whatever its calls returned, the calls that
`undoAll` reads off it all return `OK` on the final model, and give back the first. -/
theorem Reachable.undone {m : Model} (h : Reachable m) {ops : List Op}
    (hops : ∀ op ∈ ops, op.Passable) :
    ∃ oks m' calls, Op.runAll ops m = .ok (oks, m') ∧ m.undoAll ops = .ok calls ∧
      (∀ op ∈ calls, op.Constructed) ∧ Op.runAll calls m' = .ok (true, m) := by
  obtain ⟨N, hN⟩ := h.refines
  obtain ⟨oks, m', calls, N', hrun, hundo, h', hcon, hruns⟩ :=
    hN.undoAll fun op hop => (hops op hop).wellFormed
  exact ⟨oks, m', calls, hrun, hundo, hcon,
    h'.runAll_of_runs hN (fun op hop => (hcon op hop).wellFormed) hruns⟩

/-- The small example with its section disconnected and one of its nodes removed, taken
back.  The third call is refused. -/
theorem smallExample_undone : ∃ m',
    Op.runAll [.unlink (ascii "S400"), .removeNode (ascii "T1034"), .removeNode (ascii "T1034")]
      smallExample = .ok (false, m') ∧
        Op.runAll [.addNode (.new .THRU (ascii "T1034")),
          .link (ascii "S400") (ascii "M145") 2 (ascii "T1034") 0] m' = .ok (true, smallExample) := by
  have hops : ∀ op ∈ ([.unlink (ascii "S400"), .removeNode (ascii "T1034"),
      .removeNode (ascii "T1034")] : List Op), op.Passable := fun op hop => by
    simp only [List.mem_cons, List.not_mem_nil, or_false] at hop
    rcases hop with rfl | rfl | rfl <;> exact Or.inl trivial
  obtain ⟨oks, m', calls, hrun, hundo, _, hback⟩ := Reachable.undone reachable_smallExample hops
  have hcalls : smallExample.undoAll [.unlink (ascii "S400"), .removeNode (ascii "T1034"),
      .removeNode (ascii "T1034")] = .ok [.addNode (.new .THRU (ascii "T1034")),
        .link (ascii "S400") (ascii "M145") 2 (ascii "T1034") 0] := by
    decide
  have hfalse : Op.runAll [.unlink (ascii "S400"), .removeNode (ascii "T1034"),
      .removeNode (ascii "T1034")] smallExample = .ok (false, _) := rfl
  obtain rfl := Except.ok.inj (hundo.symm.trans hcalls)
  obtain ⟨_, rfl⟩ := Prod.mk.inj (Except.ok.inj (hrun.symm.trans hfalse))
  exact ⟨_, hfalse, hback⟩

/-- **From any reachable model every other one can be reached**, by calls that all
return `OK`. -/
theorem Reachable.leads_to {m m' : Model} (h : Reachable m) (h' : Reachable m') :
    ∃ ops, (∀ op ∈ ops, op.Constructed) ∧ Op.runAll ops m = .ok (true, m') := by
  obtain ⟨ops, hbuilds, hrun⟩ := h.exists_build
  obtain ⟨ops', hbuilds', hrun'⟩ := h'.exists_build
  -- Take the calls that built `m` back to the empty model, and build `m'` from there.
  obtain ⟨oks, m₁, calls, N, hrun₁, _, hN, hcon, hback⟩ :=
    Model.Refines.empty.undoAll fun op hop => (hbuilds op hop).constructed.wellFormed
  obtain rfl : m₁ = m := by
    rw [hrun, Except.ok.injEq, Prod.mk.injEq] at hrun₁
    exact hrun₁.2.symm
  obtain ⟨oks', m₂, hrun₂, hiff, hm₂⟩ :=
    Model.Refines.empty.runAll fun op hop => (hbuilds' op hop).constructed.wellFormed
  rw [hrun', Except.ok.injEq, Prod.mk.injEq] at hrun₂
  obtain ⟨N', hforth⟩ := hiff.1 hrun₂.1.symm
  have hN' : m'.Refines N' := hrun₂.2 ▸ hm₂ N' hforth
  have hops : ∀ op ∈ calls ++ ops', op.Constructed := fun op hop =>
    (List.mem_append.1 hop).elim (hcon op) fun hmem => (hbuilds' op hmem).constructed
  exact ⟨calls ++ ops', hops, hN.runAll_of_runs hN' (fun op hop => (hops op hop).wellFormed)
    (Network.runs_append.2 ⟨_, hback, hforth⟩)⟩

/-- The small example can be emptied and filled again. -/
theorem smallExample_leads_to :
    (∃ ops, (∀ op ∈ ops, op.Constructed) ∧ Op.runAll ops smallExample = .ok (true, .empty)) ∧
      ∃ ops, (∀ op ∈ ops, op.Constructed) ∧ Op.runAll ops .empty = .ok (true, smallExample) :=
  ⟨Reachable.leads_to reachable_smallExample .empty,
    Reachable.leads_to .empty reachable_smallExample⟩

end PiwcsPrw
