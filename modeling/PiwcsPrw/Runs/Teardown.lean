/-
# Taking a model apart

`Model::unlink`, `Model::removeSection` and `Model::removeNode` in
`src/model.cpp`.

An entity that something still refers to cannot be removed, so a slot or an end
left behind by an earlier operation would make it permanent.  On a reachable
model there is no such leftover: every section that is connected can be
disconnected, and after that everything can be removed.

`Model.Teardown` is an order of these calls in which each section is
disconnected before it or a node at its ends is removed.  The induction is on
the order, over networks: the first call is allowed, and the rest is such an
order of the network it leaves (`Network.Teardown.step`).
-/

import PiwcsPrw.Runs.Reachable

namespace PiwcsPrw

namespace Network

/-- The calls that take the network apart. -/
def Dismantles (N : Network) : Op → Prop
  | .unlink s => N.wiring.ends s ≠ none
  | .removeSection s => N.sections s ≠ none
  | .removeNode n => N.nodes n ≠ none
  | _ => False

/-- Disconnecting a section comes before removing it or a node at its ends. -/
def Precedes (N : Network) : Op → Op → Prop
  | .unlink s, .removeSection t => N.wiring.ends s ≠ none ∧ t = s
  | .unlink s, .removeNode n => ∃ q, N.wiring.ends s = some q ∧ (n = q.1.1 ∨ n = q.2.1)
  | _, _ => False

/-- An order in which the network can be taken apart. -/
structure Teardown (N : Network) (calls : List Op) : Prop where
  nodup : calls.Nodup
  mem_iff : ∀ op, op ∈ calls ↔ N.Dismantles op
  order : calls.Pairwise fun x y => ¬ N.Precedes y x

/-- Once the first call is made the others are an order for what is left, when
they are the calls that take that apart. -/
theorem Teardown.tail {N N' : Network} {op : Op} {ops : List Op} (h : N.Teardown (op :: ops))
    (hdis : ∀ x, N'.Dismantles x ↔ N.Dismantles x ∧ x ≠ op)
    (hends : ∀ s q, N'.wiring.ends s = some q → N.wiring.ends s = some q) : N'.Teardown ops where
  nodup := h.nodup.of_cons
  mem_iff x := by
    have hop := (List.nodup_cons.1 h.nodup).1
    rw [hdis, ← h.mem_iff, List.mem_cons]
    constructor
    · intro hx
      exact ⟨Or.inr hx, fun heq => hop (heq ▸ hx)⟩
    · rintro ⟨rfl | hx, hne⟩
      · exact absurd rfl hne
      · exact hx
  order := by
    refine (List.pairwise_cons.1 h.order).2.imp fun {x y} hno hyx => hno ?_
    cases y with
    | unlink s =>
        cases x with
        | removeSection t =>
            obtain ⟨q, hq⟩ := Option.ne_none_iff_exists'.1 hyx.1
            exact ⟨by simp [hends s q hq], hyx.2⟩
        | removeNode n =>
            obtain ⟨q, hq, hn⟩ := hyx
            exact ⟨q, hends s q hq, hn⟩
        | addNode | addSection | link | unlink | nodeMetadata | sectionMetadata => exact hyx
    | addNode | addSection | link | removeNode | removeSection | nodeMetadata
    | sectionMetadata => exact hyx

/-- **The first call of such an order is allowed, and the rest is one of the
network it leaves.** -/
theorem Teardown.step {N : Network} {op : Op} {ops : List Op} (h : N.Teardown (op :: ops)) :
    ∃ N', N.Step op N' ∧ N'.Teardown ops := by
  have hop : N.Dismantles op := (h.mem_iff op).1 (List.mem_cons_self ..)
  have hfirst := (List.pairwise_cons.1 h.order).1
  -- A call that has to come before the first would be among the others.
  have hlater : ∀ x, N.Dismantles x → x ≠ op → ¬ N.Precedes x op := fun x hx hne hprec => by
    rcases List.mem_cons.1 ((h.mem_iff x).2 hx) with heq | hmem
    · exact hne heq
    · exact hfirst x hmem hprec
  cases op with
  | unlink s =>
      refine ⟨_, .unlink hop, h.tail (fun x => ?_) fun t q ht => ?_⟩
      · cases x with
        | unlink t => by_cases hts : t = s <;> simp [Dismantles, hts]
        | _ => simp [Dismantles]
      · rcases eq_or_ne t s with rfl | hts
        · simp at ht
        · simpa [hts] using ht
  | removeSection s =>
      have hfree : N.wiring.ends s = none := by
        by_contra hends
        exact hlater (.unlink s) hends (by simp) ⟨hends, rfl⟩
      refine ⟨_, .removeSection hop hfree, h.tail (fun x => ?_) fun t q ht => ht⟩
      cases x with
      | removeSection t => by_cases hts : t = s <;> simp [Dismantles, Network.removeSection, hts]
      | _ => simp [Dismantles, Network.removeSection]
  | removeNode n =>
      have hfree : ∀ k, N.wiring.plug (n, k) = none := fun k => by
        by_contra hplug
        obtain ⟨s, hs⟩ := Option.ne_none_iff_exists'.1 hplug
        obtain ⟨q, hq, hp⟩ := (N.wiring.plug_iff _ s).1 hs
        refine hlater (.unlink s) (by simp [Dismantles, hq]) (by simp) ⟨q, hq, ?_⟩
        exact hp.imp (congrArg Prod.fst) (congrArg Prod.fst)
      refine ⟨_, .removeNode hop hfree, h.tail (fun x => ?_) fun t q ht => ht⟩
      cases x with
      | removeNode t => by_cases htn : t = n <;> simp [Dismantles, Network.removeNode, htn]
      | _ => simp [Dismantles, Network.removeNode]
  | addNode | addSection | link | nodeMetadata | sectionMetadata => exact hop.elim

/-- A whole order runs, and leaves nothing. -/
theorem Teardown.runs {calls : List Op} {N : Network} (h : N.Teardown calls) :
    N.Runs calls .empty := by
  induction calls generalizing N with
  | nil =>
      have hnone : ∀ op, ¬ N.Dismantles op := fun op hop => by
        have hmem := (h.mem_iff op).2 hop
        cases hmem
      refine ext (funext fun n => ?_) (funext fun s => ?_) (funext fun s => ?_)
      · exact Classical.not_not.1 (hnone (.removeNode n))
      · exact Classical.not_not.1 (hnone (.removeSection s))
      · exact Classical.not_not.1 (hnone (.unlink s))
  | cons op ops ih =>
      obtain ⟨N', hstep, hrest⟩ := h.step
      exact ⟨N', hstep, ih hrest⟩

end Network

namespace Model

/-- `unlink` of a connected section, `removeSection` of a section, `removeNode` of
a node. -/
def Dismantles (m : Model) : Op → Prop
  | .unlink s => ∃ sec, m.section s = some sec ∧ sec.isConnected = true
  | .removeSection s => ∃ sec, m.section s = some sec
  | .removeNode n => ∃ node, m.node n = some node
  | _ => False

/-- `unlink(s)` comes before `removeSection(s)` and before `removeNode` of the
start and the end of `s`. -/
def Precedes (m : Model) : Op → Op → Prop
  | .unlink s, .removeSection t =>
      t = s ∧ ∃ sec, m.section s = some sec ∧ sec.isConnected = true
  | .unlink s, .removeNode n =>
      ∃ sec, m.section s = some sec ∧ sec.isConnected = true ∧ (n = sec.m_start ∨ n = sec.m_end)
  | _, _ => False

/-- An order of all these calls that keeps to that. -/
structure Teardown (m : Model) (calls : List Op) : Prop where
  nodup : calls.Nodup
  mem_iff : ∀ op, op ∈ calls ↔ m.Dismantles op
  order : calls.Pairwise fun x y => ¬ m.Precedes y x

namespace Refines

variable {m : Model} {N : Network}

/-- What the calls take apart is what the network has. -/
theorem dismantles_iff (h : m.Refines N) (op : Op) : m.Dismantles op ↔ N.Dismantles op := by
  cases op with
  | unlink s => exact h.exists_connected_iff
  | removeSection s =>
      rw [Model.Dismantles, Network.Dismantles, Ne, ← h.section_none]
      exact Option.ne_none_iff_exists'.symm
  | removeNode n =>
      rw [Model.Dismantles, Network.Dismantles, Ne, ← h.node_none]
      exact Option.ne_none_iff_exists'.symm
  | addNode | addSection | link | nodeMetadata | sectionMetadata => exact Iff.rfl

/-- What has to come first in the network has to in the model. -/
theorem precedes_of (h : m.Refines N) {x y : Op} (hxy : N.Precedes x y) : m.Precedes x y := by
  cases x with
  | unlink s =>
      cases y with
      | removeSection t => exact ⟨hxy.2, h.exists_connected_iff.2 hxy.1⟩
      | removeNode n =>
          obtain ⟨q, hq, hn⟩ := hxy
          obtain ⟨c, hc⟩ := N.cable_exists hq
          refine ⟨N.toSection s c, h.section_of_attrs hc, by simp [N.isConnected_toSection, hq], ?_⟩
          simpa [Network.toSection, hq] using hn
      | addNode | addSection | link | unlink | nodeMetadata | sectionMetadata => exact hxy
  | addNode | addSection | link | removeNode | removeSection | nodeMetadata
  | sectionMetadata => exact hxy

end Refines

end Model

/-- **Every reachable model can be taken apart completely**, in every order in
which a section is disconnected before it and its nodes are removed. -/
theorem Reachable.taken_apart {m : Model} (h : Reachable m) {calls : List Op}
    (hcalls : m.Teardown calls) : Op.runAll calls m = .ok (true, .empty) := by
  obtain ⟨N, hN⟩ := h.refines
  have hteardown : N.Teardown calls :=
    ⟨hcalls.nodup, fun op => (hcalls.mem_iff op).trans (hN.dismantles_iff op),
      hcalls.order.imp fun hno hyx => hno (hN.precedes_of hyx)⟩
  have hwf : ∀ op ∈ calls, op.WellFormed := fun op hop => by
    have hdis := (hcalls.mem_iff op).1 hop
    cases op <;> first | exact hdis.elim | trivial
  obtain ⟨oks, m', hrun, hiff, hm'⟩ := hN.runAll hwf
  rw [hrun, hiff.2 ⟨_, hteardown.runs⟩, (hm' _ hteardown.runs).unique .empty]

/-- The small example, its nodes removed around the section. -/
theorem smallExample_taken_apart :
    Op.runAll [.unlink (ascii "S400"), .removeNode (ascii "T1034"),
      .removeSection (ascii "S400"), .removeNode (ascii "M145")] smallExample
        = .ok (true, .empty) := by
  refine Reachable.taken_apart reachable_smallExample ⟨by decide, fun op => ?_, ?_⟩
  · have hnode : ∀ n, (∃ node, smallExample.node n = some node) ↔
        n = ascii "T1034" ∨ n = ascii "M145" := fun n => by
      rw [Model.exists_node_iff]
      simp [smallExample, Finmap.notMem_empty]
    have hsection : ∀ s, (∃ sec, smallExample.section s = some sec) ↔
        s = ascii "S400" := fun s => by
      rw [Model.exists_section_iff]
      simp [smallExample, Finmap.notMem_empty]
    have hconnected : ∀ s, (∃ sec, smallExample.section s = some sec ∧ sec.isConnected = true) ↔
        s = ascii "S400" := fun s =>
      ⟨fun ⟨sec, hsec, _⟩ => (hsection s).1 ⟨sec, hsec⟩, fun hs => hs ▸ ⟨_, rfl, by decide⟩⟩
    cases op <;> simp [Model.Dismantles, hnode, hsection, hconnected]
  · simp [Model.Precedes]

end PiwcsPrw
