/-
# Runs with their history

A reachable model does not say how it was reached.  `Reached history m` does: the
history lists the calls made since the empty model, the last one first, each
with whether it returned `OK`.

The only thing looked up in a history is the last `link` of a section that
returned `OK` (`lastLink`).  What ties it to the model is one step lemma: a call
after which a section is connected is either the `link` that connected it at
these ports, or the section was connected there before and the call is not a
`link` of it (`Network.Step.ends_eq`).  So in any run a section that is connected
is connected where its last `link` put it (`Reached.exists_network`).
-/

import PiwcsPrw.Runs.Reachable

namespace PiwcsPrw

/-- What a caller can pass: a value it constructed, or a copy of a node of a model
it reached. -/
def Op.Passable (op : Op) : Prop :=
  op.Constructed ∨ ∃ m id node data, Reachable m ∧ m.node id = some node ∧
    op = .addNode { node with toHasMetadata := data }

/-- What a caller can pass is well-formed. -/
theorem Op.Passable.wellFormed {op : Op} (h : op.Passable) : op.WellFormed := by
  rcases h with hop | ⟨m, id, node, data, hm, hnode, rfl⟩
  · exact hop.wellFormed
  · obtain ⟨N, hN⟩ := hm.refines
    obtain ⟨a, ha, rfl⟩ := hN.node_some hnode
    exact N.wellFormed_toNode ha

/-- A call leads from reachable models to reachable models. -/
theorem Reachable.call_passable {m m' : Model} (h : Reachable m) {op : Op} (hop : op.Passable)
    {ok : Bool} (hcall : op.call m = .ok (ok, m')) : Reachable m' := by
  rcases hop with hop | ⟨m₀, id, node, data, h₀, hnode, rfl⟩
  · exact .call op h hop hcall
  · exact .copy data h h₀ hnode hcall

/-- The calls made so far, the last one first, each with whether it returned
`OK`. -/
abbrev History := List (Op × Bool)

/-- The models reached from the empty one, and how. -/
inductive Reached : History → Model → Prop
  | empty : Reached [] .empty
  | call {history : History} {m m' : Model} {ok : Bool} (op : Op) : Reached history m →
      op.Passable → op.call m = .ok (ok, m') → Reached ((op, ok) :: history) m'

/-- A model with a history is reachable. -/
theorem Reached.reachable {history : History} {m : Model} (h : Reached history m) :
    Reachable m := by
  induction h with
  | empty => exact .empty
  | call op _ hop hcall ih => exact ih.call_passable hop hcall

/-- Every reachable model has a history. -/
theorem Reachable.exists_history {m : Model} (h : Reachable m) : ∃ history, Reached history m := by
  induction h with
  | empty => exact ⟨[], .empty⟩
  | call op _ hop hcall ih =>
      obtain ⟨history, hm⟩ := ih
      exact ⟨_, .call op hm (Or.inl hop) hcall⟩
  | copy data _ h₀ hnode hcall ih _ =>
      obtain ⟨history, hm⟩ := ih
      exact ⟨_, .call _ hm (Or.inr ⟨_, _, _, data, h₀, hnode, rfl⟩) hcall⟩

/-- The ports at which the section was last connected: those of the last `link`
of it that returned `OK`. -/
def lastLink (s : IdRef) : History → Option (Port × Port)
  | [] => none
  | (.link t a i b j, true) :: history =>
      if t = s then some ((a, i), (b, j)) else lastLink s history
  | _ :: history => lastLink s history

/-- **What a call does to one section.**  If the section is connected after the
call, then the call has just connected it, or it was connected there before and
the call is not a `link` of it. -/
theorem Network.Step.ends_eq {N N' : Network} {op : Op} (hstep : N.Step op N') {s : Identifier}
    {q : Port × Port} (hq : N'.wiring.ends s = some q) :
    op = .link s q.1.1 q.1.2 q.2.1 q.2.2 ∨
      N.wiring.ends s = some q ∧ ∀ a i b j, op ≠ .link s a i b j := by
  cases hstep with
  | link hcan =>
      rw [Network.link_ends] at hq
      split_ifs at hq with hs
      · obtain rfl := Option.some.inj hq
        exact Or.inl (by rw [hs])
      · exact Or.inr ⟨hq, by simp [Ne.symm hs]⟩
  | unlink hknown =>
      rw [Network.unlink_ends] at hq
      split_ifs at hq
      exact Or.inr ⟨hq, by simp⟩
  | addNode | addSection | removeNode | removeSection | nodeMetadata | sectionMetadata =>
      exact Or.inr ⟨hq, by simp⟩

/-- A call that is not a successful `link` of the section leaves its last `link`
what it was. -/
theorem lastLink_cons_of_ne {s : IdRef} {op : Op} {ok : Bool} (history : History)
    (h : ok = true → ∀ a i b j, op ≠ .link s a i b j) :
    lastLink s ((op, ok) :: history) = lastLink s history := by
  cases ok with
  | false => cases op <;> rfl
  | true =>
      cases op with
      | link t a i b j =>
          have hne : t ≠ s := fun ht => h rfl a i b j (by rw [ht])
          rw [lastLink, if_neg hne]
      | addNode | addSection | removeNode | removeSection | unlink | nodeMetadata
        | sectionMetadata => rfl

/-- The ends of a section after a step, and the last `link` in the history. -/
theorem lastLink_of_step {N N' : Network} {op : Op} (hstep : N.Step op N') {history : History}
    (h : ∀ {s q}, N.wiring.ends s = some q → lastLink s history = some q) {s : Identifier}
    {q : Port × Port} (hq : N'.wiring.ends s = some q) :
    lastLink s ((op, true) :: history) = some q := by
  rcases hstep.ends_eq hq with rfl | ⟨hq', hne⟩
  · rw [lastLink, if_pos rfl]
  · rw [lastLink_cons_of_ne history fun _ => hne]
    exact h hq'

/-- **A connected section is where its last `link` put it**, in every run. -/
theorem Reached.exists_network {history : History} {m : Model} (h : Reached history m) :
    ∃ N : Network, m.Refines N ∧
      ∀ {s q}, N.wiring.ends s = some q → lastLink s history = some q := by
  induction h with
  | empty =>
      refine ⟨.empty, .empty, fun {s q} hq => ?_⟩
      simp [Network.empty, Wiring.empty] at hq
  | call op _ hop hcall ih =>
      obtain ⟨N, hN, hlast⟩ := ih
      rcases hN.call hop.wellFormed with ⟨m₁, N₁, hcall₁, hstep, h₁⟩ | ⟨hcall₁, _⟩
      · rw [hcall₁, Except.ok.injEq, Prod.mk.injEq] at hcall
        obtain ⟨rfl, rfl⟩ := hcall
        exact ⟨N₁, h₁, fun hq => lastLink_of_step hstep hlast hq⟩
      · -- A refused call changes neither the model nor the last links.
        rw [hcall₁, Except.ok.injEq, Prod.mk.injEq] at hcall
        obtain ⟨rfl, rfl⟩ := hcall
        refine ⟨N, hN, fun hq => ?_⟩
        rw [lastLink_cons_of_ne _ (by simp)]
        exact hlast hq

end PiwcsPrw
