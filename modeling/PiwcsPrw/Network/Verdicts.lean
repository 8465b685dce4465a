/-
# Which result a call returns

The mutators in `src/model.cpp` and the result enumerations of
`include/piwcsprwmodel/model.h`.

`Network.verdict` says what each call returns, in terms of the network: one list of
cases per mutator, in the order of its checks.  A call on a model of the network
returns just that (`Model.Refines.answer`), so a run of calls on the model gives the
results of a machine that knows nothing of slots and ends (`Network.machine`), and
stays with it (`Model.Refines.answers`).
-/

import PiwcsPrw.Foundation.Machine
import PiwcsPrw.Network.Effects

namespace PiwcsPrw

/-- `Op.call` tells of the result only whether it is `OK`. -/
theorem Op.call_eq_answer (op : Op) (m : Model) :
    op.call m = (op.answer m).map fun (r, m') => (r.isOk, m') := by
  cases op with
  | addNode node => cases h : m.addNode node <;> (rw [call, answer, h]; rfl)
  | removeNode id => cases h : m.removeNode id <;> (rw [call, answer, h]; rfl)
  | link s a i b j => cases h : m.link s a i b j <;> (rw [call, answer, h]; rfl)
  | unlink s => cases h : m.unlink s <;> (rw [call, answer, h]; rfl)
  | addSection | removeSection | nodeMetadata | sectionMetadata => rfl

namespace Network

/-- The address of the section is that of a destination of the network. -/
def AddressTaken (N : Network) (sec : Section) : Prop :=
  ∃ t b x, N.sections t = some b ∧ sec.address? = some x ∧ b.address? = some x

open Classical in
/-- What a call on a model of the network returns. -/
noncomputable def verdict (N : Network) : Op → CallResult
  | .addNode node => .add <|
      if isId node.m_id = false then .BAD_ID
      else if N.nodes node.m_id ≠ none then .DUPLICATE
      else if ¬ Model.Vacant node then .HAS_REF
      else .OK
  | .addSection sec => .add <|
      if isId sec.m_id = false then .BAD_ID
      else if N.sections sec.m_id ≠ none ∨ N.AddressTaken sec then .DUPLICATE
      else .OK
  | .removeNode n => .remove <|
      if N.nodes n = none then .NOT_FOUND
      else if ∃ k, N.wiring.plug (n, k) ≠ none then .REFERENCED
      else .OK
  | .removeSection s => .remove <|
      if N.sections s = none then .NOT_FOUND
      else if N.wiring.ends s ≠ none then .REFERENCED
      else .OK
  | .link s a i b j => .link <|
      if N.sections s = none ∨ ¬ N.HasPort (a, i) ∨ ¬ N.HasPort (b, j) then .NOT_FOUND
      else if a = b then .SAME_NODE
      else if N.wiring.plug (a, i) ≠ none ∨ N.wiring.plug (b, j) ≠ none then .NODE_OCCUPIED
      else if N.wiring.ends s ≠ none then .SECTION_OCCUPIED
      else .OK
  | .unlink s => .unlink <|
      if N.sections s = none then .NOT_FOUND
      else if N.wiring.ends s = none then .NOT_LINKED
      else .OK
  | .nodeMetadata .. | .sectionMetadata .. => .edited

open Classical in
/-- The network after a call: a refused call changes nothing. -/
noncomputable def next (N : Network) (op : Op) : Network :=
  if h : ∃ N', N.Step op N' then h.choose else N

/-- The network as an object with the methods of `Model`. -/
noncomputable def machine : Machine Network Op CallResult := fun op N => (N.verdict op, N.next op)

variable {N N' : Network} {op : Op}

/-- A step leads to the network that is next. -/
theorem next_of_step (h : N.Step op N') : N.next op = N' := by
  have hex : ∃ N', N.Step op N' := ⟨N', h⟩
  rw [next, dif_pos hex]
  exact hex.choose_spec.unique h

/-- A call that is refused leaves the network. -/
theorem next_of_refused (h : ∀ N', ¬ N.Step op N') : N.next op = N :=
  dif_neg fun ⟨N', hstep⟩ => h N' hstep

/-- A call is a step exactly when its result is `OK`. -/
theorem isOk_verdict_iff (N : Network) (op : Op) :
    (N.verdict op).isOk = true ↔ ∃ N', N.Step op N' := by
  cases op with
  | addNode node =>
      rw [exists_step_addNode, verdict]
      by_cases hid : isId node.m_id = true <;> by_cases hnew : N.nodes node.m_id = none <;>
        by_cases hv : Model.Vacant node <;> simp [hid, hnew, hv, CallResult.isOk]
  | addSection sec =>
      have hfree : ¬ N.AddressTaken sec ↔ ∀ t b x, N.sections t = some b →
          sec.address? = some x → b.address? ≠ some x := by
        simp only [AddressTaken, not_exists, not_and]
      rw [exists_step_addSection, verdict, ← hfree]
      by_cases hid : isId sec.m_id = true <;> by_cases hnew : N.sections sec.m_id = none <;>
        by_cases ht : N.AddressTaken sec <;> simp [hid, hnew, ht, CallResult.isOk]
  | removeNode n =>
      rw [exists_step_removeNode, verdict]
      by_cases hn : N.nodes n = none <;> by_cases hp : ∃ k, N.wiring.plug (n, k) ≠ none <;>
        simp_all [CallResult.isOk]
  | removeSection s =>
      rw [exists_step_removeSection, verdict]
      by_cases hs : N.sections s = none <;> by_cases hq : N.wiring.ends s = none <;>
        simp [hs, hq, CallResult.isOk]
  | link s a i b j =>
      have hcan : N.CanLink s ((a, i), (b, j)) ↔
          ¬ (N.sections s = none ∨ ¬ N.HasPort (a, i) ∨ ¬ N.HasPort (b, j)) ∧ a ≠ b ∧
            ¬ (N.wiring.plug (a, i) ≠ none ∨ N.wiring.plug (b, j) ≠ none) ∧
              N.wiring.ends s = none := by
        simp only [not_or, Classical.not_not]
        exact ⟨fun ⟨hs, hi, hj, hab, hpi, hpj, hq⟩ =>
            ⟨⟨Option.ne_none_iff_exists'.2 hs, hi, hj⟩, hab, ⟨hpi, hpj⟩, hq⟩,
          fun ⟨⟨hs, hi, hj⟩, hab, ⟨hpi, hpj⟩, hq⟩ =>
            ⟨Option.ne_none_iff_exists'.1 hs, hi, hj, hab, hpi, hpj, hq⟩⟩
      rw [exists_step_link, verdict, hcan]
      split_ifs <;> simp_all [CallResult.isOk]
  | unlink s =>
      have hknown : N.wiring.ends s ≠ none → N.sections s ≠ none := fun hq => by
        obtain ⟨q, hq⟩ := Option.ne_none_iff_exists'.1 hq
        exact Option.ne_none_iff_exists'.2 (N.cable_exists hq)
      rw [exists_step_unlink, verdict]
      by_cases hq : N.wiring.ends s = none
      · by_cases hs : N.sections s = none <;> simp [hs, hq, CallResult.isOk]
      · simp [hq, hknown hq, CallResult.isOk]
  | nodeMetadata n edited => exact iff_of_true rfl ⟨_, .nodeMetadata n edited⟩
  | sectionMetadata s edited => exact iff_of_true rfl ⟨_, .sectionMetadata s edited⟩

end Network

namespace Model.Refines

variable {m : Model} {N : Network}

/-- **`addNode` returns what the network says.** -/
theorem addNode_verdict (h : m.Refines N) (node : Node) :
    ∃ m', (Op.addNode node).answer m = .ok (N.verdict (.addNode node), m') := by
  rw [Network.verdict]
  by_cases hid : isId node.m_id = true
  · have hsome : (m.node node.m_id).isSome = true ↔ N.nodes node.m_id ≠ none := by
      rw [Option.isSome_iff_ne_none, Ne, h.node_none]
    by_cases hnew : N.nodes node.m_id = none
    · by_cases hv : Vacant node
      · simp [Op.answer, Model.addNode, hid, hsome, hnew, hv, hasSections_of_vacant hv, bind, Except.bind,
          pure, Except.pure]
      · simp [Op.answer, Model.addNode, hid, hsome, hnew, hv, hasSections_of_not_vacant hv, bind,
          Except.bind, pure, Except.pure]
    · simp [Op.answer, Model.addNode, hid, hsome, hnew, bind, Except.bind, pure, Except.pure]
  · rw [Bool.not_eq_true] at hid
    simp [Op.answer, Model.addNode, hid, bind, Except.bind, pure, Except.pure]

/-- The scan finds an address that is taken in the network. -/
theorem addressTaken_iff_taken (h : m.Refines N) (sec : Section) :
    m.addressTaken sec = true ↔ N.AddressTaken sec := by
  rw [addressTaken_iff]
  constructor
  · rintro ⟨t, other, x, hother, hx, hx'⟩
    obtain ⟨b, hb, rfl⟩ := h.section_some hother
    exact ⟨t, b, x, hb, hx, hx'⟩
  · rintro ⟨t, b, x, hb, hx, hx'⟩
    exact ⟨t, _, x, h.section_of_attrs hb, hx, hx'⟩

/-- **`addSection` returns what the network says.** -/
theorem addSection_verdict (h : m.Refines N) {sec : Section} (hstart : sec.m_start = ID_NULL)
    (hstop : sec.m_end = ID_NULL) :
    ∃ m', (Op.addSection sec).answer m = .ok (N.verdict (.addSection sec), m') := by
  rw [Network.verdict]
  by_cases hid : isId sec.m_id = true
  · have hsome : (m.section sec.m_id).isSome = true ↔ N.sections sec.m_id ≠ none := by
      rw [Option.isSome_iff_ne_none, Ne, h.section_none]
    by_cases hnew : N.sections sec.m_id = none
    · by_cases htaken : N.AddressTaken sec
      · simp [Op.answer, Model.addSection, hid, hsome, hnew, htaken, h.addressTaken_iff_taken, pure,
          Except.pure]
      · simp [Op.answer, Model.addSection, hid, hsome, hnew, htaken, h.addressTaken_iff_taken, hstart,
          hstop, pure, Except.pure]
    · simp [Op.answer, Model.addSection, hid, hsome, hnew, pure, Except.pure]
  · rw [Bool.not_eq_true] at hid
    simp [Op.answer, Model.addSection, hid, pure, Except.pure]

/-- **`removeNode` returns what the network says.** -/
theorem removeNode_verdict (h : m.Refines N) (n : IdRef) :
    ∃ m', (Op.removeNode n).answer m = .ok (N.verdict (.removeNode n), m') := by
  rw [Network.verdict]
  cases hn : m.node n with
  | none =>
      simp [Op.answer, removeNode_not_found hn, h.node_none.1 hn, bind, Except.bind, pure,
        Except.pure]
  | some node =>
      have hknown : N.nodes n ≠ none := by rw [Ne, ← h.node_none, hn]; simp
      by_cases hv : Vacant node
      · have hfree := (h.vacant_iff hn).1 hv
        simp [Op.answer, removeNode_ok hn hv, hknown, hfree, bind, Except.bind, pure, Except.pure]
      · have hplugged : ∃ k, N.wiring.plug (n, k) ≠ none := by
          rw [h.vacant_iff hn] at hv
          exact not_forall.1 hv
        simp [Op.answer, removeNode_referenced hn hv, hknown, hplugged, bind, Except.bind, pure,
          Except.pure]

/-- **`removeSection` returns what the network says.** -/
theorem removeSection_verdict (h : m.Refines N) (s : IdRef) :
    ∃ m', (Op.removeSection s).answer m = .ok (N.verdict (.removeSection s), m') := by
  rw [Network.verdict]
  cases hs : m.section s with
  | none => simp [Op.answer, removeSection_not_found hs, h.section_none.1 hs, pure, Except.pure]
  | some sec =>
      have hknown : N.sections s ≠ none := by rw [Ne, ← h.section_none, hs]; simp
      obtain ⟨c, _, rfl⟩ := h.section_some hs
      have hends := N.isId_toSection s c
      cases hq : N.wiring.ends s with
      | none =>
          rw [hq] at hends
          simp [Op.answer, removeSection_ok hs hends, hknown, pure, Except.pure]
      | some q =>
          rw [hq] at hends
          simp [Op.answer, removeSection_referenced hs hends, hknown, pure, Except.pure]

/-- **`unlink` returns what the network says.** -/
theorem unlink_verdict (h : m.Refines N) (s : IdRef) :
    ∃ m', (Op.unlink s).answer m = .ok (N.verdict (.unlink s), m') := by
  rw [Network.verdict]
  cases hs : m.section s with
  | none =>
      simp [Op.answer, unlink_not_found hs, h.section_none.1 hs, bind, Except.bind, pure,
        Except.pure]
  | some sec =>
      have hknown : N.sections s ≠ none := by rw [Ne, ← h.section_none, hs]; simp
      cases hq : N.wiring.ends s with
      | none =>
          obtain ⟨c, _, rfl⟩ := h.section_some hs
          have hnull := N.toSection_start_eq_null_iff (a := c).2 hq
          simp [Op.answer, unlink_not_linked hs hnull, hknown, bind, Except.bind, pure, Except.pure]
      | some q =>
          obtain ⟨m', hrun, _⟩ := h.unlinked hq
          simp [Op.answer, hrun, hknown, bind, Except.bind, pure, Except.pure]

/-- The ports at a node are its slots. -/
theorem hasPort_iff_lt (h : m.Refines N) {n : IdRef} {node : Node} (hn : m.node n = some node)
    (k : SlotId) : N.HasPort (n, k) ↔ k < node.sectionCount := by
  obtain ⟨a, ha, rfl⟩ := h.node_some hn
  constructor
  · rintro ⟨b, hb, hk⟩
    obtain rfl := Option.some.inj (ha.symm.trans hb)
    exact hk
  · exact fun hk => ⟨a, ha, hk⟩

/-- Where there is no node there is no port. -/
theorem not_hasPort (h : m.Refines N) {n : IdRef} (hn : m.node n = none) (k : SlotId) :
    ¬ N.HasPort (n, k) := by
  rintro ⟨a, ha, _⟩
  rw [h.node_none.1 hn] at ha
  cases ha

/-- A slot is null where nothing is plugged in. -/
theorem slotAt_eq_null_iff (h : m.Refines N) {n : IdRef} {node : Node} (hn : m.node n = some node)
    (k : SlotId) : node.slotAt k = ID_NULL ↔ N.wiring.plug (n, k) = none := by
  obtain ⟨a, _, rfl⟩ := h.node_some hn
  exact N.slotAt_toNode_eq_null_iff

/-- **`link` returns what the network says**, the first of its checks that fails. -/
theorem link_verdict (h : m.Refines N) (s a : IdRef) (i : SlotId) (b : IdRef) (j : SlotId) :
    ∃ m', (Op.link s a i b j).answer m = .ok (N.verdict (.link s a i b j), m') := by
  rw [Network.verdict]
  cases hs : m.section s with
  | none =>
      simp [Op.answer, Model.link, hs, h.section_none.1 hs, bind, Except.bind, pure, Except.pure]
  | some sec =>
  have hknown : N.sections s ≠ none := by rw [Ne, ← h.section_none, hs]; simp
  cases ha : m.node a with
  | none =>
      simp [Op.answer, Model.link, hs, ha, h.not_hasPort ha, bind, Except.bind, pure, Except.pure]
  | some start =>
  cases hb : m.node b with
  | none =>
      simp [Op.answer, Model.link, hs, ha, hb, h.not_hasPort hb, bind, Except.bind, pure,
        Except.pure]
  | some stop =>
  have hi := h.hasPort_iff_lt ha i
  have hj := h.hasPort_iff_lt hb j
  by_cases hout : start.sectionCount ≤ i ∨ stop.sectionCount ≤ j
  · have hports : ¬ N.HasPort (a, i) ∨ ¬ N.HasPort (b, j) := by
      rw [hi, hj, Nat.not_lt, Nat.not_lt]
      exact hout
    simp [Op.answer, Model.link, hs, ha, hb, hout, hports, bind, Except.bind, pure, Except.pure]
  obtain ⟨hilt, hjlt⟩ := not_or.1 hout
  rw [Nat.not_le] at hilt hjlt
  have hpi := hi.2 hilt
  have hpj := hj.2 hjlt
  by_cases hab : a = b
  · subst hab
    obtain rfl := Option.some.inj (ha.symm.trans hb)
    simp [Op.answer, Model.link, hs, ha, hilt.not_ge, hjlt.not_ge, hknown, hpi, hpj, bind,
      Except.bind, pure, Except.pure]
  -- The slots exist, so the reads are those of the table.
  have hreads := And.intro (Node.section_eq start hilt) (Node.section_eq stop hjlt)
  have hfi := h.slotAt_eq_null_iff ha i
  have hfj := h.slotAt_eq_null_iff hb j
  have hcon : sec.isConnected = true ↔ N.wiring.ends s ≠ none := by
    obtain ⟨c, _, rfl⟩ := h.section_some hs
    rw [N.isConnected_toSection, Option.isSome_iff_ne_none]
  by_cases hpa : N.wiring.plug (a, i) = none
  · by_cases hpb : N.wiring.plug (b, j) = none
    · by_cases hends : N.wiring.ends s = none
      · simp [Op.answer, Model.link, hs, ha, hb, hilt.not_ge, hjlt.not_ge, hknown, hpi, hpj, hab,
          hreads, hfi, hfj, hpa, hpb, hcon, hends, Node.setSlot_eq _ hilt, Node.setSlot_eq _ hjlt,
          bind, Except.bind, pure, Except.pure]
      · simp [Op.answer, Model.link, hs, ha, hb, hilt.not_ge, hjlt.not_ge, hknown, hpi, hpj, hab,
          hreads, hfi, hfj, hpa, hpb, hcon, hends, bind, Except.bind, pure, Except.pure]
    · simp [Op.answer, Model.link, hs, ha, hb, hilt.not_ge, hjlt.not_ge, hknown, hpi, hpj, hab,
        hreads, hfi, hfj, hpa, hpb, bind, Except.bind, pure, Except.pure]
  · simp [Op.answer, Model.link, hs, ha, hb, hilt.not_ge, hjlt.not_ge, hknown, hpi, hpj, hab,
      hreads, hfi, hpa, bind, Except.bind, pure, Except.pure]

/-- **The result of a call** is the verdict of the network. -/
theorem exists_answer_eq (h : m.Refines N) {op : Op} (hop : op.WellFormed) :
    ∃ m', op.answer m = .ok (N.verdict op, m') := by
  cases op with
  | addNode node => exact h.addNode_verdict node
  | addSection sec => exact h.addSection_verdict hop.1 hop.2
  | removeNode n => exact h.removeNode_verdict n
  | removeSection s => exact h.removeSection_verdict s
  | link s a i b j => exact h.link_verdict s a i b j
  | unlink s => exact h.unlink_verdict s
  | nodeMetadata | sectionMetadata => exact ⟨_, rfl⟩

/-- **One call**: the result and the network after it. -/
theorem answer (h : m.Refines N) {op : Op} (hop : op.WellFormed) :
    ∃ m', op.answer m = .ok (N.verdict op, m') ∧ Refines m' (N.next op) := by
  obtain ⟨m', hanswer⟩ := h.exists_answer_eq hop
  refine ⟨m', hanswer, ?_⟩
  have hcall := op.call_eq_answer m
  rw [hanswer] at hcall
  rcases h.call hop with ⟨m₁, N₁, hcall₁, hstep, h₁⟩ | ⟨hcall₁, hno⟩
  · obtain ⟨_, rfl⟩ := Prod.mk.inj (Except.ok.inj (hcall₁.symm.trans hcall))
    rwa [Network.next_of_step hstep]
  · obtain ⟨_, rfl⟩ := Prod.mk.inj (Except.ok.inj (hcall₁.symm.trans hcall))
    rwa [Network.next_of_refused hno]

/-- **A run of calls**: the results are those of the network, and the final model is a
model of the final network. -/
theorem answers {ops : List Op} (hops : ∀ op ∈ ops, op.WellFormed) {m : Model} {N : Network}
    (h : m.Refines N) : ∃ m', Op.answers ops m = .ok ((Network.machine.run ops N).1, m') ∧
      Refines m' (Network.machine.run ops N).2 := by
  induction ops generalizing m N with
  | nil => exact ⟨m, rfl, h⟩
  | cons op ops ih =>
      obtain ⟨m₁, hanswer, h₁⟩ := h.answer (hops op (List.mem_cons_self ..))
      obtain ⟨m', hanswers, h'⟩ := ih (fun op h => hops op (List.mem_cons_of_mem _ h)) h₁
      refine ⟨m', ?_, h'⟩
      rw [Op.answers, hanswer]
      simp only [bind, Except.bind, hanswers]
      rfl

end Model.Refines

end PiwcsPrw
