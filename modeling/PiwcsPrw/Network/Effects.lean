/-
# What a step does to one entry

`src/model.cpp`, on the network.

A network is three tables: its nodes, its sections, and the ports its sections
connect.  A step changes an entry of a table in a way that depends on the call and
on that entry alone: `Op.nodeEdit`, `Op.sectionEdit` and `Op.endsEdit` say how, and a
step does just this (`Step.nodes_eq`, `Step.sections_eq`, `Step.ends_eq_applyAt`).  The
checks are another matter, since they look at entries the call does not change.

Two calls that a network both allows either leave each other allowed or rule each
other out, and `Op.Excludes` says which: they claim the same ID, address, slot or
section, or one connects what the other removes (`Step.exists_step_iff`).
-/

import PiwcsPrw.Foundation.Edits
import PiwcsPrw.Network.Step

namespace PiwcsPrw

namespace Op

/-- The change of the table of nodes. -/
def nodeEdit : Op → Option (Identifier × Edit NodeAttrs)
  | addNode node => some (node.m_id, .put node.attrs)
  | removeNode n => some (n, .clear)
  | nodeMetadata n edited => some (n, .modify fun a => { a with data := edited })
  | _ => none

/-- The change of the table of sections. -/
def sectionEdit : Op → Option (Identifier × Edit SectionAttrs)
  | addSection sec => some (sec.m_id, .put sec.attrs)
  | removeSection s => some (s, .clear)
  | sectionMetadata s edited => some (s, .modify fun c => { c with data := edited })
  | _ => none

/-- The change of the table of the ports that sections connect. -/
def endsEdit : Op → Option (Identifier × Edit (Port × Port))
  | link s a i b j => some (s, .put ((a, i), (b, j)))
  | unlink s => some (s, .clear)
  | _ => none

/-- Of two calls allowed in one state, the one rules the other out. -/
def Excludes : Op → Op → Prop
  | addNode x, addNode y => x.m_id = y.m_id
  | addSection x, addSection y =>
      x.m_id = y.m_id ∨ ∃ adr, x.address? = some adr ∧ y.address? = some adr
  | removeNode n, removeNode n' => n = n'
  | removeSection s, removeSection t => s = t
  | unlink s, unlink t => s = t
  | link s a i b j, link t c k d l =>
      s = t ∨ (a, i) = (c, k) ∨ (a, i) = (d, l) ∨ (b, j) = (c, k) ∨ (b, j) = (d, l)
  | link _ a _ b _, removeNode n | removeNode n, link _ a _ b _ => a = n ∨ b = n
  | link s _ _ _ _, removeSection t | removeSection t, link s _ _ _ _ => s = t
  | _, _ => False

/-- Which of two calls comes first does not show in whether they exclude each other. -/
theorem Excludes.symm {x y : Op} (h : x.Excludes y) : y.Excludes x := by
  cases x <;> cases y <;> try exact h
  · exact Eq.symm h
  · exact h.imp Eq.symm fun ⟨adr, hx, hy⟩ => ⟨adr, hy, hx⟩
  · exact Eq.symm h
  · exact Eq.symm h
  · rcases h with h | h | h | h | h
    · exact Or.inl h.symm
    · exact Or.inr (Or.inl h.symm)
    · exact Or.inr (Or.inr (Or.inr (Or.inl h.symm)))
    · exact Or.inr (Or.inr (Or.inl h.symm))
    · exact Or.inr (Or.inr (Or.inr (Or.inr h.symm)))
  · exact Eq.symm h

end Op

namespace Network

variable {N N' : Network} {op : Op}

/-! ### The tables after a step -/

/-- **The nodes after a step** are those before it with the call's change. -/
theorem Step.nodes_eq (h : N.Step op N') (id : Identifier) :
    N'.nodes id = Edit.applyAt op.nodeEdit id (N.nodes id) := by
  cases h with
  | nodeMetadata n edited =>
      simp only [setNodeMetadata, Op.nodeEdit, Edit.applyAt_some, Edit.apply_modify]
      split_ifs
      · rfl
      · exact congrFun Option.map_id _
  | addNode | addSection | removeNode | removeSection | link | unlink | sectionMetadata => rfl

/-- And so are the sections. -/
theorem Step.sections_eq (h : N.Step op N') (id : Identifier) :
    N'.sections id = Edit.applyAt op.sectionEdit id (N.sections id) := by
  cases h with
  | sectionMetadata s edited =>
      simp only [setSectionMetadata, Op.sectionEdit, Edit.applyAt_some, Edit.apply_modify]
      split_ifs
      · rfl
      · exact congrFun Option.map_id _
  | addNode | addSection | removeNode | removeSection | link | unlink | nodeMetadata => rfl

/-- And so are their ends. -/
theorem Step.ends_eq_applyAt (h : N.Step op N') (id : Identifier) :
    N'.wiring.ends id = Edit.applyAt op.endsEdit id (N.wiring.ends id) := by
  cases h <;> rfl

/-- The changes are allowed where they are made. -/
theorem Step.nodeEdit_allowed (h : N.Step op N') (id : Identifier) (e : Edit NodeAttrs)
    (he : op.nodeEdit = some (id, e)) : e.Allowed (N.nodes id) := by
  cases h with
  | addNode hid hnew hvacant =>
      obtain ⟨rfl, rfl⟩ := Prod.mk.inj (Option.some.inj he)
      exact hnew
  | removeNode hknown hfree =>
      obtain ⟨rfl, rfl⟩ := Prod.mk.inj (Option.some.inj he)
      exact hknown
  | nodeMetadata n edited =>
      obtain ⟨rfl, rfl⟩ := Prod.mk.inj (Option.some.inj he)
      trivial
  | addSection | removeSection | link | unlink | sectionMetadata => cases he

/-- A section is added where there is none and removed where there is one. -/
theorem Step.sectionEdit_allowed (h : N.Step op N') (id : Identifier) (e : Edit SectionAttrs)
    (he : op.sectionEdit = some (id, e)) : e.Allowed (N.sections id) := by
  cases h with
  | addSection hid hnew haddr =>
      obtain ⟨rfl, rfl⟩ := Prod.mk.inj (Option.some.inj he)
      exact hnew
  | removeSection hknown hfree =>
      obtain ⟨rfl, rfl⟩ := Prod.mk.inj (Option.some.inj he)
      exact hknown
  | sectionMetadata s edited =>
      obtain ⟨rfl, rfl⟩ := Prod.mk.inj (Option.some.inj he)
      trivial
  | addNode | removeNode | link | unlink | nodeMetadata => cases he

/-- A section without ends is given them, and one with ends loses them. -/
theorem Step.endsEdit_allowed (h : N.Step op N') (id : Identifier) (e : Edit (Port × Port))
    (he : op.endsEdit = some (id, e)) : e.Allowed (N.wiring.ends id) := by
  cases h with
  | link hcan =>
      obtain ⟨rfl, rfl⟩ := Prod.mk.inj (Option.some.inj he)
      exact hcan.free
  | unlink hknown =>
      obtain ⟨rfl, rfl⟩ := Prod.mk.inj (Option.some.inj he)
      exact hknown
  | addNode | addSection | removeNode | removeSection | nodeMetadata | sectionMetadata => cases he

/-- A free port stays free unless the call connects something there. -/
theorem Step.plug_none_iff (h : N.Step op N') {p : Port} (hp : N.wiring.plug p = none) :
    N'.wiring.plug p = none ↔ ∀ s a i b j, op = .link s a i b j → p ≠ (a, i) ∧ p ≠ (b, j) := by
  cases h with
  | @link s a b i j hcan =>
      rw [link_plug, hp]
      constructor
      · rintro hnone t c k d l ⟨⟩
        split_ifs at hnone with hpq
        exact not_or.1 hpq
      · intro hpq
        rw [if_neg (not_or.2 (hpq s a i b j rfl))]
  | unlink => simp [hp]
  | addNode | addSection | removeNode | removeSection | nodeMetadata | sectionMetadata =>
      exact ⟨fun _ _ _ _ _ _ => nofun, fun _ => hp⟩

/-! ### Which calls are allowed -/

/-- **When a node can be added.** -/
theorem exists_step_addNode {node : Node} : (∃ N', N.Step (.addNode node) N') ↔
    isId node.m_id = true ∧ N.nodes node.m_id = none ∧ Model.Vacant node := by
  constructor
  · rintro ⟨_, hstep⟩
    cases hstep with
    | addNode hid hnew hvacant => exact ⟨hid, hnew, hvacant⟩
  · rintro ⟨hid, hnew, hvacant⟩
    exact ⟨_, .addNode hid hnew hvacant⟩

/-- **When a section can be added.** -/
theorem exists_step_addSection {sec : Section} : (∃ N', N.Step (.addSection sec) N') ↔
    isId sec.m_id = true ∧ N.sections sec.m_id = none ∧ ∀ t b x, N.sections t = some b →
      sec.address? = some x → b.address? ≠ some x := by
  constructor
  · rintro ⟨_, hstep⟩
    cases hstep with
    | addSection hid hnew haddr => exact ⟨hid, hnew, haddr⟩
  · rintro ⟨hid, hnew, haddr⟩
    exact ⟨_, .addSection hid hnew haddr⟩

/-- **When a node can be removed**: nothing is plugged into it. -/
theorem exists_step_removeNode {n : IdRef} : (∃ N', N.Step (.removeNode n) N') ↔
    N.nodes n ≠ none ∧ ∀ k, N.wiring.plug (n, k) = none := by
  constructor
  · rintro ⟨_, hstep⟩
    cases hstep with
    | removeNode hknown hfree => exact ⟨hknown, hfree⟩
  · rintro ⟨hknown, hfree⟩
    exact ⟨_, .removeNode hknown hfree⟩

/-- **When a section can be removed**: it has no ends. -/
theorem exists_step_removeSection {s : IdRef} : (∃ N', N.Step (.removeSection s) N') ↔
    N.sections s ≠ none ∧ N.wiring.ends s = none := by
  constructor
  · rintro ⟨_, hstep⟩
    cases hstep with
    | removeSection hknown hfree => exact ⟨hknown, hfree⟩
  · rintro ⟨hknown, hfree⟩
    exact ⟨_, .removeSection hknown hfree⟩

/-- **When a section can be linked.** -/
theorem exists_step_link {s a b : IdRef} {i j : SlotId} :
    (∃ N', N.Step (.link s a i b j) N') ↔ N.CanLink s ((a, i), (b, j)) := by
  constructor
  · rintro ⟨_, hstep⟩
    cases hstep with
    | link hcan => exact hcan
  · exact fun hcan => ⟨_, .link hcan⟩

/-- **When a section can be unlinked**: it has ends. -/
theorem exists_step_unlink {s : IdRef} :
    (∃ N', N.Step (.unlink s) N') ↔ N.wiring.ends s ≠ none := by
  constructor
  · rintro ⟨_, hstep⟩
    cases hstep with
    | unlink hknown => exact hknown
  · exact fun hknown => ⟨_, .unlink hknown⟩

/-- A port stays a port unless its node is removed. -/
theorem Step.hasPort_iff (h : N.Step op N') {p : Port} (hp : N.HasPort p) :
    N'.HasPort p ↔ op ≠ .removeNode p.1 := by
  obtain ⟨a, ha, hk⟩ := hp
  constructor
  · rintro ⟨b, hb, _⟩ rfl
    simp [h.nodes_eq, Op.nodeEdit] at hb
  · intro hne
    rw [HasPort, h.nodes_eq, ha]
    cases h with
    | @addNode node hid hnew =>
        have hid' : p.1 ≠ node.m_id := fun he => by rw [← he, ha] at hnew; cases hnew
        exact ⟨a, if_neg hid', hk⟩
    | @removeNode n =>
        have hn : p.1 ≠ n := fun he => hne (he ▸ rfl)
        exact ⟨a, if_neg hn, hk⟩
    | nodeMetadata n edited =>
        simp only [Op.nodeEdit, Edit.applyAt_some, Edit.apply_modify, Option.map_some]
        split_ifs <;> exact ⟨_, rfl, hk⟩
    | addSection | removeSection | link | unlink | sectionMetadata => exact ⟨a, rfl, hk⟩

/-- A section that can be connected still can, unless the call takes away the section, a
node or a slot. -/
theorem Step.canLink_iff (h : N.Step op N') {s a b : IdRef} {i j : SlotId}
    (hcan : N.CanLink s ((a, i), (b, j))) :
    N'.CanLink s ((a, i), (b, j)) ↔ ¬ op.Excludes (.link s a i b j) := by
  have hsections := h.sections_eq s
  have hends := h.ends_eq_applyAt s
  rw [hcan.free] at hends
  obtain ⟨c, hc⟩ := hcan.known
  rw [hc] at hsections
  constructor
  · intro hcan' hex
    cases op with
    | link t c k d l =>
        have hfst := (h.plug_none_iff hcan.free_fst).1 hcan'.free_fst t c k d l rfl
        have hsnd := (h.plug_none_iff hcan.free_snd).1 hcan'.free_snd t c k d l rfl
        rcases hex with rfl | hp | hp | hp | hp
        · simp [hcan'.free, Op.endsEdit] at hends
        · exact hfst.1 hp.symm
        · exact hsnd.1 hp.symm
        · exact hfst.2 hp.symm
        · exact hsnd.2 hp.symm
    | removeNode n =>
        rcases hex with rfl | rfl
        · exact (h.hasPort_iff hcan.fst).1 hcan'.fst rfl
        · exact (h.hasPort_iff hcan.snd).1 hcan'.snd rfl
    | removeSection t =>
        obtain rfl : s = t := hex
        obtain ⟨c', hc'⟩ := hcan'.known
        simp [hc', Op.sectionEdit] at hsections
    | addNode | addSection | unlink | nodeMetadata | sectionMetadata => exact hex
  · intro hex
    refine ⟨?_, (h.hasPort_iff hcan.fst).2 ?_, (h.hasPort_iff hcan.snd).2 ?_, hcan.apart,
      (h.plug_none_iff hcan.free_fst).2 ?_, (h.plug_none_iff hcan.free_snd).2 ?_, ?_⟩
    · rw [← Option.ne_none_iff_exists', hsections, Edit.applyAt_ne_none_iff]
      cases op with
      | removeSection t =>
          rintro ⟨⟩
          exact hex rfl
      | addNode | addSection | removeNode | link | unlink | nodeMetadata | sectionMetadata =>
          simp [Op.sectionEdit]
    · rintro rfl
      exact hex (Or.inl rfl)
    · rintro rfl
      exact hex (Or.inr rfl)
    · rintro t c k d l rfl
      exact ⟨fun he => hex (Or.inr (Or.inl he.symm)),
        fun he => hex (Or.inr (Or.inr (Or.inr (Or.inl he.symm))))⟩
    · rintro t c k d l rfl
      exact ⟨fun he => hex (Or.inr (Or.inr (Or.inl he.symm))),
        fun he => hex (Or.inr (Or.inr (Or.inr (Or.inr he.symm))))⟩
    · rw [hends, Edit.applyAt_eq_none_iff]
      cases op with
      | link t c k d l =>
          rintro q ⟨⟩
          exact hex (Or.inl rfl)
      | addNode | addSection | removeNode | removeSection | unlink | nodeMetadata
        | sectionMetadata => simp [Op.endsEdit]

/-- An address in use after a call was in use before, or the call added it. -/
theorem Step.address_after (h : N.Step op N') {t : Identifier} {b : SectionAttrs} {x : Bytes}
    (hb : N'.sections t = some b) (hx : b.address? = some x) :
    (∃ other, op = .addSection other ∧ other.address? = some x) ∨
      ∃ c, N.sections t = some c ∧ c.address? = some x := by
  rw [h.sections_eq] at hb
  cases op with
  | addSection other =>
      simp only [Op.sectionEdit, Edit.applyAt_some, Edit.apply_put] at hb
      split_ifs at hb
      · obtain rfl := Option.some.inj hb
        exact Or.inl ⟨other, rfl, hx⟩
      · exact Or.inr ⟨b, hb, hx⟩
  | removeSection u =>
      simp only [Op.sectionEdit, Edit.applyAt_some, Edit.apply_clear] at hb
      split_ifs at hb
      exact Or.inr ⟨b, hb, hx⟩
  | sectionMetadata u edited =>
      simp only [Op.sectionEdit, Edit.applyAt_some, Edit.apply_modify] at hb
      split_ifs at hb
      · obtain ⟨c, hc, rfl⟩ := Option.map_eq_some_iff.1 hb
        exact Or.inr ⟨c, hc, hx⟩
      · exact Or.inr ⟨b, hb, hx⟩
  | addNode | removeNode | link | unlink | nodeMetadata => exact Or.inr ⟨b, hb, hx⟩

/-- **Two calls allowed in one network leave each other allowed, or rule each other
out.** -/
theorem Step.exists_step_iff (h : N.Step op N') {op' : Op} (h' : ∃ N₂, N.Step op' N₂) :
    (∃ N₂, N'.Step op' N₂) ↔ ¬ op.Excludes op' := by
  cases op' with
  | addNode node =>
      obtain ⟨hid, hnew, hvacant⟩ := exists_step_addNode.1 h'
      rw [exists_step_addNode, and_iff_right hid, and_iff_left hvacant, h.nodes_eq, hnew,
        Edit.applyAt_eq_none_iff]
      cases op <;> simp [Op.nodeEdit, Op.Excludes]
  | addSection sec =>
      obtain ⟨hid, hnew, haddr⟩ := exists_step_addSection.1 h'
      rw [exists_step_addSection, and_iff_right hid, h.sections_eq, hnew, Edit.applyAt_eq_none_iff]
      constructor
      · rintro ⟨hnone, hfree⟩ hex
        cases op with
        | addSection other =>
            rcases hex with he | ⟨adr, hx, hy⟩
            · exact hnone other.attrs (by rw [Op.sectionEdit, he])
            · exact hfree other.m_id other.attrs adr (by simp [h.sections_eq, Op.sectionEdit]) hy hx
        | addNode | removeNode | removeSection | link | unlink | nodeMetadata
          | sectionMetadata => exact hex
      · intro hex
        constructor
        · rintro a hput
          cases op with
          | addSection other =>
              obtain ⟨he, _⟩ := Prod.mk.inj (Option.some.inj hput)
              exact hex (Or.inl he)
          | addNode | removeNode | removeSection | link | unlink | nodeMetadata
            | sectionMetadata => simp [Op.sectionEdit] at hput
        · intro t b x hb hx hx'
          rcases h.address_after hb hx' with ⟨other, rfl, hother⟩ | ⟨c, hc, hcx⟩
          · exact hex (Or.inr ⟨x, hother, hx⟩)
          · exact haddr t c x hc hx hcx
  | removeNode n =>
      obtain ⟨hknown, hfree⟩ := exists_step_removeNode.1 h'
      obtain ⟨a, ha⟩ := Option.ne_none_iff_exists'.1 hknown
      rw [exists_step_removeNode, h.nodes_eq, ha, Edit.applyAt_ne_none_iff]
      simp only [h.plug_none_iff (hfree _)]
      cases op with
      | link s c k d l =>
          constructor
          · rintro ⟨_, hports⟩ (rfl | rfl)
            · exact (hports k s c k d l rfl).1 rfl
            · exact (hports l s c k d l rfl).2 rfl
          · intro hex
            refine ⟨by simp [Op.nodeEdit], ?_⟩
            rintro m s' c' k' d' l' ⟨⟩
            exact ⟨fun he => hex (Or.inl (congrArg Prod.fst he).symm),
              fun he => hex (Or.inr (congrArg Prod.fst he).symm)⟩
      | addNode | removeNode | addSection | removeSection | unlink | nodeMetadata
        | sectionMetadata => simp [Op.nodeEdit, Op.Excludes]
  | removeSection s =>
      obtain ⟨hknown, hfree⟩ := exists_step_removeSection.1 h'
      obtain ⟨c, hc⟩ := Option.ne_none_iff_exists'.1 hknown
      rw [exists_step_removeSection, h.sections_eq, h.ends_eq_applyAt, hfree, hc,
        Edit.applyAt_ne_none_iff, Edit.applyAt_eq_none_iff]
      cases op <;> simp [Op.sectionEdit, Op.endsEdit, Op.Excludes]
  | link s a i b j => exact exists_step_link.trans (h.canLink_iff (exists_step_link.1 h'))
  | unlink s =>
      obtain ⟨q, hq⟩ := Option.ne_none_iff_exists'.1 (exists_step_unlink.1 h')
      rw [exists_step_unlink, h.ends_eq_applyAt, hq, Edit.applyAt_ne_none_iff]
      cases op <;> simp [Op.endsEdit, Op.Excludes]
  | nodeMetadata n edited =>
      have hex : ¬ op.Excludes (.nodeMetadata n edited) := by cases op <;> exact id
      exact iff_of_true ⟨_, .nodeMetadata n edited⟩ hex
  | sectionMetadata s edited =>
      have hex : ¬ op.Excludes (.sectionMetadata s edited) := by cases op <;> exact id
      exact iff_of_true ⟨_, .sectionMetadata s edited⟩ hex

end Network

end PiwcsPrw
