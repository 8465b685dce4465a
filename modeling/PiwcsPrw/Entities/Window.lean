/-
# An argument that points into the model

`IdRef` in `include/piwcsprwmodel/util.h`, `Model::unlink` in `src/model.cpp`.

An `IdRef` is a `std::string_view`: a pointer and a length, not a copy.  Callers
have such views of identifiers the model itself stores, from `Node::section(k)`,
from `id()`, `start()` and `end()`, or as the keys of `nodes()` and `sections()`,
and may pass one on.  `unlink` compares slots with its argument after it has
assigned `ID_NULL` to one of them.

A `Window` is an argument of its own characters or a view of one stored
identifier.  `Model.unlinkAt` is `unlink` with the characters of the window as part
of the state: they are read at every comparison, and an assignment of `ID_NULL` to
the identifier the window shows changes them.  What a view then reads is up to the
string class, and the parameter `cleared` stands for it.

With an argument of its own, `unlinkAt` is `Model.unlink`; so it is with any window
that does not show a slot of the section's start node (`unlinkAt_eq`).

`link` has three arguments, assigns four identifiers, and reads its arguments
between the assignments (`Model.linkAt`).  What a view then reads of an assigned
string is the parameter `assigned`.
-/

import PiwcsPrw.Entities.Model

namespace PiwcsPrw

/-- An identifier stored in a model. -/
inductive Cell
  | slot (node : Identifier) (k : SlotId)
  | nodeKey (node : Identifier)
  | nodeId (node : Identifier)
  | sectionKey (sec : Identifier)
  | sectionId (sec : Identifier)
  | sectionStart (sec : Identifier)
  | sectionEnd (sec : Identifier)
  deriving DecidableEq

/-- An argument: a string of its own, or a view of a stored identifier. -/
inductive Window
  | own (text : Bytes)
  | onto (cell : Cell)
  deriving DecidableEq

/-- What the cell stores, if the model has it. -/
def Model.cell (m : Model) : Cell → Option Identifier
  | .slot id k => (m.node id).bind fun node => node.m_slots[k]?
  | .nodeKey id => (m.node id).map fun _ => id
  | .nodeId id => (m.node id).map Node.m_id
  | .sectionKey id => (m.section id).map fun _ => id
  | .sectionId id => (m.section id).map Section.m_id
  | .sectionStart id => (m.section id).map Section.m_start
  | .sectionEnd id => (m.section id).map Section.m_end

/-- The characters the window shows. -/
def Window.read (w : Window) (m : Model) : Bytes :=
  match w with
  | .own text => text
  | .onto cell => (m.cell cell).getD ID_NULL

variable (cleared : Bytes → Bytes)

/-- The loop of `unlink` over the slots `ks` of the node `id`, when the argument shows
`chars`: the node after it, and what the argument shows then. -/
def Node.releaseAt (node : Node) (w : Window) (id : Identifier) (chars : Bytes) :
    List (Fin MAX_SLOTS) → Node × Bytes
  | [] => (node, chars)
  | k :: ks =>
    if node.m_slots.get k == chars then
      ({ node with m_slots := node.m_slots.set k ID_NULL k.isLt },
        if w = .onto (.slot id k) then cleared chars else chars)
    else
      node.releaseAt w id chars ks

/-- `unlink`, its argument being a window. -/
def Model.unlinkAt (m : Model) (w : Window) : Checked (UnlinkResult × Model) := do
  let sectionId := w.read m
  match m.section sectionId with
  | none => return (.NOT_FOUND, m)
  | some sec =>
    if !sec.isConnected then
      return (.NOT_LINKED, m)
    let (nodes, _) ← [sec.m_start, sec.m_end].foldlM (fun (nodes, chars) id => do
      let node ← Checked.deref (nodes.lookup id)
      let (node, chars) := node.releaseAt cleared w id chars (List.finRange MAX_SLOTS)
      return (nodes.insert id node, chars)) (m.m_nodes, sectionId)
    let sec := { sec with m_start := ID_NULL, m_end := ID_NULL }
    return (.OK, ⟨nodes, m.m_sections.insert sectionId sec⟩)

variable {cleared}

/-- The loop stops at the first slot that holds what the argument shows. -/
theorem Node.releaseAt_find (node : Node) (w : Window) (id : Identifier) (chars : Bytes)
    (ks : List (Fin MAX_SLOTS)) : node.releaseAt cleared w id chars ks =
      match ks.find? fun k => node.m_slots.get k == chars with
      | some k => (node.put k ID_NULL, if w = .onto (.slot id k) then cleared chars else chars)
      | none => (node, chars) := by
  induction ks with
  | nil => rfl
  | cons k ks ih =>
      rw [releaseAt, List.find?_cons]
      by_cases hk : (node.m_slots.get k == chars) = true
      · rw [if_pos hk, hk, ← put_eq_set]
      · rw [if_neg hk, ih, Bool.eq_false_iff.2 hk]

/-- What the loop does to the node does not depend on the window. -/
theorem Node.exists_releaseAt_eq (node : Node) (w : Window) (id : Identifier) (chars : Bytes) :
    ∃ chars', node.releaseAt cleared w id chars (List.finRange MAX_SLOTS)
      = (node.release chars, chars') := by
  rw [releaseAt_find, release_find]
  cases (List.finRange MAX_SLOTS).find? fun k => node.m_slots.get k == chars with
  | none => exact ⟨chars, rfl⟩
  | some k => exact ⟨_, rfl⟩

/-- A window that shows no slot of the node is unchanged by the loop. -/
theorem Node.releaseAt_of_ne {node : Node} {w : Window} {id : Identifier} {chars : Bytes}
    (h : ∀ k, w ≠ .onto (.slot id k)) :
    node.releaseAt cleared w id chars (List.finRange MAX_SLOTS) = (node.release chars, chars) := by
  rw [releaseAt_find, release_find]
  cases (List.finRange MAX_SLOTS).find? fun k => node.m_slots.get k == chars with
  | none => rfl
  | some k => exact congrArg (Prod.mk _) (if_neg (h k))

/-- The window shows no slot of the start node of the section it names. -/
def Window.AvoidsStart (w : Window) (m : Model) : Prop :=
  ∀ sec, m.section (w.read m) = some sec → ∀ k, w ≠ .onto (.slot sec.m_start k)

/-- **A window that does not show a slot of the start node is as good as a string of
its own**: it still shows the section when the loop gets to the end node, the last
that is searched. -/
theorem Model.unlinkAt_eq {m : Model} {w : Window} (h : w.AvoidsStart m) :
    m.unlinkAt cleared w = m.unlink (w.read m) := by
  rw [unlinkAt, unlink]
  cases hsec : m.section (w.read m) with
  | none => rfl
  | some sec =>
      cases hcon : sec.isConnected with
      | false => simp [hcon]
      | true =>
          cases hstart : m.m_nodes.lookup sec.m_start with
          | none => simp [hcon, hstart, Checked.deref, bind, Except.bind]
          | some start =>
          cases hstop : (m.m_nodes.insert sec.m_start (start.release (w.read m))).lookup
              sec.m_end with
          | none =>
              simp [hstart, hstop, Node.releaseAt_of_ne (h sec hsec), Checked.deref, bind,
                Except.bind, pure, Except.pure]
          | some stop =>
              have hrelease : ∃ chars', stop.releaseAt cleared w sec.m_end (w.read m)
                  (List.finRange MAX_SLOTS) = (stop.release (w.read m), chars') :=
                stop.exists_releaseAt_eq w sec.m_end (w.read m)
              obtain ⟨chars', hchars'⟩ := hrelease
              simp [hstart, hstop, Node.releaseAt_of_ne (h sec hsec), hchars', Checked.deref, bind,
                Except.bind, pure, Except.pure]

/-! ### `link` -/

variable (assigned : Bytes → Bytes → Bytes)

/-- What the window shows after `value` is assigned to the cell, when it showed `chars`. -/
def Window.after (w : Window) (cell : Cell) (value chars : Bytes) : Bytes :=
  if w = .onto cell then assigned value chars else chars

/-- `link`, its arguments being windows. -/
def Model.linkAt (m : Model) (ws wa : Window) (startSlot : SlotId) (wb : Window)
    (endSlot : SlotId) : Checked (LinkResult × Model) := do
  let sectionId := ws.read m
  let startNodeId := wa.read m
  let endNodeId := wb.read m
  match m.section sectionId, m.node startNodeId, m.node endNodeId with
  | some sec, some start, some stop =>
    if startSlot ≥ start.sectionCount || endSlot ≥ stop.sectionCount then
      return (.NOT_FOUND, m)
    if startNodeId == endNodeId then
      return (.SAME_NODE, m)
    if (← start.section startSlot) != ID_NULL then
      return (.NODE_OCCUPIED, m)
    if (← stop.section endSlot) != ID_NULL then
      return (.NODE_OCCUPIED, m)
    if sec.isConnected then
      return (.SECTION_OCCUPIED, m)
    let start ← start.setSlot startSlot sectionId
    -- Each assignment may change what the windows show that are read after it.
    let cell := Cell.slot startNodeId startSlot
    let sectionChars := ws.after assigned cell sectionId sectionId
    let startChars := wa.after assigned cell sectionId startNodeId
    let endChars := wb.after assigned cell sectionId endNodeId
    let stop ← stop.setSlot endSlot sectionChars
    let cell := Cell.slot endNodeId endSlot
    let startChars := wa.after assigned cell sectionChars startChars
    let endChars := wb.after assigned cell sectionChars endChars
    let endChars' := wb.after assigned (.sectionStart sectionId) startChars endChars
    let sec := { sec with m_start := startChars, m_end := endChars' }
    return (.OK, ⟨(m.m_nodes.insert startNodeId start).insert endNodeId stop,
      m.m_sections.insert sectionId sec⟩)
  | _, _, _ => return (.NOT_FOUND, m)

/-- A window that shows something is not changed by an assignment to an empty string. -/
theorem Window.after_eq {assigned : Bytes → Bytes → Bytes} {w : Window} {m : Model} {cell : Cell}
    (hcell : m.cell cell = some ID_NULL) (hw : w.read m ≠ ID_NULL) (value chars : Bytes) :
    w.after assigned cell value chars = chars := by
  refine if_neg ?_
  rintro rfl
  rw [Window.read, hcell] at hw
  exact hw rfl

/-- **`linkAt` is `link` when its arguments are not empty**, since the strings that it
assigns are. -/
theorem Model.linkAt_eq {assigned : Bytes → Bytes → Bytes} {m : Model} {ws wa wb : Window}
    (hs : ∀ sec, m.section (ws.read m) = some sec → ws.read m ≠ ID_NULL)
    (ha : ∀ start, m.node (wa.read m) = some start → wa.read m ≠ ID_NULL)
    (hb : ∀ stop, m.node (wb.read m) = some stop → wb.read m ≠ ID_NULL) (i j : SlotId) :
    m.linkAt assigned ws wa i wb j = m.link (ws.read m) (wa.read m) i (wb.read m) j := by
  rw [linkAt, link]
  cases hsec : m.section (ws.read m) with
  | none => rfl
  | some sec =>
  cases hstart : m.node (wa.read m) with
  | none => rfl
  | some start =>
  cases hstop : m.node (wb.read m) with
  | none => rfl
  | some stop =>
  by_cases hrange : (i ≥ start.sectionCount || j ≥ stop.sectionCount) = true
  · simp only [hrange, if_true]
  have hlt : i < start.sectionCount ∧ j < stop.sectionCount := by simpa using hrange
  obtain ⟨hi, hj⟩ := hlt
  by_cases hempty : start.slotAt i = ID_NULL ∧ stop.slotAt j = ID_NULL ∧ sec.m_start = ID_NULL
  · obtain ⟨hfi, hfj, hfree⟩ := hempty
    have hcell : ∀ {n node k}, m.node n = some node → k < node.sectionCount →
        node.slotAt k = ID_NULL → m.cell (.slot n k) = some ID_NULL := fun hn hk hslot => by
      have hmax := Node.lt_maxSlots hk
      rw [cell, hn, Option.bind_some, ← hslot, Node.slotAt_eq_getElem _ hmax]
      exact Vector.getElem?_eq_getElem hmax
    have hcellStart := hcell hstart hi hfi
    have hcellStop := hcell hstop hj hfj
    have hcellSec : m.cell (.sectionStart (ws.read m)) = some ID_NULL := by
      rw [cell, hsec, Option.map_some, hfree]
    simp only [Window.after_eq hcellStart (hs sec hsec), Window.after_eq hcellStart (ha start hstart),
      Window.after_eq hcellStart (hb stop hstop), Window.after_eq hcellStop (ha start hstart),
      Window.after_eq hcellStop (hb stop hstop), Window.after_eq hcellSec (hb stop hstop)]
  · -- One of the tests before the assignments fails, and it is the same one.
    rw [not_and_or, not_and_or] at hempty
    rcases hempty with h | h | h <;>
      simp [Node.section_eq _ hi, Node.section_eq _ hj, Section.isConnected, h, bind, Except.bind]

end PiwcsPrw
