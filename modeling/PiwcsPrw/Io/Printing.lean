/-
# Printed entities

`src/printing.cpp`, and the loops of `examples/main.cpp` that print every entity.

The output for an entity names it, and what it is connected to, in a text with spaces
and slashes between the parts.  An identifier may have these itself, and then the output
can be read in two ways.  Without them the outputs say all there is to the tracks:
**two models print the same outputs exactly when they have the same nodes and
sections, connected alike** (`Reachable.printed_iff`).  Outputs are compared one by one,
before `main` puts a line feed after each: an identifier may have line feeds too.

A null identifier is printed as `#null`, which no identifier of a reachable model
is.
-/

import PiwcsPrw.Foundation.Json
import PiwcsPrw.Runs.Consistent

namespace PiwcsPrw

/-- `fmt`. -/
def fmt (id : IdRef) : Bytes := if isIdOrNull id && !isId id then ascii "#null" else id

/-- `operator<<` of a node. -/
def Node.output (node : Node) : Checked Bytes := do
  let type := node.m_type.info
  let out := ascii "[" ++ type.name ++ ascii " node " ++ node.m_id ++ ascii " "
  let out := out ++ fmt (← node.section 0)
  let out ← (List.range' 1 (type.slotCount - 1)).foldlM
    (fun out i => do return out ++ ascii "/" ++ fmt (← node.section i)) out
  return out ++ ascii "]"

/-- `operator<<` of a section. -/
def Section.output (sec : Section) : Bytes :=
  ascii "[Section " ++ sec.m_id ++ ascii " " ++ fmt sec.m_start ++ ascii "/" ++ fmt sec.m_end ++
    ascii "]"

/-- The outputs that `examples/main.cpp` prints for a model, in whatever order. -/
inductive Model.Prints (m : Model) : Bytes → Prop
  | node {n : Identifier} {node : Node} {text : Bytes} : m.node n = some node →
      node.output = .ok text → m.Prints text
  | «section» {s : Identifier} {sec : Section} : m.section s = some sec → m.Prints sec.output

/-! ### The parts of an output -/

/-- An identifier that an output shows as one part. -/
def IsPart (id : Identifier) : Prop := ' '.toUInt8 ∉ id ∧ '/'.toUInt8 ∉ id

instance (id : Identifier) : Decidable (IsPart id) :=
  inferInstanceAs (Decidable (_ ∉ _ ∧ _ ∉ _))

/-- What the slots of a node hold, or the ends of a section are. -/
def joined (ids : List Identifier) : Bytes := ['/'.toUInt8].intercalate (ids.map fmt)

/-- The slots of a node that are printed. -/
def Node.slots (node : Node) : List Identifier := (List.range node.sectionCount).map node.slotAt

/-- The loop puts slashes between what the slots hold. -/
theorem foldl_joined (out : Bytes) (id : Identifier) (ids : List Identifier) :
    ids.foldl (fun out id => out ++ ascii "/" ++ fmt id) (out ++ fmt id)
      = out ++ joined (id :: ids) := by
  induction ids generalizing out id with
  | nil => rw [List.foldl_nil, joined, List.map_singleton, List.intercalate_singleton]
  | cons id' ids ih =>
      rw [List.foldl_cons, ih, joined, joined, List.map_cons, List.map_cons, List.map_cons,
        List.intercalate_cons_cons, List.append_assoc, List.append_assoc, List.append_assoc]
      rfl

/-- **A node is printed without reading past its slots.** -/
theorem Node.output_eq (node : Node) : node.output = .ok (ascii "[" ++ node.m_type.info.name ++
    ascii " node " ++ node.m_id ++ ascii " " ++ joined node.slots ++ ascii "]") := by
  obtain ⟨count, hcount⟩ := Nat.exists_eq_succ_of_ne_zero node.m_type.slotCount_pos.ne'
  have hslots : node.slots = node.slotAt 0 :: (List.range' 1 count).map node.slotAt := by
    rw [Node.slots, Node.sectionCount, hcount, List.range_eq_range', List.range'_succ, List.map_cons]
  have hread : ∀ out, ∀ i < node.sectionCount,
      (do return out ++ ascii "/" ++ fmt (← node.section i) : Checked Bytes)
        = .ok (out ++ ascii "/" ++ fmt (node.slotAt i)) := fun out i hi => by
    rw [node.section_eq hi]
    rfl
  have hbound : ∀ i ∈ List.range' 1 count, i < node.sectionCount := fun i hi => by
    rw [List.mem_range'_1] at hi
    rw [Node.sectionCount, hcount]
    omega
  refine Checked.bind_eq_ok_iff.2 ⟨_, node.section_eq node.m_type.slotCount_pos, ?_⟩
  refine Checked.bind_eq_ok_iff.2 ⟨_, ?_, rfl⟩
  rw [hcount, Nat.succ_sub_one, Json.foldlM_ok hread hbound, hslots, ← foldl_joined, List.foldl_map]

/-! ### Reading the parts back -/

/-- A part is formatted as one part. -/
theorem isPart_fmt {id : Identifier} (h : IsPart id) : IsPart (fmt id) := by
  rw [fmt]
  split_ifs
  · decide
  · exact h

/-- What precedes a separator is what comes before the first of its kind. -/
theorem append_separator_inj {c : UInt8} {xs xs' ys ys' : Bytes} (h : c ∉ xs) (h' : c ∉ xs') :
    xs ++ c :: ys = xs' ++ c :: ys' ↔ xs = xs' ∧ ys = ys' := by
  induction xs generalizing xs' with
  | nil =>
      cases xs' with
      | nil => simp
      | cons x' xs' => simp [List.ne_of_not_mem_cons h']
  | cons x xs ih =>
      cases xs' with
      | nil => simp [(List.ne_of_not_mem_cons h).symm]
      | cons x' xs' =>
          simp [ih (List.not_mem_of_not_mem_cons h) (List.not_mem_of_not_mem_cons h'), and_assoc]

/-- The text of an identifier, or of none, tells which one it is. -/
theorem fmt_injOn : Set.InjOn fmt {id | isIdOrNull id = true} := by
  have hnull : ∀ {id}, isIdOrNull id = true → isId id = false → id = ID_NULL := fun hid hno => by
    rw [isIdOrNull, hno, Bool.or_false, List.isEmpty_iff] at hid
    exact hid
  have hne : ∀ {id}, isId id = true → id ≠ ascii "#null" := by
    rintro _ hid rfl
    cases hid
  intro id hid id' hid' heq
  rw [fmt, fmt, show isIdOrNull id = true from hid, show isIdOrNull id' = true from hid'] at heq
  cases h : isId id <;> cases h' : isId id' <;> simp only [h, h', Bool.true_and, Bool.not_true,
    Bool.not_false, if_true, Bool.false_eq_true, if_false] at heq
  · rw [hnull hid h, hnull hid' h']
  · exact absurd heq.symm (hne h')
  · exact absurd heq (hne h)
  · exact heq

/-- What is joined can be told apart. -/
theorem joined_inj {ids ids' : List Identifier} (h : ∀ id ∈ ids, IsPart id ∧ isIdOrNull id = true)
    (h' : ∀ id ∈ ids', IsPart id ∧ isIdOrNull id = true) (hne : ids ≠ []) (hne' : ids' ≠ []) :
    joined ids = joined ids' ↔ ids = ids' := by
  refine ⟨fun heq => ?_, congrArg joined⟩
  have hsplit : ∀ {ids : List Identifier}, (∀ id ∈ ids, IsPart id ∧ isIdOrNull id = true) →
      ids ≠ [] → (joined ids).splitOn '/'.toUInt8 = ids.map fmt := fun h hne => by
    refine List.splitOn_intercalate _ (fun l hl => ?_) (by simpa using hne)
    obtain ⟨id, hid, rfl⟩ := List.mem_map.1 hl
    exact (isPart_fmt (h id hid).1).2
  have hmap : ids.map fmt = ids'.map fmt := by
    rw [← hsplit h hne, ← hsplit h' hne', heq]
  have hlen : ids.length = ids'.length := by simpa using congrArg List.length hmap
  refine List.ext_getElem hlen fun i hi hi' => ?_
  refine fmt_injOn (h _ (List.getElem_mem hi)).2 (h' _ (List.getElem_mem hi')).2 ?_
  have hget := List.getElem_of_eq hmap (by simpa using hi : i < (ids.map fmt).length)
  rwa [List.getElem_map, List.getElem_map] at hget

/-- **The output of a node says which node it is and what its slots hold.** -/
theorem Node.output_inj {node node' : Node} (hid : IsPart node.m_id) (hid' : IsPart node'.m_id)
    (hslots : ∀ id ∈ node.slots, IsPart id ∧ isIdOrNull id = true)
    (hslots' : ∀ id ∈ node'.slots, IsPart id ∧ isIdOrNull id = true) :
    node.output = node'.output ↔
      node.m_type = node'.m_type ∧ node.m_id = node'.m_id ∧ node.slots = node'.slots := by
  have hname : ∀ type : NodeType, ' '.toUInt8 ∉ type.info.name := fun type => by
    cases type <;> decide
  have hne : ∀ node : Node, node.slots ≠ [] := fun node h => by
    have hzero : node.slotAt 0 ∈ node.slots :=
      List.mem_map_of_mem (List.mem_range.2 node.m_type.slotCount_pos)
    rw [h] at hzero
    cases hzero
  rw [output_eq, output_eq, Except.ok.injEq]
  refine ⟨fun heq => ?_, fun ⟨htype, hid, hslots⟩ => by rw [htype, hid, hslots]⟩
  -- The type ends at the first space, the identifier at the third.
  have houtput : '['.toUInt8 :: (node.m_type.info.name ++ ' '.toUInt8 :: (ascii "node " ++
      (node.m_id ++ ' '.toUInt8 :: (joined node.slots ++ ascii "]"))))
        = '['.toUInt8 :: (node'.m_type.info.name ++ ' '.toUInt8 :: (ascii "node " ++
          (node'.m_id ++ ' '.toUInt8 :: (joined node'.slots ++ ascii "]")))) := by
    simpa [ascii] using heq
  rw [List.cons.injEq, append_separator_inj (hname _) (hname _), List.append_cancel_left_eq,
    append_separator_inj hid.1 hid'.1, List.append_cancel_right_eq,
    joined_inj hslots hslots' (hne _) (hne _)] at houtput
  exact ⟨NodeType.name_injective houtput.2.1, houtput.2.2⟩

/-- **And so does the output of a section**, with its ends. -/
theorem Section.output_inj {sec sec' : Section} (hid : IsPart sec.m_id) (hid' : IsPart sec'.m_id)
    (hends : ∀ id ∈ [sec.m_start, sec.m_end], IsPart id ∧ isIdOrNull id = true)
    (hends' : ∀ id ∈ [sec'.m_start, sec'.m_end], IsPart id ∧ isIdOrNull id = true) :
    sec.output = sec'.output ↔
      sec.m_id = sec'.m_id ∧ sec.m_start = sec'.m_start ∧ sec.m_end = sec'.m_end := by
  refine ⟨fun heq => ?_, fun ⟨hid, hstart, hstop⟩ => by rw [output, output, hid, hstart, hstop]⟩
  have houtput : ascii "[Section " ++ (sec.m_id ++ ' '.toUInt8 :: (joined [sec.m_start, sec.m_end] ++
      ascii "]")) = ascii "[Section " ++ (sec'.m_id ++ ' '.toUInt8 ::
        (joined [sec'.m_start, sec'.m_end] ++ ascii "]")) := by
    simpa [output, joined, ascii] using heq
  rw [List.append_cancel_left_eq, append_separator_inj hid.1 hid'.1,
    List.append_cancel_right_eq, joined_inj hends hends' (List.cons_ne_nil _ _)
      (List.cons_ne_nil _ _)] at houtput
  simpa using houtput

/-- No output is one of a node and of a section. -/
theorem Node.output_ne (node : Node) (sec : Section) : node.output ≠ .ok sec.output := by
  have hname : ' '.toUInt8 ∉ node.m_type.info.name ∧ node.m_type.info.name ≠ ascii "Section" := by
    cases node.m_type <;> decide
  rw [output_eq, Ne, Except.ok.injEq]
  intro heq
  have houtput : '['.toUInt8 :: (node.m_type.info.name ++ ' '.toUInt8 :: (ascii "node " ++
      (node.m_id ++ ' '.toUInt8 :: (joined node.slots ++ ascii "]"))))
        = '['.toUInt8 :: (ascii "Section" ++ ' '.toUInt8 :: (sec.m_id ++ ' '.toUInt8 ::
          (joined [sec.m_start, sec.m_end] ++ ascii "]"))) := by
    simpa [Section.output, joined, ascii] using heq
  rw [List.cons.injEq, append_separator_inj hname.1 (by decide)] at houtput
  exact hname.2 houtput.2.1

/-! ### The outputs of a model -/

/-- The IDs of the model are shown as one part each. -/
structure Model.Printable (m : Model) : Prop where
  node : ∀ {n node}, m.node n = some node → IsPart n
  «section» : ∀ {s sec}, m.section s = some sec → IsPart s

/-- The models have nodes of the same types, and sections, under the same IDs, and they
are connected alike. -/
structure Model.SameTracks (m m' : Model) : Prop where
  node : ∀ n, (m.node n).map (fun node => (node.m_type, node.m_slots))
    = (m'.node n).map fun node => (node.m_type, node.m_slots)
  «section» : ∀ s, (m.section s).map (fun sec => (sec.m_start, sec.m_end))
    = (m'.section s).map fun sec => (sec.m_start, sec.m_end)

/-- Having the same tracks goes both ways. -/
theorem Model.SameTracks.symm {m m' : Model} (h : m.SameTracks m') : m'.SameTracks m :=
  ⟨fun n => (h.node n).symm, fun s => (h.section s).symm⟩

section Outputs

variable {m m' : Model} (hcon : m.Consistent) (hcon' : m'.Consistent) (hm : m.Printable)
  (hm' : m'.Printable)

include hcon hm

/-- The parts of the output of a node. -/
theorem parts_of_node {n : Identifier} {node : Node} (hn : m.node n = some node) :
    IsPart node.m_id ∧ ∀ id ∈ node.slots, IsPart id ∧ isIdOrNull id = true := by
  refine ⟨(hcon.node_key hn).1 ▸ hm.node hn, fun id hid => ?_⟩
  obtain ⟨k, hk, rfl⟩ := List.mem_map.1 hid
  rcases hcon.slot_known hn (List.mem_range.1 hk) with hnull | ⟨sec, hsec⟩
  · rw [hnull]
    decide
  · refine ⟨hm.section hsec, ?_⟩
    rw [isIdOrNull, isId_iff.2 (hcon.section_key hsec).2, Bool.or_true]

/-- The parts of the output of a section. -/
theorem parts_of_section {s : Identifier} {sec : Section} (hs : m.section s = some sec) :
    IsPart sec.m_id ∧ ∀ id ∈ [sec.m_start, sec.m_end], IsPart id ∧ isIdOrNull id = true := by
  have hnull : IsPart ID_NULL ∧ isIdOrNull ID_NULL = true := by decide
  have hpart : ∀ {n node}, m.node n = some node → IsPart n ∧ isIdOrNull n = true := fun hn =>
    ⟨hm.node hn, by rw [isIdOrNull, isId_iff.2 (hcon.node_key hn).2, Bool.or_true]⟩
  refine ⟨(hcon.section_key hs).1 ▸ hm.section hs, ?_⟩
  rw [List.forall_mem_cons, List.forall_mem_singleton]
  rcases hcon.ends_known hs with ⟨hstart, hstop⟩ | ⟨⟨start, stop, hstart, hstop⟩, _⟩
  · rw [hstart, hstop]
    exact ⟨hnull, hnull⟩
  · exact ⟨hpart hstart, hpart hstop⟩

include hcon' hm'

/-- A node whose output the other model prints is a node of the other, connected alike. -/
theorem node_of_prints (houtputs : ∀ text, m.Prints text → m'.Prints text) {n : Identifier}
    {node : Node} (hn : m.node n = some node) :
    ∃ node', m'.node n = some node' ∧ node.m_type = node'.m_type ∧ node.m_slots = node'.m_slots := by
  obtain ⟨hid, hslots⟩ := parts_of_node hcon hm hn
  obtain ⟨text, hprint⟩ : ∃ text, node.output = .ok text := ⟨_, node.output_eq⟩
  cases houtputs text (.node hn hprint) with
  | @node n' node' _ hn' hprint' =>
      obtain ⟨hid', hslots'⟩ := parts_of_node hcon' hm' hn'
      obtain ⟨htype, hids, heq⟩ :=
        (Node.output_inj hid hid' hslots hslots').1 (hprint.trans hprint'.symm)
      have hkey : n' = n := (hcon'.node_key hn').1.trans (hids.symm.trans (hcon.node_key hn).1.symm)
      subst hkey
      refine ⟨node', hn', htype, Vector.ext fun k hk => ?_⟩
      rw [← node.slotAt_eq_getElem hk, ← node'.slotAt_eq_getElem hk]
      have hcount : node.sectionCount = node'.sectionCount := by
        rw [Node.sectionCount, htype, Node.sectionCount]
      rcases Nat.lt_or_ge k node.sectionCount with hlt | hge
      · rw [Node.slots, Node.slots, ← hcount, List.map_inj_left] at heq
        exact heq k (List.mem_range.2 hlt)
      · rw [hcon.slot_unused hn hge, hcon'.slot_unused hn' (hcount ▸ hge)]
  | @«section» s sec hs => exact absurd hprint (node.output_ne sec)

/-- The same for a section. -/
theorem section_of_prints (houtputs : ∀ text, m.Prints text → m'.Prints text) {s : Identifier}
    {sec : Section} (hs : m.section s = some sec) :
    ∃ sec', m'.section s = some sec' ∧ sec.m_start = sec'.m_start ∧ sec.m_end = sec'.m_end := by
  obtain ⟨hid, hends⟩ := parts_of_section hcon hm hs
  have houtput := houtputs _ (.section hs)
  generalize hout : sec.output = text at houtput
  cases houtput with
  | @node n node _ hn hprint => exact absurd (hout ▸ hprint) (node.output_ne sec)
  | @«section» s' sec' hs' =>
      obtain ⟨hid', hends'⟩ := parts_of_section hcon' hm' hs'
      obtain ⟨hids, hstart, hstop⟩ := (Section.output_inj hid hid' hends hends').1 hout
      have hkey : s' = s :=
        (hcon'.section_key hs').1.trans (hids.symm.trans (hcon.section_key hs).1.symm)
      subst hkey
      exact ⟨sec', hs', hstart, hstop⟩

end Outputs

/-- Models with the same tracks print the same outputs. -/
theorem Model.SameTracks.prints {m m' : Model} (h : m.SameTracks m') (hcon : m.Consistent)
    (hcon' : m'.Consistent) {text : Bytes} (houtput : m.Prints text) : m'.Prints text := by
  cases houtput with
  | @node n node _ hn hprint =>
      have hsame := h.node n
      rw [hn, Option.map_some, eq_comm, Option.map_eq_some_iff] at hsame
      obtain ⟨node', hn', heq⟩ := hsame
      obtain ⟨htype, hslots⟩ := Prod.mk.inj heq
      have hid : node'.m_id = node.m_id := (hcon'.node_key hn').1.symm.trans (hcon.node_key hn).1
      refine .node hn' (Eq.trans ?_ hprint)
      have hslot : node'.slotAt = node.slotAt := funext fun k => by
        rw [Node.slotAt, Node.slotAt, hslots]
      rw [Node.output_eq, Node.output_eq, Node.slots, Node.slots, Node.sectionCount,
        Node.sectionCount, htype, hid, hslot]
  | @«section» s sec hs =>
      have hsame := h.section s
      rw [hs, Option.map_some, eq_comm, Option.map_eq_some_iff] at hsame
      obtain ⟨sec', hs', heq⟩ := hsame
      obtain ⟨hstart, hstop⟩ := Prod.mk.inj heq
      have hid : sec.m_id = sec'.m_id :=
        (hcon.section_key hs).1.symm.trans (hcon'.section_key hs').1
      have hout : sec.output = sec'.output := by
        rw [Section.output, Section.output, hid, hstart, hstop]
      exact hout ▸ .section hs'

/-- **Printed models show their tracks.**  Two reachable models whose IDs have no space
and no slash print the same outputs exactly when their tracks are the same. -/
theorem Reachable.printed_iff {m m' : Model} (h : Reachable m) (h' : Reachable m')
    (hm : m.Printable) (hm' : m'.Printable) :
    (∀ text, m.Prints text ↔ m'.Prints text) ↔ m.SameTracks m' := by
  obtain ⟨N, hN⟩ := h.refines
  obtain ⟨N', hN'⟩ := h'.refines
  have hcon := hN.consistent
  have hcon' := hN'.consistent
  constructor
  · intro houtputs
    refine ⟨fun n => ?_, fun s => ?_⟩
    · cases hn : m.node n with
      | some node =>
          obtain ⟨node', hn', htype, hslots⟩ :=
            node_of_prints hcon hcon' hm hm' (fun text => (houtputs text).1) hn
          rw [hn', Option.map_some, Option.map_some, htype, hslots]
      | none =>
          cases hn' : m'.node n with
          | none => rfl
          | some node' =>
              obtain ⟨node, hnode, _⟩ :=
                node_of_prints hcon' hcon hm' hm (fun text => (houtputs text).2) hn'
              rw [hn] at hnode
              cases hnode
    · cases hs : m.section s with
      | some sec =>
          obtain ⟨sec', hs', hstart, hstop⟩ :=
            section_of_prints hcon hcon' hm hm' (fun text => (houtputs text).1) hs
          rw [hs', Option.map_some, Option.map_some, hstart, hstop]
      | none =>
          cases hs' : m'.section s with
          | none => rfl
          | some sec' =>
              obtain ⟨sec, hsec, _⟩ :=
                section_of_prints hcon' hcon hm' hm (fun text => (houtputs text).2) hs'
              rw [hs] at hsec
              cases hsec
  · exact fun hsame text => ⟨hsame.prints hcon hcon', hsame.symm.prints hcon' hcon⟩

/-- The IDs of the small example have no space and no slash. -/
theorem smallExample_printable : smallExample.Printable := by
  refine ⟨fun {n node} hn => ?_, fun {s sec} hs => ?_⟩
  · rw [Model.node, smallExample, Finmap.lookup_insert_eq, Finmap.lookup_insert_eq] at hn
    split_ifs at hn with h₁ h₂
    · exact h₁ ▸ by decide
    · exact h₂ ▸ by decide
    · cases hn
  · rw [Model.section, smallExample, Finmap.lookup_insert_eq] at hs
    split_ifs at hs with h
    · exact h ▸ by decide
    · cases hs

/-- The record of a tunnel. -/
def tunnelRecord : HasMetadata where
  m_meta := some (Finmap.insert (ascii "tunnel") (ascii "true") ∅)

/-- The small example with its section in a tunnel prints the same as without. -/
theorem smallExample_printed :
    smallExample ≠ smallExample.setSectionMetadata (ascii "S400") tunnelRecord ∧
    (smallExample.node (ascii "M145")).isSome ∧
    ∀ text, smallExample.Prints text ↔
      (smallExample.setSectionMetadata (ascii "S400") tunnelRecord).Prints text := by
  have hreach : Reachable (smallExample.setSectionMetadata (ascii "S400") tunnelRecord) :=
    .call (.sectionMetadata _ _) reachable_smallExample trivial rfl
  have hsame : smallExample.SameTracks
      (smallExample.setSectionMetadata (ascii "S400") tunnelRecord) := by
    refine ⟨fun n => rfl, fun s => ?_⟩
    by_cases hs : s = ascii "S400"
    · subst hs
      rfl
    · exact congrArg _ (Finmap.lookup_insert_of_ne _ hs).symm
  have hprintable : (smallExample.setSectionMetadata (ascii "S400") tunnelRecord).Printable := by
    refine ⟨smallExample_printable.node, fun {s sec} hs => ?_⟩
    have hmap := hsame.section s
    rw [hs, Option.map_some, Option.map_eq_some_iff] at hmap
    obtain ⟨sec', hs', _⟩ := hmap
    exact smallExample_printable.section hs'
  refine ⟨fun heq => ?_, rfl, (Reachable.printed_iff reachable_smallExample hreach
    smallExample_printable hprintable).2 hsame⟩
  have hsec := congrArg (fun m => (m.section (ascii "S400")).map fun sec => sec.m_meta) heq
  cases Option.some.inj hsec

end PiwcsPrw
