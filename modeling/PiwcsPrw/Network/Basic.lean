/-
# The railway network a model describes

`include/piwcsprwmodel.h` (Model overview) and the class-enforced invariants of
`include/piwcsprwmodel/model.h`.

A network is a finite stock of nodes and sections and a wiring of the sections
into the slots of the nodes.  It says once what a model stores twice: a node of
a model carries the IDs in its slots and a section the IDs at its ends, while
here a connection is one cable of `Network.wiring`.

The invariants of the model are fields, so there is no inconsistent network:
IDs are valid, destination addresses are unique, a cable is a known section, a
plugged port is a slot of a known node, and a section does not connect a node to
itself.  The operations below are those of the model, each defined only where it
is allowed; what a mutator of the model does is compared with them in
`PiwcsPrw.Network.Refinement` and the files after it.
-/

import PiwcsPrw.Entities.Model
import PiwcsPrw.Foundation.Wiring

namespace PiwcsPrw

/-- A slot of a node. -/
abbrev Port := Identifier × SlotId

/-- What a node is, apart from its ID and its connections. -/
structure NodeAttrs where
  type : NodeType
  data : HasMetadata

/-- What a section is, apart from its ID and its connections. -/
structure SectionAttrs where
  dir : AllowedTravel
  dest : Option Destination
  data : HasMetadata

/-- What a node of a model is, apart from its ID and its connections. -/
def Node.attrs (node : Node) : NodeAttrs := ⟨node.m_type, node.toHasMetadata⟩

/-- What a section of a model is, apart from its ID and its connections. -/
def Section.attrs (sec : Section) : SectionAttrs := ⟨sec.m_dir, sec.m_dest, sec.toHasMetadata⟩

/-- The address of a section that is a destination. -/
def SectionAttrs.address? (a : SectionAttrs) : Option Bytes := a.dest.map Destination.m_address

/-- A consistent railway network. -/
structure Network where
  nodes : Identifier → Option NodeAttrs
  sections : Identifier → Option SectionAttrs
  wiring : Wiring Port Identifier
  isId_node : ∀ {id a}, nodes id = some a → isId id = true
  isId_section : ∀ {id a}, sections id = some a → isId id = true
  address_unique : ∀ {s t a b x}, sections s = some a → sections t = some b →
    a.address? = some x → b.address? = some x → s = t
  port_exists : ∀ {p s}, wiring.plug p = some s →
    ∃ a, nodes p.1 = some a ∧ p.2 < a.type.info.slotCount
  cable_exists : ∀ {s q}, wiring.ends s = some q → ∃ a, sections s = some a
  ends_apart : ∀ {s q}, wiring.ends s = some q → q.1.1 ≠ q.2.1

namespace Network

/-- The network without entities. -/
def empty : Network where
  nodes _ := none
  sections _ := none
  wiring := .empty
  isId_node := by simp
  isId_section := by simp
  address_unique := by simp
  port_exists := by simp [Wiring.empty]
  cable_exists := by simp [Wiring.empty]
  ends_apart := by simp [Wiring.empty]

/-- The port is a slot of a node of the network. -/
def HasPort (N : Network) (p : Port) : Prop :=
  ∃ a, N.nodes p.1 = some a ∧ p.2 < a.type.info.slotCount

/-- Networks are equal when their nodes, sections and cables are. -/
theorem ext {N N' : Network} (hn : N.nodes = N'.nodes) (hs : N.sections = N'.sections)
    (hw : N.wiring.ends = N'.wiring.ends) : N = N' := by
  have hwiring : N.wiring = N'.wiring := Wiring.eq_of_ends hw
  obtain ⟨_, _, _, _, _, _, _, _, _⟩ := N
  obtain ⟨_, _, _, _, _, _, _, _, _⟩ := N'
  simp only at hn hs hwiring
  subst hn hs hwiring
  rfl

/-- A plugged cable is a section of the network. -/
theorem section_of_plug (N : Network) {p : Port} {s : Identifier} (h : N.wiring.plug p = some s) :
    ∃ a, N.sections s = some a := by
  obtain ⟨q, hq, _⟩ := (N.wiring.plug_iff p s).1 h
  exact N.cable_exists hq

/-- A plugged cable has a valid ID. -/
theorem isId_of_plug (N : Network) {p : Port} {s : Identifier} (h : N.wiring.plug p = some s) :
    isId s = true :=
  let ⟨_, ha⟩ := N.section_of_plug h
  N.isId_section ha

/-- Both ends of a connected section are ports of the network. -/
theorem hasPort_of_ends (N : Network) {s : Identifier} {q : Port × Port}
    (h : N.wiring.ends s = some q) : N.HasPort q.1 ∧ N.HasPort q.2 :=
  ⟨N.port_exists (Wiring.plug_fst h), N.port_exists (Wiring.plug_snd h)⟩

/-- No port lies past the array of its node. -/
theorem HasPort.lt_maxSlots {N : Network} {p : Port} (h : N.HasPort p) : p.2 < MAX_SLOTS := by
  obtain ⟨a, _, hk⟩ := h
  exact hk.trans_le a.type.slotCount_le

/-- On one node, a connected section sits in one slot only. -/
theorem plug_start_iff (N : Network) {s : Identifier} {q : Port × Port}
    (h : N.wiring.ends s = some q) (k : SlotId) :
    N.wiring.plug (q.1.1, k) = some s ↔ k = q.1.2 := by
  rw [Wiring.plug_eq_some_iff h, Prod.ext_iff, Prod.ext_iff]
  simp [N.ends_apart h]

/-- The same at the end of the section. -/
theorem plug_stop_iff (N : Network) {s : Identifier} {q : Port × Port}
    (h : N.wiring.ends s = some q) (k : SlotId) :
    N.wiring.plug (q.2.1, k) = some s ↔ k = q.2.2 := by
  rw [Wiring.plug_eq_some_iff h, Prod.ext_iff, Prod.ext_iff]
  simp [(N.ends_apart h).symm]

/-! ### The operations -/

/-- A node is added. -/
def addNode (N : Network) (id : Identifier) (a : NodeAttrs) (hid : isId id = true)
    (hnew : N.nodes id = none) : Network :=
  { N with
    nodes := fun x => if x = id then some a else N.nodes x
    isId_node := fun {x b} h => by
      by_cases hx : x = id
      · exact hx ▸ hid
      · exact N.isId_node (by simpa [hx] using h)
    port_exists := fun {p s} h => by
      obtain ⟨b, hb, hk⟩ := N.port_exists h
      have hp : p.1 ≠ id := fun hp => by rw [hp, hnew] at hb; cases hb
      exact ⟨b, by rw [if_neg hp, hb], hk⟩ }

/-- A section is added. -/
def addSection (N : Network) (id : Identifier) (a : SectionAttrs) (hid : isId id = true)
    (hnew : N.sections id = none)
    (haddr : ∀ t b x, N.sections t = some b → a.address? = some x → b.address? ≠ some x) :
    Network :=
  { N with
    sections := fun x => if x = id then some a else N.sections x
    isId_section := fun {x b} h => by
      by_cases hx : x = id
      · exact hx ▸ hid
      · exact N.isId_section (by simpa [hx] using h)
    address_unique := fun {s t b c x} hs ht hb hc => by
      by_cases hsid : s = id <;> by_cases htid : t = id
      · rw [hsid, htid]
      · rw [if_pos hsid, Option.some.injEq] at hs
        rw [if_neg htid] at ht
        exact absurd hc (haddr t c x ht (hs ▸ hb))
      · rw [if_neg hsid] at hs
        rw [if_pos htid, Option.some.injEq] at ht
        exact absurd hb (haddr s b x hs (ht ▸ hc))
      · rw [if_neg hsid] at hs
        rw [if_neg htid] at ht
        exact N.address_unique hs ht hb hc
    cable_exists := fun {s q} h => by
      obtain ⟨b, hb⟩ := N.cable_exists h
      have hs : s ≠ id := fun hs => by rw [hs, hnew] at hb; cases hb
      exact ⟨b, by rw [if_neg hs, hb]⟩ }

/-- A node none of whose slots is connected is removed. -/
def removeNode (N : Network) (id : Identifier) (hfree : ∀ k, N.wiring.plug (id, k) = none) :
    Network :=
  { N with
    nodes := fun x => if x = id then none else N.nodes x
    isId_node := fun {x b} h => by
      by_cases hx : x = id
      · simp [hx] at h
      · exact N.isId_node (by simpa [hx] using h)
    port_exists := fun {p s} h => by
      obtain ⟨b, hb, hk⟩ := N.port_exists h
      have hp : p.1 ≠ id := by
        rintro rfl
        rw [hfree p.2] at h
        cases h
      exact ⟨b, by rw [if_neg hp, hb], hk⟩ }

/-- A section that is not connected is removed. -/
def removeSection (N : Network) (id : Identifier) (hfree : N.wiring.ends id = none) : Network :=
  { N with
    sections := fun x => if x = id then none else N.sections x
    isId_section := fun {x b} h => by
      by_cases hx : x = id
      · simp [hx] at h
      · exact N.isId_section (by simpa [hx] using h)
    address_unique := fun {s t b c x} hs ht hb hc => by
      by_cases hsid : s = id
      · simp [hsid] at hs
      · by_cases htid : t = id
        · simp [htid] at ht
        · exact N.address_unique (by simpa [hsid] using hs) (by simpa [htid] using ht) hb hc
    cable_exists := fun {s q} h => by
      obtain ⟨b, hb⟩ := N.cable_exists h
      have hs : s ≠ id := fun hs => by rw [hs, hfree] at h; cases h
      exact ⟨b, by rw [if_neg hs, hb]⟩ }

/-- What it takes to connect the section `s` at the ports `q`. -/
structure CanLink (N : Network) (s : Identifier) (q : Port × Port) : Prop where
  known : ∃ a, N.sections s = some a
  fst : N.HasPort q.1
  snd : N.HasPort q.2
  apart : q.1.1 ≠ q.2.1
  free_fst : N.wiring.plug q.1 = none
  free_snd : N.wiring.plug q.2 = none
  free : N.wiring.ends s = none

/-- Two ports that can be linked are different. -/
theorem CanLink.ne {N : Network} {s : Identifier} {q : Port × Port} (h : N.CanLink s q) :
    q.1 ≠ q.2 :=
  fun he => h.apart (congrArg Prod.fst he)

/-- A section is connected at two free ports. -/
def link (N : Network) (s : Identifier) (q : Port × Port) (h : N.CanLink s q) : Network :=
  { N with
    wiring := N.wiring.connect s q h.ne h.free_fst h.free_snd h.free
    port_exists := fun {p t} hp => by
      by_cases hpq : p = q.1 ∨ p = q.2
      · rcases hpq with rfl | rfl
        · exact h.fst
        · exact h.snd
      · exact N.port_exists (by simpa [Wiring.connect, hpq] using hp)
    cable_exists := fun {t r} ht => by
      by_cases hts : t = s
      · exact hts ▸ h.known
      · exact N.cable_exists (q := r) (by simpa [Wiring.connect, hts] using ht)
    ends_apart := fun {t r} ht => by
      by_cases hts : t = s
      · have hr : q = r := by simpa [Wiring.connect, hts] using ht
        exact hr ▸ h.apart
      · exact N.ends_apart (s := t) (by simpa [Wiring.connect, hts] using ht) }

/-- A section is disconnected. -/
def unlink (N : Network) (s : Identifier) : Network :=
  { N with
    wiring := N.wiring.disconnect s
    port_exists := fun {p t} hp => by
      by_cases hps : N.wiring.plug p = some s
      · simp [Wiring.disconnect, hps] at hp
      · exact N.port_exists (s := t) (by simpa [Wiring.disconnect, hps] using hp)
    cable_exists := fun {t r} ht => by
      by_cases hts : t = s
      · simp [Wiring.disconnect, hts] at ht
      · exact N.cable_exists (q := r) (by simpa [Wiring.disconnect, hts] using ht)
    ends_apart := fun {t r} ht => by
      by_cases hts : t = s
      · simp [Wiring.disconnect, hts] at ht
      · exact N.ends_apart (s := t) (by simpa [Wiring.disconnect, hts] using ht) }

/-! What `link` and `unlink` change, table by table. -/

section Tables

variable (N : Network) (s : Identifier) (q : Port × Port) (h : N.CanLink s q)

/-- Linking leaves the nodes. -/
@[simp] theorem link_nodes : (N.link s q h).nodes = N.nodes := rfl

/-- Linking leaves the attributes of the sections. -/
@[simp] theorem link_sections : (N.link s q h).sections = N.sections := rfl

/-- Linking plugs the section into its two ports. -/
@[simp] theorem link_plug (p : Port) : (N.link s q h).wiring.plug p =
    if p = q.1 ∨ p = q.2 then some s else N.wiring.plug p := rfl

/-- Linking gives the section its ends. -/
@[simp] theorem link_ends (t : Identifier) : (N.link s q h).wiring.ends t =
    if t = s then some q else N.wiring.ends t := rfl

/-- Unlinking leaves the nodes. -/
@[simp] theorem unlink_nodes : (N.unlink s).nodes = N.nodes := rfl

/-- Unlinking leaves the attributes of the sections. -/
@[simp] theorem unlink_sections : (N.unlink s).sections = N.sections := rfl

/-- Unlinking empties the ports the section was plugged into. -/
@[simp] theorem unlink_plug (p : Port) : (N.unlink s).wiring.plug p =
    if N.wiring.plug p = some s then none else N.wiring.plug p := rfl

/-- Unlinking takes the ends of the section. -/
@[simp] theorem unlink_ends (t : Identifier) : (N.unlink s).wiring.ends t =
    if t = s then none else N.wiring.ends t := rfl

end Tables

end Network

end PiwcsPrw
