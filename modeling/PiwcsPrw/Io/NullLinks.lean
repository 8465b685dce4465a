/-
# Links with nulls

`Link`, `parseLink` and `parseSection` of `src/io_read.cpp`.

A field of a link may be null, which leaves an optional empty.  The reader takes
an empty `startNode` for a section without a link, so that the link is lost, and
follows the other three optionals without a test.

`LinksKept` says that neither happens: the reader throws, or every link object of
the document is found in the model.  It fails for some documents
(`not_linksKept`), and `linksKept_iff` says for which.  A null `startNode` does
harm when nothing else makes the reader throw; a null elsewhere when the reader
gets as far as the section it is in.
-/

import PiwcsPrw.Io.Accept

namespace PiwcsPrw

open Json (lastOf)

variable (mj : Minijson)

/-- The section is connected to these slots. -/
structure Model.Connected (m : Model) (s a : Identifier) (i : SlotId) (b : Identifier)
    (j : SlotId) : Prop where
  ends : ∃ sec, m.section s = some sec ∧ sec.m_start = a ∧ sec.m_end = b
  start : m.Holds (a, i) s
  stop : m.Holds (b, j) s

/-- No link of the document is lost or read from an absent value. -/
structure LinksKept (doc : Doc) : Prop where
  present : ∀ x, readModel mj doc ≠ .error (.fault x)
  kept : ∀ m nodes sections, readModel mj doc = .ok m →
    doc = .array [.object nodes, .object sections] → ∀ f ∈ sections, ∀ l,
      (ascii "link", l) ∈ fieldsOf f.2 → (∀ name ∈ linkNames, name ∈ (fieldsOf l).map Prod.fst) →
        ∃ a i b j, linkFields mj (fieldsOf l) = ⟨some a, some i, some b, some j⟩ ∧
          m.Connected f.1 a i b j

/-- The document would be read, a link without a start node counting as none. -/
def Acceptable (nodes sections : Fields) : Prop :=
  ConsistentDoc mj nodes sections ∧ ∀ s ∈ sections, (linkOf mj s.2).Whole

/-- The section entry without its link. -/
def withoutLink (f : Bytes × Doc) : Bytes × Doc :=
  (f.1, .object ((fieldsOf f.2).filter fun g => g.1 ≠ ascii "link"))

/-- The nulls in the links of the document do no harm: where it would be read,
every link has a start node and repeated links agree; and a section whose link
has a null elsewhere is not one that the reader could add after what is before
it. -/
structure NullsHarmless (doc : Doc) : Prop where
  start_given : ∀ nodes sections, doc = .array [.object nodes, .object sections] →
    Acceptable mj nodes sections → ∀ f ∈ sections, ∀ l, (ascii "link", l) ∈ fieldsOf f.2 →
      (linkFields mj (fieldsOf l)).startNode ≠ none ∧ linkFields mj (fieldsOf l) = linkOf mj f.2
  rest_given : ∀ nodes before f after rest,
    doc = .array (.object nodes :: .object (before ++ f :: after) :: rest) → IsSection mj f.2 →
      ¬ (linkOf mj f.2).Whole → ¬ Acceptable mj nodes (before ++ [withoutLink f])

/-! ### A section without its link -/

/-- Without its link an entry asks for none. -/
theorem linkOf_withoutLink (f : Bytes × Doc) : linkOf mj (withoutLink f).2 = {} := by
  have hnone : lastOf (ascii "link") (fieldsOf (withoutLink f).2) = none := by
    refine Json.lastOf_eq_none fun hmem => ?_
    obtain ⟨g, hg, hname⟩ := List.mem_map.1 hmem
    exact (of_decide_eq_true (List.mem_filter.1 hg).2) hname
  rw [linkOf, hnone]
  rfl

/-- It stands for the same section. -/
theorem sectionOf_withoutLink (f : Bytes × Doc) : sectionOf (withoutLink f) = sectionOf f := by
  have hrecords : allRecords (fieldsOf (withoutLink f).2) = allRecords (fieldsOf f.2) := by
    rw [withoutLink, allRecords, allRecords, fieldsOf]
    induction fieldsOf f.2 with
    | nil => rfl
    | cons g fields ih =>
        rcases eq_or_ne g.1 (ascii "link") with hg | hg
        · rw [List.filter_cons_of_neg (by simpa using hg), ih, List.flatMap_cons, hg]
          rfl
        · rw [List.filter_cons_of_pos (by simpa using hg), List.flatMap_cons, ih, List.flatMap_cons]
  have hlast : ∀ name, name ≠ ascii "link" →
      lastOf name (fieldsOf (withoutLink f).2) = lastOf name (fieldsOf f.2) := fun name hname =>
    Json.lastOf_filter_ne hname _
  rw [sectionOf, sectionOf, hlast _ (by decide), hlast _ (by decide), metadataOf, metadataOf,
    hrecords]
  rfl

variable {mj}

/-- And it is still a section entry. -/
theorem IsSection.withoutLink {f : Bytes × Doc} (h : IsSection mj f.2) :
    IsSection mj (withoutLink f).2 := by
  obtain ⟨fields, hf, hfields, _⟩ := h
  refine ⟨_, rfl, fun g hg => hfields g ?_, List.forall_mem_nil _⟩
  rw [hf] at hg
  exact (List.mem_filter.1 hg).1

/-- The reader gets to a section with a broken link, and adds it, when the
sections up to it would be read without the link. -/
theorem acceptable_withoutLink_iff {nodes before : Fields} {f : Bytes × Doc}
    (hf : IsSection mj f.2) : Acceptable mj nodes (before ++ [withoutLink f]) ↔
      WellFormedEntries mj nodes before ∧
        ∃ N, Network.empty.Runs (requests mj nodes before ++ [.addSection (sectionOf f)]) N := by
  have hrequests : requests mj nodes (before ++ [withoutLink f]) =
      requests mj nodes before ++ [.addSection (sectionOf f)] := by
    rw [requests, requests, List.flatMap_append, List.flatMap_singleton, List.append_assoc,
      sectionRequests, sectionOf_withoutLink, linkRequest, linkOf_withoutLink]
  rw [← hrequests]
  constructor
  · rintro ⟨hcon, hwhole⟩
    have hwf : WellFormedEntries mj nodes (before ++ [PiwcsPrw.withoutLink f]) :=
      ⟨fun n hn => (hcon.node n hn).1, fun s hs => ⟨(hcon.section s hs).1, hwhole s hs⟩⟩
    exact ⟨⟨hwf.node, fun s hs => hwf.section s (List.mem_append_left _ hs)⟩,
      (exists_runs_iff hwf).2 hcon⟩
  · rintro ⟨hwf, hruns⟩
    have hwf' : WellFormedEntries mj nodes (before ++ [PiwcsPrw.withoutLink f]) := by
      refine ⟨hwf.node, fun s hs => ?_⟩
      rcases List.mem_append.1 hs with hs | hs
      · exact hwf.section s hs
      · rw [List.mem_singleton.1 hs, linkOf_withoutLink]
        exact ⟨hf.withoutLink, Or.inl rfl⟩
    exact ⟨(exists_runs_iff hwf').1 hruns, fun s hs => (hwf'.section s hs).2⟩

/-! ### The link of a section -/

/-- What an entry asks for, the described model has. -/
theorem Model.Describes.connected {m : Model} {nodes sections : Fields}
    (h : m.Describes mj nodes sections) (hcon : ConsistentDoc mj nodes sections)
    {f : Bytes × Doc} (hf : f ∈ sections) {a b : Identifier} {i j : SlotId}
    (hlink : AsksLink mj f a i b j) : m.Connected f.1 a i b j := by
  obtain ⟨start, stop, hsec, hlinked, _⟩ := h.section f hf
  have hkey : f.1 ≠ ID_NULL := (hcon.section f hf).2.1
  exact ⟨⟨_, hsec, hlinked a i b j hlink⟩,
    (h.holds_iff _ _ hkey).2 ⟨f, hf, rfl, a, i, b, j, hlink, Or.inl rfl⟩,
    (h.holds_iff _ _ hkey).2 ⟨f, hf, rfl, a, i, b, j, hlink, Or.inr rfl⟩⟩

/-- It has the section at no other slots. -/
theorem Model.Describes.connected_unique {m : Model} {nodes sections : Fields}
    (h : m.Describes mj nodes sections) (hcon : ConsistentDoc mj nodes sections)
    {f : Bytes × Doc} (hf : f ∈ sections) {a b c d : Identifier} {i j k l : SlotId}
    (hlink : AsksLink mj f a i b j) (hc : m.Connected f.1 c k d l) :
    c = a ∧ k = i ∧ d = b ∧ l = j := by
  obtain ⟨⟨sec, hsec, hc, hd⟩, hck, hdl⟩ := hc
  obtain ⟨start, stop, hsec', hlinked, _⟩ := h.section f hf
  obtain ⟨hstart, hstop⟩ := hlinked a i b j hlink
  rw [hsec', Option.some.injEq] at hsec
  have hca : c = a := by rw [← hc, ← hsec, ← hstart]
  have hdb : d = b := by rw [← hd, ← hsec, ← hstop]
  have hab := (hcon.link_ports f hf a i b j hlink).2.2
  have hkey : f.1 ≠ ID_NULL := (hcon.section f hf).2.1
  -- The ports of the section are those of the one link its entry asks for.
  have hport : ∀ p, m.Holds p f.1 → p = (a, i) ∨ p = (b, j) := by
    intro p hp
    obtain ⟨g, hg, hgf, a', i', b', j', hlink', hp'⟩ := (h.holds_iff p _ hkey).1 hp
    rw [List.inj_on_of_nodup_map hcon.section_once hg hf hgf, AsksLink, hlink] at hlink'
    simp only [Link.mk.injEq, Option.some.injEq] at hlink'
    obtain ⟨rfl, rfl, rfl, rfl⟩ := hlink'
    exact hp'
  subst hca hdb
  have hk : k = i := by simpa [hab] using hport _ hck
  have hl : l = j := by simpa [hab.symm] using hport _ hdl
  exact ⟨rfl, hk, rfl, hl⟩

/-- A link object of a section entry has the four names. -/
theorem IsSection.linkNames_mem {v l : Doc} (h : IsSection mj v)
    (hl : (ascii "link", l) ∈ fieldsOf v) :
    ∀ name ∈ linkNames, name ∈ (fieldsOf l).map Prod.fst := by
  obtain ⟨fields, rfl, hfields, _⟩ := h
  rcases hfields _ hl with ⟨_, hlink⟩ | ⟨hname, _⟩ | ⟨hname, _⟩ | ⟨hname, _⟩
  · obtain ⟨_, rfl, _, hnames⟩ := hlink
    exact hnames
  all_goals exact absurd hname (by simp +decide)

variable (mj)

/-- **No link is lost or read from an absent value exactly when the nulls of the
document do no harm.** -/
theorem linksKept_iff (doc : Doc) : LinksKept mj doc ↔ NullsHarmless mj doc := by
  constructor
  · intro h
    constructor
    case start_given =>
      rintro nodes sections rfl ⟨hcon, hwhole⟩ f hf l hl
      obtain ⟨m, hread, hm⟩ := exists_readModel hcon hwhole
      have hsec := (hcon.section f hf).1
      have hkept := fun l hl => h.kept m nodes sections hread rfl f hf l hl (hsec.linkNames_mem hl)
      obtain ⟨last, hlast⟩ := Json.exists_lastOf (List.mem_map_of_mem hl)
      have hlinkOf : linkOf mj f.2 = linkFields mj (fieldsOf last) := by
        rw [linkOf, hlast]
        rfl
      obtain ⟨a, i, b, j, hparts, _⟩ := hkept last (Json.mem_of_lastOf hlast)
      obtain ⟨c, k, d, l', hparts', hconn⟩ := hkept l hl
      obtain ⟨rfl, rfl, rfl, rfl⟩ :=
        hm.connected_unique hcon hf (hlinkOf.trans hparts) hconn
      rw [hlinkOf, hparts, hparts']
      exact ⟨Option.some_ne_none _, rfl⟩
    case rest_given =>
      rintro nodes before f after rest rfl hf hbroken hacc
      obtain ⟨hwf, hruns⟩ := (acceptable_withoutLink_iff hf).1 hacc
      exact h.present _ ((readModel_eq_fault_iff mj).2
        ⟨rfl, nodes, before, f, after, rest, rfl, hwf, hf, hbroken, hruns⟩)
  · intro h
    constructor
    case present =>
      intro x hread
      obtain ⟨_, nodes, before, f, after, rest, hdoc, hwf, hf, hbroken, hruns⟩ :=
        (readModel_eq_fault_iff mj).1 hread
      exact h.rest_given nodes before f after rest hdoc hf hbroken
        ((acceptable_withoutLink_iff hf).2 ⟨hwf, hruns⟩)
    case kept =>
      rintro m nodes sections hread rfl f hf l hl _
      obtain ⟨nodes', sections', hdoc, hcon, hwhole, hm⟩ :=
        (readModel_eq_ok_iff_describes mj).1 hread
      simp only [Json.array.injEq, List.cons.injEq, Json.object.injEq, and_true] at hdoc
      obtain ⟨rfl, rfl⟩ := hdoc
      obtain ⟨hstart, hsame⟩ := h.start_given nodes sections rfl ⟨hcon, hwhole⟩ f hf l hl
      rw [hsame] at hstart ⊢
      rcases hwhole f hf with hnone | ⟨a, i, b, j, hlink⟩
      · exact absurd hnone hstart
      · exact ⟨a, i, b, j, hlink, hm.connected hcon hf hlink⟩

/-! ### Two documents with a null -/

/-- The example, with a link between the given start and end nodes. -/
def smallDocWith (startNode endNode : Doc) : Doc := .array [
  .object [(ascii "M145", .object [(ascii "type", .string (ascii "MOTORIZED"))]),
    (ascii "T1034", .object [(ascii "type", .string (ascii "THRU"))])],
  .object [(ascii "S400", .object [
    (ascii "link", .object [(ascii "startNode", startNode),
      (ascii "startSlot", .number (ascii "2")), (ascii "endNode", endNode),
      (ascii "endSlot", .number (ascii "0"))])])]]

/-- **A null start node loses the link, a null end node is followed.** -/
theorem not_linksKept : ¬ LinksKept .plain (smallDocWith .null (.string (ascii "T1034"))) ∧
    ¬ LinksKept .plain (smallDocWith (.string (ascii "M145")) .null) := by
  constructor
  · intro h
    have hok : (readModel .plain (smallDocWith .null (.string (ascii "T1034")))).isOk := by decide
    cases hread : readModel .plain (smallDocWith .null (.string (ascii "T1034"))) with
    | error e =>
        rw [hread] at hok
        cases hok
    | ok m =>
        obtain ⟨a, i, b, j, hparts, _⟩ := h.kept m _ _ hread rfl _ (List.mem_singleton_self _) _
          (List.mem_singleton_self _) (by decide)
        cases congrArg Link.startNode hparts
  · intro h
    exact h.present .emptyOptional (by decide)

end PiwcsPrw
