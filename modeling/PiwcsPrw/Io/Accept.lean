/-
# Which documents are accepted

`readModel` of `src/io_read.cpp`.

`readModel` returns a model exactly for the consistent documents whose links are
not broken, and the model is the one the document describes
(`readModel_eq_ok_iff_describes`).  A link can be broken only by a null among its
fields.  For documents without such nulls (`LinksNotNull`) that makes a clean
condition, and every other document makes the reader throw (`readModel_accepts`);
what nulls do is the subject of `PiwcsPrw.Io.NullLinks`.

Objects may repeat names here, and then stand for what `PiwcsPrw.Io.Document`
says; of an object that does not, that is what its fields say.
-/

import PiwcsPrw.Io.Describe

namespace PiwcsPrw

open Json (lastOf)

variable (mj : Minijson)

variable {mj} in
/-- A consistent document without broken links is read. -/
theorem exists_readModel {nodes sections : Fields} (hcon : ConsistentDoc mj nodes sections)
    (hwhole : ∀ s ∈ sections, (linkOf mj s.2).Whole) :
    ∃ m, readModel mj (.array [.object nodes, .object sections]) = .ok m ∧
      m.Describes mj nodes sections := by
  have hwf : WellFormedEntries mj nodes sections :=
    ⟨fun f hf => (hcon.node f hf).1, fun f hf => ⟨(hcon.section f hf).1, hwhole f hf⟩⟩
  obtain ⟨N, hruns⟩ := (exists_runs_iff hwf).2 hcon
  obtain ⟨m, hm⟩ := Model.Refines.empty.of_runs
    (fun op hop => (builds_requests mj nodes sections op hop).constructed.wellFormed) hruns
  have hbuilt := (hruns.built (builds_requests mj nodes sections)).1
  exact ⟨m, (readModel_eq_ok_iff mj).2 ⟨nodes, sections, rfl, hwf, N, hruns, hm⟩,
    hm.describes hcon hbuilt⟩

/-- **What `readModel` returns:** the model that a consistent document without
broken links describes. -/
theorem readModel_eq_ok_iff_describes {doc : Doc} {m : Model} : readModel mj doc = .ok m ↔
    ∃ nodes sections, doc = .array [.object nodes, .object sections] ∧
      ConsistentDoc mj nodes sections ∧ (∀ s ∈ sections, (linkOf mj s.2).Whole) ∧
        m.Describes mj nodes sections := by
  rw [readModel_eq_ok_iff]
  constructor
  · rintro ⟨nodes, sections, rfl, hwf, N, hruns, hm⟩
    have hcon := (exists_runs_iff hwf).1 ⟨N, hruns⟩
    have hbuilt := (hruns.built (builds_requests mj nodes sections)).1
    exact ⟨nodes, sections, rfl, hcon, fun s hs => (hwf.section s hs).2, hm.describes hcon hbuilt⟩
  · rintro ⟨nodes, sections, rfl, hcon, hwhole, hm⟩
    obtain ⟨m', hread, hm'⟩ := exists_readModel hcon hwhole
    rw [hm.unique hm']
    exact (readModel_eq_ok_iff mj).1 hread

/-- None of the four fields of a link is null. -/
def LinksNotNull (doc : Doc) : Prop :=
  ∀ nodes sections rest, doc = .array (.object nodes :: .object sections :: rest) →
    ∀ s ∈ sections, ∀ l, (ascii "link", l) ∈ fieldsOf s.2 →
      ∀ f ∈ fieldsOf l, f.1 ∈ linkNames → f.2 ≠ .null

variable {mj} in
/-- A link without nulls gives all four parts. -/
theorem IsLink.exists_parts {l : Doc} (h : IsLink mj l)
    (hnull : ∀ f ∈ fieldsOf l, f.1 ∈ linkNames → f.2 ≠ .null) :
    ∃ a i b j, linkFields mj (fieldsOf l) = ⟨some a, some i, some b, some j⟩ := by
  obtain ⟨fields, rfl, hfields, hrequired⟩ := h
  have hnode : ∀ name, name = ascii "startNode" ∨ name = ascii "endNode" →
      ∃ a, (lastOf name fields).bind string? = some a := by
    intro name hname
    have hin : name ∈ linkNames := by rcases hname with rfl | rfl <;> simp [linkNames]
    obtain ⟨v, hv⟩ := Json.exists_lastOf (hrequired name hin)
    have hmem := Json.mem_of_lastOf hv
    rcases hfields _ hmem with ⟨_, hv' | ⟨a, ha⟩⟩ | ⟨hname', _⟩
    · exact absurd hv' (hnull _ hmem hin)
    · exact ⟨a, by rw [hv, Option.bind_some, show v = .string a from ha]; rfl⟩
    · rcases hname with rfl | rfl <;> exact absurd hname' (by simp +decide)
  have hslot : ∀ name, name = ascii "startSlot" ∨ name = ascii "endSlot" →
      ∃ k, (lastOf name fields).bind (slot? mj) = some k := by
    intro name hname
    have hin : name ∈ linkNames := by rcases hname with rfl | rfl <;> simp [linkNames]
    obtain ⟨v, hv⟩ := Json.exists_lastOf (hrequired name hin)
    have hmem := Json.mem_of_lastOf hv
    rcases hfields _ hmem with ⟨hname', _⟩ | ⟨_, hv' | ⟨text, k, htext, hk⟩⟩
    · rcases hname with rfl | rfl <;> exact absurd hname' (by simp +decide)
    · exact absurd hv' (hnull _ hmem hin)
    · refine ⟨k, ?_⟩
      rw [hv, Option.bind_some, show v = .number text from htext, slot?, hk]
      rfl
  obtain ⟨a, ha⟩ := hnode (ascii "startNode") (Or.inl rfl)
  obtain ⟨i, hi⟩ := hslot (ascii "startSlot") (Or.inl rfl)
  obtain ⟨b, hb⟩ := hnode (ascii "endNode") (Or.inr rfl)
  obtain ⟨j, hj⟩ := hslot (ascii "endSlot") (Or.inr rfl)
  exact ⟨a, i, b, j, by rw [fieldsOf, linkFields, ha, hi, hb, hj]⟩

variable {mj} in
/-- Without nulls no link is broken. -/
theorem IsSection.whole {v : Doc} (h : IsSection mj v)
    (hnull : ∀ l, (ascii "link", l) ∈ fieldsOf v →
      ∀ f ∈ fieldsOf l, f.1 ∈ linkNames → f.2 ≠ .null) :
    (linkOf mj v).Whole := by
  obtain ⟨fields, rfl, hfields, _⟩ := h
  rw [linkOf, fieldsOf]
  cases hlast : lastOf (ascii "link") fields with
  | none => exact Or.inl rfl
  | some l =>
      have hmem := Json.mem_of_lastOf hlast
      have hlink : IsLink mj l := by
        rcases hfields _ hmem with ⟨_, hl⟩ | ⟨hname, _⟩ | ⟨hname, _⟩ | ⟨hname, _⟩
        · exact hl
        all_goals exact absurd hname (by simp +decide)
      exact Or.inr (hlink.exists_parts (hnull l hmem))

/-- **`readModel` accepts exactly the consistent documents, and builds exactly
the model they describe.**  Every other document makes it throw. -/
theorem readModel_accepts {doc : Doc} (hlinks : LinksNotNull doc) :
    ((∃ m, readModel mj doc = .ok m) ↔ ∃ nodes sections,
      doc = .array [.object nodes, .object sections] ∧ ConsistentDoc mj nodes sections) ∧
    (∀ nodes sections m, doc = .array [.object nodes, .object sections] →
      readModel mj doc = .ok m → ∀ m' : Model, m'.Describes mj nodes sections ↔ m' = m) ∧
    ∀ stop, readModel mj doc = .error stop → stop.IsThrown := by
  refine ⟨⟨?_, ?_⟩, ?_, ?_⟩
  · rintro ⟨m, hm⟩
    obtain ⟨nodes, sections, hdoc, hcon, _⟩ := (readModel_eq_ok_iff_describes mj).1 hm
    exact ⟨nodes, sections, hdoc, hcon⟩
  · rintro ⟨nodes, sections, rfl, hcon⟩
    have hwhole : ∀ s ∈ sections, (linkOf mj s.2).Whole := fun s hs =>
      (hcon.section s hs).1.whole (hlinks nodes sections [] rfl s hs)
    obtain ⟨m, hread, _⟩ := exists_readModel hcon hwhole
    exact ⟨m, hread⟩
  · rintro nodes sections m rfl hm m'
    obtain ⟨nodes', sections', hdoc, _, _, hdescribes⟩ := (readModel_eq_ok_iff_describes mj).1 hm
    simp only [Json.array.injEq, List.cons.injEq, Json.object.injEq, and_true] at hdoc
    obtain ⟨rfl, rfl⟩ := hdoc
    exact ⟨fun h => h.unique hdescribes, fun h => h ▸ hdescribes⟩
  · rintro (e | x) hstop
    · exact ⟨e, rfl⟩
    · obtain ⟨_, nodes, before, f, after, rest, rfl, _, hf, hbroken, _⟩ :=
        (readModel_eq_fault_iff mj).1 hstop
      have hmem : f ∈ before ++ f :: after := by simp
      exact absurd (hf.whole (hlinks _ _ _ rfl f hmem)) hbroken

/-- A document of the first illustrated example. -/
def smallDoc : Doc := .array [
  .object [(ascii "M145", .object [(ascii "type", .string (ascii "MOTORIZED"))]),
    (ascii "T1034", .object [(ascii "type", .string (ascii "THRU"))])],
  .object [(ascii "S400", .object [
    (ascii "link", .object [(ascii "startNode", .string (ascii "M145")),
      (ascii "startSlot", .number (ascii "2")), (ascii "endNode", .string (ascii "T1034")),
      (ascii "endSlot", .number (ascii "0"))]),
    (ascii "dir", .string (ascii "UNIDIR"))])]]

/-- It is read as the model of the example. -/
theorem readModel_smallDoc : readModel .plain smallDoc = .ok smallExample := by
  decide

/-- Its one link has no null. -/
theorem smallDoc_linksNotNull : LinksNotNull smallDoc := by
  intro nodes sections rest hdoc s hs l hl f hf _
  simp only [smallDoc, Json.array.injEq, List.cons.injEq, Json.object.injEq] at hdoc
  obtain ⟨_, rfl, _⟩ := hdoc
  rw [List.mem_singleton.1 hs] at hl
  simp +decide [fieldsOf] at hl
  subst hl
  simp [fieldsOf] at hf
  rcases hf with rfl | rfl | rfl | rfl <;> simp

/-- The document of the example is consistent, and its model is the example. -/
theorem smallDoc_accepted :
    (∃ nodes sections, smallDoc = .array [.object nodes, .object sections] ∧
      ConsistentDoc .plain nodes sections) ∧
    ∀ nodes sections, smallDoc = .array [.object nodes, .object sections] →
      smallExample.Describes .plain nodes sections := by
  obtain ⟨haccept, hbuild, _⟩ := readModel_accepts .plain smallDoc_linksNotNull
  refine ⟨haccept.1 ⟨_, readModel_smallDoc⟩, fun nodes sections hdoc => ?_⟩
  exact (hbuild nodes sections _ hdoc readModel_smallDoc smallExample).2 rfl

end PiwcsPrw
