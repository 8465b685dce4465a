/-
# Reading is a list of calls

`parseMain` and `readModel` of `src/io_read.cpp`.

The reader goes through the document once and makes the calls of one entry after
the other.  So it returns a model exactly when the document has two parts, every
entry has the right form, and the network can take all steps in the order of the
document (`readModel_eq_ok_iff`).  It leaves defined behaviour exactly when it
gets as far as a section with a broken link (`readModel_eq_fault_iff`), whatever
comes after that section.
-/

import PiwcsPrw.Io.Requests

namespace PiwcsPrw

variable (mj : Minijson)

/-! ### The entries of one part -/

section Parses

variable {parse : Model → Identifier → Doc → Reading Model} {A : Bytes × Doc → Prop}
  {reqs : Bytes × Doc → List Op} {Faulty : Network → Bytes × Doc → Prop}

/-- **A part is read when all its entries are**, and the network takes all their
steps. -/
theorem Parses.foldlM_eq_ok_iff (h : Parses parse A reqs Faulty) {fields : Fields} {m m' : Model}
    {N : Network} (hm : m.Refines N) :
    fields.foldlM (fun model f => parse model f.1 f.2) m = .ok m' ↔
      (∀ f ∈ fields, A f) ∧ ∃ N', N.Runs (fields.flatMap reqs) N' ∧ m'.Refines N' := by
  induction fields generalizing m N with
  | nil =>
      simp only [List.foldlM_nil, List.flatMap_nil, Network.Runs]
      constructor
      · intro heq
        exact ⟨List.forall_mem_nil _, N, rfl, Except.ok.inj heq ▸ hm⟩
      · rintro ⟨_, _, rfl, h'⟩
        exact congrArg _ (hm.unique h')
  | cons f fields ih =>
      rw [List.foldlM_cons, Checked.bind_eq_ok_iff, List.forall_mem_cons, List.flatMap_cons]
      simp only [h.ok_iff hm, Network.runs_append]
      constructor
      · rintro ⟨m₁, ⟨hf, N₁, hruns, h₁⟩, hrest⟩
        obtain ⟨hall, N', hruns', h'⟩ := (ih h₁).1 hrest
        exact ⟨⟨hf, hall⟩, N', ⟨N₁, hruns, hruns'⟩, h'⟩
      · rintro ⟨⟨hf, hall⟩, N', ⟨N₁, hruns, hruns'⟩, h'⟩
        obtain ⟨m₁, h₁⟩ := hm.of_runs (h.wellFormed f) hruns
        exact ⟨m₁, ⟨hf, N₁, hruns, h₁⟩, (ih h₁).2 ⟨hall, N', hruns', h'⟩⟩

/-- A part ends early at an entry before which all are read. -/
theorem Parses.foldlM_eq_error_iff (h : Parses parse A reqs Faulty) {stop : Stop}
    {Stops : Network → Bytes × Doc → Prop}
    (hstop : ∀ {m N f}, m.Refines N → (parse m f.1 f.2 = .error stop ↔ Stops N f))
    {fields : Fields} {m : Model} {N : Network} (hm : m.Refines N) :
    fields.foldlM (fun model f => parse model f.1 f.2) m = .error stop ↔
      ∃ before f after, fields = before ++ f :: after ∧ (∀ g ∈ before, A g) ∧
        ∃ N', N.Runs (before.flatMap reqs) N' ∧ Stops N' f := by
  induction fields generalizing m N with
  | nil => simp [List.foldlM_nil, pure, Except.pure]
  | cons g fields ih =>
      rw [List.foldlM_cons, Checked.bind_eq_error_iff]
      simp only [h.ok_iff hm, hstop hm]
      constructor
      · rintro (hg | ⟨m₁, ⟨hg, N₁, hruns, h₁⟩, hrest⟩)
        · exact ⟨[], g, fields, rfl, List.forall_mem_nil _, N, rfl, hg⟩
        · obtain ⟨before, f, after, rfl, hall, N', hruns', hf⟩ := (ih h₁).1 hrest
          refine ⟨g :: before, f, after, rfl, List.forall_mem_cons.2 ⟨hg, hall⟩, N', ?_, hf⟩
          rw [List.flatMap_cons]
          exact Network.runs_append.2 ⟨N₁, hruns, hruns'⟩
      · rintro ⟨before, f, after, hfields, hall, N', hruns, hf⟩
        cases before with
        | nil =>
            obtain ⟨rfl, rfl⟩ := List.cons.inj hfields
            rw [List.flatMap_nil, Network.Runs] at hruns
            exact Or.inl (hruns ▸ hf)
        | cons g' before =>
            obtain ⟨rfl, rfl⟩ := List.cons.inj hfields
            obtain ⟨hg, hall⟩ := List.forall_mem_cons.1 hall
            rw [List.flatMap_cons, Network.runs_append] at hruns
            obtain ⟨N₁, hruns, hruns'⟩ := hruns
            obtain ⟨m₁, h₁⟩ := hm.of_runs (h.wellFormed g) hruns
            exact Or.inr ⟨m₁, ⟨hg, N₁, hruns, h₁⟩,
              (ih h₁).2 ⟨before, f, after, rfl, hall, N', hruns', hf⟩⟩

/-- **When a loop ends well**: all entries are of their form, and the network takes all
their requests. -/
theorem Parses.parseEntries_eq_ok_iff (h : Parses parse A reqs Faulty) {v : Doc} {m m' : Model}
    {N : Network} (hm : m.Refines N) : parseEntries mj parse m v = .ok m' ↔
      ∃ fields, v = .object fields ∧ (∀ f ∈ fields, A f) ∧
        ∃ N', N.Runs (fields.flatMap reqs) N' ∧ m'.Refines N' := by
  cases v with
  | object fields =>
      refine (h.foldlM_eq_ok_iff hm).trans ⟨fun hall => ⟨fields, rfl, hall⟩, ?_⟩
      rintro ⟨_, heq, hall⟩
      exact Json.object.inj heq ▸ hall
  | null | bool | number | string | array => simp [parseEntries]

/-- **When a loop ends in an error that is not one of format**: at some entry, all before it
being read. -/
theorem Parses.parseEntries_eq_error_iff (h : Parses parse A reqs Faulty) {stop : Stop}
    (hformat : ¬ stop.IsFormat) {Stops : Network → Bytes × Doc → Prop}
    (hstop : ∀ {m N f}, m.Refines N → (parse m f.1 f.2 = .error stop ↔ Stops N f)) {v : Doc}
    {m : Model} {N : Network} (hm : m.Refines N) :
    parseEntries mj parse m v = .error stop ↔
      ∃ before f after, v = .object (before ++ f :: after) ∧ (∀ g ∈ before, A g) ∧
        ∃ N', N.Runs (before.flatMap reqs) N' ∧ Stops N' f := by
  cases v with
  | object fields =>
      simp only [Json.object.injEq]
      exact h.foldlM_eq_error_iff hstop hm
  | null | bool | number | string | array =>
      have hne : mj.raise .notAnObject ≠ stop := fun heq => hformat (heq ▸ trivial)
      simp [parseEntries, hne]

/-- **When a loop leaves defined behaviour**: at a link that is broken. -/
theorem Parses.parseEntries_eq_fault_iff (h : Parses parse A reqs Faulty) {v : Doc} {m : Model}
    {N : Network} (hm : m.Refines N) {x : Fault} :
    parseEntries mj parse m v = .error (.fault x) ↔
      x = .emptyOptional ∧ ∃ before f after, v = .object (before ++ f :: after) ∧
        (∀ g ∈ before, A g) ∧ ∃ N', N.Runs (before.flatMap reqs) N' ∧ Faulty N' f := by
  rw [h.parseEntries_eq_error_iff mj id h.fault_iff hm]
  constructor
  · rintro ⟨before, f, after, hv, hall, N', hruns, hx, hfault⟩
    exact ⟨hx, before, f, after, hv, hall, N', hruns, hfault⟩
  · rintro ⟨hx, before, f, after, hv, hall, N', hruns, hfault⟩
    exact ⟨before, f, after, hv, hall, N', hruns, hx, hfault⟩

end Parses

/-! ### The document -/

/-- An array without a second part is refused, if its first part is read. -/
theorem parseMain_singleton (v : Doc) : parseMain mj (.array [v]) = (do
    let _ ← parseEntries mj (parseNode mj) .empty v
    invalidFormat (ascii "section data not found")) := by
  simp only [parseMain, List.foldlM_cons, List.foldlM_nil, parsePart]
  cases parseEntries mj (parseNode mj) .empty v <;> rfl

/-- The two parts are read one after the other, and nothing may follow. -/
theorem parseMain_cons_cons (v w : Doc) (rest : List Doc) :
    parseMain mj (.array (v :: w :: rest)) = (do
      let m₁ ← parseEntries mj (parseNode mj) .empty v
      let m ← parseEntries mj (parseSection mj) m₁ w
      if rest = [] then return m
      else invalidFormat (ascii "unused data in main array found")) := by
  simp only [parseMain, List.foldlM_cons, parsePart]
  cases parseEntries mj (parseNode mj) .empty v with
  | error e => rfl
  | ok m₁ =>
      cases hm : parseEntries mj (parseSection mj) m₁ w with
      | error e => simp [hm, bind, Except.bind, pure, Except.pure]
      | ok m =>
          cases rest <;>
            simp [hm, parsePart, invalidFormat, bind, Except.bind, pure, Except.pure]

/-- The document is read when it has two parts and both are. -/
theorem readModel_eq_ok_iff_parts {doc : Doc} {m : Model} : readModel mj doc = .ok m ↔
    ∃ v w, doc = .array [v, w] ∧ ∃ m₁, parseEntries mj (parseNode mj) .empty v = .ok m₁ ∧
      parseEntries mj (parseSection mj) m₁ w = .ok m := by
  have hmain : readModel mj doc = .ok m ↔ parseMain mj doc = .ok m := by
    rw [readModel]
    rcases parseMain mj doc with (e | x) | m' <;> simp
  rw [hmain]
  constructor
  · intro h
    match doc with
    | .array (v :: w :: rest) =>
        rw [parseMain_cons_cons, Checked.bind_eq_ok_iff] at h
        obtain ⟨m₁, h₁, hnext⟩ := h
        obtain ⟨m₂, h₂, hend⟩ := Checked.bind_eq_ok_iff.1 hnext
        split_ifs at hend with hrest
        · subst hrest
          exact ⟨v, w, rfl, m₁, h₁, h₂.trans hend⟩
        · cases hend
    | .array [v] =>
        rw [parseMain_singleton, Checked.bind_eq_ok_iff] at h
        obtain ⟨_, _, h⟩ := h
        cases h
    | .array [] | .null | .bool _ | .number _ | .string _ | .object _ => cases h
  · rintro ⟨v, w, rfl, m₁, h₁, h⟩
    rw [parseMain_cons_cons]
    exact Checked.bind_eq_ok_iff.2 ⟨m₁, h₁, Checked.bind_eq_ok_iff.2 ⟨m, h, rfl⟩⟩

/-- What is not an error of the format is not wrapped. -/
theorem rethrow_eq_iff {e e' : Exn} (h : ¬ e'.IsFormat) : rethrow e = e' ↔ e = e' := by
  constructor
  · rintro rfl
    cases e with
    | IllegalModelError | other => rfl
    | _ => exact absurd trivial h
  · rintro rfl
    cases e with
    | IllegalModelError | other => rfl
    | _ => exact absurd trivial h

/-- A reading that ends early for another reason than the format ends in one of the
first two parts. -/
theorem readModel_eq_error_iff_parts {doc : Doc} {stop : Stop} (hformat : ¬ stop.IsFormat) :
    readModel mj doc = .error stop ↔ ∃ v rest, doc = .array (v :: rest) ∧
      (parseEntries mj (parseNode mj) .empty v = .error stop ∨
        ∃ m₁, parseEntries mj (parseNode mj) .empty v = .ok m₁ ∧ ∃ w rest', rest = w :: rest' ∧
          parseEntries mj (parseSection mj) m₁ w = .error stop) := by
  have hmain : readModel mj doc = .error stop ↔ parseMain mj doc = .error stop := by
    rw [readModel]
    rcases parseMain mj doc with (e | x) | m'
    · cases stop with
      | thrown e' => simp [rethrow_eq_iff hformat]
      | fault x => simp
    · rfl
    · rfl
  have hinvalid : ∀ what, invalidFormat (α := Model) what ≠ .error stop := by
    rintro what ⟨⟩
    exact hformat trivial
  rw [hmain]
  constructor
  · intro h
    match doc with
    | .array (v :: w :: rest) =>
        rw [parseMain_cons_cons, Checked.bind_eq_error_iff] at h
        rcases h with h | ⟨m₁, h₁, h⟩
        · exact ⟨v, _, rfl, Or.inl h⟩
        · rcases Checked.bind_eq_error_iff.1 h with h | ⟨m₂, _, h⟩
          · exact ⟨v, _, rfl, Or.inr ⟨m₁, h₁, w, rest, rfl, h⟩⟩
          · split_ifs at h
            · cases h
            · exact absurd h (hinvalid _)
    | .array [v] =>
        rw [parseMain_singleton, Checked.bind_eq_error_iff] at h
        rcases h with h | ⟨_, _, h⟩
        · exact ⟨v, _, rfl, Or.inl h⟩
        · exact absurd h (hinvalid _)
    | .array [] => exact absurd h (hinvalid _)
    | .null | .bool _ | .number _ | .string _ | .object _ =>
        cases h
        exact absurd trivial hformat
  · rintro ⟨v, rest, rfl, h | ⟨m₁, h₁, w, rest', rfl, h⟩⟩
    · cases rest with
      | nil => rw [parseMain_singleton, h]; rfl
      | cons w rest => rw [parseMain_cons_cons, h]; rfl
    · rw [parseMain_cons_cons]
      exact Checked.bind_eq_error_iff.2
        (Or.inr ⟨m₁, h₁, Checked.bind_eq_error_iff.2 (Or.inl h)⟩)

/-- The entries of the two parts have the right form, and no link is broken. -/
structure WellFormedEntries (nodes sections : Fields) : Prop where
  node : ∀ n ∈ nodes, IsNode n.2
  «section» : ∀ s ∈ sections, IsSection mj s.2 ∧ (linkOf mj s.2).Whole

/-- The requests of the nodes come before those of the sections. -/
theorem runs_requests_iff {N N' : Network} {nodes sections : Fields} :
    N.Runs (requests mj nodes sections) N' ↔
      ∃ N₁, N.Runs (nodes.flatMap fun f => [nodeRequest f]) N₁ ∧
        N₁.Runs (sections.flatMap (sectionRequests mj)) N' := by
  rw [requests, List.map_eq_flatMap, Network.runs_append]

/-- The network of the first part has a model. -/
theorem exists_refines_of_nodes {nodes : Fields} {N : Network}
    (hruns : Network.empty.Runs (nodes.flatMap fun f => [nodeRequest f]) N) :
    ∃ m : Model, m.Refines N := by
  refine Model.Refines.empty.of_runs (fun op hop => ?_) hruns
  obtain ⟨f, _, hop⟩ := List.mem_flatMap.1 hop
  exact List.mem_singleton.1 hop ▸ nodeRequest_wellFormed f

/-- **When the reader returns a model:** the document has two parts, the entries
the right form, and the network grants their calls one after the other. -/
theorem readModel_eq_ok_iff {doc : Doc} {m : Model} : readModel mj doc = .ok m ↔
    ∃ nodes sections, doc = .array [.object nodes, .object sections] ∧
      WellFormedEntries mj nodes sections ∧
        ∃ N, Network.empty.Runs (requests mj nodes sections) N ∧ m.Refines N := by
  rw [readModel_eq_ok_iff_parts]
  simp only [(parses_parseNode mj).parseEntries_eq_ok_iff mj Model.Refines.empty,
    runs_requests_iff]
  constructor
  · rintro ⟨_, _, rfl, m₁, ⟨nodes, rfl, hnodes, N₁, hruns, h₁⟩, hm⟩
    obtain ⟨sections, rfl, hsections, N, hruns', h⟩ :=
      ((parses_parseSection mj).parseEntries_eq_ok_iff mj h₁).1 hm
    exact ⟨nodes, sections, rfl, ⟨hnodes, hsections⟩, N, ⟨N₁, hruns, hruns'⟩, h⟩
  · rintro ⟨nodes, sections, rfl, ⟨hnodes, hsections⟩, N, ⟨N₁, hruns, hruns'⟩, h⟩
    obtain ⟨m₁, h₁⟩ := exists_refines_of_nodes hruns
    exact ⟨_, _, rfl, m₁, ⟨nodes, rfl, hnodes, N₁, hruns, h₁⟩,
      ((parses_parseSection mj).parseEntries_eq_ok_iff mj h₁).2
        ⟨sections, rfl, hsections, N, hruns', h⟩⟩

/-- **When the reader leaves defined behaviour:** it gets to a section whose link
is broken, and adds it. -/
theorem readModel_eq_fault_iff {doc : Doc} {x : Fault} : readModel mj doc = .error (.fault x) ↔
    x = .emptyOptional ∧ ∃ nodes before f after rest,
      doc = .array (.object nodes :: .object (before ++ f :: after) :: rest) ∧
        WellFormedEntries mj nodes before ∧ IsSection mj f.2 ∧ ¬ (linkOf mj f.2).Whole ∧
          ∃ N, Network.empty.Runs (requests mj nodes before ++ [.addSection (sectionOf f)]) N := by
  rw [readModel_eq_error_iff_parts mj id]
  simp only [(parses_parseNode mj).parseEntries_eq_ok_iff mj Model.Refines.empty,
    (parses_parseNode mj).parseEntries_eq_fault_iff mj Model.Refines.empty,
    and_false, exists_false, false_or, Network.runs_append, Network.runs_singleton,
    runs_requests_iff]
  constructor
  · rintro ⟨_, _, rfl, m₁, ⟨nodes, rfl, hnodes, N₁, hruns, h₁⟩, w, rest, rfl, hm⟩
    obtain ⟨hx, before, f, after, rfl, hall, N₂, hruns', hf, hbroken, N, hstep⟩ :=
      ((parses_parseSection mj).parseEntries_eq_fault_iff mj h₁).1 hm
    exact ⟨hx, nodes, before, f, after, rest, rfl, ⟨hnodes, hall⟩, hf, hbroken, N, N₂,
      ⟨N₁, hruns, hruns'⟩, hstep⟩
  · rintro ⟨hx, nodes, before, f, after, rest, rfl, ⟨hnodes, hall⟩, hf, hbroken, N, N₂,
      ⟨N₁, hruns, hruns'⟩, hstep⟩
    obtain ⟨m₁, h₁⟩ := exists_refines_of_nodes hruns
    exact ⟨_, _, rfl, m₁, ⟨nodes, rfl, hnodes, N₁, hruns, h₁⟩, _, rest, rfl,
      ((parses_parseSection mj).parseEntries_eq_fault_iff mj h₁).2
        ⟨hx, before, f, after, rfl, hall, N₂, hruns', hf, hbroken, N, hstep⟩⟩

end PiwcsPrw
