/-
# Which exceptions the reader throws

`readModel` of `src/io_read.cpp` and the exceptions of `include/piwcsprwmodel/io.h`.

The header promises two exceptions: `InvalidFormatError` for input that could not be
parsed and `IllegalModelError` for data that describe an inconsistent model.  The
reader throws no other, except for what the library throws for the number of a slot
and the reader does not catch.  It throws `IllegalModelError` exactly at the first
entry, of the right form and after entries that are all read, whose calls the model
does not grant.  `Illegal` says when that is, and with which message, in terms of the
entries before it: the messages do not tell everything, since an ID that is not valid
is reported as a duplicate, and one text serves for the ID and the address of a section.
-/

import PiwcsPrw.Io.NullLinks

namespace PiwcsPrw

variable (mj : Minijson)

/-- The library's conversion of a number does not throw `IllegalModelError`. -/
def Minijson.Foreign : Prop := ∀ text what, mj.asSlotId text ≠ .error (.IllegalModelError what)

/-- The number of a slot makes the library throw what the reader does not catch. -/
def SlotThrows (f : Bytes × Doc) : Prop :=
  (f.1 = ascii "startSlot" ∨ f.1 = ascii "endSlot") ∧
    ∃ text, f.2 = .number text ∧ mj.asSlotId text = .error .other

/-- So does a slot in a link of a section entry. -/
def SectionThrows (v : Doc) : Prop :=
  ∃ link, (ascii "link", link) ∈ fieldsOf v ∧ ∃ f ∈ fieldsOf link, SlotThrows mj f

/-- An error of the format, or one that is not caught, and then only if `P`. -/
def Stop.IsFormatOr (P : Prop) (stop : Stop) : Prop := stop.IsFormat ∨ stop = .thrown .other ∧ P

/-! ### Errors of the format -/

section Format

/-- A value that is no string is a format error. -/
theorem asString_errorsIn (v : Doc) : (Minijson.asString v).ErrorsIn Stop.IsFormat := by
  cases v with
  | string s => exact .ok s
  | null | bool | number | array | object => exact .error trivial

/-- An optional value has the errors of the value. -/
theorem asOptional_errorsIn {α : Type} {as : Doc → Reading α} {v : Doc} {E : Stop → Prop}
    (h : (as v).ErrorsIn E) : (Minijson.asOptional as v).ErrorsIn E := by
  cases v with
  | null => exact .ok none
  | bool | number | string | array | object => exact h.bind fun a => .pure (some a)

/-- What a dispatcher throws itself is a format error. -/
theorem raise_isFormat (r : Json.Refusal Bytes) : (mj.raise r).IsFormat := by
  cases r <;> trivial

/-- A type that is unknown is a format error. -/
theorem parseNodeType_errorsIn (nd : NodeData) (v : Doc) :
    (parseNodeType nd v).ErrorsIn Stop.IsFormat := by
  refine (asString_errorsIn v).bind fun declar => ?_
  split
  · exact .pure _
  · exact .error trivial

/-- A direction that is unknown is a format error. -/
theorem asAllowedTravel_errorsIn (v : Doc) : (asAllowedTravel v).ErrorsIn Stop.IsFormat := by
  cases v with
  | string raw =>
      rw [asAllowedTravel]
      split_ifs
      · exact .ok _
      · exact .ok _
      · exact .ok _
      · exact .error trivial
  | null | bool | number | array | object => exact .error trivial

/-- Metadata that are no object of strings are a format error. -/
theorem parseMetadata_errorsIn (md : MetadataData) (v : Doc) :
    (parseMetadata mj md v).ErrorsIn Stop.IsFormat := by
  cases v with
  | object fields =>
      exact .foldlM (fun md f _ => (asString_errorsIn f.2).bind fun value => .pure _) md
  | null | bool | number | string | array => exact .error trivial

/-- The dispatcher of nodes ends with format errors only. -/
theorem nodeDispatcher_errorsIn (nd : NodeData) (v : Doc) :
    (Json.dispatch mj.raise (nodeDispatcher mj) nd v).ErrorsIn Stop.IsFormat := by
  refine Json.dispatch_errorsIn (raise_isFormat mj) nd fun h hmem nd fields _ w _ => ?_
  simp only [nodeDispatcher, List.mem_cons, List.not_mem_nil, or_false] at hmem
  rcases hmem with rfl | rfl
  · exact parseNodeType_errorsIn nd w
  · exact (parseMetadata_errorsIn mj _ w).bind fun md => .pure _

/-- And so does that of destinations. -/
theorem destDispatcher_errorsIn (d : DestData) (v : Doc) :
    (Json.dispatch mj.raise (destDispatcher mj) d v).ErrorsIn Stop.IsFormat := by
  refine Json.dispatch_errorsIn (raise_isFormat mj) d fun h hmem d fields _ w _ => ?_
  simp only [destDispatcher, List.mem_cons, List.not_mem_nil, or_false] at hmem
  rcases hmem with rfl | rfl | rfl
  · exact (asString_errorsIn w).bind fun s => .pure _
  · exact (asString_errorsIn w).bind fun s => .pure _
  · exact (parseMetadata_errorsIn mj _ w).bind fun md => .pure _

/-- A format error is one, whatever else may be. -/
theorem isFormatOr_of_isFormat {P : Prop} (stop : Stop) (h : stop.IsFormat) : stop.IsFormatOr P :=
  Or.inl h

variable {mj} (hmj : mj.Foreign)

include hmj

/-- A number that is not taken is a format error, or the library's own error. -/
theorem asSize_errorsIn {P : Prop} {v : Doc}
    (hP : ∀ text, v = .number text → mj.asSlotId text = .error .other → P) :
    (mj.asSize v).ErrorsIn (Stop.IsFormatOr P) := by
  cases v with
  | number text =>
      rw [Minijson.asSize]
      cases hk : mj.asSlotId text with
      | ok k => exact .ok k
      | error e =>
          cases e with
          | IllegalModelError what => exact absurd hk (hmj text what)
          | other => exact .error (Or.inr ⟨rfl, hP text rfl hk⟩)
          | _ => exact .error (Or.inl trivial)
  | null | bool | string | array | object => exact .error (Or.inl trivial)

/-- The dispatcher of links passes on the library's own error on a slot. -/
theorem linkDispatcher_errorsIn (l : Link) (v : Doc) :
    (Json.dispatch mj.raise (linkDispatcher mj) l v).ErrorsIn
      (Stop.IsFormatOr (∃ f ∈ fieldsOf v, SlotThrows mj f)) := by
  refine Json.dispatch_errorsIn (fun r => isFormatOr_of_isFormat _ (raise_isFormat mj r)) l
    fun h hmem l fields hv w hw => ?_
  subst hv
  simp only [linkDispatcher, List.mem_cons, List.not_mem_nil, or_false] at hmem
  rcases hmem with rfl | rfl | rfl | rfl
  · refine Except.ErrorsIn.bind ?_ fun x => .pure _
    exact (asOptional_errorsIn (asString_errorsIn w)).mono isFormatOr_of_isFormat
  · refine (asOptional_errorsIn (asSize_errorsIn hmj ?_)).bind fun x => .pure _
    exact fun text htext hother => ⟨_, hw, Or.inl rfl, text, htext, hother⟩
  · refine Except.ErrorsIn.bind ?_ fun x => .pure _
    exact (asOptional_errorsIn (asString_errorsIn w)).mono isFormatOr_of_isFormat
  · refine (asOptional_errorsIn (asSize_errorsIn hmj ?_)).bind fun x => .pure _
    exact fun text htext hother => ⟨_, hw, Or.inr rfl, text, htext, hother⟩

/-- And so does the dispatcher of sections. -/
theorem sectionDispatcher_errorsIn (s : SectionData) (v : Doc) :
    (Json.dispatch mj.raise (sectionDispatcher mj) s v).ErrorsIn
      (Stop.IsFormatOr (SectionThrows mj v)) := by
  refine Json.dispatch_errorsIn (fun r => isFormatOr_of_isFormat _ (raise_isFormat mj r)) s
    fun h hmem s fields hv w hw => ?_
  subst hv
  simp only [sectionDispatcher, List.mem_cons, List.not_mem_nil, or_false] at hmem
  rcases hmem with rfl | rfl | rfl | rfl
  · refine Except.ErrorsIn.bind ?_ fun l => .pure _
    exact (linkDispatcher_errorsIn hmj s.link w).mono fun stop =>
      Or.imp_right (And.imp_right fun hslot => ⟨w, hw, hslot⟩)
  · exact ((asAllowedTravel_errorsIn w).mono isFormatOr_of_isFormat).bind fun dir => .pure _
  · refine Except.ErrorsIn.bind ?_ fun d => .pure _
    exact (destDispatcher_errorsIn mj {} w).mono isFormatOr_of_isFormat
  · exact ((parseMetadata_errorsIn mj _ w).mono isFormatOr_of_isFormat).bind fun md => .pure _

end Format

/-! ### The first entry that is not granted -/

/-- A node entry that cannot be added after those before it. -/
def NodeTaken (before : Fields) (f : Bytes × Doc) : Prop :=
  isId f.1 = false ∨ f.1 ∈ before.map Prod.fst

/-- A section entry that cannot be added after those before it. -/
def SectionTaken (before : Fields) (f : Bytes × Doc) : Prop :=
  isId f.1 = false ∨ f.1 ∈ before.map Prod.fst ∨
    ∃ g ∈ before, ∃ adr, addressOf g = some adr ∧ addressOf f = some adr

/-- A section entry whose link cannot be made after those before it. -/
def LinkRefused (nodes before : Fields) (f : Bytes × Doc) : Prop :=
  ∃ a i b j, AsksLink mj f a i b j ∧ (¬ GivesPort nodes (a, i) ∨ ¬ GivesPort nodes (b, j) ∨ a = b ∨
    ∃ g ∈ before, UsesPort mj g (a, i) ∨ UsesPort mj g (b, j))

/-- The document has an entry of the right form, after entries that are all read, whose
calls are not granted. -/
inductive Illegal : Doc → Bytes → Prop
  | node {before after : Fields} {f : Bytes × Doc} {rest : List Doc} :
      Acceptable mj before [] → IsNode f.2 → NodeTaken before f →
        Illegal (.array (.object (before ++ f :: after) :: rest)) (ascii "duplicate node ID")
  | «section» {nodes before after : Fields} {f : Bytes × Doc} {rest : List Doc} :
      Acceptable mj nodes before → IsSection mj f.2 → SectionTaken before f →
        Illegal (.array (.object nodes :: .object (before ++ f :: after) :: rest))
          (ascii "duplicate section ID or destination address")
  | link {nodes before after : Fields} {f : Bytes × Doc} {rest : List Doc} :
      Acceptable mj nodes before → IsSection mj f.2 → ¬ SectionTaken before f →
        LinkRefused mj nodes before f →
          Illegal (.array (.object nodes :: .object (before ++ f :: after) :: rest))
            (ascii "linkage inconsistency found")

section Network

variable {N : Network} {nodes before : Fields} {f : Bytes × Doc}

/-- A node can be added to what the entries before it have built, unless it is taken. -/
theorem Network.Built.not_nodeTaken_iff (h : N.Built (requests mj before [])) :
    (∃ N', N.Step (nodeRequest f) N') ↔ ¬ NodeTaken before f := by
  rw [h.step_iff (builds_nodeRequest f), NodeTaken, not_or, Bool.not_eq_false]
  refine and_congr Iff.rfl ⟨fun hcomp hmem => ?_, fun hfresh x hx => ?_⟩
  · obtain ⟨g, hg, hkey⟩ := List.mem_map.1 hmem
    exact hcomp _ (addNode_mem_requests.2 ⟨g, hg, rfl⟩) hkey
  · cases x with
    | addNode node =>
        obtain ⟨g, hg, rfl⟩ := addNode_mem_requests.1 hx
        exact fun hkey => hfresh (List.mem_map.2 ⟨g, hg, hkey⟩)
    | _ => trivial

/-- A section can be added to what the entries before it have built, unless it is
taken. -/
theorem Network.Built.not_sectionTaken_iff (h : N.Built (requests mj nodes before)) :
    (∃ N', N.Step (.addSection (sectionOf f)) N') ↔ ¬ SectionTaken before f := by
  rw [h.step_iff (builds_addSection f), SectionTaken, not_or, not_or, Bool.not_eq_false]
  refine and_congr Iff.rfl ⟨fun hcomp => ⟨fun hmem => ?_, ?_⟩, fun ⟨hfresh, haddr⟩ x hx => ?_⟩
  · obtain ⟨g, hg, hkey⟩ := List.mem_map.1 hmem
    exact (hcomp _ (addSection_mem_requests.2 ⟨g, hg, rfl⟩)).1 hkey
  · rintro ⟨g, hg, adr, hadr, hadr'⟩
    rw [← address?_sectionOf] at hadr hadr'
    exact (hcomp _ (addSection_mem_requests.2 ⟨g, hg, rfl⟩)).2 adr hadr hadr'
  · cases x with
    | addSection sec =>
        obtain ⟨g, hg, rfl⟩ := addSection_mem_requests.1 hx
        refine ⟨fun hkey => hfresh (List.mem_map.2 ⟨g, hg, hkey⟩), fun adr hadr hadr' => ?_⟩
        rw [address?_sectionOf] at hadr hadr'
        exact haddr ⟨g, hg, adr, hadr, hadr'⟩
    | _ => trivial

/-- An entry that asks for a link asks for one. -/
theorem not_linkRefused_iff {a b : Bytes} {i j : SlotId} (hlink : AsksLink mj f a i b j) :
    ¬ LinkRefused mj nodes before f ↔ GivesPort nodes (a, i) ∧ GivesPort nodes (b, j) ∧ a ≠ b ∧
      ∀ g ∈ before, ¬ UsesPort mj g (a, i) ∧ ¬ UsesPort mj g (b, j) := by
  constructor
  · intro hno
    refine ⟨?_, ?_, fun hab => hno ⟨a, i, b, j, hlink, Or.inr (Or.inr (Or.inl hab))⟩,
      fun g hg => ⟨fun hp => ?_, fun hp => ?_⟩⟩
    · by_contra hp
      exact hno ⟨a, i, b, j, hlink, Or.inl hp⟩
    · by_contra hp
      exact hno ⟨a, i, b, j, hlink, Or.inr (Or.inl hp)⟩
    · exact hno ⟨a, i, b, j, hlink, Or.inr (Or.inr (Or.inr ⟨g, hg, Or.inl hp⟩))⟩
    · exact hno ⟨a, i, b, j, hlink, Or.inr (Or.inr (Or.inr ⟨g, hg, Or.inr hp⟩))⟩
  · rintro ⟨ha, hb, hab, hfree⟩ ⟨a', i', b', j', hlink', hrefused⟩
    obtain ⟨rfl, rfl, rfl, rfl⟩ : a = a' ∧ i = i' ∧ b = b' ∧ j = j' := by
      simpa using Link.mk.inj (hlink.symm.trans hlink')
    rcases hrefused with h | h | h | ⟨g, hg, h | h⟩
    · exact h ha
    · exact h hb
    · exact hab h
    · exact (hfree g hg).1 h
    · exact (hfree g hg).2 h

/-- A section just added can be connected as it asks, unless the link is refused. -/
theorem Network.Built.not_linkRefused_iff {N₁ : Network} (hnodes : ∀ n ∈ nodes, IsNode n.2)
    (h : N.Built (requests mj nodes before)) (hstep : N.Step (.addSection (sectionOf f)) N₁)
    {a b : Bytes} {i j : SlotId} (hlink : AsksLink mj f a i b j) :
    (∃ N', N₁.Step (.link f.1 a i b j) N') ↔ ¬ LinkRefused mj nodes before f := by
  have hfresh : f.1 ∉ before.map Prod.fst := fun hmem =>
    (h.not_sectionTaken_iff mj).1 ⟨_, hstep⟩ (Or.inr (Or.inl hmem))
  have h₁ := h.step (builds_addSection f) hstep
  have hnode : ∀ node, .addNode node ∈ requests mj nodes before ++ [.addSection (sectionOf f)] ↔
      .addNode node ∈ requests mj nodes before := fun node => by simp
  have hknown : ∃ sec, .addSection sec ∈ requests mj nodes before ++ [.addSection (sectionOf f)] ∧
      sec.m_id = f.1 := ⟨sectionOf f, by simp, rfl⟩
  have hbuilds : (Op.link f.1 a i b j).Builds := trivial
  rw [h₁.step_iff hbuilds, PiwcsPrw.not_linkRefused_iff mj hlink, Op.Admissible,
    and_iff_right hknown]
  simp only [hnode, givesPort_iff hnodes, and_assoc]
  refine and_congr Iff.rfl (and_congr Iff.rfl (and_congr Iff.rfl ⟨fun hcomp g hg => ?_,
    fun hfree x hx => ?_⟩))
  · have hports : ∀ c k d l, AsksLink mj g c k d l →
        (a, i) ≠ (c, k) ∧ (a, i) ≠ (d, l) ∧ (b, j) ≠ (c, k) ∧ (b, j) ≠ (d, l) :=
      fun c k d l hasks => by
        have hmem : .link g.1 c k d l ∈ requests mj nodes before :=
          link_mem_requests.2 ⟨g, hg, rfl, hasks⟩
        obtain ⟨_, h₁, h₂, h₃, h₄⟩ := hcomp _ (List.mem_append_left _ hmem)
        exact ⟨h₁.symm, h₃.symm, h₂.symm, h₄.symm⟩
    constructor
    · rintro ⟨c, k, d, l, hasks, hp | hp⟩
      · exact (hports c k d l hasks).1 hp
      · exact (hports c k d l hasks).2.1 hp
    · rintro ⟨c, k, d, l, hasks, hp | hp⟩
      · exact (hports c k d l hasks).2.2.1 hp
      · exact (hports c k d l hasks).2.2.2 hp
  · cases x with
    | link t c k d l =>
        obtain ⟨g, hg, rfl, hasks⟩ : ∃ g ∈ before, g.1 = t ∧ AsksLink mj g c k d l :=
          link_mem_requests.1 (by simpa using hx)
        obtain ⟨hfst, hsnd⟩ := hfree g hg
        exact ⟨fun hkey => hfresh (List.mem_map.2 ⟨g, hg, hkey⟩),
          fun he => hfst ⟨c, k, d, l, hasks, Or.inl he.symm⟩,
          fun he => hsnd ⟨c, k, d, l, hasks, Or.inl he.symm⟩,
          fun he => hfst ⟨c, k, d, l, hasks, Or.inr he.symm⟩,
          fun he => hsnd ⟨c, k, d, l, hasks, Or.inr he.symm⟩⟩
    | _ => trivial

end Network

/-! ### Entries -/

section Entries

variable {m : Model} {N : Network} (hm : m.Refines N) {f : Bytes × Doc} {what : Bytes}

/-- A reading that ends because a model is illegal. -/
abbrev illegal (what : Bytes) : Stop := .thrown (.IllegalModelError what)

include hm

/-- A call is refused, with its message, when the network has no such step. -/
theorem Model.Refines.granted_eq_error_iff {op : Op} (hop : op.WellFormed) {msg : Bytes}
    {stop : Stop} : granted msg (op.call m) = .error stop ↔
      stop = illegal msg ∧ ¬ ∃ N', N.Step op N' := by
  rcases hm.call hop with ⟨m₁, N₁, hcall, hstep, _⟩ | ⟨hcall, hno⟩
  · rw [hcall]
    exact ⟨nofun, fun ⟨_, hno⟩ => absurd ⟨N₁, hstep⟩ hno⟩
  · have hrefused : granted msg (op.call m) = .error (illegal msg) := by
      rw [hcall]
      rfl
    rw [hrefused, Except.error.injEq, eq_comm, and_iff_left (not_exists.2 hno)]

/-- **When a node entry is refused**: it is well-formed, and the node cannot be added. -/
theorem parseNode_eq_illegal_iff : parseNode mj m f.1 f.2 = .error (illegal what) ↔
    what = ascii "duplicate node ID" ∧ IsNode f.2 ∧ ¬ ∃ N', N.Step (nodeRequest f) N' := by
  by_cases hf : IsNode f.2
  · rw [parseNode_eq mj hf, hm.granted_eq_error_iff (nodeRequest_wellFormed f), and_iff_right hf]
    simp
  · obtain ⟨stop, hread, _⟩ := (reads_nodeDispatcher mj).refused f.2 hf
    have hformat := nodeDispatcher_errorsIn mj {} f.2 stop hread
    have hparse : parseNode mj m f.1 f.2 = .error stop := by
      rw [parseNode, hread]
      rfl
    rw [hparse, Except.error.injEq]
    constructor
    · rintro rfl
      exact hformat.elim
    · exact fun h => absurd h.2.1 hf

variable {mj}

/-- **When a link is refused**: all four parts are given, and it cannot be made. -/
theorem followLink_eq_illegal_iff : followLink m f.1 (linkOf mj f.2) = .error (illegal what) ↔
    what = ascii "linkage inconsistency found" ∧ ∃ a i b j, AsksLink mj f a i b j ∧
      ¬ ∃ N', N.Step (.link f.1 a i b j) N' := by
  by_cases hasks : ∃ a i b j, AsksLink mj f a i b j
  · obtain ⟨a, i, b, j, hlink⟩ := hasks
    have hop : (Op.link f.1 a i b j).WellFormed := trivial
    have hfollow : followLink m f.1 (linkOf mj f.2)
        = granted (ascii "linkage inconsistency found") ((Op.link f.1 a i b j).call m) := by
      rw [hlink]
      rfl
    rw [hfollow, hm.granted_eq_error_iff hop]
    constructor
    · rintro ⟨hwhat, hno⟩
      exact ⟨by simpa using hwhat, a, i, b, j, hlink, hno⟩
    · rintro ⟨rfl, a', i', b', j', hlink', hno⟩
      obtain ⟨rfl, rfl, rfl, rfl⟩ : a = a' ∧ i = i' ∧ b = b' ∧ j = j' := by
        simpa using Link.mk.inj (hlink.symm.trans hlink')
      exact ⟨rfl, hno⟩
  · have hno : ¬ ∃ a i b j, linkOf mj f.2 = ⟨some a, some i, some b, some j⟩ := hasks
    constructor
    · intro hfollow
      by_cases hwhole : (linkOf mj f.2).Whole
      · rcases hwhole with hnone | hsome
        · rw [followLink, hnone] at hfollow
          cases hfollow
        · exact absurd hsome hno
      · rw [followLink_broken hwhole] at hfollow
        cases hfollow
    · rintro ⟨_, a, i, b, j, hlink, _⟩
      exact absurd ⟨a, i, b, j, hlink⟩ hasks

/-- **When a section entry is refused**: the section cannot be added, or is added and cannot
be linked. -/
theorem parseSection_eq_illegal_iff (hmj : mj.Foreign) :
    parseSection mj m f.1 f.2 = .error (illegal what) ↔ IsSection mj f.2 ∧
      (what = ascii "duplicate section ID or destination address" ∧
          ¬ (∃ N', N.Step (.addSection (sectionOf f)) N') ∨
        what = ascii "linkage inconsistency found" ∧ ∃ N₁, N.Step (.addSection (sectionOf f)) N₁ ∧
          ∃ a i b j, AsksLink mj f a i b j ∧ ¬ ∃ N', N₁.Step (.link f.1 a i b j) N') := by
  have hop : (Op.addSection (sectionOf f)).WellFormed := (builds_addSection f).constructed.wellFormed
  by_cases hf : IsSection mj f.2
  · rw [parseSection_eq mj hf, Checked.bind_eq_error_iff, and_iff_right hf,
      hm.granted_eq_error_iff hop]
    simp only [hm.granted_eq_ok_iff hop]
    refine or_congr (and_congr (by simp) Iff.rfl) ?_
    constructor
    · rintro ⟨m₁, ⟨N₁, hstep, h₁⟩, hfollow⟩
      obtain ⟨hwhat, hlink⟩ := (followLink_eq_illegal_iff h₁).1 hfollow
      exact ⟨hwhat, N₁, hstep, hlink⟩
    · rintro ⟨hwhat, N₁, hstep, hlink⟩
      obtain ⟨m₁, _, h₁⟩ := hm.call_of_step hop hstep
      exact ⟨m₁, ⟨N₁, hstep, h₁⟩, (followLink_eq_illegal_iff h₁).2 ⟨hwhat, hlink⟩⟩
  · obtain ⟨stop, hread, _⟩ := (reads_sectionDispatcher mj).refused f.2 hf
    have hformat := sectionDispatcher_errorsIn hmj {} f.2 stop hread
    have hparse : parseSection mj m f.1 f.2 = .error stop := by
      rw [parseSection, hread]
      rfl
    rw [hparse, Except.error.injEq]
    constructor
    · rintro rfl
      rcases hformat with hformat | ⟨hother, _⟩
      · exact hformat.elim
      · cases hother
    · exact fun h => absurd h.1 hf

end Entries

/-! ### Documents -/

variable {mj} in
/-- Entries that are all read are those of an acceptable document. -/
theorem acceptable_iff {nodes sections : Fields} : Acceptable mj nodes sections ↔
    WellFormedEntries mj nodes sections ∧
      ∃ N, Network.empty.Runs (requests mj nodes sections) N := by
  constructor
  · rintro ⟨hcon, hwhole⟩
    have hwf : WellFormedEntries mj nodes sections :=
      ⟨fun f hf => (hcon.node f hf).1, fun f hf => ⟨(hcon.section f hf).1, hwhole f hf⟩⟩
    exact ⟨hwf, (exists_runs_iff hwf).2 hcon⟩
  · rintro ⟨hwf, hruns⟩
    exact ⟨(exists_runs_iff hwf).1 hruns, fun s hs => (hwf.section s hs).2⟩

variable {mj}

/-- The first part ends at a node that is taken. -/
theorem parseNodes_eq_illegal_iff {v : Doc} {what : Bytes} :
    parseEntries mj (parseNode mj) .empty v = .error (illegal what) ↔
      what = ascii "duplicate node ID" ∧ ∃ before f after, v = .object (before ++ f :: after) ∧
        Acceptable mj before [] ∧ IsNode f.2 ∧ NodeTaken before f := by
  have hnode {m : Model} {N : Network} {f : Bytes × Doc} (hm : m.Refines N) :
      parseNode mj m f.1 f.2 = .error (illegal what) ↔ _ :=
    parseNode_eq_illegal_iff mj hm
  rw [(parses_parseNode mj).parseEntries_eq_error_iff mj id hnode Model.Refines.empty]
  constructor
  · rintro ⟨before, f, after, rfl, hall, N, hruns, hwhat, hf, hno⟩
    have hreq : Network.empty.Runs (requests mj before []) N :=
      (runs_requests_iff mj).2 ⟨N, hruns, rfl⟩
    have hbuilt := (hreq.built (builds_requests mj before [])).1
    refine ⟨hwhat, before, f, after, rfl, ?_, hf, ?_⟩
    · exact acceptable_iff.2 ⟨⟨hall, List.forall_mem_nil _⟩, N, hreq⟩
    · by_contra htaken
      exact hno ((hbuilt.not_nodeTaken_iff mj).2 htaken)
  · rintro ⟨hwhat, before, f, after, rfl, hacc, hf, htaken⟩
    obtain ⟨⟨hall, _⟩, N, hreq⟩ := acceptable_iff.1 hacc
    obtain ⟨N', hruns, rfl⟩ := (runs_requests_iff mj).1 hreq
    have hbuilt := (hreq.built (builds_requests mj before [])).1
    exact ⟨before, f, after, rfl, hall, N', hruns, hwhat, hf,
      fun hstep => (hbuilt.not_nodeTaken_iff mj).1 hstep htaken⟩

/-- Which of the calls for a section are not granted, after those for the entries before
it. -/
theorem Network.Built.refused_iff {N : Network} {nodes before : Fields} {f : Bytes × Doc}
    (hnodes : ∀ n ∈ nodes, IsNode n.2) (h : N.Built (requests mj nodes before)) :
    (¬ (∃ N', N.Step (.addSection (sectionOf f)) N') ↔ SectionTaken before f) ∧
      ((∃ N₁, N.Step (.addSection (sectionOf f)) N₁ ∧
          ∃ a i b j, AsksLink mj f a i b j ∧ ¬ ∃ N', N₁.Step (.link f.1 a i b j) N') ↔
        ¬ SectionTaken before f ∧ LinkRefused mj nodes before f) := by
  refine ⟨(not_congr (h.not_sectionTaken_iff mj)).trans not_not, ?_, ?_⟩
  · rintro ⟨N₁, hstep, a, i, b, j, hlink, hno⟩
    refine ⟨(h.not_sectionTaken_iff mj).1 ⟨N₁, hstep⟩, ?_⟩
    by_contra hrefused
    exact hno ((h.not_linkRefused_iff mj hnodes hstep hlink).2 hrefused)
  · rintro ⟨hfree, hrefused⟩
    obtain ⟨N₁, hstep⟩ := (h.not_sectionTaken_iff mj).2 hfree
    obtain ⟨a, i, b, j, hlink, _⟩ := id hrefused
    exact ⟨N₁, hstep, a, i, b, j, hlink,
      fun hlinked => (h.not_linkRefused_iff mj hnodes hstep hlink).1 hlinked hrefused⟩

variable (hmj : mj.Foreign)

include hmj

/-- The second part, after a first part that is read, ends at a section that is taken or
whose link is refused. -/
theorem parseSections_eq_illegal_iff {v w : Doc} {what : Bytes} :
    (∃ m, parseEntries mj (parseNode mj) .empty v = .ok m ∧
        parseEntries mj (parseSection mj) m w = .error (illegal what)) ↔
      ∃ nodes before f after, v = .object nodes ∧ w = .object (before ++ f :: after) ∧
        Acceptable mj nodes before ∧ IsSection mj f.2 ∧
          (what = ascii "duplicate section ID or destination address" ∧ SectionTaken before f ∨
            what = ascii "linkage inconsistency found" ∧ ¬ SectionTaken before f ∧
              LinkRefused mj nodes before f) := by
  have hsection {m : Model} {N : Network} {f : Bytes × Doc} (hm : m.Refines N) :
      parseSection mj m f.1 f.2 = .error (illegal what) ↔ _ :=
    parseSection_eq_illegal_iff hm hmj
  simp only [(parses_parseNode mj).parseEntries_eq_ok_iff mj Model.Refines.empty]
  constructor
  · rintro ⟨m, ⟨nodes, rfl, hnodes, N₁, hruns₁, h₁⟩, hread⟩
    rw [(parses_parseSection mj).parseEntries_eq_error_iff mj id hsection h₁] at hread
    obtain ⟨before, f, after, rfl, hall, N, hruns, hf, hillegal⟩ := hread
    have hreq : Network.empty.Runs (requests mj nodes before) N :=
      (runs_requests_iff mj).2 ⟨N₁, hruns₁, hruns⟩
    have hbuilt := (hreq.built (builds_requests mj nodes before)).1
    rw [(hbuilt.refused_iff hnodes).1, (hbuilt.refused_iff hnodes).2] at hillegal
    exact ⟨nodes, before, f, after, rfl, rfl, acceptable_iff.2 ⟨⟨hnodes, hall⟩, N, hreq⟩, hf,
      hillegal⟩
  · rintro ⟨nodes, before, f, after, rfl, rfl, hacc, hf, hillegal⟩
    obtain ⟨⟨hnodes, hall⟩, N, hreq⟩ := acceptable_iff.1 hacc
    obtain ⟨N₁, hruns₁, hruns⟩ := (runs_requests_iff mj).1 hreq
    obtain ⟨m, h₁⟩ := exists_refines_of_nodes hruns₁
    have hbuilt := (hreq.built (builds_requests mj nodes before)).1
    rw [← (hbuilt.refused_iff hnodes).2, ← (hbuilt.refused_iff hnodes).1] at hillegal
    refine ⟨m, ⟨nodes, rfl, hnodes, N₁, hruns₁, h₁⟩, ?_⟩
    rw [(parses_parseSection mj).parseEntries_eq_error_iff mj id hsection h₁]
    exact ⟨before, f, after, rfl, hall, N, hruns, hf, hillegal⟩

/-- **When the reader throws `IllegalModelError`**, and with which message. -/
theorem readModel_eq_illegal_iff {doc : Doc} {what : Bytes} :
    readModel mj doc = .error (illegal what) ↔ Illegal mj doc what := by
  rw [readModel_eq_error_iff_parts mj id]
  constructor
  · rintro ⟨v, rest, rfl, hnodes | ⟨m, hread, w, rest', rfl, hsections⟩⟩
    · obtain ⟨rfl, before, f, after, rfl, hacc, hf, htaken⟩ := parseNodes_eq_illegal_iff.1 hnodes
      exact .node hacc hf htaken
    · obtain ⟨nodes, before, f, after, rfl, rfl, hacc, hf, hillegal⟩ :=
        (parseSections_eq_illegal_iff hmj).1 ⟨m, hread, hsections⟩
      rcases hillegal with ⟨rfl, htaken⟩ | ⟨rfl, hfree, hrefused⟩
      · exact .section hacc hf htaken
      · exact .link hacc hf hfree hrefused
  · rintro (⟨hacc, hf, htaken⟩ | ⟨hacc, hf, htaken⟩ | ⟨hacc, hf, hfree, hrefused⟩)
    · exact ⟨_, _, rfl, Or.inl (parseNodes_eq_illegal_iff.2 ⟨rfl, _, _, _, rfl, hacc, hf, htaken⟩)⟩
    · obtain ⟨m, hread, hsections⟩ := (parseSections_eq_illegal_iff hmj).2
        ⟨_, _, _, _, rfl, rfl, hacc, hf, Or.inl ⟨rfl, htaken⟩⟩
      exact ⟨_, _, rfl, Or.inr ⟨m, hread, _, _, rfl, hsections⟩⟩
    · obtain ⟨m, hread, hsections⟩ := (parseSections_eq_illegal_iff hmj).2
        ⟨_, _, _, _, rfl, rfl, hacc, hf, Or.inr ⟨rfl, hfree, hrefused⟩⟩
      exact ⟨_, _, rfl, Or.inr ⟨m, hread, _, _, rfl, hsections⟩⟩

omit hmj in
/-- The code leaves defined behaviour without throwing. -/
theorem orFault_errorsIn {α : Type} (x : Checked α) :
    (orFault x).ErrorsIn fun stop => stop ≠ .thrown .other := by
  cases x with
  | ok a => exact .ok a
  | error f => exact .error nofun

omit hmj in
/-- No node entry ends with an exception of another kind. -/
theorem parseNode_ne_other (m : Model) (id : Identifier) (v : Doc) :
    (parseNode mj m id v).ErrorsIn fun stop => stop ≠ .thrown .other := by
  have hdata : (Json.dispatch mj.raise (nodeDispatcher mj) {} v).ErrorsIn
      fun stop => stop ≠ .thrown .other :=
    (nodeDispatcher_errorsIn mj {} v).mono fun stop hformat hother => by rwa [hother] at hformat
  refine hdata.bind fun data => (orFault_errorsIn _).bind fun type =>
    (orFault_errorsIn _).bind fun r => ?_
  simp only
  split_ifs
  · exact .error nofun
  · exact .pure _

/-- What is not caught at a section entry comes from a slot of its link. -/
theorem parseSection_eq_other (m : Model) (id : Identifier) (v : Doc) :
    (parseSection mj m id v).ErrorsIn fun stop => stop = .thrown .other → SectionThrows mj v := by
  have hdata : (Json.dispatch mj.raise (sectionDispatcher mj) {} v).ErrorsIn
      fun stop => stop = .thrown .other → SectionThrows mj v :=
    (sectionDispatcher_errorsIn hmj {} v).mono fun stop hstop hother => by
      rw [hother] at hstop
      exact hstop.elim False.elim And.right
  have hfault : ∀ {α : Type} (x : Checked α),
      (orFault x).ErrorsIn fun stop => stop = .thrown .other → SectionThrows mj v := fun x =>
    (orFault_errorsIn x).mono fun stop hne hother => absurd hother hne
  refine hdata.bind fun data => ?_
  simp only
  split_ifs
  · exact .error nofun
  · cases data.link.startNode with
    | none => exact .pure _
    | some startNode =>
        refine (hfault _).bind fun startSlot => (hfault _).bind fun endNode =>
          (hfault _).bind fun endSlot => (hfault _).bind fun r => ?_
        split_ifs
        · exact .error nofun
        · exact .pure _

/-- What is not caught at all comes from a slot in the second part. -/
theorem readModel_eq_other {doc : Doc} (h : readModel mj doc = .error (.thrown .other)) :
    ∃ nodes sections rest, doc = .array (nodes :: .object sections :: rest) ∧
      ∃ f ∈ sections, SectionThrows mj f.2 := by
  rw [readModel_eq_error_iff_parts mj id] at h
  obtain ⟨nodes, rest, rfl, hnodes | ⟨m, _, w, rest', rfl, hsections⟩⟩ := h
  · cases nodes with
    | object fields =>
        have herrors : (parseEntries mj (parseNode mj) .empty (.object fields)).ErrorsIn
            fun stop => stop ≠ .thrown .other :=
          .foldlM (fun m f _ => parseNode_ne_other m f.1 f.2) .empty
        exact absurd rfl (herrors _ hnodes)
    | null | bool | number | string | array => cases hnodes
  · cases w with
    | object sections =>
        have herrors : (parseEntries mj (parseSection mj) m (.object sections)).ErrorsIn
            fun stop => stop = .thrown .other → ∃ f ∈ sections, SectionThrows mj f.2 :=
          .foldlM (fun m f hf => (parseSection_eq_other hmj m f.1 f.2).mono
            fun stop himp hother => ⟨f, hf, himp hother⟩) m
        exact ⟨nodes, sections, rest', rfl, herrors _ hsections rfl⟩
    | null | bool | number | string | array => cases hsections

omit hmj in
/-- What leaves `readModel` is one of its two exceptions, or of another kind. -/
theorem rethrow_cases (e : Exn) : (∃ what, rethrow e = .InvalidFormatError what) ∨
    (∃ what, rethrow e = .IllegalModelError what) ∨ rethrow e = .other := by
  cases e with
  | IllegalModelError what => exact Or.inr (Or.inl ⟨what, rfl⟩)
  | other => exact Or.inr (Or.inr rfl)
  | _ => exact Or.inl ⟨_, rfl⟩

/-- **The reader throws the two exceptions of its interface**, or what the library throws
for the number of a slot; and the second of the two exactly at the first entry whose
calls are not granted. -/
theorem readModel_exceptions (doc : Doc) :
    (∀ e, readModel mj doc = .error (.thrown e) →
      (∃ what, e = .InvalidFormatError what) ∨ (∃ what, e = .IllegalModelError what) ∨
        e = .other ∧ ∃ nodes sections rest, doc = .array (nodes :: .object sections :: rest) ∧
          ∃ f ∈ sections, SectionThrows mj f.2) ∧
    ∀ what, readModel mj doc = .error (.thrown (.IllegalModelError what)) ↔ Illegal mj doc what := by
  refine ⟨fun e he => ?_, fun what => readModel_eq_illegal_iff hmj⟩
  obtain ⟨e', rfl⟩ : ∃ e', rethrow e' = e := by
    rw [readModel] at he
    cases hmain : parseMain mj doc with
    | ok m =>
        rw [hmain] at he
        cases he
    | error stop =>
        rw [hmain] at he
        cases stop with
        | fault x => cases he
        | thrown e' => exact ⟨e', by simpa using he⟩
  refine (rethrow_cases e').imp_right (Or.imp_right fun hother => ⟨hother, ?_⟩)
  rw [hother] at he
  exact readModel_eq_other hmj he

omit hmj in
/-- The concrete library throws no `IllegalModelError`. -/
theorem foreign_plain : Minijson.plain.Foreign := by
  intro text what he
  simp only [Minijson.plain] at he
  split_ifs at he
  cases he

omit hmj in
/-- A node whose ID is not valid is reported as a duplicate. -/
theorem readModel_exceptions_badId : readModel .plain (.array [
    .object [(ascii "#1", .object [(ascii "type", .string (ascii "END"))])], .object []])
      = .error (.thrown (.IllegalModelError (ascii "duplicate node ID"))) := by
  have hempty : Acceptable .plain [] [] :=
    acceptable_iff.2 ⟨⟨List.forall_mem_nil _, List.forall_mem_nil _⟩, .empty, rfl⟩
  have hnode : IsNode (.object [(ascii "type", .string (ascii "END"))]) :=
    ⟨_, rfl, List.forall_mem_singleton.2 (Or.inl ⟨rfl, .END, rfl⟩), by simp⟩
  have htaken : NodeTaken [] (ascii "#1", .object [(ascii "type", .string (ascii "END"))]) :=
    Or.inl rfl
  exact ((readModel_exceptions foreign_plain _).2 _).2 (.node hempty hnode htaken)

end PiwcsPrw
