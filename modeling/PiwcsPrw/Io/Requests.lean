/-
# The calls of an entry

`parseNode` and `parseSection` of `src/io_read.cpp`.

Every entry of a document asks for calls on the model: a node entry for
`addNode`, a section entry for `addSection` and, when it has a link, for `link`.
Reading the entry is making these calls and ending at the first that is not
granted, provided that the entry has the right form.

The one place where the reader leaves defined behaviour is a section that was
added and whose link has a start node but not all of the other three parts: the
code asks for the start node only (`followLink_broken`).
-/

import PiwcsPrw.Io.Dispatchers
import PiwcsPrw.Runs.BuildOrder

namespace PiwcsPrw

/-! ### The calls of an entry -/

/-- The call a node entry asks for. -/
def nodeRequest (f : Bytes × Doc) : Op := .addNode (nodeOf f)

/-- The entry asks for a link of these ports. -/
def AsksLink (mj : Minijson) (f : Bytes × Doc) (a : Bytes) (i : SlotId) (b : Bytes) (j : SlotId) :
    Prop :=
  linkOf mj f.2 = ⟨some a, some i, some b, some j⟩

/-- The link call of a section entry, if all parts of the link have a value. -/
def linkRequest (mj : Minijson) (f : Bytes × Doc) : List Op :=
  match linkOf mj f.2 with
  | ⟨some a, some i, some b, some j⟩ => [.link f.1 a i b j]
  | _ => []

/-- The calls a section entry asks for. -/
def sectionRequests (mj : Minijson) (f : Bytes × Doc) : List Op :=
  .addSection (sectionOf f) :: linkRequest mj f

/-- The calls a document asks for. -/
def requests (mj : Minijson) (nodes sections : Fields) : List Op :=
  nodes.map nodeRequest ++ sections.flatMap (sectionRequests mj)

/-- The link has no start node, or all four parts. -/
def Link.Whole (l : Link) : Prop :=
  l.startNode = none ∨ ∃ a i b j, l = ⟨some a, some i, some b, some j⟩

/-- A link with all four parts is one request. -/
theorem AsksLink.linkRequest {mj : Minijson} {f : Bytes × Doc} {a b : Bytes} {i j : SlotId}
    (h : AsksLink mj f a i b j) : linkRequest mj f = [.link f.1 a i b j] := by
  rw [PiwcsPrw.linkRequest, h]

/-- What is requested for the link of an entry. -/
theorem mem_linkRequest {mj : Minijson} {f : Bytes × Doc} {op : Op} :
    op ∈ linkRequest mj f ↔ ∃ a i b j, AsksLink mj f a i b j ∧ op = .link f.1 a i b j := by
  constructor
  · intro hop
    rw [PiwcsPrw.linkRequest] at hop
    split at hop
    · rename_i a i b j hlink
      exact ⟨a, i, b, j, hlink, List.mem_singleton.1 hop⟩
    · cases hop
  · rintro ⟨a, i, b, j, hlink, rfl⟩
    rw [hlink.linkRequest]
    exact List.mem_singleton_self _

/-- A node entry asks for an addition. -/
theorem builds_nodeRequest (f : Bytes × Doc) : (nodeRequest f).Builds := ⟨_, _, _, rfl⟩

/-- A section entry asks for an addition. -/
theorem builds_addSection (f : Bytes × Doc) : (Op.addSection (sectionOf f)).Builds :=
  ⟨_, _, _, _, rfl⟩

/-- And for a link, if it has one. -/
theorem builds_sectionRequests (mj : Minijson) (f : Bytes × Doc) :
    ∀ op ∈ sectionRequests mj f, op.Builds := by
  intro op hop
  rcases List.mem_cons.1 hop with rfl | hop
  · exact builds_addSection f
  · obtain ⟨a, i, b, j, _, rfl⟩ := mem_linkRequest.1 hop
    trivial

/-- The calls are additions of constructed values and links. -/
theorem builds_requests (mj : Minijson) (nodes sections : Fields) :
    ∀ op ∈ requests mj nodes sections, op.Builds := by
  intro op hop
  rcases List.mem_append.1 hop with hop | hop
  · obtain ⟨f, _, rfl⟩ := List.mem_map.1 hop
    exact builds_nodeRequest f
  · obtain ⟨f, _, hop⟩ := List.mem_flatMap.1 hop
    exact builds_sectionRequests mj f op hop

/-! ### A call that must be granted -/

/-- A call whose result must be `OK`. -/
def granted (what : Bytes) (call : Checked (Bool × Model)) : Reading Model := do
  let (ok, m) ← orFault call
  if ok then return m else illegalModel what

section Granted

variable {m : Model} {N : Network} (h : m.Refines N) {op : Op} (hop : op.WellFormed) {what : Bytes}

include h hop

/-- A call is granted when the network can step. -/
theorem Model.Refines.granted_eq_ok_iff {m' : Model} :
    granted what (op.call m) = .ok m' ↔ ∃ N', N.Step op N' ∧ m'.Refines N' := by
  rcases h.call hop with ⟨m₁, N₁, hcall, hstep, h₁⟩ | ⟨hcall, hno⟩
  · have hgranted : granted what (op.call m) = .ok m₁ := by
      rw [hcall]
      rfl
    rw [hgranted, Except.ok.injEq]
    constructor
    · rintro rfl
      exact ⟨N₁, hstep, h₁⟩
    · rintro ⟨N', hstep', h'⟩
      exact h₁.unique (hstep.unique hstep' ▸ h')
  · have hrefused : granted what (op.call m) = illegalModel what := by
      rw [hcall]
      rfl
    constructor
    · intro hok
      rw [hrefused] at hok
      cases hok
    · rintro ⟨N', hstep, _⟩
      exact absurd hstep (hno N')

/-- A call never leaves defined behaviour. -/
theorem Model.Refines.granted_ne_fault {x : Fault} :
    granted what (op.call m) ≠ .error (.fault x) := by
  rcases h.call hop with ⟨m₁, N₁, hcall, _, _⟩ | ⟨hcall, _⟩
  · rw [hcall]
    exact nofun
  · rw [hcall]
    exact nofun

end Granted

/-- A call is granted where the reader finds its result to be `OK`. -/
theorem granted_eq {R : Type} [DecidableEq R] (OK : R) (call : Checked (R × Model)) (what : Bytes) :
    (do let (r, model) ← orFault call
        if r != OK then illegalModel what else return model : Reading Model)
      = granted what (do let (r, m) ← call; return (r == OK, m)) := by
  cases call with
  | error e => rfl
  | ok r =>
      obtain ⟨r, m⟩ := r
      by_cases hr : r = OK <;> simp [granted, orFault, hr, bind, Except.bind, pure, Except.pure]

/-- The check of what `addNode` returns. -/
theorem granted_addNode (m : Model) (node : Node) (what : Bytes) :
    (do let (r, model) ← orFault (m.addNode node)
        if r != .OK then illegalModel what else return model : Reading Model)
      = granted what ((Op.addNode node).call m) :=
  granted_eq _ (m.addNode node) what

/-- The check of what `link` returns. -/
theorem granted_link (m : Model) (s a b : IdRef) (i j : SlotId) (what : Bytes) :
    (do let (r, model) ← orFault (m.link s a i b j)
        if r != .OK then illegalModel what else return model : Reading Model)
      = granted what ((Op.link s a i b j).call m) :=
  granted_eq _ (m.link s a i b j) what

/-- The check of what `addSection` returns, and what follows. -/
theorem granted_addSection (m : Model) (sec : Section) (what : Bytes)
    (next : Model → Reading Model) :
    (let (r, model) := m.addSection sec
     if r != .OK then illegalModel what else next model)
      = granted what ((Op.addSection sec).call m) >>= next := by
  rw [Op.call, granted]
  obtain ⟨r, m'⟩ := m.addSection sec
  cases r <;> rfl

/-! ### Entries -/

/-- A parser of entries.  On a model of the network `N` it returns a model when
the entry has the form `A` and the network can take the steps `reqs`, and it
leaves defined behaviour where `Faulty` says. -/
structure Parses (parse : Model → Identifier → Doc → Reading Model) (A : Bytes × Doc → Prop)
    (reqs : Bytes × Doc → List Op) (Faulty : Network → Bytes × Doc → Prop) : Prop where
  wellFormed : ∀ f, ∀ op ∈ reqs f, op.WellFormed
  ok_iff : ∀ {m N f m'}, m.Refines N →
    (parse m f.1 f.2 = .ok m' ↔ A f ∧ ∃ N', N.Runs (reqs f) N' ∧ m'.Refines N')
  fault_iff : ∀ {m N f x}, m.Refines N →
    (parse m f.1 f.2 = .error (.fault x) ↔ x = .emptyOptional ∧ Faulty N f)

variable (mj : Minijson)

/-- **A node entry is one call.** -/
theorem parseNode_eq {f : Bytes × Doc} (hf : IsNode f.2) (m : Model) :
    parseNode mj m f.1 f.2 = granted (ascii "duplicate node ID") ((nodeRequest f).call m) := by
  obtain ⟨type, htype⟩ := hf.exists_typeOf
  rw [nodeRequest, ← granted_addNode, parseNode, (reads_nodeDispatcher mj).ok f.2 hf, nodeOf, htype]
  simp only [Checked.deref_some, orFault_ok, bind, Except.bind, Option.getD_some]
  rw [show (Node.new type f.1).toHasMetadata = {} from rfl, installMetadata_empty]

/-- Its argument is well-formed. -/
theorem nodeRequest_wellFormed (f : Bytes × Doc) : (nodeRequest f).WellFormed :=
  (builds_nodeRequest f).constructed.wellFormed

/-- A value that is no node entry makes it throw. -/
theorem parseNode_thrown {f : Bytes × Doc} (hf : ¬ IsNode f.2) (m : Model) :
    ∃ e, parseNode mj m f.1 f.2 = .error (.thrown e) := by
  obtain ⟨_, hread, e, rfl⟩ := (reads_nodeDispatcher mj).refused f.2 hf
  exact ⟨e, by rw [parseNode, hread]; rfl⟩

/-- `parseNode` makes the call of a node entry. -/
theorem parses_parseNode : Parses (parseNode mj) (fun f => IsNode f.2) (fun f => [nodeRequest f])
    fun _ _ => False where
  wellFormed f op hop := List.mem_singleton.1 hop ▸ nodeRequest_wellFormed f
  ok_iff {m N f m'} hm := by
    by_cases hf : IsNode f.2
    · rw [parseNode_eq mj hf, hm.granted_eq_ok_iff (nodeRequest_wellFormed f)]
      simp [hf]
    · obtain ⟨e, he⟩ := parseNode_thrown mj hf m
      simp [he, hf]
  fault_iff {m N f x} hm := by
    simp only [and_false, iff_false]
    by_cases hf : IsNode f.2
    · rw [parseNode_eq mj hf]
      exact hm.granted_ne_fault (nodeRequest_wellFormed f)
    · obtain ⟨e, he⟩ := parseNode_thrown mj hf m
      simp [he]

/-- What `parseSection` does after `addSection`. -/
def followLink (model : Model) (sectionId : Identifier) (l : Link) : Reading Model :=
  match l.startNode with
  | none => return model
  | some startNode => do
      let startSlot ← orFault (Checked.value l.startSlot)
      let endNode ← orFault (Checked.value l.endNode)
      let endSlot ← orFault (Checked.value l.endSlot)
      granted (ascii "linkage inconsistency found")
        ((Op.link sectionId startNode startSlot endNode endSlot).call model)

/-- **A section entry is one call, and then its link.** -/
theorem parseSection_eq {f : Bytes × Doc} (hf : IsSection mj f.2) (m : Model) :
    parseSection mj m f.1 f.2 = (do
      let model ← granted (ascii "duplicate section ID or destination address")
        ((Op.addSection (sectionOf f)).call m)
      followLink model f.1 (linkOf mj f.2)) := by
  rw [← granted_addSection, parseSection, (reads_sectionDispatcher mj).ok f.2 hf]
  simp only [followLink, ← granted_link]
  simp only [bind, Except.bind]
  rw [show ∀ id dir dest, (Section.new id dir dest).toHasMetadata = {} from fun _ _ _ => rfl,
    installMetadata_empty]
  rfl

/-- A value that is no section entry makes it throw. -/
theorem parseSection_thrown {f : Bytes × Doc} (hf : ¬ IsSection mj f.2) (m : Model) :
    ∃ e, parseSection mj m f.1 f.2 = .error (.thrown e) := by
  obtain ⟨_, hread, e, rfl⟩ := (reads_sectionDispatcher mj).refused f.2 hf
  exact ⟨e, by rw [parseSection, hread]; rfl⟩

/-- Of a link that has a start node but is not whole, some optional is empty. -/
theorem followLink_broken {l : Link} (hl : ¬ l.Whole) (m : Model) (id : Identifier) :
    followLink m id l = .error (.fault .emptyOptional) := by
  obtain ⟨startNode, startSlot, endNode, endSlot⟩ := l
  cases startNode with
  | none => exact absurd (Or.inl rfl) hl
  | some a =>
      cases startSlot with
      | none => rfl
      | some i =>
          cases endNode with
          | none => rfl
          | some b =>
              cases endSlot with
              | none => rfl
              | some j => exact absurd (Or.inr ⟨a, i, b, j, rfl⟩) hl

/-- **When a link is followed**: it is not broken, and the network takes it. -/
theorem followLink_eq_ok_iff {f : Bytes × Doc} {m m' : Model} {N : Network} (h : m.Refines N) :
    followLink m f.1 (linkOf mj f.2) = .ok m' ↔
      (linkOf mj f.2).Whole ∧ ∃ N', N.Runs (linkRequest mj f) N' ∧ m'.Refines N' := by
  by_cases hwhole : (linkOf mj f.2).Whole
  · rw [and_iff_right hwhole]
    rcases hwhole with hnone | ⟨a, i, b, j, hlink⟩
    · have hreq : linkRequest mj f = [] := by
        rw [linkRequest]
        split
        · rename_i hlink
          rw [hlink] at hnone
          cases hnone
        · rfl
      have hfollow : followLink m f.1 (linkOf mj f.2) = .ok m := by
        rw [followLink, hnone]
        rfl
      rw [hfollow, hreq, Except.ok.injEq]
      constructor
      · rintro rfl
        exact ⟨N, rfl, h⟩
      · rintro ⟨_, rfl, h'⟩
        exact h.unique h'
    · have hop : (Op.link f.1 a i b j).WellFormed := trivial
      rw [AsksLink.linkRequest hlink]
      simp only [Network.runs_singleton]
      rw [← h.granted_eq_ok_iff hop, hlink]
      rfl
  · simp [followLink_broken hwhole, hwhole]

/-- **When an empty optional is used**: the link is broken. -/
theorem followLink_eq_fault_iff {f : Bytes × Doc} {m : Model} {N : Network} {x : Fault}
    (h : m.Refines N) : followLink m f.1 (linkOf mj f.2) = .error (.fault x) ↔
      x = .emptyOptional ∧ ¬ (linkOf mj f.2).Whole := by
  by_cases hwhole : (linkOf mj f.2).Whole
  · simp only [hwhole, not_true_eq_false, and_false, iff_false]
    rcases hwhole with hnone | ⟨a, i, b, j, hlink⟩
    · rw [followLink, hnone]
      exact nofun
    · have hop : (Op.link f.1 a i b j).WellFormed := trivial
      rw [hlink]
      exact h.granted_ne_fault hop
  · simp [followLink_broken hwhole, hwhole, eq_comm]

/-- `parseSection` makes the calls of a section entry, unless it adds a section
whose link is not whole. -/
theorem parses_parseSection : Parses (parseSection mj)
    (fun f => IsSection mj f.2 ∧ (linkOf mj f.2).Whole) (sectionRequests mj)
    fun N f => IsSection mj f.2 ∧ ¬ (linkOf mj f.2).Whole ∧
      ∃ N', N.Step (.addSection (sectionOf f)) N' where
  wellFormed f op hop := (builds_sectionRequests mj f op hop).constructed.wellFormed
  ok_iff {m N f m'} hm := by
    have hop : (Op.addSection (sectionOf f)).WellFormed :=
      (builds_addSection f).constructed.wellFormed
    by_cases hf : IsSection mj f.2
    · rw [parseSection_eq mj hf, Checked.bind_eq_ok_iff, and_iff_right hf]
      simp only [hm.granted_eq_ok_iff hop, sectionRequests, Network.Runs]
      constructor
      · rintro ⟨m₁, ⟨N₁, hstep, h₁⟩, hfollow⟩
        obtain ⟨hwhole, N', hruns, h'⟩ := (followLink_eq_ok_iff mj h₁).1 hfollow
        exact ⟨hwhole, N', ⟨N₁, hstep, hruns⟩, h'⟩
      · rintro ⟨hwhole, N', ⟨N₁, hstep, hruns⟩, h'⟩
        obtain ⟨m₁, _, h₁⟩ := hm.call_of_step hop hstep
        exact ⟨m₁, ⟨N₁, hstep, h₁⟩, (followLink_eq_ok_iff mj h₁).2 ⟨hwhole, N', hruns, h'⟩⟩
    · obtain ⟨e, he⟩ := parseSection_thrown mj hf m
      simp [he, hf]
  fault_iff {m N f x} hm := by
    have hop : (Op.addSection (sectionOf f)).WellFormed :=
      (builds_addSection f).constructed.wellFormed
    by_cases hf : IsSection mj f.2
    · rw [parseSection_eq mj hf, Checked.bind_eq_error_iff, and_iff_right hf,
        or_iff_right (hm.granted_ne_fault hop)]
      simp only [hm.granted_eq_ok_iff hop]
      constructor
      · rintro ⟨m₁, ⟨N₁, hstep, h₁⟩, hfollow⟩
        obtain ⟨hx, hwhole⟩ := (followLink_eq_fault_iff mj h₁).1 hfollow
        exact ⟨hx, hwhole, N₁, hstep⟩
      · rintro ⟨hx, hwhole, N₁, hstep⟩
        obtain ⟨m₁, _, h₁⟩ := hm.call_of_step hop hstep
        exact ⟨m₁, ⟨N₁, hstep, h₁⟩, (followLink_eq_fault_iff mj h₁).2 ⟨hx, hwhole⟩⟩
    · obtain ⟨e, he⟩ := parseSection_thrown mj hf m
      simp [he, hf]

end PiwcsPrw
