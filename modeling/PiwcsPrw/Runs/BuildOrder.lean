/-
# Building a model does not depend on the order of the steps

`Model::addNode`, `Model::addSection` and `Model::link` in `src/model.cpp`; the
reader in `src/io_read.cpp` relies on it.

A list of requests is `Buildable` when each is admissible among the others and
every two are compatible.  Neither mentions an order: the entities a link names
are requested somewhere, and no two requests claim the same ID, address, slot or
section.  Run from the empty network, in an order in which no link comes before
the additions it needs, the requests all succeed exactly when they are
buildable, and what they build is read off the list (`Network.Built`).

The induction is on the list from its end.  The last request meets exactly what
the requests before it have built, so it succeeds if it is admissible and
compatible with each of them (`Network.Built.step_iff`).
-/

import PiwcsPrw.Runs.Reachable

namespace PiwcsPrw

namespace Op

/-- The requests: additions of constructed values, and links. -/
def Builds : Op → Prop
  | addNode node => ∃ type id data, node = { Node.new type id with toHasMetadata := data }
  | addSection sec =>
      ∃ id dir dest data, sec = { Section.new id dir dest with toHasMetadata := data }
  | link .. => True
  | _ => False

/-- The first request is a link, and the second adds its section or one of its
nodes. -/
def Needs : Op → Op → Prop
  | link s _ _ _ _, addSection sec => sec.m_id = s
  | link _ a _ b _, addNode node => node.m_id = a ∨ node.m_id = b
  | _, _ => False

/-- What the requests `ops` have to offer for `op` to succeed. -/
def Admissible (ops : List Op) : Op → Prop
  | addNode node => isId node.m_id = true
  | addSection sec => isId sec.m_id = true
  | link s a i b j =>
      (∃ sec, addSection sec ∈ ops ∧ sec.m_id = s) ∧
        (∃ node, addNode node ∈ ops ∧ node.m_id = a ∧ i < node.sectionCount) ∧
        (∃ node, addNode node ∈ ops ∧ node.m_id = b ∧ j < node.sectionCount) ∧ a ≠ b
  | _ => False

/-- Two requests that do not claim the same ID, address, slot or section. -/
def Compatible : Op → Op → Prop
  | addNode x, addNode y => x.m_id ≠ y.m_id
  | addSection x, addSection y =>
      x.m_id ≠ y.m_id ∧ ∀ adr, x.address? = some adr → y.address? ≠ some adr
  | link s a i b j, link t c k d l =>
      s ≠ t ∧ (a, i) ≠ (c, k) ∧ (a, i) ≠ (d, l) ∧ (b, j) ≠ (c, k) ∧ (b, j) ≠ (d, l)
  | _, _ => True

/-- A request passes constructed values. -/
theorem Builds.constructed {op : Op} (h : op.Builds) : op.Constructed := by
  cases op with
  | addNode | addSection => exact h
  | link => trivial
  | removeNode | removeSection | unlink | nodeMetadata | sectionMetadata => exact h.elim

/-- Compatible requests are so in both orders. -/
theorem Compatible.symm {x y : Op} (h : x.Compatible y) : y.Compatible x := by
  cases x <;> cases y <;> try trivial
  · exact Ne.symm h
  · exact ⟨h.1.symm, fun adr hy hx => h.2 adr hx hy⟩
  · exact ⟨h.1.symm, h.2.1.symm, h.2.2.2.1.symm, h.2.2.1.symm, h.2.2.2.2.symm⟩

/-- What is admissible among some requests is so among more. -/
theorem Admissible.mono {ops ops' : List Op} (h : ops ⊆ ops') {x : Op} (hx : Admissible ops x) :
    Admissible ops' x := by
  cases x with
  | link s a i b j =>
      obtain ⟨⟨sec, hsec, hs⟩, ⟨start, hstart, ha⟩, ⟨stop, hstop, hb⟩, hab⟩ := hx
      exact ⟨⟨sec, h hsec, hs⟩, ⟨start, h hstart, ha⟩, ⟨stop, h hstop, hb⟩, hab⟩
  | addNode | addSection | removeNode | removeSection | unlink | nodeMetadata
  | sectionMetadata => exact hx

/-- A request that needs nothing of the last is admissible without it. -/
theorem Admissible.of_append {ops : List Op} {op x : Op} (h : ¬ x.Needs op)
    (hx : Admissible (ops ++ [op]) x) : Admissible ops x := by
  have hmem : ∀ {y}, y ∈ ops ++ [op] → y ≠ op → y ∈ ops := fun hy hne =>
    (List.mem_append.1 hy).resolve_right fun hlast => hne (List.mem_singleton.1 hlast)
  cases x with
  | link s a i b j =>
      obtain ⟨⟨sec, hsec, hs⟩, ⟨start, hstart, ha, hi⟩, ⟨stop, hstop, hb, hj⟩, hab⟩ := hx
      refine ⟨⟨sec, hmem hsec ?_, hs⟩, ⟨start, hmem hstart ?_, ha, hi⟩,
        ⟨stop, hmem hstop ?_, hb, hj⟩, hab⟩
      · rintro rfl
        exact h hs
      · rintro rfl
        exact h (Or.inl ha)
      · rintro rfl
        exact h (Or.inr hb)
  | addNode | addSection | removeNode | removeSection | unlink | nodeMetadata
  | sectionMetadata => exact hx

end Op

open Op

/-- The requests can be granted together. -/
structure Buildable (ops : List Op) : Prop where
  admissible : ∀ op ∈ ops, Admissible ops op
  compatible : ops.Pairwise Compatible

/-- Whether requests can be granted together does not depend on their order. -/
theorem Buildable.perm {ops ops' : List Op} (hperm : ops.Perm ops') (h : Buildable ops) :
    Buildable ops' where
  admissible op hop := by
    have hadm := h.admissible op (hperm.mem_iff.2 hop)
    cases op with
    | link s a i b j => simpa only [Admissible, hperm.mem_iff] using hadm
    | addNode | addSection | removeNode | removeSection | unlink | nodeMetadata
    | sectionMetadata => exact hadm
  compatible := (hperm.pairwise_iff Compatible.symm).1 h.compatible

/-- One more request, admissible among the earlier ones and compatible with each. -/
theorem Buildable.append {ops : List Op} {op : Op} (h : Buildable ops) (hop : Admissible ops op)
    (hcomp : ∀ x ∈ ops, x.Compatible op) : Buildable (ops ++ [op]) where
  admissible x hx := by
    refine .mono (List.subset_append_left ops [op]) ?_
    rcases List.mem_append.1 hx with hx | hx
    · exact h.admissible x hx
    · exact List.mem_singleton.1 hx ▸ hop
  compatible := by
    refine List.pairwise_append.2 ⟨h.compatible, List.pairwise_singleton .., fun x hx y hy => ?_⟩
    exact List.mem_singleton.1 hy ▸ hcomp x hx

/-- One request less, which none of the others needs. -/
theorem Buildable.of_append {ops : List Op} {op : Op} (hneeds : ∀ x ∈ ops, ¬ x.Needs op)
    (h : Buildable (ops ++ [op])) :
    Buildable ops ∧ Admissible ops op ∧ ∀ x ∈ ops, x.Compatible op := by
  have hself : ¬ op.Needs op := by cases op <;> exact fun h => h
  obtain ⟨hcomp, _, hlast⟩ := List.pairwise_append.1 h.compatible
  refine ⟨⟨fun x hx => ?_, hcomp⟩, ?_, fun x hx => hlast x hx op (List.mem_singleton_self op)⟩
  · exact .of_append (hneeds x hx) (h.admissible x (List.mem_append_left _ hx))
  · exact .of_append hself (h.admissible op (by simp))

namespace Network

/-- What the requests `ops` have built. -/
structure Built (N : Network) (ops : List Op) : Prop where
  nodes_iff : ∀ {n a}, N.nodes n = some a ↔
    ∃ node, .addNode node ∈ ops ∧ node.m_id = n ∧ a = ⟨node.m_type, node.toHasMetadata⟩
  sections_iff : ∀ {s c}, N.sections s = some c ↔
    ∃ sec, .addSection sec ∈ ops ∧ sec.m_id = s ∧ c = ⟨sec.m_dir, sec.m_dest, sec.toHasMetadata⟩
  ends_iff : ∀ {s a i b j}, N.wiring.ends s = some ((a, i), (b, j)) ↔ .link s a i b j ∈ ops

/-- The same requests build the same network. -/
theorem Built.unique {N N' : Network} {ops ops' : List Op} (h : N.Built ops) (h' : N'.Built ops')
    (hmem : ∀ op, op ∈ ops ↔ op ∈ ops') : N = N' := by
  refine Network.ext (funext fun n => Option.ext fun a => ?_)
    (funext fun s => Option.ext fun c => ?_) (funext fun s => Option.ext fun q => ?_)
  · rw [h.nodes_iff, h'.nodes_iff]
    simp only [hmem]
  · rw [h.sections_iff, h'.sections_iff]
    simp only [hmem]
  · obtain ⟨⟨a, i⟩, ⟨b, j⟩⟩ := q
    rw [h.ends_iff, h'.ends_iff, hmem]

/-- Without requests the network is empty. -/
theorem Built.empty : Network.empty.Built [] where
  nodes_iff := by simp [Network.empty]
  sections_iff := by simp [Network.empty]
  ends_iff := by simp [Network.empty, Wiring.empty]

/-- A table with one more entry. -/
theorem ite_eq_some_iff {K A : Type} [DecidableEq K] {f : K → Option A} {k n : K} {v a : A}
    (hk : f k = none) :
    (if n = k then some v else f n) = some a ↔ f n = some a ∨ k = n ∧ a = v := by
  rcases eq_or_ne n k with rfl | hne
  · simp [hk, eq_comm]
  · simp [hne, hne.symm]

/-- A request that succeeds is one more of what is built. -/
theorem Built.step {N N' : Network} {ops : List Op} {op : Op} (h : N.Built ops)
    (hop : op.Builds) (hstep : N.Step op N') : N'.Built (ops ++ [op]) := by
  have hn := fun {n a} => h.nodes_iff (n := n) (a := a)
  have hs := fun {s c} => h.sections_iff (s := s) (c := c)
  have he := fun {s a i b j} => h.ends_iff (s := s) (a := a) (i := i) (b := b) (j := j)
  cases hstep with
  | addNode hid hnew hvacant =>
      refine ⟨fun {n a} => (ite_eq_some_iff hnew).trans ?_, hs.trans ?_, he.trans ?_⟩
      · simp [hn, or_and_right, exists_or]
      · simp
      · simp
  | addSection hid hnew haddr =>
      refine ⟨hn.trans ?_, fun {s c} => (ite_eq_some_iff hnew).trans ?_, he.trans ?_⟩
      · simp
      · simp [hs, or_and_right, exists_or]
      · simp
  | link hcan =>
      refine ⟨hn.trans ?_, hs.trans ?_, fun {s a i b j} => (ite_eq_some_iff hcan.free).trans ?_⟩
      · simp
      · simp
      · simp only [he, Prod.mk.injEq, List.mem_append, List.mem_singleton, link.injEq]
        tauto
  | removeNode | removeSection | unlink | nodeMetadata | sectionMetadata => exact hop.elim

/-! What the next request finds, in terms of the requests before it. -/

section Finds

variable {N : Network} {ops : List Op} (h : N.Built ops)

include h

/-- No node where none was requested. -/
theorem Built.nodes_none_iff {n : Identifier} :
    N.nodes n = none ↔ ∀ node, .addNode node ∈ ops → node.m_id ≠ n := by
  rw [Option.eq_none_iff_forall_ne_some]
  constructor
  · rintro hnone node hmem rfl
    exact hnone _ (h.nodes_iff.2 ⟨node, hmem, rfl, rfl⟩)
  · rintro hall a ha
    obtain ⟨node, hmem, hid, _⟩ := h.nodes_iff.1 ha
    exact hall node hmem hid

/-- No section where none was requested. -/
theorem Built.sections_none_iff {s : Identifier} :
    N.sections s = none ↔ ∀ sec, .addSection sec ∈ ops → sec.m_id ≠ s := by
  rw [Option.eq_none_iff_forall_ne_some]
  constructor
  · rintro hnone sec hmem rfl
    exact hnone _ (h.sections_iff.2 ⟨sec, hmem, rfl, rfl⟩)
  · rintro hall c hc
    obtain ⟨sec, hmem, hid, _⟩ := h.sections_iff.1 hc
    exact hall sec hmem hid

/-- No ends for a section whose link was not requested. -/
theorem Built.ends_none_iff {s : Identifier} :
    N.wiring.ends s = none ↔ ∀ t c k d l, .link t c k d l ∈ ops → t ≠ s := by
  rw [Option.eq_none_iff_forall_ne_some]
  constructor
  · rintro hnone t c k d l hmem rfl
    exact hnone _ (h.ends_iff.2 hmem)
  · rintro hall ⟨⟨c, k⟩, ⟨d, l⟩⟩ hq
    exact hall s c k d l (h.ends_iff.1 hq) rfl

/-- Nothing plugged in where no link was requested. -/
theorem Built.plug_none_iff {p : Port} : N.wiring.plug p = none ↔
    ∀ t c k d l, .link t c k d l ∈ ops → p ≠ (c, k) ∧ p ≠ (d, l) := by
  rw [Option.eq_none_iff_forall_ne_some]
  constructor
  · intro hnone t c k d l hmem
    have hq := h.ends_iff.2 hmem
    exact ⟨fun hp => hnone t (hp ▸ Wiring.plug_fst hq), fun hp => hnone t (hp ▸ Wiring.plug_snd hq)⟩
  · rintro hall t ht
    obtain ⟨⟨⟨c, k⟩, ⟨d, l⟩⟩, hq, hp⟩ := (N.wiring.plug_iff p t).1 ht
    obtain ⟨hfst, hsnd⟩ := hall t c k d l (h.ends_iff.1 hq)
    exact hp.elim hfst hsnd

/-- A port is a slot of a node that was requested. -/
theorem Built.hasPort_iff {a : Identifier} {i : SlotId} : N.HasPort (a, i) ↔
    ∃ node, .addNode node ∈ ops ∧ node.m_id = a ∧ i < node.sectionCount := by
  constructor
  · rintro ⟨c, hc, hi⟩
    obtain ⟨node, hmem, hid, rfl⟩ := h.nodes_iff.1 hc
    exact ⟨node, hmem, hid, hi⟩
  · rintro ⟨node, hmem, hid, hi⟩
    exact ⟨_, h.nodes_iff.2 ⟨node, hmem, hid, rfl⟩, hi⟩

/-- A section is known when it was requested. -/
theorem Built.known_iff {s : Identifier} : (∃ c, N.sections s = some c) ↔
    ∃ sec, .addSection sec ∈ ops ∧ sec.m_id = s := by
  constructor
  · rintro ⟨c, hc⟩
    obtain ⟨sec, hmem, hid, _⟩ := h.sections_iff.1 hc
    exact ⟨sec, hmem, hid⟩
  · rintro ⟨sec, hmem, hid⟩
    exact ⟨_, h.sections_iff.2 ⟨sec, hmem, hid, rfl⟩⟩

end Finds

/-- **The next request succeeds when it is admissible among the earlier ones and
compatible with each.** -/
theorem Built.step_iff {N : Network} {ops : List Op} {op : Op} (h : N.Built ops)
    (hop : op.Builds) : (∃ N', N.Step op N') ↔ Admissible ops op ∧ ∀ x ∈ ops, x.Compatible op := by
  cases op with
  | addNode node =>
      constructor
      · rintro ⟨N', hstep⟩
        cases hstep with
        | addNode hid hnew _ =>
            refine ⟨hid, fun x hx => ?_⟩
            cases x with
            | addNode other => exact h.nodes_none_iff.1 hnew other hx
            | _ => trivial
      · rintro ⟨hid, hcomp⟩
        have hnew : N.nodes node.m_id = none :=
          h.nodes_none_iff.2 fun other hmem => hcomp _ hmem
        obtain ⟨type, id, data, rfl⟩ := hop
        exact ⟨_, .addNode hid hnew fun k _ => congrArg isId (Node.slotAt_new type id k)⟩
  | addSection sec =>
      constructor
      · rintro ⟨N', hstep⟩
        cases hstep with
        | addSection hid hnew haddr =>
            refine ⟨hid, fun x hx => ?_⟩
            cases x with
            | addSection other =>
                refine ⟨h.sections_none_iff.1 hnew other hx, fun adr hother hsec => ?_⟩
                exact haddr _ _ adr (h.sections_iff.2 ⟨other, hx, rfl, rfl⟩) hsec hother
            | _ => trivial
      · rintro ⟨hid, hcomp⟩
        have hnew : N.sections sec.m_id = none :=
          h.sections_none_iff.2 fun other hmem => (hcomp _ hmem).1
        refine ⟨_, .addSection hid hnew fun t c adr hc hsec hother => ?_⟩
        obtain ⟨other, hmem, _, rfl⟩ := h.sections_iff.1 hc
        exact (hcomp _ hmem).2 adr hother hsec
  | link s a i b j =>
      constructor
      · rintro ⟨N', hstep⟩
        cases hstep with
        | link hcan =>
            refine ⟨⟨h.known_iff.1 hcan.known, h.hasPort_iff.1 hcan.fst, h.hasPort_iff.1 hcan.snd,
              hcan.apart⟩, fun x hx => ?_⟩
            cases x with
            | link t c k d l =>
                obtain ⟨h₁, h₂⟩ := h.plug_none_iff.1 hcan.free_fst t c k d l hx
                obtain ⟨h₃, h₄⟩ := h.plug_none_iff.1 hcan.free_snd t c k d l hx
                exact ⟨h.ends_none_iff.1 hcan.free t c k d l hx, h₁.symm, h₃.symm, h₂.symm, h₄.symm⟩
            | _ => trivial
      · rintro ⟨⟨hknown, hfst, hsnd, hapart⟩, hcomp⟩
        refine ⟨_, .link ⟨h.known_iff.2 hknown, h.hasPort_iff.2 hfst, h.hasPort_iff.2 hsnd, hapart,
          h.plug_none_iff.2 fun t c k d l hmem => ?_, h.plug_none_iff.2 fun t c k d l hmem => ?_,
          h.ends_none_iff.2 fun t c k d l hmem => (hcomp _ hmem).1⟩⟩
        · obtain ⟨_, h₁, _, h₃, _⟩ := hcomp _ hmem
          exact ⟨h₁.symm, h₃.symm⟩
        · obtain ⟨_, _, h₂, _, h₄⟩ := hcomp _ hmem
          exact ⟨h₂.symm, h₄.symm⟩
  | removeNode | removeSection | unlink | nodeMetadata | sectionMetadata => exact hop.elim

/-- Requests that succeed one after the other have built what they say, and can
be granted together. -/
theorem Runs.built {ops : List Op} (hops : ∀ op ∈ ops, op.Builds) {N : Network}
    (h : Network.empty.Runs ops N) : N.Built ops ∧ Buildable ops := by
  induction ops using List.reverseRecOn generalizing N with
  | nil =>
      rw [Runs] at h
      exact ⟨h ▸ .empty, by simp, .nil⟩
  | append_singleton ops op ih =>
      obtain ⟨N₁, hruns, N₂, hstep, rfl⟩ := runs_append.1 h
      obtain ⟨hbuilt, hbuildable⟩ := ih (fun x hx => hops x (List.mem_append_left _ hx)) hruns
      have hop := hops op (by simp)
      obtain ⟨hadm, hcomp⟩ := (hbuilt.step_iff hop).1 ⟨_, hstep⟩
      exact ⟨hbuilt.step hop hstep, hbuildable.append hadm hcomp⟩

/-- **Requests that can be granted together all succeed**, in an order that
respects their needs. -/
theorem exists_runs {ops : List Op} (hops : ∀ op ∈ ops, op.Builds)
    (hneeds : ops.Pairwise fun x y => ¬ x.Needs y) (h : Buildable ops) :
    ∃ N, Network.empty.Runs ops N := by
  induction ops using List.reverseRecOn with
  | nil => exact ⟨_, rfl⟩
  | append_singleton ops op ih =>
      have hops' : ∀ x ∈ ops, x.Builds := fun x hx => hops x (List.mem_append_left _ hx)
      obtain ⟨hneeds, _, hlast⟩ := List.pairwise_append.1 hneeds
      obtain ⟨hbuildable, hnext⟩ := h.of_append fun x hx =>
        hlast x hx op (List.mem_singleton_self op)
      obtain ⟨N, hruns⟩ := ih hops' hneeds hbuildable
      obtain ⟨N', hstep⟩ := ((Runs.built hops' hruns).1.step_iff (hops op (by simp))).2 hnext
      exact ⟨N', runs_append.2 ⟨N, hruns, N', hstep, rfl⟩⟩

end Network

/-- **Building a model does not depend on the order of the steps.** -/
theorem runAll_eq_of_perm {ops ops' : List Op} (hperm : ops.Perm ops')
    (hops : ∀ op ∈ ops, op.Builds) (hneeds : ops.Pairwise fun x y => ¬ x.Needs y)
    (hneeds' : ops'.Pairwise fun x y => ¬ x.Needs y) :
    ∃ oks m m', Op.runAll ops .empty = .ok (oks, m) ∧ Op.runAll ops' .empty = .ok (oks, m') ∧
      (oks = true → m = m') := by
  have hops' : ∀ op ∈ ops', op.Builds := fun op hop => hops op (hperm.mem_iff.2 hop)
  obtain ⟨oks, m, hrun, hiff, hm⟩ :=
    Model.Refines.empty.runAll fun op hop => (hops op hop).constructed.wellFormed
  obtain ⟨oks', m', hrun', hiff', hm'⟩ :=
    Model.Refines.empty.runAll fun op hop => (hops' op hop).constructed.wellFormed
  have hruns_iff : (∃ N, Network.empty.Runs ops N) ↔ Buildable ops :=
    ⟨fun ⟨_, h⟩ => (h.built hops).2, Network.exists_runs hops hneeds⟩
  have hruns_iff' : (∃ N, Network.empty.Runs ops' N) ↔ Buildable ops' :=
    ⟨fun ⟨_, h⟩ => (h.built hops').2, Network.exists_runs hops' hneeds'⟩
  have hoks : oks = oks' := by
    rw [Bool.eq_iff_iff, hiff, hiff', hruns_iff, hruns_iff']
    exact ⟨.perm hperm, .perm hperm.symm⟩
  refine ⟨oks, m, m', hrun, hoks ▸ hrun', fun htrue => ?_⟩
  obtain ⟨N, hruns⟩ := hiff.1 htrue
  obtain ⟨N', hruns'⟩ := hiff'.1 (hoks ▸ htrue)
  have hN : N = N' :=
    (hruns.built hops).1.unique (hruns'.built hops').1 fun op => hperm.mem_iff
  exact (hm N hruns).unique (hN ▸ hm' N' hruns')

/-- The small example, its section added first. -/
theorem smallExample_runAll_eq : ∃ oks m m', Op.runAll smallExampleCalls .empty = .ok (oks, m) ∧
    Op.runAll [.addSection (.ofId (ascii "S400")), .addNode (.new .THRU (ascii "T1034")),
      .addNode (.new .MOTORIZED (ascii "M145")),
      .link (ascii "S400") (ascii "M145") 2 (ascii "T1034") 0] .empty = .ok (oks, m') ∧
    (oks = true → m = m') := by
  refine runAll_eq_of_perm (by decide) (fun op hop => ?_) ?_ ?_
  · simp only [smallExampleCalls, List.mem_cons, List.not_mem_nil, or_false] at hop
    rcases hop with rfl | rfl | rfl | rfl
    · exact ⟨_, _, {}, rfl⟩
    · exact ⟨_, _, {}, rfl⟩
    · exact ⟨_, _, _, {}, rfl⟩
    · trivial
  · simp [smallExampleCalls, Op.Needs]
  · simp [Op.Needs]

end PiwcsPrw
