/-
# Journeys through a model

`include/piwcsprwmodel.h` (Allowed Travel and Correctness), `src/section.cpp`,
`src/nodes.cpp` and the mutators of `src/model.cpp`.

In a reachable model the answers `Model.advance` puts together fit: whatever train it
is asked about it leaves no array and fails no assertion, the section it leads to is
another one, and the journeys are those on the rails of the network the model stands
for (`Reachable.travels`).

A journey can be made back exactly when all its sections are bidirectional and every
node it passes lets trains through both ways (`Reachable.journey_back`).  An endless
journey comes back to each of its trains unless it passes a passive switch, and ends
in a loop unless it passes a motorized one (`Reachable.endless`).  And a journey stays
a journey while the model is edited, as long as none of its sections is unlinked
(`Reachable.journey_kept`): what it rests on cannot be removed or replaced.
-/

import PiwcsPrw.Algorithms.Completeness
import PiwcsPrw.Network.Travel

namespace PiwcsPrw

namespace Model.Refines

variable {m : Model} {N : Network} {t t' : Train}

/-- The node between a train and the next one. -/
theorem exists_between (h : m.Refines N) (hnext : N.rails.Next t t') :
    ∃ p out a, N.wiring.arr t = some p ∧ N.wiring.dep t' = some (p.1, out) ∧
      N.nodes p.1 = some a ∧ a.type.routes p.2 out = true ∧
      m.ahead t = some (N.toNode p.1 a) := by
  obtain ⟨p, ⟨n, out⟩, hp, hq, hnode, a, ha, hroute⟩ := hnext.through
  obtain rfl : p.1 = n := hnode
  obtain ⟨a', ha', hahead, _⟩ := h.exists_ahead hp
  obtain rfl := Option.some.inj (ha.symm.trans ha')
  exact ⟨p, out, a, hp, hq, ha, hroute, hahead⟩

/-- A train on track may turn round on its section when the section is bidirectional. -/
theorem onTrack_flip_iff (h : m.Refines N) (ht : N.rails.OnTrack t) :
    N.rails.OnTrack t.flip ↔ ∃ sec, m.section t.cable = some sec ∧ sec.isBidir = true := by
  obtain ⟨⟨c, hc, hallows⟩, hends⟩ := ht
  have hsec := h.section_of_attrs hc
  have hflip : N.rails.OnTrack t.flip ↔ c.dir.allows t.flip.reversed = true := by
    constructor
    · rintro ⟨⟨c', hc', hallows'⟩, _⟩
      obtain rfl := Option.some.inj (hc.symm.trans hc')
      exact hallows'
    · exact fun hallows' => ⟨⟨c, hc, hallows'⟩, hends⟩
  have hbidir : (∃ sec, m.section t.cable = some sec ∧ sec.isBidir = true) ↔ c.dir = .BIDIR := by
    simp [hsec, Section.isBidir, Network.toSection]
  rw [hflip, hbidir]
  exact AllowedTravel.allows_not hallows

/-- A node is passed back exactly when its type lets trains through both ways. -/
theorem through_back_iff (h : m.Refines N) (hnext : N.rails.Next t t') :
    (∀ p q, N.wiring.arr t = some p → N.wiring.dep t' = some q → N.rails.through q p) ↔
      ∃ node, m.ahead t = some node ∧ node.m_type.bothWays = true := by
  obtain ⟨p, out, a, hp, hq, ha, hroute, hahead⟩ := h.exists_between hnext
  have hback : N.rails.through (p.1, out) p ↔ a.type.routes out p.2 = true := by
    simp [Network.rails, ha]
  have hnode : (∃ node, m.ahead t = some node ∧ node.m_type.bothWays = true) ↔
      a.type.bothWays = true := by simp [hahead]
  rw [hnode, ← NodeType.routes_back hroute, ← hback]
  constructor
  · exact fun hall => hall p _ hp hq
  · intro hthrough p' q' hp' hq'
    obtain rfl := Option.some.inj (hp.symm.trans hp')
    obtain rfl := Option.some.inj (hq.symm.trans hq')
    exact hthrough

/-- Behind a node that is not a passive switch there is one train. -/
theorem next_left_unique (h : m.Refines N) {t₁ t₂ : Train} (h₁ : N.rails.Next t₁ t)
    (h₂ : N.rails.Next t₂ t) (htype : ∀ node, m.ahead t₁ = some node → node.m_type ≠ .PASSIVE) :
    t₁ = t₂ := by
  obtain ⟨p, out, a, _, hq, ha, _, hahead⟩ := h.exists_between h₁
  refine h₁.left_unique h₂ fun p₁ p₂ q hdep hthrough₁ hthrough₂ => ?_
  obtain rfl : (p.1, out) = q := Option.some.inj (hq.symm.trans hdep)
  obtain ⟨hnode₁, a₁, ha₁, hroute₁⟩ := hthrough₁
  obtain ⟨hnode₂, a₂, ha₂, hroute₂⟩ := hthrough₂
  rw [hnode₁, ha, Option.some.injEq] at ha₁
  rw [hnode₂, ha, Option.some.injEq] at ha₂
  subst ha₁ ha₂
  exact Prod.ext (hnode₁.trans hnode₂.symm)
    (NodeType.routes_unique_src (htype _ hahead) hroute₁ hroute₂)

/-- Beyond a node that is not a motorized switch there is one train. -/
theorem next_right_unique (h : m.Refines N) {t₁ t₂ : Train} (h₁ : N.rails.Next t t₁)
    (h₂ : N.rails.Next t t₂) (htype : ∀ node, m.ahead t = some node → node.m_type ≠ .MOTORIZED) :
    t₁ = t₂ := by
  obtain ⟨p, out, a, hp, _, ha, _, hahead⟩ := h.exists_between h₁
  refine h₁.right_unique h₂ fun p' q₁ q₂ harr hthrough₁ hthrough₂ => ?_
  obtain rfl : p = p' := Option.some.inj (hp.symm.trans harr)
  obtain ⟨hnode₁, a₁, ha₁, hroute₁⟩ := hthrough₁
  obtain ⟨hnode₂, a₂, ha₂, hroute₂⟩ := hthrough₂
  rw [ha, Option.some.injEq] at ha₁ ha₂
  subst ha₁ ha₂
  exact Prod.ext (hnode₁.symm.trans hnode₂)
    (NodeType.routes_unique_dst (htype _ hahead) hroute₁ hroute₂)

end Model.Refines

/-! ### Through a run of calls -/

/-- **Through a run of calls**, refused or not. -/
theorem Model.Refines.runAll_keepsTrack {ops : List Op} (hops : ∀ op ∈ ops, op.WellFormed)
    {m m' : Model} {N : Network} (h : m.Refines N) {oks : Bool}
    (hrun : Op.runAll ops m = .ok (oks, m')) :
    ∃ N', m'.Refines N' ∧ ∀ s, Op.unlink s ∉ ops → N.KeepsTrack N' s := by
  induction ops generalizing m N oks with
  | nil =>
      rw [Op.runAll, pure, Except.instMonad] at hrun
      obtain ⟨_, rfl⟩ := Prod.mk.inj (Except.ok.inj hrun)
      exact ⟨N, h, fun s _ => .refl N s⟩
  | cons op ops ih =>
      obtain ⟨ok, m₁, oks₁, hcall, hrest⟩ := Op.exists_call_of_runAll hrun
      have hstep : ∃ N₁, m₁.Refines N₁ ∧ ∀ s, op ≠ .unlink s → N.KeepsTrack N₁ s := by
        rcases h.call (hops op (List.mem_cons_self ..)) with ⟨m₃, N₁, hcall', hstep, h₁⟩ |
          ⟨hcall', _⟩
        · rw [hcall', Except.ok.injEq, Prod.mk.injEq] at hcall
          exact ⟨N₁, hcall.2 ▸ h₁, fun s => hstep.keepsTrack⟩
        · rw [hcall', Except.ok.injEq, Prod.mk.injEq] at hcall
          exact ⟨N, hcall.2 ▸ h, fun s _ => .refl N s⟩
      obtain ⟨N₁, h₁, hkeep₁⟩ := hstep
      obtain ⟨N', h', hkeep⟩ := ih (fun op hmem => hops op (List.mem_cons_of_mem _ hmem)) h₁ hrest
      refine ⟨N', h', fun s hs => ?_⟩
      rw [List.mem_cons, not_or] at hs
      exact (hkeep₁ s (Ne.symm hs.1)).trans (hkeep s hs.2)

/-! ### A ring -/

/-- The calls that make a ring of two sections. -/
def ringCalls : List Op :=
  [.addNode (.new .THRU (ascii "T1")), .addNode (.new .THRU (ascii "T2")),
    .addSection (.new (ascii "S1") .BIDIR none), .addSection (.new (ascii "S2") .BIDIR none),
    .link (ascii "S1") (ascii "T1") 1 (ascii "T2") 0,
    .link (ascii "S2") (ascii "T2") 1 (ascii "T1") 0]

/-- A ring of two sections. -/
def ring : Model where
  m_nodes := (Finmap.insert (ascii "T2")
      { Node.new .THRU (ascii "T2") with m_slots := #v[ascii "S1", ascii "S2", [], []] } ∅).insert
    (ascii "T1") { Node.new .THRU (ascii "T1") with m_slots := #v[ascii "S2", ascii "S1", [], []] }
  m_sections := (Finmap.insert (ascii "S1") { Section.new (ascii "S1") .BIDIR none with
      m_start := ascii "T1", m_end := ascii "T2" } ∅).insert
    (ascii "S2") { Section.new (ascii "S2") .BIDIR none with
      m_start := ascii "T2", m_end := ascii "T1" }

/-- Its calls all return `OK`. -/
theorem reachable_ring : Reachable ring := by
  have hrun : Op.runAll ringCalls .empty = .ok (true, ring) := by decide
  refine .runAll (fun op hop => ?_) .empty hrun
  simp only [ringCalls, List.mem_cons, List.not_mem_nil, or_false] at hop
  rcases hop with rfl | rfl | rfl | rfl | rfl | rfl
  · exact ⟨_, _, {}, rfl⟩
  · exact ⟨_, _, {}, rfl⟩
  · exact ⟨_, _, _, {}, rfl⟩
  · exact ⟨_, _, _, {}, rfl⟩
  · trivial
  · trivial

/-- From the one section the ring leads to the other, by slot `1` of the node ahead. -/
theorem ring_advance : ring.advance ⟨ascii "S1", false⟩ 1 = pure (some ⟨ascii "S2", false⟩) ∧
    ring.advance ⟨ascii "S2", false⟩ 1 = pure (some ⟨ascii "S1", false⟩) :=
  ⟨rfl, rfl⟩

/-- Trains may go round it both ways. -/
theorem ring_onTrack (reversed : Bool) : ring.OnTrack ⟨ascii "S1", reversed⟩ ∧
    ring.OnTrack ⟨ascii "S2", reversed⟩ := by
  cases reversed <;> exact ⟨⟨_, rfl, rfl, rfl⟩, ⟨_, rfl, rfl, rfl⟩⟩

/-- Half way round. -/
theorem ring_journey : ring.Journey [⟨ascii "S1", false⟩, ⟨ascii "S2", false⟩] where
  onTrack := by simpa using ring_onTrack false
  chain := by simpa using ⟨1, ring_advance.1⟩

/-- Round and round. -/
def roundRing (n : ℕ) : Train := ⟨if n % 2 = 0 then ascii "S1" else ascii "S2", false⟩

/-! ### The results -/

/-- What the answers of a model about the network `N` amount to. -/
structure Model.Travels (m : Model) (N : Network) : Prop where
  onTrack_iff : ∀ t, m.OnTrack t ↔ ∃ sec, m.section t.cable = some sec ∧ sec.isConnected = true ∧
    (if t.reversed then sec.isBidir else sec.allowsTravel) = true
  advance_eq : ∀ t out, ∃ r, m.advance t out = pure r ∧ ∀ t', r = some t' ↔ N.Leads t out t'
  section_ne : ∀ t out t', m.advance t out = pure (some t') → t'.cable ≠ t.cable
  slot_unique : ∀ t out out' t', m.advance t out = pure (some t') →
    m.advance t out' = pure (some t') → out = out'
  journey_iff : ∀ ts, m.Journey ts ↔ N.rails.Journey ts

/-- **The answers of a model are those of its network.** -/
theorem Reachable.travels {m : Model} (h : Reachable m) : ∃ N, m.Refines N ∧ m.Travels N := by
  obtain ⟨N, hN⟩ := h.refines
  refine ⟨N, hN, ⟨fun t => ?_, hN.exists_advance_eq, fun t out t' hway => ?_,
    fun t out out' t' hway hway' => ?_, fun ts => hN.journey_iff⟩⟩
  · simp only [Model.OnTrack, Section.canTraverse_eq, Asserting.pure_inj]
  · exact (hN.advance_eq_some_iff.1 hway).cable_ne
  · exact (hN.advance_eq_some_iff.1 hway).slot_unique (hN.advance_eq_some_iff.1 hway')

/-- So are those of the ring. -/
theorem ring_travels : ∃ N, ring.Refines N ∧ ring.Travels N := Reachable.travels reachable_ring

/-- **The way back.**  A journey can be made back exactly when all its sections are
bidirectional and all nodes between them let trains through both ways. -/
theorem Reachable.journey_back {m : Model} (h : Reachable m) {ts : List Train}
    (hj : m.Journey ts) : m.Journey (ts.reverse.map Leg.flip) ↔
      (∀ t ∈ ts, ∃ sec, m.section t.cable = some sec ∧ sec.isBidir = true) ∧
        ∀ t ∈ ts.dropLast, ∃ node, m.ahead t = some node ∧ node.m_type.bothWays = true := by
  obtain ⟨N, hN⟩ := h.refines
  have hrails := hN.journey_iff.1 hj
  have hflip : (∀ t ∈ ts, N.rails.OnTrack t.flip) ↔
      ∀ t ∈ ts, ∃ sec, m.section t.cable = some sec ∧ sec.isBidir = true :=
    forall₂_congr fun t ht => hN.onTrack_flip_iff (hrails.onTrack t ht)
  rw [hN.journey_iff, hrails.flip_iff fun t t' => hN.through_back_iff, hflip]

/-- The way round the ring can be made back. -/
theorem ring_journey_back : ring.Journey [⟨ascii "S2", true⟩, ⟨ascii "S1", true⟩] := by
  refine (Reachable.journey_back reachable_ring ring_journey).2 ⟨fun t ht => ?_, fun t ht => ?_⟩
  · simp only [List.mem_cons, List.not_mem_nil, or_false] at ht
    rcases ht with rfl | rfl <;> exact ⟨_, rfl, rfl⟩
  · obtain rfl : t = ⟨ascii "S1", false⟩ := by simpa using ht
    exact ⟨_, rfl, rfl⟩

/-- **Endless journeys.**  A journey that never ends comes back to each of its trains if
it never comes to a passive switch, and ends in a loop if it never comes to a
motorized one. -/
theorem Reachable.endless {m : Model} (h : Reachable m) {f : ℕ → Train} (hstart : m.OnTrack (f 0))
    (hf : ∀ n, ∃ out, m.advance (f n) out = pure (some (f (n + 1)))) :
    ((∀ n node, m.ahead (f n) = some node → node.m_type ≠ .PASSIVE) →
        ∀ k, ∃ n, k < n ∧ f n = f k) ∧
      ((∀ n node, m.ahead (f n) = some node → node.m_type ≠ .MOTORIZED) →
        ∃ i n, 0 < n ∧ ∀ k, i ≤ k → f (k + n) = f k) := by
  obtain ⟨N, hN⟩ := h.refines
  have hon : ∀ n, N.rails.OnTrack (f n) := by
    intro n
    induction n with
    | zero => exact hN.onTrack_iff.1 hstart
    | succ n ih => exact ((hN.exists_advance_iff ih).1 (hf n)).onTrack_right
  have hnext : ∀ n, N.rails.Next (f n) (f (n + 1)) := fun n =>
    (hN.exists_advance_iff (hon n)).1 (hf n)
  have hfin : {s | N.rails.wiring.ends s ≠ none}.Finite :=
    m.connected.finite_toSet.subset fun s hs => hN.mem_connected.2 hs
  constructor
  · intro hpassive
    refine Rails.recurs hon hfin fun i j heq => ?_
    have hj := hnext j
    rw [← heq] at hj
    exact hN.next_left_unique (hnext i) hj (hpassive i)
  · intro hmotorized
    refine Rails.loops hon hfin fun i j heq => ?_
    have hj := hnext j
    rw [← heq] at hj
    exact hN.next_right_unique (hnext i) hj (hmotorized i)

/-- The journey round the ring comes back to each of its trains, and is a loop. -/
theorem ring_endless : (∀ k, ∃ n, k < n ∧ roundRing n = roundRing k) ∧
    ∃ i n, 0 < n ∧ ∀ k, i ≤ k → roundRing (k + n) = roundRing k := by
  have hnext : ∀ n, ∃ out, ring.advance (roundRing n) out = pure (some (roundRing (n + 1))) := by
    intro n
    rcases Nat.mod_two_eq_zero_or_one n with hn | hn
    · have hn' : (n + 1) % 2 ≠ 0 := by omega
      exact ⟨1, by rw [roundRing, roundRing, if_pos hn, if_neg hn', ring_advance.1]⟩
    · have hn' : (n + 1) % 2 = 0 := by omega
      exact ⟨1, by rw [roundRing, roundRing, if_neg (by omega), if_pos hn', ring_advance.2]⟩
  have hthru : ∀ n node, ring.ahead (roundRing n) = some node → node.m_type = .THRU := by
    intro n node hnode
    rcases Nat.mod_two_eq_zero_or_one n with hn | hn
    · rw [roundRing, if_pos hn] at hnode
      cases hnode
      rfl
    · rw [roundRing, if_neg (by omega)] at hnode
      cases hnode
      rfl
  have hendless := Reachable.endless reachable_ring (ring_onTrack false).1 hnext
  exact ⟨hendless.1 fun n node hnode => by rw [hthru n node hnode]; decide,
    hendless.2 fun n node hnode => by rw [hthru n node hnode]; decide⟩

/-- **Journeys last.**  A journey stays one through any run of calls that unlinks none of
its sections. -/
theorem Reachable.journey_kept {m m' : Model} (h : Reachable m) {ops : List Op}
    (hops : ∀ op ∈ ops, op.Constructed) {oks : Bool} (hrun : Op.runAll ops m = .ok (oks, m'))
    {ts : List Train} (hj : m.Journey ts) (hkeep : ∀ t ∈ ts, Op.unlink t.cable ∉ ops) :
    m'.Journey ts := by
  obtain ⟨N, hN⟩ := h.refines
  obtain ⟨N', hN', hkept⟩ := hN.runAll_keepsTrack (fun op hop => (hops op hop).wellFormed) hrun
  rw [hN'.journey_iff]
  refine (hN.journey_iff.1 hj).mono (fun t ht => (hkept _ (hkeep t ht)).onTrack) ?_
  exact fun t ht t' ht' => (hkept _ (hkeep t ht)).next (hkept _ (hkeep t' ht'))

/-- A removal that is refused, an addition, and the unlinking of another section. -/
def ringEdits : List Op :=
  [.removeNode (ascii "T2"), .addNode (.new .END (ascii "T3")), .unlink (ascii "S3")]

/-- The journey round the ring is still one after them. -/
theorem ring_journey_kept : ∃ m', Op.runAll ringEdits ring = .ok (false, m') ∧
    m'.Journey [⟨ascii "S1", false⟩, ⟨ascii "S2", false⟩] := by
  have hops : ∀ op ∈ ringEdits, op.Constructed := by
    simp only [ringEdits, List.forall_mem_cons]
    exact ⟨trivial, ⟨_, _, {}, rfl⟩, trivial, by simp⟩
  have hrun : ∃ m', Op.runAll ringEdits ring = .ok (false, m') := ⟨_, rfl⟩
  obtain ⟨m', hrun⟩ := hrun
  refine ⟨m', hrun, Reachable.journey_kept reachable_ring hops hrun ring_journey ?_⟩
  simp only [List.forall_mem_cons]
  exact ⟨by decide, by decide, by simp⟩

end PiwcsPrw
