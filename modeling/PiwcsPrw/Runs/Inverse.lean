/-
# `link` and `unlink` undo each other

`Model::link` and `Model::unlink` in `src/model.cpp`, the test `Model.Unlink` in
`test/model.cpp`.

`unlink` is told a section and nothing about slots: it searches both nodes and
clears the first slot that matches.  That it clears the slots `link` wrote is
the uniqueness the network carries (`Model.Refines.unlink`), and that nothing
else is left over is `Wiring.disconnect_connect`.  Since a network has one
model, equal networks give back the very same model.
-/

import PiwcsPrw.Runs.Consistent

namespace PiwcsPrw

namespace Network

/-- Disconnecting a section just connected gives back the network. -/
theorem unlink_link (N : Network) {s : Identifier} {q : Port × Port} (h : N.CanLink s q) :
    (N.link s q h).unlink s = N := by
  refine ext rfl rfl ?_
  exact congrArg Wiring.ends (N.wiring.disconnect_connect s q h.ne h.free_fst h.free_snd h.free)

/-- A section just disconnected can be connected again where it was. -/
theorem canLink_unlink (N : Network) {s : Identifier} {q : Port × Port}
    (h : N.wiring.ends s = some q) : (N.unlink s).CanLink s q where
  known := N.cable_exists h
  fst := (N.hasPort_of_ends h).1
  snd := (N.hasPort_of_ends h).2
  apart := N.ends_apart h
  free_fst := (Wiring.plug_disconnect h).1
  free_snd := (Wiring.plug_disconnect h).2
  free := if_pos rfl

/-- Connecting it there gives back the network. -/
theorem link_unlink (N : Network) {s : Identifier} {q : Port × Port}
    (h : N.wiring.ends s = some q) : (N.unlink s).link s q (N.canLink_unlink h) = N := by
  refine ext rfl rfl ?_
  exact congrArg Wiring.ends (N.wiring.connect_disconnect h)

end Network

namespace Model.Refines

variable {m m' : Model} {N : Network} {s a b : IdRef} {i j : SlotId}

/-- `unlink` after a successful `link`. -/
theorem unlink_link (h : m.Refines N) (hlink : m.link s a i b j = .ok (.OK, m')) :
    m'.unlink s = .ok (.OK, m) := by
  have hcan : N.CanLink s ((a, i), (b, j)) := by
    by_contra hno
    obtain ⟨r, hr, hlink'⟩ := h.link_refused hno
    rw [hlink, Except.ok.injEq, Prod.mk.injEq] at hlink'
    exact hr hlink'.1.symm
  obtain ⟨m₁, hlink₁, h₁⟩ := h.link hcan
  obtain rfl : m' = m₁ := by
    rw [hlink, Except.ok.injEq, Prod.mk.injEq] at hlink₁
    exact hlink₁.2
  obtain ⟨m₂, hunlink, h₂⟩ := h₁.unlinked (q := ((a, i), (b, j))) (if_pos rfl)
  rw [N.unlink_link hcan] at h₂
  rw [hunlink, h₂.unique h]

/-- `link` after `unlink`, at the slots the section was found in. -/
theorem link_unlink (h : m.Refines N) {sec : Section} (hsec : m.section s = some sec)
    (hstart : m.Holds (sec.m_start, i) s) (hstop : m.Holds (sec.m_end, j) s) :
    ∃ m', m.unlink s = .ok (.OK, m') ∧ m'.link s sec.m_start i sec.m_end j = .ok (.OK, m) := by
  obtain ⟨c, hc, rfl⟩ := h.section_some hsec
  have hs := ne_null_of_isId (N.isId_section hc)
  rw [h.holds_iff_plug hs] at hstart hstop
  obtain ⟨q, hq, _⟩ := (N.wiring.plug_iff _ s).1 hstart
  -- The ends of the section and the slots it was found in are those of its cable.
  have hqa : (N.toSection s c).m_start = q.1.1 := by simp [Network.toSection, hq]
  have hqb : (N.toSection s c).m_end = q.2.1 := by simp [Network.toSection, hq]
  rw [hqa] at hstart ⊢
  rw [hqb] at hstop ⊢
  obtain rfl := (N.plug_start_iff hq i).1 hstart
  obtain rfl := (N.plug_stop_iff hq j).1 hstop
  obtain ⟨m₁, hunlink, h₁⟩ := h.unlinked hq
  obtain ⟨m₂, hlink, h₂⟩ := h₁.link (N.canLink_unlink hq)
  rw [N.link_unlink hq] at h₂
  exact ⟨m₁, hunlink, by rw [hlink, h₂.unique h]⟩

end Model.Refines

/-- **`link` and `unlink` are mutually inverse on reachable models.** -/
theorem Reachable.link_unlink_inverse {m : Model} (h : Reachable m) (s a : IdRef) (i : SlotId)
    (b : IdRef) (j : SlotId) :
    (∀ m', m.link s a i b j = .ok (.OK, m') → m'.unlink s = .ok (.OK, m)) ∧
      (∀ sec, m.section s = some sec → sec.m_start = a → sec.m_end = b → m.Holds (a, i) s →
        m.Holds (b, j) s →
          ∃ m', m.unlink s = .ok (.OK, m') ∧ m'.link s a i b j = .ok (.OK, m)) := by
  obtain ⟨N, hN⟩ := h.refines
  refine ⟨fun m' hlink => hN.unlink_link hlink, ?_⟩
  rintro sec hsec rfl rfl hstart hstop
  exact hN.link_unlink hsec hstart hstop

/-- The section of the small example comes back to the slots it was in. -/
theorem smallExample_link_unlink : ∃ m', smallExample.unlink (ascii "S400") = .ok (.OK, m') ∧
    m'.link (ascii "S400") (ascii "M145") 2 (ascii "T1034") 0 = .ok (.OK, smallExample) :=
  (Reachable.link_unlink_inverse reachable_smallExample _ _ _ _ _).2 _ rfl rfl rfl
    ⟨_, rfl, by decide⟩ ⟨_, rfl, by decide⟩

end PiwcsPrw
