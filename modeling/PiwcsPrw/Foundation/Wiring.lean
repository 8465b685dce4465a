/-
# Cables and ports

A wiring joins ports by cables.  It is looked up from both sides: `plug` says
which cable sits in a port, `ends` which two ports a cable joins.  The two
tables are one relation kept twice, and the fields `plug_iff` and `ends_ne` say
so: a cable sits exactly in the two ports it joins, and these are different.

Two facts carry everything below.  One table determines the other
(`Wiring.eq_of_ends`), so two wirings are compared on their cables alone, and
`connect` and `disconnect` undo each other (`disconnect_connect`,
`connect_disconnect`) because they do so on the cables.  And every cable
occupies two ports, no port twice, so the occupied ports are twice the
connected cables (`card_ports`).

Programs that store a link at both of its sides keep such a wiring; what they
have to show of their own code is that each operation moves both tables as
`connect` or `disconnect` does.
-/

import Mathlib.Algebra.BigOperators.Group.Finset.Basic
import Mathlib.Data.Finset.Card

/-- Cables `E` joining ports `P`, looked up from both sides. -/
structure Wiring (P E : Type*) where
  plug : P → Option E
  ends : E → Option (P × P)
  plug_iff : ∀ p e, plug p = some e ↔ ∃ q, ends e = some q ∧ (p = q.1 ∨ p = q.2)
  ends_ne : ∀ e q, ends e = some q → q.1 ≠ q.2

namespace Wiring

variable {P E : Type*}

/-- No cable joins anything. -/
def empty : Wiring P E where
  plug _ := none
  ends _ := none
  plug_iff := by simp
  ends_ne := by simp

/-- A connected cable sits in the first port it joins. -/
theorem plug_fst {w : Wiring P E} {e : E} {q : P × P} (h : w.ends e = some q) :
    w.plug q.1 = some e :=
  (w.plug_iff q.1 e).2 ⟨q, h, Or.inl rfl⟩

/-- A connected cable sits in the second port it joins. -/
theorem plug_snd {w : Wiring P E} {e : E} {q : P × P} (h : w.ends e = some q) :
    w.plug q.2 = some e :=
  (w.plug_iff q.2 e).2 ⟨q, h, Or.inr rfl⟩

/-- Once the two ports of a cable are known, it sits in no other. -/
theorem plug_eq_some_iff {w : Wiring P E} {e : E} {q : P × P} (h : w.ends e = some q) (p : P) :
    w.plug p = some e ↔ p = q.1 ∨ p = q.2 := by
  rw [plug_iff, h]
  simp

/-- A cable that joins nothing sits in no port. -/
theorem plug_ne_of_ends_eq_none {w : Wiring P E} {e : E} (h : w.ends e = none) (p : P) :
    w.plug p ≠ some e := by
  rw [Ne, plug_iff, h]
  simp

/-- **The cables determine the wiring**: the table of the ports is recovered
from the table of the cables. -/
theorem eq_of_ends {w w' : Wiring P E} (h : w.ends = w'.ends) : w = w' := by
  have hplug : w.plug = w'.plug := by
    funext p
    refine Option.ext fun e => ?_
    rw [plug_iff, plug_iff, h]
  obtain ⟨plug, ends, _, _⟩ := w
  obtain ⟨plug', ends', _, _⟩ := w'
  subst h hplug
  rfl

/-- **A wiring from its cables.**  A relation that gives each cable one pair of
different ports, and a table of the ports that says the same, are the two tables
of a wiring. -/
theorem exists_of_joins {plug : P → Option E} {Joins : E → P × P → Prop}
    (hone : ∀ {e q q'}, Joins e q → Joins e q' → q = q')
    (hplug : ∀ p e, plug p = some e ↔ ∃ q, Joins e q ∧ (p = q.1 ∨ p = q.2))
    (hne : ∀ {e q}, Joins e q → q.1 ≠ q.2) :
    ∃ w : Wiring P E, w.plug = plug ∧ ∀ e q, w.ends e = some q ↔ Joins e q := by
  classical
  let ends : E → Option (P × P) := fun e => if h : ∃ q, Joins e q then some h.choose else none
  have hends : ∀ e q, ends e = some q ↔ Joins e q := by
    intro e q
    by_cases h : ∃ q, Joins e q
    · simp only [ends, dif_pos h, Option.some.injEq]
      exact ⟨fun hq => hq ▸ h.choose_spec, fun hq => hone h.choose_spec hq⟩
    · simp only [ends, dif_neg h, reduceCtorEq, false_iff]
      exact fun hq => h ⟨q, hq⟩
  refine ⟨⟨plug, ends, fun p e => ?_, fun e q hq => hne ((hends e q).1 hq)⟩, rfl, hends⟩
  simp only [hplug, hends]

/-! ### Connecting and disconnecting -/

variable [DecidableEq P] [DecidableEq E]

/-- The cable `e`, joining nothing so far, is put into two free ports. -/
def connect (w : Wiring P E) (e : E) (q : P × P) (hq : q.1 ≠ q.2) (h₁ : w.plug q.1 = none)
    (h₂ : w.plug q.2 = none) (he : w.ends e = none) : Wiring P E where
  plug p := if p = q.1 ∨ p = q.2 then some e else w.plug p
  ends e' := if e' = e then some q else w.ends e'
  plug_iff p e' := by
    by_cases hp : p = q.1 ∨ p = q.2
    · -- A port just filled was free, so no other cable had it as an end.
      have hfree : w.plug p = none := by rcases hp with rfl | rfl <;> assumption
      rw [if_pos hp]
      by_cases hee : e' = e
      · simp [hee, hp]
      · rw [if_neg hee, ← w.plug_iff, hfree]
        simpa using Ne.symm hee
    · rw [if_neg hp]
      by_cases hee : e' = e
      · rw [if_pos hee, hee]
        simpa [hp] using plug_ne_of_ends_eq_none he p
      · rw [if_neg hee, w.plug_iff]
  ends_ne e' q' h := by
    by_cases hee : e' = e
    · rw [if_pos hee, Option.some.injEq] at h
      exact h ▸ hq
    · rw [if_neg hee] at h
      exact w.ends_ne e' q' h

/-- The cable `e` is pulled out of the ports it joins, if it joins any. -/
def disconnect (w : Wiring P E) (e : E) : Wiring P E where
  plug p := if w.plug p = some e then none else w.plug p
  ends e' := if e' = e then none else w.ends e'
  plug_iff p e' := by
    by_cases hee : e' = e
    · subst hee
      simp
    · rw [if_neg hee, ← w.plug_iff]
      by_cases hp : w.plug p = some e
      · rw [if_pos hp, hp]
        simpa using Ne.symm hee
      · rw [if_neg hp]
  ends_ne e' q' h := by
    by_cases hee : e' = e
    · simp [hee] at h
    · rw [if_neg hee] at h
      exact w.ends_ne e' q' h

/-- **Pulling a cable out undoes putting it in.** -/
theorem disconnect_connect (w : Wiring P E) (e : E) (q : P × P) (hq : q.1 ≠ q.2)
    (h₁ : w.plug q.1 = none) (h₂ : w.plug q.2 = none) (he : w.ends e = none) :
    (w.connect e q hq h₁ h₂ he).disconnect e = w := by
  refine eq_of_ends (funext fun e' => ?_)
  by_cases hee : e' = e
  · simp [disconnect, hee, he]
  · simp [disconnect, connect, hee]

omit [DecidableEq P] in
/-- A cable's own ports are free once it is pulled out. -/
theorem plug_disconnect {w : Wiring P E} {e : E} {q : P × P} (h : w.ends e = some q) :
    (w.disconnect e).plug q.1 = none ∧ (w.disconnect e).plug q.2 = none := by
  simp [disconnect, plug_fst h, plug_snd h]

/-- **Putting a cable back undoes pulling it out.** -/
theorem connect_disconnect (w : Wiring P E) {e : E} {q : P × P} (h : w.ends e = some q) :
    (w.disconnect e).connect e q (w.ends_ne e q h) (plug_disconnect h).1 (plug_disconnect h).2
      (if_pos rfl) = w := by
  refine eq_of_ends (funext fun e' => ?_)
  by_cases hee : e' = e
  · simp [connect, hee, h]
  · simp [disconnect, connect, hee]

/-! ### Counting -/

omit [DecidableEq E] in
/-- **Every connected cable occupies two ports.**  If `ports` are the occupied
ports and `cables` the connected cables, there are twice as many ports: each
cable has two, and no port is an end of two cables. -/
theorem card_ports (w : Wiring P E) {ports : Finset P} {cables : Finset E}
    (hports : ∀ p, p ∈ ports ↔ w.plug p ≠ none) (hcables : ∀ e, e ∈ cables ↔ w.ends e ≠ none) :
    ports.card = 2 * cables.card := by
  classical
  let pair : E → Finset P := fun e => (w.ends e).elim ∅ fun q => {q.1, q.2}
  have hpair : ∀ {e q}, w.ends e = some q → pair e = {q.1, q.2} := fun h => by simp [pair, h]
  have hcover : ports = cables.biUnion pair := by
    ext p
    rw [hports, Finset.mem_biUnion, Option.ne_none_iff_exists']
    constructor
    · rintro ⟨e, he⟩
      obtain ⟨q, hq, hp⟩ := (w.plug_iff p e).1 he
      exact ⟨e, (hcables e).2 (by simp [hq]), by simpa [hpair hq] using hp⟩
    · rintro ⟨e, he, hp⟩
      obtain ⟨q, hq⟩ := Option.ne_none_iff_exists'.1 ((hcables e).1 he)
      rw [hpair hq, Finset.mem_insert, Finset.mem_singleton] at hp
      exact ⟨e, (plug_eq_some_iff hq p).2 hp⟩
  have hdisj : (cables : Set E).PairwiseDisjoint pair := by
    intro e he e' he' hne
    obtain ⟨q, hq⟩ := Option.ne_none_iff_exists'.1 ((hcables e).1 he)
    obtain ⟨q', hq'⟩ := Option.ne_none_iff_exists'.1 ((hcables e').1 he')
    refine Finset.disjoint_left.2 fun p hp hp' => hne ?_
    rw [hpair hq, Finset.mem_insert, Finset.mem_singleton] at hp
    rw [hpair hq', Finset.mem_insert, Finset.mem_singleton] at hp'
    have h := (plug_eq_some_iff hq p).2 hp
    rw [(plug_eq_some_iff hq' p).2 hp', Option.some.injEq] at h
    exact h.symm
  rw [hcover, Finset.card_biUnion hdisj, Finset.sum_const_nat (m := 2) fun e he => ?_, mul_comm]
  obtain ⟨q, hq⟩ := Option.ne_none_iff_exists'.1 ((hcables e).1 he)
  rw [hpair hq, Finset.card_pair (w.ends_ne e q hq)]

end Wiring
