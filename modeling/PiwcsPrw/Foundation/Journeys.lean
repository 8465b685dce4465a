/-
# Journeys along cables

A cable that joins two ports can be run along in two directions, and a `Leg` is a
cable with one of them.  `Rails` are a wiring with the legs that are allowed and
the ports from which one may go on to which, and `Rails.Next` says that one leg
follows another.

No port holds two cables, so a leg is known from the port it departs from and
from the port it arrives at (`Wiring.eq_of_dep`, `Wiring.eq_of_arr`).  Where there
is one way on, there is therefore one next leg (`Next.right_unique`), where there is
one way in, one leg before (`Next.left_unique`), and as many ports are arrived at as
are departed from (`Rails.card_arrivals`).

A journey is a list of legs each of which is next to the one before.  There are
finitely many legs, so an endless journey repeats one of them; with one way in
wherever it goes it comes back to all of them (`Rails.recurs`), with one way on it ends
in a loop (`Rails.loops`).
-/

import Mathlib.Combinatorics.Enumerative.DoubleCounting
import Mathlib.Data.List.Chain
import Mathlib.Order.Preorder.Finite
import PiwcsPrw.Foundation.Wiring

/-- A run along a cable, from the first port it joins to the second or the other
way. -/
structure Leg (E : Type*) where
  cable : E
  reversed : Bool
  deriving DecidableEq

namespace Leg

variable {E : Type*}

/-- The run in the other direction. -/
def flip (l : Leg E) : Leg E := ⟨l.cable, !l.reversed⟩

/-- The other way is along the same cable. -/
@[simp] theorem flip_cable (l : Leg E) : l.flip.cable = l.cable := rfl

/-- Turned round twice is as before. -/
@[simp] theorem flip_flip (l : Leg E) : l.flip.flip = l := by simp [flip]

end Leg

namespace Wiring

variable {P E : Type*} {w : Wiring P E} {l l' : Leg E} {p : P}

/-- The port the leg departs from. -/
def dep (w : Wiring P E) (l : Leg E) : Option P :=
  (w.ends l.cable).map fun q => if l.reversed then q.2 else q.1

/-- The port the leg arrives at. -/
def arr (w : Wiring P E) (l : Leg E) : Option P := w.dep l.flip

/-- The other way arrives where this one departs. -/
@[simp] theorem arr_flip (l : Leg E) : w.arr l.flip = w.dep l := by rw [arr, Leg.flip_flip]

/-- The other way departs where this one arrives. -/
@[simp] theorem dep_flip (l : Leg E) : w.dep l.flip = w.arr l := rfl

/-- A leg has both ports when its cable is connected. -/
theorem exists_dep_iff : (∃ p, w.dep l = some p) ↔ w.ends l.cable ≠ none := by
  cases h : w.ends l.cable <;> simp [dep, h]

/-- Along a cable with ends there is a port to arrive at. -/
theorem exists_arr_iff : (∃ p, w.arr l = some p) ↔ w.ends l.cable ≠ none := exists_dep_iff

/-- The cable sits in the port the leg departs from. -/
theorem plug_of_dep (h : w.dep l = some p) : w.plug p = some l.cable := by
  obtain ⟨q, hq, rfl⟩ := Option.map_eq_some_iff.1 h
  cases l.reversed
  · exact plug_fst hq
  · exact plug_snd hq

/-- **A leg is known from where it departs.** -/
theorem eq_of_dep (h : w.dep l = some p) (h' : w.dep l' = some p) : l = l' := by
  have hplug := plug_of_dep h
  rw [plug_of_dep h', Option.some.injEq] at hplug
  obtain ⟨e, b⟩ := l
  obtain ⟨e', b'⟩ := l'
  obtain rfl : e' = e := hplug
  obtain ⟨q, hq, hp⟩ := Option.map_eq_some_iff.1 h
  have hp' : (if b' then q.2 else q.1) = p := by simpa [dep, show w.ends e' = some q from hq] using h'
  have hne := w.ends_ne _ q hq
  -- The two directions of one cable depart from different ports.
  cases b <;> cases b'
  · rfl
  · exact absurd (hp.trans hp'.symm) hne
  · exact absurd (hp'.trans hp.symm) hne
  · rfl

/-- **A leg is known from where it arrives.** -/
theorem eq_of_arr (h : w.arr l = some p) (h' : w.arr l' = some p) : l = l' := by
  rw [← l.flip_flip, ← l'.flip_flip, eq_of_dep h h']

end Wiring

/-- A wiring whose cables are run along: the legs that are allowed, and the ports
from which one may go on to which. -/
structure Rails (P E : Type*) where
  wiring : Wiring P E
  allowed : Leg E → Prop
  through : P → P → Prop

namespace Rails

variable {P E : Type*} {R : Rails P E} {l l' l₁ l₂ : Leg E}

/-- The leg is allowed, and its cable is connected. -/
structure OnTrack (R : Rails P E) (l : Leg E) : Prop where
  allowed : R.allowed l
  connected : R.wiring.ends l.cable ≠ none

/-- One may go on from the one leg to the other. -/
structure Next (R : Rails P E) (l l' : Leg E) : Prop where
  onTrack_left : R.OnTrack l
  onTrack_right : R.OnTrack l'
  through : ∃ p q, R.wiring.arr l = some p ∧ R.wiring.dep l' = some q ∧ R.through p q

/-- A journey: legs on track, each of them next to the one before. -/
structure Journey (R : Rails P E) (ls : List (Leg E)) : Prop where
  onTrack : ∀ l ∈ ls, R.OnTrack l
  chain : ls.IsChain R.Next

/-- **Where there is one way on, there is one next leg.** -/
theorem Next.right_unique (h₁ : R.Next l l₁) (h₂ : R.Next l l₂)
    (hone : ∀ p q q', R.wiring.arr l = some p → R.through p q → R.through p q' → q = q') :
    l₁ = l₂ := by
  obtain ⟨p, q₁, hp, hq₁, hthrough₁⟩ := h₁.through
  obtain ⟨p', q₂, hp', hq₂, hthrough₂⟩ := h₂.through
  obtain rfl : p = p' := Option.some.inj (hp.symm.trans hp')
  exact Wiring.eq_of_dep hq₁ (hone p q₁ q₂ hp hthrough₁ hthrough₂ ▸ hq₂)

/-- **Where there is one way in, there is one leg before.** -/
theorem Next.left_unique (h₁ : R.Next l₁ l) (h₂ : R.Next l₂ l)
    (hone : ∀ p p' q, R.wiring.dep l = some q → R.through p q → R.through p' q → p = p') :
    l₁ = l₂ := by
  obtain ⟨p₁, q, hp₁, hq, hthrough₁⟩ := h₁.through
  obtain ⟨p₂, q', hp₂, hq', hthrough₂⟩ := h₂.through
  obtain rfl : q = q' := Option.some.inj (hq.symm.trans hq')
  exact Wiring.eq_of_arr hp₁ (hone p₁ p₂ q hq hthrough₁ hthrough₂ ▸ hp₂)

/-- Rails that have the legs of a journey, and let through where it goes, have the
journey. -/
theorem Journey.mono {R' : Rails P E} {ls : List (Leg E)} (h : R.Journey ls)
    (hon : ∀ l ∈ ls, R.OnTrack l → R'.OnTrack l)
    (hnext : ∀ l ∈ ls, ∀ l' ∈ ls, R.Next l l' → R'.Next l l') : R'.Journey ls where
  onTrack l hl := hon l hl (h.onTrack l hl)
  chain := h.chain.imp_of_mem_imp fun l l' hl hl' => hnext l hl l' hl'

/-! ### The way back -/

/-- The leg after, turned round, is followed by the leg before, turned round, when
both directions are allowed and one may go through both ways. -/
theorem Next.flip_iff (h : R.Next l l') (hl : R.OnTrack l.flip) (hl' : R.OnTrack l'.flip) :
    R.Next l'.flip l.flip ↔
      ∀ p q, R.wiring.arr l = some p → R.wiring.dep l' = some q → R.through q p := by
  obtain ⟨p, q, hp, hq, _⟩ := h.through
  constructor
  · intro hback p' q' hp' hq'
    obtain ⟨q'', p'', hq'', hp'', hthrough⟩ := hback.through
    rw [Wiring.arr_flip, hq'] at hq''
    rw [Wiring.dep_flip, hp'] at hp''
    rwa [Option.some.inj hq'', Option.some.inj hp'']
  · intro hboth
    exact ⟨hl', hl, q, p, by rw [Wiring.arr_flip, hq], hp, hboth p q hp hq⟩

/-- In a chain whose links have a property exactly when their first element has
another, the links all have the one when the elements but the last have the other. -/
theorem isChain_iff_of_links {α : Type*} {r s : α → α → Prop} {c : α → Prop} {ls : List α}
    (h : ls.IsChain r) (hlink : ∀ a ∈ ls, ∀ b ∈ ls, r a b → (s a b ↔ c a)) :
    ls.IsChain s ↔ ∀ a ∈ ls.dropLast, c a := by
  induction h with
  | nil => simp
  | singleton a => simp
  | cons_cons hab _ ih =>
      rw [List.isChain_cons_cons, List.dropLast_cons_cons, List.forall_mem_cons,
        hlink _ (by simp) _ (by simp) hab,
        ih fun a ha b hb => hlink a (List.mem_cons_of_mem _ ha) b (List.mem_cons_of_mem _ hb)]

/-- **The way back.**  A journey can be made in the other direction exactly when
each of its legs can and one may go through both ways wherever it goes through. -/
theorem Journey.flip_iff {ls : List (Leg E)} (h : R.Journey ls) {c : Leg E → Prop}
    (hc : ∀ l l', R.Next l l' →
      ((∀ p q, R.wiring.arr l = some p → R.wiring.dep l' = some q → R.through q p) ↔ c l)) :
    R.Journey (ls.reverse.map Leg.flip) ↔
      (∀ l ∈ ls, R.OnTrack l.flip) ∧ ∀ l ∈ ls.dropLast, c l := by
  have hback : (∀ l ∈ ls, R.OnTrack l.flip) →
      ((ls.reverse.map Leg.flip).IsChain R.Next ↔ ∀ l ∈ ls.dropLast, c l) := fun hon => by
    rw [List.isChain_map, List.isChain_reverse]
    exact isChain_iff_of_links h.chain fun a ha b hb hab =>
      (hab.flip_iff (hon a ha) (hon b hb)).trans (hc a b hab)
  constructor
  · intro hj
    have hon : ∀ l ∈ ls, R.OnTrack l.flip := fun l hl => hj.onTrack _ (by simpa using ⟨l, hl, rfl⟩)
    exact ⟨hon, (hback hon).1 hj.chain⟩
  · rintro ⟨hon, hends⟩
    exact ⟨by simpa using hon, (hback hon).2 hends⟩

/-! ### Endless journeys -/

section Endless

variable {f : ℕ → Leg E} (hf : ∀ n, R.OnTrack (f n)) (hfin : {e | R.wiring.ends e ≠ none}.Finite)
include hf hfin

/-- An endless journey makes some leg twice. -/
theorem exists_repeat : ∃ i j, i < j ∧ f i = f j := by
  have hlegs : {l : Leg E | R.OnTrack l}.Finite := by
    refine ((hfin.image fun e => Leg.mk e false).union (hfin.image fun e => Leg.mk e true)).subset ?_
    rintro ⟨e, b⟩ hl
    cases b
    · exact Or.inl ⟨e, hl.connected, rfl⟩
    · exact Or.inr ⟨e, hl.connected, rfl⟩
  exact Set.Finite.exists_lt_map_eq_of_forall_mem hf hlegs

/-- **Where no two legs lead to the same leg an endless journey comes back** to each of
its legs. -/
theorem recurs (hone : ∀ i j, f (i + 1) = f (j + 1) → f i = f j) (k : ℕ) :
    ∃ n, k < n ∧ f n = f k := by
  obtain ⟨i, j, hij, heq⟩ := exists_repeat (f := fun n => f (k + n)) (fun n => hf (k + n)) hfin
  -- Two legs that are equal were reached from equal legs, back to the leg `k`.
  induction i generalizing j with
  | zero => exact ⟨k + j, by omega, heq.symm⟩
  | succ i ih =>
      obtain ⟨j, rfl⟩ : ∃ j', j = j' + 1 := ⟨j - 1, by omega⟩
      exact ih j (by omega) (hone (k + i) (k + j) heq)

/-- **Where each leg leads to one leg an endless journey ends in a loop.** -/
theorem loops (hone : ∀ i j, f i = f j → f (i + 1) = f (j + 1)) :
    ∃ i n, 0 < n ∧ ∀ k, i ≤ k → f (k + n) = f k := by
  obtain ⟨i, j, hij, heq⟩ := exists_repeat hf hfin
  refine ⟨i, j - i, by omega, fun k hk => ?_⟩
  induction k, hk using Nat.le_induction with
  | base => rw [Nat.add_sub_cancel' hij.le, heq]
  | succ k _ ih =>
      rw [Nat.add_right_comm]
      exact hone _ _ ih

end Endless

/-! ### Counting -/

/-- **As many ports are arrived at as are departed from**: every leg on track arrives
at one port and departs from one. -/
theorem card_arrivals {arrivals departures : Finset P}
    (harr : ∀ p, p ∈ arrivals ↔ ∃ l, R.OnTrack l ∧ R.wiring.arr l = some p)
    (hdep : ∀ p, p ∈ departures ↔ ∃ l, R.OnTrack l ∧ R.wiring.dep l = some p) :
    arrivals.card = departures.card := by
  let run : P → P → Prop := fun p q =>
    ∃ l, R.OnTrack l ∧ R.wiring.arr l = some p ∧ R.wiring.dep l = some q
  refine Nat.le_antisymm (Finset.card_le_card_of_forall_subsingleton run ?_ ?_)
    (Finset.card_le_card_of_forall_subsingleton (Function.swap run) ?_ ?_)
  · intro p hp
    obtain ⟨l, hl, hlp⟩ := (harr p).1 hp
    obtain ⟨q, hq⟩ := Wiring.exists_dep_iff.2 hl.connected
    exact ⟨q, (hdep q).2 ⟨l, hl, hq⟩, l, hl, hlp, hq⟩
  · rintro q _ p ⟨_, l, _, hp, hq⟩ p' ⟨_, l', _, hp', hq'⟩
    rw [Wiring.eq_of_dep hq hq', hp'] at hp
    exact (Option.some.inj hp).symm
  · intro q hq
    obtain ⟨l, hl, hlq⟩ := (hdep q).1 hq
    obtain ⟨p, hp⟩ := Wiring.exists_arr_iff.2 hl.connected
    exact ⟨p, (harr p).2 ⟨l, hl, hp⟩, l, hl, hp, hlq⟩
  · rintro p _ q ⟨_, l, _, hp, hq⟩ q' ⟨_, l', _, hp', hq'⟩
    rw [Wiring.eq_of_arr hp hp', hq'] at hq
    exact (Option.some.inj hq).symm

end Rails
