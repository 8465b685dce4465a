/-
# Machines that answer

An object with methods is a machine: an operation gives an answer and the next
state.  Two machines for the same operations cannot be told apart by their answers
when some relation of their states is kept by every operation and makes the
answers equal (`Machine.run_of_simulation`).  The usual relation says that one
state is what the other stands for (`Machine.run_of_abstraction`).
-/

import Mathlib.Data.List.Forall2

/-- A machine with states `σ`, operations `ι` and answers `α`. -/
abbrev Machine (σ ι α : Type*) := ι → σ → α × σ

namespace Machine

variable {σ τ ι α : Type*}

/-- The answers to one operation after the other, and the last state. -/
def run (M : Machine σ ι α) : List ι → σ → List α × σ
  | [], s => ([], s)
  | i :: is, s => ((M i s).1 :: (M.run is (M i s).2).1, (M.run is (M i s).2).2)

variable {M : Machine σ ι α} {M' : Machine τ ι α}

/-- **Related states give the same answers**, and stay related, in every run. -/
theorem run_of_simulation {R : σ → τ → Prop}
    (h : ∀ i s t, R s t → (M i s).1 = (M' i t).1 ∧ R (M i s).2 (M' i t).2) (is : List ι) {s : σ}
    {t : τ} (hst : R s t) :
    (M.run is s).1 = (M'.run is t).1 ∧ R (M.run is s).2 (M'.run is t).2 := by
  induction is generalizing s t with
  | nil => exact ⟨rfl, hst⟩
  | cons i is ih =>
      obtain ⟨hanswer, hnext⟩ := h i s t hst
      obtain ⟨hanswers, hlast⟩ := ih hnext
      exact ⟨by rw [run, run, hanswer, hanswers], hlast⟩

/-- The same for two runs whose operations are related one by one. -/
theorem run_of_forall₂ {κ : Type*} {M₂ : Machine τ κ α} {Q : ι → κ → Prop} {R : σ → τ → Prop}
    (h : ∀ i j s t, Q i j → R s t → (M i s).1 = (M₂ j t).1 ∧ R (M i s).2 (M₂ j t).2)
    {is : List ι} {js : List κ} (hij : List.Forall₂ Q is js) {s : σ} {t : τ} (hst : R s t) :
    (M.run is s).1 = (M₂.run js t).1 ∧ R (M.run is s).2 (M₂.run js t).2 := by
  induction hij generalizing s t with
  | nil => exact ⟨rfl, hst⟩
  | cons hq _ ih =>
      obtain ⟨hanswer, hnext⟩ := h _ _ s t hq hst
      obtain ⟨hanswers, hlast⟩ := ih hnext
      exact ⟨by rw [run, run, hanswer, hanswers], hlast⟩

/-- A state answers as the state it stands for. -/
theorem run_of_abstraction {f : σ → τ}
    (h : ∀ i s, (M i s).1 = (M' i (f s)).1 ∧ f (M i s).2 = (M' i (f s)).2) (is : List ι) (s : σ) :
    (M.run is s).1 = (M'.run is (f s)).1 ∧ f (M.run is s).2 = (M'.run is (f s)).2 := by
  refine run_of_simulation (R := fun s t => f s = t) (fun i s t hst => ?_) is rfl
  subst hst
  exact h i s

end Machine
