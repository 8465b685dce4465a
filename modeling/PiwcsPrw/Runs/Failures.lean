/-
# Which failure points a debug build reaches

`_FAIL` in `src/model.cpp` and `src/section.cpp`.

Each `_FAIL` reports a state the model should never be in.  No run gets into one
of these states, and yet one of the four statements is executed: the guard before
the first `_FAIL` of `unlink` tests `section->end() != ID_NULL` where its message
calls for `== ID_NULL`, so it is met by every connected section.  Nothing shows,
because `_FAIL` passes its message as the test.

`DebugCall.runAll` makes calls one after the other and collects the `_FAIL`s.
One call executes none exactly when it is not an `unlink` of a connected section
(`Model.Refines.run`); a run executes none exactly when this holds of each of
its calls in the model it is made on (`Reachable.failures_eq_nil_iff`).
-/

import PiwcsPrw.Network.Debugging
import PiwcsPrw.Runs.History

namespace PiwcsPrw

namespace DebugCall

/-- What a caller can pass. -/
def Passable : DebugCall → Prop
  | mutate op => op.Passable
  | canTraverse .. => True

/-- If the call is an `unlink`, it is one of a section that is not connected. -/
def Idle (c : DebugCall) (m : Model) : Prop :=
  ∀ s sec, c = .mutate (.unlink s) → m.section s = some sec → sec.isConnected = false

/-- Every `unlink` of the run is one of a section that is not connected then. -/
def UnlinksIdle : List DebugCall → Model → Prop
  | [], _ => True
  | c :: cs, m => c.Idle m ∧ ∀ m', (c.run m).result = .ok m' → UnlinksIdle cs m'

/-- A call other than `unlink` is idle. -/
theorem idle_of_ne {c : DebugCall} {m : Model} (h : ∀ s, c ≠ .mutate (.unlink s)) : c.Idle m :=
  fun s _ hc => absurd hc (h s)

end DebugCall

namespace Model.Refines

variable {m : Model} {N : Network}

/-- An `unlink` is idle exactly when the network has no such cable. -/
theorem idle_unlink_iff (h : m.Refines N) {s : IdRef} :
    DebugCall.Idle (.mutate (.unlink s)) m ↔ N.wiring.ends s = none := by
  have hcon := h.exists_connected_iff (s := s)
  constructor
  · intro hidle
    by_contra hends
    obtain ⟨sec, hsec, hsec'⟩ := hcon.2 hends
    rw [hidle s sec rfl hsec] at hsec'
    cases hsec'
  · rintro hnone t sec ht hsec
    obtain rfl : s = t := by simpa using ht
    by_contra hsec'
    exact hcon.1 ⟨sec, hsec, by simpa using hsec'⟩ hnone

/-- The calls other than an `unlink` of a connected section are idle. -/
theorem idle_iff (h : m.Refines N) (op : Op) :
    DebugCall.Idle (.mutate op) m ↔ ∀ s, op = .unlink s → N.wiring.ends s = none := by
  constructor
  · rintro hidle s rfl
    exact h.idle_unlink_iff.1 hidle
  · intro hop s sec hs
    obtain rfl : op = .unlink s := by simpa using hs
    exact h.idle_unlink_iff.2 (hop s rfl) s sec rfl

/-- The `_FAIL`s of one mutator call, and that it ends as in the release build. -/
theorem callDebug (h : m.Refines N) (op : Op) :
    (op.callDebug m).result = (Asserting.lift (op.call m) : Debug _).result ∧
      ((op.callDebug m).failures = [] ∧ DebugCall.Idle (.mutate op) m ∨
        (op.callDebug m).failures = [startWithoutEnd] ∧ ¬ DebugCall.Idle (.mutate op) m) := by
  rw [h.idle_iff]
  by_cases hop : ∀ s, op = .unlink s → N.wiring.ends s = none
  · rw [h.callDebug_eq hop]
    exact ⟨rfl, Or.inl ⟨Asserting.failures_lift _, hop⟩⟩
  · have hnot := hop
    push Not at hnot
    obtain ⟨s, rfl, hq⟩ := hnot
    rw [h.callDebug_connected hq]
    exact ⟨rfl, Or.inr ⟨rfl, hop⟩⟩

/-- **One call.**  It gets through, and the only `_FAIL` it can execute is the first
of `unlink`, which it does exactly when it is not idle. -/
theorem run (h : m.Refines N) {c : DebugCall} (hc : c.Passable) :
    ∃ m' N', (c.run m).result = .ok m' ∧ m'.Refines N' ∧
      ((c.run m).failures = [] ∧ c.Idle m ∨
        (c.run m).failures = [startWithoutEnd] ∧ ¬ c.Idle m) := by
  cases c with
  | mutate op =>
      obtain ⟨hresult, hfailures⟩ := h.callDebug op
      have hrun : ∃ ok m' N', op.call m = .ok (ok, m') ∧ m'.Refines N' := by
        rcases h.call hc.wellFormed with ⟨m', N', hcall, _, h'⟩ | ⟨hcall, _⟩
        · exact ⟨_, m', N', hcall, h'⟩
        · exact ⟨_, m, N, hcall, h⟩
      obtain ⟨ok, m', N', hcall, h'⟩ := hrun
      rw [hcall] at hresult
      refine ⟨m', N', ?_, h', ?_⟩
      · rw [DebugCall.run, Asserting.result_bind hresult]
        rfl
      · rw [DebugCall.run, Asserting.failures_bind hresult]
        simpa using hfailures
  | canTraverse s src dst =>
      have hidle : (DebugCall.canTraverse s src dst).Idle m := DebugCall.idle_of_ne (by simp)
      have hrun : (DebugCall.canTraverse s src dst).run m = pure m := by
        cases hsec : m.section s with
        | none => simp only [DebugCall.run, hsec]
        | some sec =>
            obtain ⟨answer, hanswer⟩ := sec.exists_canTraverse_eq src dst
            simp only [DebugCall.run, hsec, hanswer, pure_bind]
      rw [hrun]
      exact ⟨m, N, rfl, h, Or.inl ⟨rfl, hidle⟩⟩

end Model.Refines

/-- **A run executes no `_FAIL` exactly when it unlinks no connected section.**
Whatever the run, it gets through, and no `_FAIL` other than the first of `unlink`
is executed. -/
theorem Reachable.failures_eq_nil_iff {m : Model} (h : Reachable m) {cs : List DebugCall}
    (hcs : ∀ c ∈ cs, c.Passable) :
    ((DebugCall.runAll cs m).failures = [] ↔ DebugCall.UnlinksIdle cs m) ∧
      (∃ m', (DebugCall.runAll cs m).result = .ok m') ∧
      ∀ msg ∈ (DebugCall.runAll cs m).failures, msg = Model.startWithoutEnd := by
  obtain ⟨N, hN⟩ := h.refines
  clear h
  induction cs generalizing m N with
  | nil => simp [DebugCall.runAll, DebugCall.UnlinksIdle]
  | cons c cs ih =>
      obtain ⟨m', N', hresult, hN', hfailures⟩ := hN.run (hcs c (List.mem_cons_self ..))
      obtain ⟨hiff, ⟨m'', hresult'⟩, honly⟩ :=
        ih (fun c hc => hcs c (List.mem_cons_of_mem _ hc)) N' hN'
      have hidle : DebugCall.UnlinksIdle (c :: cs) m ↔ c.Idle m ∧ DebugCall.UnlinksIdle cs m' := by
        simp [DebugCall.UnlinksIdle, hresult]
      rw [DebugCall.runAll, Asserting.failures_bind hresult, Asserting.result_bind hresult, hidle,
        ← hiff]
      refine ⟨?_, ⟨m'', hresult'⟩, ?_⟩
      · rcases hfailures with ⟨hf, hc⟩ | ⟨hf, hc⟩ <;> simp [hf, hc]
      · rcases hfailures with ⟨hf, _⟩ | ⟨hf, _⟩ <;> simpa [hf] using honly

/-- Unlinking `S400` in the small example executes the first `_FAIL` of `unlink`. -/
theorem smallExample_failures :
    (DebugCall.runAll [.mutate (.unlink (ascii "S400"))] smallExample).failures ≠ [] ∧
      ¬ DebugCall.UnlinksIdle [.mutate (.unlink (ascii "S400"))] smallExample := by
  have hfailures :
      (DebugCall.runAll [.mutate (.unlink (ascii "S400"))] smallExample).failures ≠ [] := by
    decide
  refine ⟨hfailures, fun hidle => hfailures ?_⟩
  refine (Reachable.failures_eq_nil_iff reachable_smallExample fun c hc => ?_).1.2 hidle
  rw [List.mem_singleton.1 hc]
  exact Or.inl trivial

/-- Not every call of `link`, `unlink` and `canTraverse` on a reachable model is
free of `_FAIL`s. -/
theorem not_free_of_failures :
    ¬ ∀ m, Reachable m →
      (∀ s a i b j, (m.linkDebug s a i b j).failures = []) ∧
        (∀ s, (m.unlinkDebug s).failures = []) ∧
          ∀ sec src dst, (Section.canTraverse sec src dst).failures = [] := by
  intro h
  have hfailures : (smallExample.unlinkDebug (ascii "S400")).failures = [] :=
    (h smallExample reachable_smallExample).2.1 (ascii "S400")
  revert hfailures
  decide

end PiwcsPrw
