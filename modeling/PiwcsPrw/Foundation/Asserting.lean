/-
# Computations that check themselves

A debug build runs statements a release build leaves out.  Some only note that
a point was passed that should not be (`fail`), some end the program when a test
fails (`assert`), and some read a flag that is declared without a value and may
not have been given one (`readFlag`).  `Asserting` is a computation of such a
build: the failure points it passed, in order, and how it ended.

The rest of the code is that of the release build, a `Checked` computation, and
`lift` takes it over as it is.  It passes no failure point, and a sequence is
lifted part by part (`lift_bind`, `mapM_eq_lift`), so a debug build whose own
statements do nothing is shown to be the release build by rewriting.
-/

import PiwcsPrw.Foundation.Checked

/-- Why a debug build stopped. -/
inductive Stop (μ : Type)
  | fault (f : Fault)
  | assertion (msg : μ)
  | uninitialised
  deriving DecidableEq, Repr

/-- The failure points a computation passed, and its result. -/
@[ext] structure Asserting (μ α : Type) where
  failures : List μ
  result : Except (Stop μ) α

namespace Asserting

variable {μ α β : Type}

/-- What follows a computation that stopped is not run. -/
def bind (x : Asserting μ α) (f : α → Asserting μ β) : Asserting μ β :=
  match x.result with
  | .ok a => ⟨x.failures ++ (f a).failures, (f a).result⟩
  | .error e => ⟨x.failures, .error e⟩

instance : Monad (Asserting μ) where
  pure a := ⟨[], .ok a⟩
  bind := Asserting.bind

instance : LawfulMonad (Asserting μ) := by
  refine LawfulMonad.mk' _ (fun x => ?_) (fun _ _ => rfl) fun x f g => ?_
  · obtain ⟨failures, result⟩ := x
    cases result <;> simp [Functor.map, Asserting.bind]
  · obtain ⟨failures, result⟩ := x
    cases result with
    | error e => rfl
    | ok a => cases h : (f a).result <;> simp [Bind.bind, Asserting.bind, h]

/-- A failure point: it is noted, and the computation goes on. -/
def fail (msg : μ) : Asserting μ Unit := ⟨[msg], .ok ()⟩

/-- A test that ends the program when it fails. -/
def assert (test : Bool) (msg : μ) : Asserting μ Unit :=
  if test then pure () else ⟨[], .error (.assertion msg)⟩

/-- Reading a flag, `none` as long as nothing was assigned to it. -/
def readFlag : Option Bool → Asserting μ Bool
  | some b => pure b
  | none => ⟨[], .error .uninitialised⟩

/-- The code both builds have in common. -/
def lift : Checked α → Asserting μ α
  | .ok a => pure a
  | .error f => ⟨[], .error (.fault f)⟩

instance : MonadLift Checked (Asserting μ) := ⟨lift⟩

/-- A value fails no assertion. -/
@[simp] theorem failures_pure (a : α) : (pure a : Asserting μ α).failures = [] := rfl

/-- A value is its own result. -/
@[simp] theorem result_pure (a : α) : (pure a : Asserting μ α).result = .ok a := rfl

/-- Different values are different computations. -/
theorem pure_inj {a b : α} : (pure a : Asserting μ α) = pure b ↔ a = b :=
  ⟨fun h => Except.ok.inj (congrArg result h), congrArg pure⟩

/-- An assertion that holds does nothing. -/
@[simp] theorem assert_true (msg : μ) : assert true msg = pure () := rfl

/-- A flag that was set is read. -/
@[simp] theorem readFlag_some (b : Bool) : (readFlag (some b) : Asserting μ Bool) = pure b := rfl

/-- A value is lifted to itself. -/
@[simp] theorem lift_ok (a : α) : (lift (.ok a) : Asserting μ α) = pure a := rfl

/-- The same, as the `do` notation lifts it. -/
@[simp] theorem liftM_ok (a : α) : (liftM (.ok a : Checked α) : Asserting μ α) = pure a := rfl

/-- The common code passes no failure point. -/
@[simp] theorem failures_lift (x : Checked α) : (lift x : Asserting μ α).failures = [] := by
  cases x <;> rfl

/-- A sequence of the common code, part by part. -/
theorem lift_bind (x : Checked α) (f : α → Checked β) :
    (lift (x >>= f) : Asserting μ β) = lift x >>= fun a => lift (f a) := by
  cases x <;> rfl

/-- A loop whose body adds nothing adds nothing. -/
theorem mapM_eq_lift {f : α → Checked β} {g : α → Asserting μ β} {l : List α}
    (h : ∀ a ∈ l, g a = lift (f a)) : l.mapM g = lift (l.mapM f) := by
  induction l with
  | nil => rfl
  | cons a l ih =>
      rw [List.mapM_cons, List.mapM_cons, h a (List.mem_cons_self ..),
        ih fun b hb => h b (List.mem_cons_of_mem _ hb), lift_bind]
      simp only [lift_bind]
      rfl

/-- A computation that passes a failure point and then returns. -/
theorem map_fail (msg : μ) (f : Unit → β) : f <$> fail msg = ⟨[msg], .ok (f ())⟩ := rfl

/-- A sequence that gets through its first part passes the failure points of
both. -/
theorem failures_bind {x : Asserting μ α} {a : α} (hx : x.result = .ok a)
    (f : α → Asserting μ β) : (x >>= f).failures = x.failures ++ (f a).failures := by
  simp [Bind.bind, Asserting.bind, hx]

/-- The result of such a sequence is that of its second part. -/
theorem result_bind {x : Asserting μ α} {a : α} (hx : x.result = .ok a)
    (f : α → Asserting μ β) : (x >>= f).result = (f a).result := by
  simp [Bind.bind, Asserting.bind, hx]

end Asserting
