/-
# Finite maps walked in an arbitrary order

Support for programs that keep their state in hash maps.  A map is Mathlib's
`Finmap`, whose equality is equality of contents; what a hash map adds to that
is an iteration order nobody controls.  `Finmap.walk` is a range-for loop over
the map in an order given from outside, and `Finmap.Visits` says that the order
is one such a loop can take: every key of the map, each once.

A loop that only asks whether some entry passes a test needs no order:
`Finmap.any_iff` reads Mathlib's `any` back as a statement about lookups.
-/

import Mathlib.Data.Finmap

namespace Finmap

variable {K V : Type*} [DecidableEq K]

/-- The entries a range-for loop over `s` meets when the map hands out its keys
in the order `order`. -/
def walk (s : Finmap fun _ : K => V) (order : List K) : List (K × V) :=
  order.filterMap fun k => (s.lookup k).map (Prod.mk k)

/-- The order `order` visits every key of `s` once. -/
structure Visits (order : List K) (s : Finmap fun _ : K => V) : Prop where
  nodup : order.Nodup
  mem_iff : ∀ k, k ∈ order ↔ k ∈ s

omit [DecidableEq K] in
/-- Every map has an order of iteration. -/
theorem exists_visits (s : Finmap fun _ : K => V) : ∃ order, Visits order s :=
  ⟨s.keys.toList, s.keys.nodup_toList, fun k => by rw [Finset.mem_toList, mem_keys]⟩

/-- An order visits a map when it lists the map's keys. -/
theorem visits_iff {s : Finmap fun _ : K => V} {order : List K} :
    Visits order s ↔ order.Nodup ∧ order.toFinset = s.keys := by
  constructor
  · rintro ⟨hnodup, hmem⟩
    refine ⟨hnodup, Finset.ext fun k => ?_⟩
    rw [List.mem_toFinset, mem_keys, hmem]
  · rintro ⟨hnodup, hkeys⟩
    refine ⟨hnodup, fun k => ?_⟩
    rw [← List.mem_toFinset, hkeys, mem_keys]

instance (s : Finmap fun _ : K => V) (order : List K) : Decidable (Visits order s) :=
  decidable_of_iff _ visits_iff.symm

/-- A walk meets exactly the entries of the map. -/
theorem mem_walk {s : Finmap fun _ : K => V} {order : List K} (h : Visits order s) {k : K} {v : V} :
    (k, v) ∈ s.walk order ↔ s.lookup k = some v := by
  simp only [walk, List.mem_filterMap, Option.map_eq_some_iff, Prod.mk.injEq]
  constructor
  · rintro ⟨k', _, v', hv, rfl, rfl⟩
    exact hv
  · intro hv
    exact ⟨k, (h.mem_iff k).2 (mem_of_lookup_eq_some hv), v, hv, rfl, rfl⟩

/-- The keys of a walk are the order it was given. -/
theorem map_fst_walk {s : Finmap fun _ : K => V} {order : List K} (h : ∀ k ∈ order, k ∈ s) :
    (s.walk order).map Prod.fst = order := by
  induction order with
  | nil => rfl
  | cons k order ih =>
      obtain ⟨v, hv⟩ := mem_iff.1 (h k (List.mem_cons_self ..))
      have ih := ih fun k' hk' => h k' (List.mem_cons_of_mem _ hk')
      simp only [walk, List.filterMap_cons, hv, Option.map_some, List.map_cons] at ih ⊢
      rw [ih]

/-- What a loop makes of the keys it meets. -/
theorem Visits.map_walk {s : Finmap fun _ : K => V} {order : List K} (h : Visits order s)
    {B : Type*} (f : K → B) : (s.walk order).map (fun e => f e.1) = order.map f := by
  conv_rhs => rw [← map_fst_walk fun k hk => (h.mem_iff k).1 hk, List.map_map]
  rfl

omit [DecidableEq K] in
/-- Keys that a function keeps apart stay without repetition. -/
theorem Visits.nodup_map {s : Finmap fun _ : K => V} {order : List K} (h : Visits order s)
    {B : Type*} {f : K → B} (hf : Set.InjOn f {k | k ∈ s}) : (order.map f).Nodup :=
  h.nodup.map_on fun x hx y hy hxy => hf ((h.mem_iff x).1 hx) ((h.mem_iff y).1 hy) hxy

omit [DecidableEq K] in
/-- Two orders of one map list the same keys. -/
theorem Visits.perm {s : Finmap fun _ : K => V} {order order' : List K} (h : Visits order s)
    (h' : Visits order' s) : order.Perm order' :=
  (List.perm_ext_iff_of_nodup h.nodup h'.nodup).2 fun k => (h.mem_iff k).trans (h'.mem_iff k).symm

/-- Two loops over one map meet the same entries. -/
theorem Visits.walk_perm {s : Finmap fun _ : K => V} {order order' : List K} (h : Visits order s)
    (h' : Visits order' s) : (s.walk order).Perm (s.walk order') :=
  (h.perm h').filterMap _

/-- The test `any` holds of a map when some entry passes it. -/
theorem any_iff (p : K → V → Bool) (s : Finmap fun _ : K => V) :
    s.any p = true ↔ ∃ k v, s.lookup k = some v ∧ p k v = true := by
  have hfold : ∀ (l : List (Sigma fun _ : K => V)) (b : Bool),
      l.foldl (fun d e => d || p e.1 e.2) b = (b || l.any fun e => p e.1 e.2) := by
    intro l
    induction l with
    | nil => simp
    | cons e l ih => intro b; rw [List.foldl_cons, ih, List.any_cons, Bool.or_assoc]
  induction s using Finmap.induction_on with
  | H a =>
      have ha : Finmap.any p (AList.toFinmap a) = a.entries.any fun e => p e.1 e.2 :=
        (hfold a.entries false).trans (Bool.false_or _)
      rw [ha, List.any_eq_true]
      constructor
      · rintro ⟨⟨k, v⟩, he, hp⟩
        exact ⟨k, v, lookup_eq_some_iff.2 he, hp⟩
      · rintro ⟨k, v, hkv, hp⟩
        exact ⟨⟨k, v⟩, lookup_eq_some_iff.1 hkv, hp⟩

/-- Every lookup after an insertion. -/
theorem lookup_insert_eq (s : Finmap fun _ : K => V) (k k' : K) (v : V) :
    (s.insert k v).lookup k' = if k' = k then some v else s.lookup k' := by
  by_cases hk : k' = k
  · rw [if_pos hk, hk, lookup_insert]
  · rw [if_neg hk, lookup_insert_of_ne _ hk]

/-- Every lookup after an erasure. -/
theorem lookup_erase_eq (s : Finmap fun _ : K => V) (k k' : K) :
    (s.erase k).lookup k' = if k' = k then none else s.lookup k' := by
  by_cases hk : k' = k
  · rw [if_pos hk, hk, lookup_erase]
  · rw [if_neg hk, lookup_erase_ne hk]

end Finmap
