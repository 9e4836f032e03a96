import Mathlib.Order.Bounds.Basic
import Mathlib.Data.Nat.Find

/-! # Weighted routes

Routes along a relation `edge u v c`, read as a step from `u` to `v` at cost
`c`, with their total cost, and the least such cost. `Route.frontier` is the
one fact behind Dijkstra's algorithm: a route that leaves a set crosses its
border somewhere. -/

namespace Ns3Routing.Lib

variable {V : Type*} {edge : V → V → ℕ → Prop} {u v w : V} {c d : ℕ}

/-- There is a route from `u` to `v` of total cost `c`. -/
inductive Route (edge : V → V → ℕ → Prop) (u : V) : V → ℕ → Prop where
  | refl : Route edge u u 0
  | tail {v w : V} {c d : ℕ} (front : Route edge u v c) (last : edge v w d) :
      Route edge u w (c + d)

/-- The least cost of a route from `u` to `v`. -/
def IsDistance (edge : V → V → ℕ → Prop) (u v : V) (d : ℕ) : Prop :=
  IsLeast {c | Route edge u v c} d

theorem Route.single (h : edge u v c) : Route edge u v c :=
  Nat.zero_add c ▸ Route.refl.tail h

theorem Route.head (h : edge u v c) (r : Route edge v w d) : Route edge u w (c + d) := by
  induction r with
  | refl => exact .single h
  | tail _ last ih => exact Nat.add_assoc _ _ _ ▸ ih.tail last

/-- A route that leaves a set has a step out of it. -/
theorem Route.frontier {S : V → Prop} (r : Route edge u v c) (hu : S u) (hv : ¬ S v) :
    ∃ x z c₁ a c₂, S x ∧ ¬ S z ∧ Route edge u x c₁ ∧ edge x z a ∧ Route edge z v c₂ ∧
      c = c₁ + a + c₂ := by
  induction r with
  | refl => exact absurd hu hv
  | @tail x v c d front last ih =>
    by_cases hx : S x
    · exact ⟨x, v, c, d, 0, hx, hv, front, last, .refl, rfl⟩
    · obtain ⟨y, z, c₁, a, c₂, hy, hz, ry, hyz, rz, hc⟩ := ih hx
      exact ⟨y, z, c₁, a, c₂ + d, hy, hz, ry, hyz, rz.tail last, by omega⟩

theorem Route.mono {edge' : V → V → ℕ → Prop} (h : ∀ u v c, edge u v c → edge' u v c)
    (r : Route edge u v c) : Route edge' u v c := by
  induction r with
  | refl => exact .refl
  | tail _ last ih => exact ih.tail (h _ _ _ last)

/-- A route along cheaper steps is cheaper; steps that stay where they are may
be left out. -/
theorem Route.cheaper {edge' : V → V → ℕ → Prop}
    (h : ∀ u v c, edge u v c → u = v ∨ ∃ c' ≤ c, edge' u v c') (r : Route edge u v c) :
    ∃ c' ≤ c, Route edge' u v c' := by
  induction r with
  | refl => exact ⟨0, le_rfl, .refl⟩
  | @tail x w c d _ last ih =>
    obtain ⟨c', hc', front⟩ := ih
    rcases h x w d last with rfl | ⟨d', hd', last'⟩
    · exact ⟨c', by omega, front⟩
    · exact ⟨c' + d', by omega, front.tail last'⟩

/-- With steps of cost at least 1, only the empty route is free. -/
theorem Route.pos (hpos : ∀ u v c, edge u v c → 1 ≤ c) (r : Route edge u v c) (h : u ≠ v) :
    1 ≤ c := by
  cases r with
  | refl => exact absurd rfl h
  | tail _ last => exact Nat.le_add_left_of_le (hpos _ _ _ last)

theorem Route.exists_isDistance (r : Route edge u v c) : ∃ d, IsDistance edge u v d := by
  classical
  have h : ∃ c, Route edge u v c := ⟨c, r⟩
  exact ⟨Nat.find h, Nat.find_spec h, fun _ hc => Nat.find_min' h hc⟩

theorem IsDistance.refl (u : V) : IsDistance edge u u 0 := ⟨.refl, fun _ _ => Nat.zero_le _⟩

theorem IsDistance.unique {d' : ℕ} (h : IsDistance edge u v d) (h' : IsDistance edge u v d') :
    d = d' := IsLeast.unique h h'

/-- Two relations whose routes are as cheap have the same least costs. -/
theorem IsDistance.transfer {edge' : V → V → ℕ → Prop} (h : IsDistance edge u v d)
    (sub : ∀ u v c, edge u v c → edge' u v c)
    (cheaper : ∀ u v c, edge' u v c → u = v ∨ ∃ c' ≤ c, edge u v c') : IsDistance edge' u v d := by
  refine ⟨h.1.mono sub, fun c r => ?_⟩
  obtain ⟨c', hc', r'⟩ := Route.cheaper cheaper r
  exact (h.2 r').trans hc'

/-- The rest of a shortest route is a shortest route. -/
theorem IsDistance.of_head (h : IsDistance edge u w (c + d)) (hc : edge u v c)
    (r : Route edge v w d) : IsDistance edge v w d :=
  ⟨r, fun _ r' => Nat.le_of_add_le_add_left (h.2 (Route.head hc r'))⟩

end Ns3Routing.Lib
