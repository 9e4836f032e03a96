import Mathlib.Combinatorics.SimpleGraph.Metric

/-! # Following next hops

When every vertex within some distance of a target has a next hop that is one
step closer, following next hops is a path to the target. -/

namespace Ns3Routing.Lib

variable {V : Type*} {G : SimpleGraph V} {u v : V}

/-- A vertex at finite distance has a neighbour one step closer. -/
theorem exists_adj_of_edist_succ {d : ℕ} (h : G.edist u v = d + 1) :
    ∃ w, G.Adj u w ∧ G.edist w v = d := by
  have hcast : G.edist u v = ((d + 1 : ℕ) : ℕ∞) := h
  obtain ⟨p, hp⟩ := SimpleGraph.exists_walk_of_edist_eq_coe hcast
  cases p with
  | nil => cases hp
  | @cons _ w _ hadj q =>
    rw [SimpleGraph.Walk.length_cons, Nat.add_right_cancel_iff] at hp
    refine ⟨w, hadj, le_antisymm (hp ▸ SimpleGraph.edist_le q) ?_⟩
    have htri := G.edist_triangle (u := u) (v := w) (w := v)
    rw [h, SimpleGraph.edist_eq_one_iff_adj.mpr hadj, add_comm] at htri
    exact (ENat.add_le_add_iff_left ENat.one_ne_top).mp htri

theorem edist_le_succ {w : V} (h : G.Adj u w) : G.edist u v ≤ G.edist w v + 1 := by
  have htri := G.edist_triangle (u := u) (v := w) (w := v)
  rwa [SimpleGraph.edist_eq_one_iff_adj.mpr h, add_comm] at htri

theorem exists_path_of_descent {b : ℕ} (hop : V → V → Prop)
    (closer : ∀ u, u ≠ v → G.edist u v < b →
      ∃ w, hop u w ∧ G.Adj u w ∧ G.edist w v + 1 = G.edist u v)
    (hu : G.edist u v < b) :
    ∃ p : G.Walk u v, p.IsPath ∧ ∀ d ∈ p.darts, hop d.fst d.snd := by
  -- the walk has the length of a shortest one, so it is a path
  suffices h : ∀ d : ℕ, ∀ u, G.edist u v = d → d < b →
      ∃ p : G.Walk u v, p.length = d ∧ ∀ d ∈ p.darts, hop d.fst d.snd by
    obtain ⟨d, hd⟩ := ENat.ne_top_iff_exists.mp hu.ne_top
    rw [← hd, Nat.cast_lt] at hu
    obtain ⟨p, hp, hhop⟩ := h d u hd.symm hu
    refine ⟨p, p.isPath_of_length_eq_dist ?_, hhop⟩
    rw [hp, SimpleGraph.dist, ← hd, ENat.toNat_natCast]
  intro d
  induction d with
  | zero =>
    intro u hd _
    obtain rfl := SimpleGraph.edist_eq_zero_iff.mp hd
    exact ⟨.nil, rfl, by simp⟩
  | succ d ih =>
    intro u hd hb
    have hne : u ≠ v := by
      intro he
      obtain rfl := he
      rw [SimpleGraph.edist_self] at hd
      exact absurd hd.symm (Nat.cast_ne_zero.mpr (Nat.succ_ne_zero d))
    obtain ⟨w, hhop, hadj, hw⟩ := closer u hne (by rw [hd]; exact_mod_cast hb)
    have hwd : G.edist w v = d := by
      rw [hd, Nat.cast_add, Nat.cast_one] at hw
      exact ENat.add_left_injective_of_ne_top ENat.one_ne_top hw
    obtain ⟨p, hp, hrest⟩ := ih w hwd (by omega)
    refine ⟨.cons hadj p, by rw [SimpleGraph.Walk.length_cons, hp], ?_⟩
    intro dart hdart
    rw [SimpleGraph.Walk.darts_cons, List.mem_cons] at hdart
    rcases hdart with rfl | hdart
    · exact hhop
    · exact hrest dart hdart

end Ns3Routing.Lib
