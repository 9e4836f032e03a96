import Ns3Routing.Lib.OptionFold
import Ns3Routing.Ls.Protocol

/-! # The entries of the routing table

`Dijkstra` writes an entry in three places: for this node itself, for a
neighbour, and for the way through a node that is finished.
`dijkstra_entries` is the rule this gives for what every entry satisfies,
whatever the tables. -/

namespace Ns3Routing.Ls

open Lib

section Entries
variable {cfg : NodeConfig} {n : Node} {rt rt' : RoutingTable}

/-- The entry for the way through a finished node with entry `here`. -/
def throughEntry (here : RoutingTableEntry) (hop : NeighborTableEntry) (destAddr : Ipv4Address)
    (cost : UInt32) : RoutingTableEntry where
  destAddr := destAddr
  nextHopNum := here.nextHopAddr
  nextHopAddr := here.nextHopAddr
  interfaceAddr := hop.interfaceAddr
  cost := cost

/-- What one pass of the inner loop writes, if it writes. -/
theorem relax_entry {current : String} {a : Ipv4Address} (h : relax cfg n current rt a = some rt') :
    rt' = rt ∨ ∃ here hop w destAddr, rt[current]? = some here ∧
      distanceToNeighbor cfg n current (cfg.reverseLookup a) = some w ∧
      n.neighborTable[cfg.reverseLookup here.nextHopAddr]? = some hop ∧
      (destAddr = a ∧ here.cost + w < intMax ∨ ∃ e, rt[cfg.reverseLookup a]? = some e ∧
        destAddr = e.destAddr ∧ here.cost + w < e.cost) ∧
      ∀ J : String, rt'[J]? = if cfg.reverseLookup a = J then
        some (throughEntry here hop destAddr (here.cost + w)) else rt[J]? := by
  simp only [relax, Option.bind_eq_bind, Option.bind_eq_some_iff] at h
  obtain ⟨here, hcur, w, hw, h⟩ := h
  cases hold : rt[cfg.reverseLookup a]? with
  | none =>
    simp only [hold] at h
    split at h
    · rename_i hlt
      obtain ⟨hop, hhop, h⟩ := Option.bind_eq_some_iff.mp h
      obtain rfl := Option.some.inj h
      refine Or.inr ⟨here, hop, w, a, hcur, hw, hhop, Or.inl ⟨rfl, hlt⟩, fun J => ?_⟩
      simp only [getElem?_insertIfNew_eq, hold, and_true, throughEntry]
    · exact Or.inl (Option.some.inj h).symm
  | some e =>
    simp only [hold] at h
    split at h
    · rename_i hlt
      obtain ⟨hop, hhop, h⟩ := Option.bind_eq_some_iff.mp h
      obtain rfl := Option.some.inj h
      exact Or.inr ⟨here, hop, w, e.destAddr, hcur, hw, hhop, Or.inr ⟨e, rfl, rfl, hlt⟩,
        fun J => getElem?_insert_eq⟩
    · exact Or.inl (Option.some.inj h).symm

/-- What a neighbour enters the table with. -/
theorem initNeighbor_entry {a : Ipv4Address} (h : initNeighbor cfg n rt a = some rt') :
    ∃ hop cost, n.neighborTable[cfg.reverseLookup a]? = some hop ∧
      distanceToNeighbor cfg n cfg.thisNode (cfg.reverseLookup a) = some cost ∧
      rt' = rt.insertIfNew (cfg.reverseLookup a) ⟨a, a, a, hop.interfaceAddr, cost⟩ := by
  simp only [initNeighbor, Option.bind_eq_bind, Option.bind_eq_some_iff] at h
  obtain ⟨hop, hhop, cost, hcost, h⟩ := h
  exact ⟨hop, cost, hhop, hcost, (Option.some.inj h).symm⟩

/-- Every entry satisfies `P`. -/
def AllEntries (P : String → RoutingTableEntry → Prop) (rt : RoutingTable) : Prop :=
  ∀ (K : String) e, rt[K]? = some e → P K e

theorem AllEntries.set {P : String → RoutingTableEntry → Prop} {K : String} {entry : RoutingTableEntry}
    (h : AllEntries P rt) (hentry : P K entry)
    (hget : ∀ J : String, rt'[J]? = if K = J then some entry else rt[J]?) : AllEntries P rt' := by
  intro J e he
  rw [hget] at he
  split at he
  · rename_i hJ
    obtain rfl := Option.some.inj he
    exact hJ ▸ hentry
  · exact h J e he

theorem AllEntries.insertIfNew {P : String → RoutingTableEntry → Prop} {K : String}
    {entry : RoutingTableEntry} (h : AllEntries P rt) (hentry : P K entry) :
    AllEntries P (rt.insertIfNew K entry) := by
  intro J e he
  rw [getElem?_insertIfNew_eq] at he
  split at he
  · rename_i hJ
    obtain rfl := Option.some.inj he
    exact hJ.1 ▸ hentry
  · exact h J e he

section Rule
variable {P : String → RoutingTableEntry → Prop}
  (relaxed : ∀ current a here hop w destAddr, a ∈ getNeighbors n current → P current here →
    distanceToNeighbor cfg n current (cfg.reverseLookup a) = some w →
    n.neighborTable[cfg.reverseLookup here.nextHopAddr]? = some hop →
    (destAddr = a ∧ here.cost + w < intMax ∨ ∃ e, P (cfg.reverseLookup a) e ∧
      destAddr = e.destAddr ∧ here.cost + w < e.cost) →
    P (cfg.reverseLookup a) (throughEntry here hop destAddr (here.cost + w)))
include relaxed

theorem AllEntries.relaxAll {current : String}
    (h : (getNeighbors n current).foldlM (relax cfg n current) rt = some rt')
    (hrt : AllEntries P rt) : AllEntries P rt' := by
  refine foldlM_invariant (AllEntries P) ?_ h hrt
  intro rt a rt' ha hrt hstep
  rcases relax_entry hstep with rfl | ⟨here, hop, w, destAddr, hcur, hw, hhop, hwon, hget⟩
  · exact hrt
  · refine hrt.set (relaxed current a here hop w destAddr ha (hrt _ _ hcur) hw hhop ?_) hget
    rcases hwon with hnew | ⟨e, he, hold⟩
    · exact Or.inl hnew
    · exact Or.inr ⟨e, hrt _ _ he, hold⟩

theorem AllEntries.finishNodes {k : ℕ} {st st' : Search} (h : finishNodes cfg n k st = some st')
    (hst : AllEntries P st.routingTable) : AllEntries P st'.routingTable := by
  induction k generalizing st with
  | zero =>
    obtain rfl := Option.some.inj h
    exact hst
  | succ k ih =>
    simp only [Ls.finishNodes, finishNode, Option.bind_eq_bind, Option.bind_eq_some_iff] at h
    obtain ⟨st₁, ⟨current, _, _, _, rt, hrt, h₁⟩, h⟩ := h
    obtain rfl := Option.some.inj h₁
    exact ih h (AllEntries.relaxAll relaxed hrt hst)

/-- **The rule for entries.** -/
theorem dijkstra_entries (self : P cfg.thisNode (selfEntry cfg))
    (neighbor : ∀ a hop cost, a ∈ getNeighbors n cfg.thisNode →
      n.neighborTable[cfg.reverseLookup a]? = some hop →
      distanceToNeighbor cfg n cfg.thisNode (cfg.reverseLookup a) = some cost →
      P (cfg.reverseLookup a) ⟨a, a, a, hop.interfaceAddr, cost⟩)
    (h : dijkstra cfg n = some rt) : AllEntries P rt := by
  simp only [dijkstra, initSearch, Option.bind_eq_bind, Option.bind_eq_some_iff] at h
  obtain ⟨st₀, ⟨rt₀, hrt₀, _, _, hst₀⟩, st, hst, h⟩ := h
  obtain rfl := Option.some.inj hst₀
  obtain rfl := Option.some.inj h
  refine AllEntries.finishNodes relaxed hst (foldlM_invariant (AllEntries P) ?_ hrt₀ ?_)
  · intro rt a rt' ha hrt hstep
    obtain ⟨hop, cost, hhop, hcost, rfl⟩ := initNeighbor_entry hstep
    exact hrt.insertIfNew (neighbor a hop cost ha hhop hcost)
  · exact AllEntries.insertIfNew (fun K e he => by simp at he) self

end Rule

end Entries

end Ns3Routing.Ls
