import Mathlib.Algebra.Order.BigOperators.Ring.Finset
import Mathlib.Data.String.Basic
import Ns3Routing.Lib.OptionFold
import Ns3Routing.Lib.Route
import Ns3Routing.Ls.Protocol

/-! # What `Dijkstra` computes

`Dijkstra` runs its main loop once for every entry of `m_lsTable` but this
node's own, reachable or not. `Ready` is when that works: every node with an
entry can be reached, and nodes that have none are listed at most by the node
that is finished last. Then every iteration finishes the closest unfinished
node, no lookup fails, and every entry has the least cost and the first hop
of a route of that cost. -/

namespace Ns3Routing.Ls

open Lib

section Links
variable (cfg : NodeConfig) (n : Node)

/-- The entry of `K` lists `L`. -/
def Lists (K L : String) : Prop := ∃ a ∈ getNeighbors n K, cfg.reverseLookup a = L

/-- The entry of `K` lists another node `L` at cost `c`. -/
def Link (K L : String) (c : ℕ) : Prop :=
  K ≠ L ∧ Lists cfg n K L ∧ ∃ w, distanceToNeighbor cfg n K L = some w ∧ w.toNat = c

/-- The sum of the costs in the entry of `K`. -/
def listedCost (K : String) : ℕ :=
  match n.lsTable[K]? with
  | none => 0
  | some entry => (entry.neighborCosts.map (·.2.toNat)).sum

/-- The sum of the costs in all entries. -/
def totalCost : ℕ := (n.lsTable.keys.map (listedCost n)).sum

end Links

section Links
variable {cfg : NodeConfig} {n : Node} {K L : String}

theorem Lists.mem (h : Lists cfg n K L) : K ∈ n.lsTable := by
  obtain ⟨a, ha, _⟩ := h
  unfold getNeighbors at ha
  cases hK : n.lsTable[K]? with
  | none => rw [hK] at ha; cases ha
  | some entry => exact mem_iff_getElem?.mpr ⟨entry, hK⟩

theorem Lists.distance (h : Lists cfg n K L) (hne : K ≠ L) :
    ∃ entry, n.lsTable[K]? = some entry ∧ ∃ i ∈ entry.neighborCosts,
      distanceToNeighbor cfg n K L = some i.2 := by
  obtain ⟨a, ha, hL⟩ := h
  unfold getNeighbors at ha
  cases hK : n.lsTable[K]? with
  | none => rw [hK] at ha; cases ha
  | some entry =>
    rw [hK] at ha
    obtain ⟨j, hj, rfl⟩ := List.mem_map.mp ha
    rw [distanceToNeighbor, if_neg hne, hK]
    cases hfind : entry.neighborCosts.find? fun i => cfg.reverseLookup i.1 == L with
    | none =>
      have := List.find?_eq_none.mp hfind j hj
      simp [hL] at this
    | some i => exact ⟨entry, rfl, i, List.mem_of_find?_eq_some hfind, by simp [hfind]⟩

theorem Lists.exists_link (h : Lists cfg n K L) (hne : K ≠ L) :
    ∃ w, distanceToNeighbor cfg n K L = some w ∧ Link cfg n K L w.toNat ∧
      w.toNat ≤ listedCost n K := by
  obtain ⟨entry, hK, i, hi, hw⟩ := h.distance hne
  refine ⟨i.2, hw, ⟨hne, h, i.2, hw, rfl⟩, ?_⟩
  rw [listedCost, hK]
  exact List.le_sum_of_mem (List.mem_map_of_mem (f := fun i : Ipv4Address × UInt32 => i.2.toNat) hi)

theorem Link.cost_eq {w : UInt32} {c : ℕ} (h : Link cfg n K L c)
    (hw : distanceToNeighbor cfg n K L = some w) : c = w.toNat := by
  obtain ⟨_, _, w', hw', rfl⟩ := h
  rw [hw] at hw'
  rw [Option.some.inj hw']

theorem Link.one_le (hcosts : ∀ (K : String) entry, n.lsTable[K]? = some entry →
    ∀ x ∈ entry.neighborCosts, 1 ≤ x.2) {c : ℕ} (h : Link cfg n K L c) : 1 ≤ c := by
  obtain ⟨hne, hlists, w, hw, rfl⟩ := h
  obtain ⟨entry, hentry, x, hx, hw'⟩ := hlists.distance hne
  rw [hw] at hw'
  obtain rfl := Option.some.inj hw'
  exact UInt32.le_iff_toNat_le.mp (hcosts K entry hentry x hx)

end Links

/-! ## `GetMinCostNode` -/

section MinCost
variable {found : NameMap Bool}

/-- The order in which nodes are finished: by cost, then by name. -/
def Precedes (K : String) (c : ℕ) (L : String) (d : ℕ) : Prop := c < d ∨ c = d ∧ K < L

theorem considerNode_some {acc : Closest} {i : String × RoutingTableEntry} {b : Bool}
    (hb : found[i.1]? = some b) :
    considerNode found acc i =
      some (if b = false ∧ i.2.cost < acc.min then ⟨i.2.cost, i.1⟩ else acc) := by
  rw [considerNode, hb]
  by_cases h : b = false ∧ i.2.cost < acc.min
  · simp [h]
  · simp [h]

/-- The loop of `GetMinCostNode` over the rest `l` of the routing table. -/
theorem considerNodes_spec {l : List (String × RoutingTableEntry)} (acc : Closest)
    (sorted : l.Pairwise fun i j => i.1 < j.1) (known : ∀ i ∈ l, ∃ b, found[i.1]? = some b) :
    ∃ res, l.foldlM (considerNode found) acc = some res ∧
      ((res = acc ∧ ∀ i ∈ l, found[i.1]? = some false → acc.min ≤ i.2.cost) ∨
        ∃ i ∈ l, found[i.1]? = some false ∧ res = ⟨i.2.cost, i.1⟩ ∧ i.2.cost < acc.min ∧
          ∀ j ∈ l, found[j.1]? = some false → j.1 ≠ i.1 →
            Precedes i.1 i.2.cost.toNat j.1 j.2.cost.toNat) := by
  induction l generalizing acc with
  | nil => exact ⟨acc, rfl, Or.inl ⟨rfl, nofun⟩⟩
  | cons x l ih =>
    obtain ⟨hx, hl⟩ := List.pairwise_cons.mp sorted
    obtain ⟨b, hb⟩ := known x List.mem_cons_self
    have known' : ∀ i ∈ l, ∃ b, found[i.1]? = some b :=
      fun i hi => known i (List.mem_cons_of_mem _ hi)
    rw [List.foldlM_cons, considerNode_some hb]
    by_cases htake : b = false ∧ x.2.cost < acc.min
    · -- `x` is closer than everything before it
      rw [if_pos htake]
      obtain ⟨res, hres, hcases⟩ := ih ⟨x.2.cost, x.1⟩ hl known'
      refine ⟨res, hres, Or.inr ?_⟩
      rcases hcases with ⟨rfl, hmin⟩ | ⟨i, hi, hfi, hres, hlt, hfirst⟩
      · refine ⟨x, List.mem_cons_self, htake.1 ▸ hb, rfl, htake.2, ?_⟩
        intro j hj hfj hne
        rcases List.mem_cons.mp hj with rfl | hj
        · exact absurd rfl hne
        · rcases (UInt32.le_iff_toNat_le.mp (hmin j hj hfj)).lt_or_eq with hlt | heq
          · exact Or.inl hlt
          · exact Or.inr ⟨heq, hx j hj⟩
      · refine ⟨i, List.mem_cons_of_mem _ hi, hfi, hres, UInt32.lt_trans hlt htake.2, ?_⟩
        intro j hj hfj hne
        rcases List.mem_cons.mp hj with rfl | hj
        · exact Or.inl (UInt32.lt_iff_toNat_lt.mp hlt)
        · exact hfirst j hj hfj hne
    · rw [if_neg htake]
      have hskip : found[x.1]? = some false → acc.min ≤ x.2.cost := by
        intro hfx
        rw [hb] at hfx
        exact UInt32.not_lt.mp fun hlt => htake ⟨Option.some.inj hfx, hlt⟩
      obtain ⟨res, hres, hcases⟩ := ih acc hl known'
      refine ⟨res, hres, ?_⟩
      rcases hcases with ⟨rfl, hmin⟩ | ⟨i, hi, hfi, hres, hlt, hfirst⟩
      · refine Or.inl ⟨rfl, fun j hj hfj => ?_⟩
        rcases List.mem_cons.mp hj with rfl | hj
        · exact hskip hfj
        · exact hmin j hj hfj
      · refine Or.inr ⟨i, List.mem_cons_of_mem _ hi, hfi, hres, hlt, ?_⟩
        intro j hj hfj hne
        rcases List.mem_cons.mp hj with rfl | hj
        · exact Or.inl (UInt32.lt_iff_toNat_lt.mp (UInt32.lt_of_lt_of_le hlt (hskip hfj)))
        · exact hfirst j hj hfj hne

/-- When every node of the routing table is known and one is left, the first
one left is found. -/
theorem getMinCostNode_spec {rt : RoutingTable}
    (known : ∀ (K : String) e, rt[K]? = some e → ∃ b, found[K]? = some b) {L : String}
    {e' : RoutingTableEntry} (hL : rt[L]? = some e') (hfL : found[L]? = some false)
    (hlt : e'.cost < intMax) :
    ∃ K e, getMinCostNode rt found = some K ∧ rt[K]? = some e ∧ found[K]? = some false ∧
      ∀ (J : String) e'', rt[J]? = some e'' → found[J]? = some false → J ≠ K →
        Precedes K e.cost.toNat J e''.cost.toNat := by
  have sorted : rt.toList.Pairwise fun i j => i.1 < j.1 :=
    (Std.ExtTreeMap.ordered_keys_toList (t := rt)).imp compare_lt_iff_lt.mp
  obtain ⟨res, hres, hcases⟩ := considerNodes_spec ⟨intMax, ""⟩ sorted
    fun i hi => known i.1 i.2 (mem_toList.mp hi)
  rcases hcases with ⟨_, hmin⟩ | ⟨i, hi, hfi, rfl, _, hfirst⟩
  · exact absurd hlt (UInt32.not_lt.mpr (hmin (L, e') (mem_toList.mpr hL) hfL))
  · refine ⟨i.1, i.2, by rw [getMinCostNode, hres]; rfl, mem_toList.mp hi, hfi, ?_⟩
    intro J e'' hJ hfJ hne
    exact hfirst (J, e'') (mem_toList.mpr hJ) hfJ hne

end MinCost

/-! ## When `Dijkstra` works -/

section Ready
variable (cfg : NodeConfig) (n : Node)

/-- The least cost of a route from this node. -/
abbrev Dist (K : String) (d : ℕ) : Prop := IsDistance (Link cfg n) cfg.thisNode K d

/-- Node `K` is finished before node `L`. -/
def Before (K L : String) : Prop := ∃ c d, Dist cfg n K c ∧ Dist cfg n L d ∧ Precedes K c L d

structure Ready : Prop where
  self : cfg.thisNode ∈ n.lsTable
  neighbors : ∀ K, Lists cfg n cfg.thisNode K → K ∈ n.neighborTable
  costs : ∀ K L c, Link cfg n K L c → 1 ≤ c
  total : totalCost n < 2 ^ 31 - 1
  reachable : ∀ K : String, K ∈ n.lsTable → ∃ c, Route (Link cfg n) cfg.thisNode K c
  /-- Only the node that is finished last may list nodes without an entry. -/
  listed : ∀ K L M : String, L ∈ n.lsTable → Before cfg n K L → Lists cfg n K M → M ∈ n.lsTable

/-- What the search needs: every listed node has an entry, or links cost
something and only the last node may list others. -/
structure Searchable : Prop where
  self : cfg.thisNode ∈ n.lsTable
  neighbors : ∀ K, Lists cfg n cfg.thisNode K → K ∈ n.neighborTable
  total : totalCost n < 2 ^ 31 - 1
  reachable : ∀ K : String, K ∈ n.lsTable → ∃ c, Route (Link cfg n) cfg.thisNode K c
  listed : (∀ K M, Lists cfg n K M → M ∈ n.lsTable) ∨
    (∀ K L c, Link cfg n K L c → 1 ≤ c) ∧
      ∀ K L M : String, L ∈ n.lsTable → Before cfg n K L → Lists cfg n K M → M ∈ n.lsTable

/-- The entry for `K` has the first hop of a route of its cost. -/
def Via (K : String) (e : RoutingTableEntry) : Prop :=
  ∃ N c₁ c₂ hop, Link cfg n cfg.thisNode N c₁ ∧ Route (Link cfg n) N K c₂ ∧
    e.cost.toNat = c₁ + c₂ ∧ cfg.reverseLookup e.nextHopAddr = N ∧
    n.neighborTable[N]? = some hop ∧ e.interfaceAddr = hop.interfaceAddr

/-- The routing table while the nodes in `F` are finished. -/
structure Tentative (F : Finset String) (rt : RoutingTable) : Prop where
  self : rt[cfg.thisNode]? = some (selfEntry cfg)
  via : ∀ (K : String) e, rt[K]? = some e → K ≠ cfg.thisNode → Via cfg n K e
  bound : ∀ (K : String) e, rt[K]? = some e → e.cost.toNat ≤ ∑ J ∈ F, listedCost n J
  least : ∀ K ∈ F, ∃ e, rt[K]? = some e ∧ Dist cfg n K e.cost.toNat
  source : ∀ (K : String) e, rt[K]? = some e → K = cfg.thisNode ∨ ∃ J ∈ F, Lists cfg n J K
  hop : ∀ (K : String) e, rt[K]? = some e → K ≠ cfg.thisNode →
    e.nextHopAddr ∈ getNeighbors n cfg.thisNode

/-- The search after the nodes in `F` are finished. -/
structure Searching (F : Finset String) (st : Search) : Prop where
  tentative : Tentative cfg n F st.routingTable
  self : cfg.thisNode ∈ F
  sub : ∀ K ∈ F, K ∈ n.lsTable
  found : ∀ K : String, st.leastCostFound[K]? = if K ∈ n.lsTable then some (decide (K ∈ F)) else none
  relaxed : ∀ K ∈ F, ∀ L c, Link cfg n K L c →
    ∃ d e, Dist cfg n K d ∧ st.routingTable[L]? = some e ∧ e.cost.toNat ≤ d + c
  /-- With links that cost something, nodes are finished in order. -/
  order : (∀ K L c, Link cfg n K L c → 1 ≤ c) →
    ∀ K ∈ F, ∀ L : String, L ∈ n.lsTable → L ∉ F → Before cfg n K L

end Ready

section Search
variable {cfg : NodeConfig} {n : Node} {F : Finset String} {rt rt' : RoutingTable}

/-- Costs only go down. -/
def Lower (rt rt' : RoutingTable) : Prop :=
  ∀ (K : String) e, rt[K]? = some e → ∃ e', rt'[K]? = some e' ∧ e'.cost.toNat ≤ e.cost.toNat

theorem Lower.refl (rt : RoutingTable) : Lower rt rt := fun _ e he => ⟨e, he, le_rfl⟩

theorem Lower.trans {rt'' : RoutingTable} (h : Lower rt rt') (h' : Lower rt' rt'') :
    Lower rt rt'' := by
  intro K e he
  obtain ⟨e', he', hle⟩ := h K e he
  obtain ⟨e'', he'', hle'⟩ := h' K e' he'
  exact ⟨e'', he'', hle'.trans hle⟩

theorem Ready.searchable (h : Ready cfg n) : Searchable cfg n :=
  ⟨h.self, h.neighbors, h.total, h.reachable, Or.inr ⟨h.costs, h.listed⟩⟩

theorem Via.route {K : String} {e : RoutingTableEntry} (h : Via cfg n K e) :
    Route (Link cfg n) cfg.thisNode K e.cost.toNat := by
  obtain ⟨N, c₁, c₂, hop, hlink, hroute, hcost, _⟩ := h
  rw [hcost]
  exact hroute.head hlink

theorem Via.tail {K L : String} {e entry : RoutingTableEntry} {w : ℕ} (h : Via cfg n K e)
    (hlink : Link cfg n K L w) (hcost : entry.cost.toNat = e.cost.toNat + w)
    (hnext : entry.nextHopAddr = e.nextHopAddr) (hif : entry.interfaceAddr = e.interfaceAddr) :
    Via cfg n L entry := by
  obtain ⟨N, c₁, c₂, hop, hfirst, hroute, hsum, hname, hhop, hhopif⟩ := h
  refine ⟨N, c₁, c₂ + w, hop, hfirst, hroute.tail hlink, ?_, by rw [hnext, hname], hhop,
    hif.trans hhopif⟩
  rw [hcost, hsum, Nat.add_assoc]

theorem Tentative.route (h : Tentative cfg n F rt) {K : String} {e : RoutingTableEntry}
    (he : rt[K]? = some e) : Route (Link cfg n) cfg.thisNode K e.cost.toNat := by
  by_cases hK : K = cfg.thisNode
  · subst hK
    rw [h.self] at he
    obtain rfl := Option.some.inj he
    exact .refl
  · exact (h.via K e he hK).route

/-! ### Relaxing -/

/-- What one pass of the inner loop does: the way through `current` is taken
when it is shorter. -/
theorem relax_cases {current : String} {a : Ipv4Address} {here : RoutingTableEntry}
    {hop : NeighborTableEntry} {w : UInt32} (hcur : rt[current]? = some here)
    (hw : distanceToNeighbor cfg n current (cfg.reverseLookup a) = some w)
    (hhop : n.neighborTable[cfg.reverseLookup here.nextHopAddr]? = some hop) :
    ∃ rt', relax cfg n current rt a = some rt' ∧
      ((∃ entry, (∀ J : String, rt'[J]? = if cfg.reverseLookup a = J then some entry else rt[J]?) ∧
          entry.nextHopAddr = here.nextHopAddr ∧ entry.interfaceAddr = hop.interfaceAddr ∧
          entry.cost = here.cost + w ∧
          ∀ e, rt[cfg.reverseLookup a]? = some e → here.cost + w < e.cost) ∨
        rt' = rt ∧ (rt[cfg.reverseLookup a]? = none → intMax ≤ here.cost + w) ∧
          ∀ e, rt[cfg.reverseLookup a]? = some e → e.cost ≤ here.cost + w) := by
  unfold relax
  simp only [hcur, hw, hhop, Option.bind_eq_bind, Option.bind_some]
  cases hold : rt[cfg.reverseLookup a]? with
  | none =>
    dsimp only
    by_cases hlt : here.cost + w < intMax
    · rw [if_pos hlt]
      refine ⟨_, rfl, Or.inl ⟨⟨a, here.nextHopAddr, here.nextHopAddr, hop.interfaceAddr,
        here.cost + w⟩, fun J => ?_, rfl, rfl, rfl, nofun⟩⟩
      simp only [getElem?_insertIfNew_eq, hold, and_true]
    · rw [if_neg hlt]
      exact ⟨rt, rfl, Or.inr ⟨rfl, fun _ => UInt32.not_lt.mp hlt, nofun⟩⟩
  | some e =>
    dsimp only
    by_cases hlt : here.cost + w < e.cost
    · rw [if_pos hlt]
      refine ⟨_, rfl, Or.inl ⟨_, fun J => getElem?_insert_eq, rfl, rfl, rfl, ?_⟩⟩
      rintro _ ⟨⟩
      exact hlt
    · rw [if_neg hlt]
      refine ⟨rt, rfl, Or.inr ⟨rfl, nofun, ?_⟩⟩
      rintro _ ⟨⟩
      exact UInt32.not_lt.mp hlt

theorem toNat_add_of_lt {a b : UInt32} {m : ℕ} (h : a.toNat + b.toNat ≤ m) (hm : m < 2 ^ 31 - 1) :
    (a + b).toNat = a.toNat + b.toNat ∧ a + b < intMax := by
  have hadd : (a + b).toNat = a.toNat + b.toNat := by
    rw [UInt32.toNat_add]
    omega
  refine ⟨hadd, ?_⟩
  rw [UInt32.lt_iff_toNat_lt, hadd]
  have : intMax.toNat = 2 ^ 31 - 1 := rfl
  omega

section Set
variable {K : String} {entry : RoutingTableEntry}
  (hget : ∀ J : String, rt'[J]? = if K = J then some entry else rt[J]?)
include hget

theorem Lower.set (hle : ∀ e, rt[K]? = some e → entry.cost.toNat ≤ e.cost.toNat) : Lower rt rt' := by
  intro J e he
  rw [hget]
  by_cases hJ : K = J
  · rw [if_pos hJ]
    exact ⟨entry, rfl, hle e (hJ ▸ he)⟩
  · rw [if_neg hJ]
    exact ⟨e, he, le_rfl⟩

/-- The entry of a node that is not finished is replaced. -/
theorem Tentative.set (h : Tentative cfg n F rt) (hF : K ∉ F) (hself : K ≠ cfg.thisNode)
    (via : Via cfg n K entry) (bound : entry.cost.toNat ≤ ∑ J ∈ F, listedCost n J)
    (source : ∃ J ∈ F, Lists cfg n J K) (hop : entry.nextHopAddr ∈ getNeighbors n cfg.thisNode) :
    Tentative cfg n F rt' := by
  -- an entry is the new one, or was there before
  have hcases : ∀ (J : String) e, rt'[J]? = some e → (J = K ∧ e = entry) ∨ rt[J]? = some e := by
    intro J e he
    rw [hget] at he
    split at he
    · rename_i hJ
      exact Or.inl ⟨hJ.symm, (Option.some.inj he).symm⟩
    · exact Or.inr he
  refine ⟨?_, ?_, ?_, ?_, ?_, ?_⟩
  · rw [hget, if_neg hself, h.self]
  · intro J e he hJ
    rcases hcases J e he with ⟨rfl, rfl⟩ | he
    · exact via
    · exact h.via J e he hJ
  · intro J e he
    rcases hcases J e he with ⟨rfl, rfl⟩ | he
    · exact bound
    · exact h.bound J e he
  · intro J hJ
    obtain ⟨e, he, hleast⟩ := h.least J hJ
    refine ⟨e, ?_, hleast⟩
    have hne : K ≠ J := fun hKJ => hF (hKJ ▸ hJ)
    rw [hget, if_neg hne, he]
  · intro J e he
    rcases hcases J e he with ⟨rfl, rfl⟩ | he
    · exact Or.inr source
    · exact h.source J e he
  · intro J e he hJ
    rcases hcases J e he with ⟨rfl, rfl⟩ | he
    · exact hop
    · exact h.hop J e he hJ

end Set

section Current
variable {current : String} {here : RoutingTableEntry} (hne : current ≠ cfg.thisNode)
  (hF : current ∈ F) (hcur : rt[current]? = some here) (hdist : Dist cfg n current here.cost.toNat)
  (room : here.cost.toNat + listedCost n current ≤ ∑ J ∈ F, listedCost n J)
  (small : ∑ J ∈ F, listedCost n J < 2 ^ 31 - 1)
include hne hF hcur hdist room small

/-- One pass of the inner loop. -/
theorem Tentative.relax (h : Tentative cfg n F rt) {a : Ipv4Address}
    (ha : a ∈ getNeighbors n current) :
    ∃ rt', Ls.relax cfg n current rt a = some rt' ∧ Tentative cfg n F rt' ∧ Lower rt rt' ∧
      rt'[current]? = some here ∧
      ∀ c, Link cfg n current (cfg.reverseLookup a) c →
        ∃ e, rt'[cfg.reverseLookup a]? = some e ∧ e.cost.toNat ≤ here.cost.toNat + c := by
  have hvia := h.via current here hcur hne
  obtain ⟨N, _, _, hop, _, _, _, hname, hhop, hif⟩ := id hvia
  rw [← hname] at hhop
  by_cases hself : current = cfg.reverseLookup a
  · -- a node that lists itself
    have hw : distanceToNeighbor cfg n current (cfg.reverseLookup a) = some 0 := if_pos hself
    obtain ⟨rt', hrt', ⟨_, _, _, _, _, hlt⟩ | ⟨rfl, _, _⟩⟩ := relax_cases hcur hw hhop
    · have := hlt here (hself ▸ hcur)
      rw [UInt32.add_zero] at this
      exact absurd this (UInt32.lt_irrefl _)
    · exact ⟨rt', hrt', h, Lower.refl _, hcur, fun c hl => absurd hself hl.1⟩
  · have hlists : Lists cfg n current (cfg.reverseLookup a) := ⟨a, ha, rfl⟩
    obtain ⟨w, hw, hlinkw, hwle⟩ := hlists.exists_link hself
    obtain ⟨hadd, hmax⟩ := toNat_add_of_lt ((Nat.add_le_add_left hwle _).trans room) small
    have hroutew : Route (Link cfg n) cfg.thisNode (cfg.reverseLookup a) (here.cost + w).toNat := by
      rw [hadd]; exact hdist.1.tail hlinkw
    obtain ⟨rt', hrt', ⟨entry, hget, hnext, hentryif, hentrycost, hlt⟩ | ⟨rfl, hnone, hle⟩⟩ :=
      relax_cases hcur hw hhop
    · -- a shorter way, so not to a finished node
      have hnotF : cfg.reverseLookup a ∉ F := by
        intro hmem
        obtain ⟨e, he, hleast⟩ := h.least _ hmem
        have := hleast.2 hroutew
        exact absurd (UInt32.lt_iff_toNat_lt.mp (hlt e he)) (by omega)
      have hnotself : cfg.reverseLookup a ≠ cfg.thisNode := by
        intro hs
        have := hlt _ (hs ▸ h.self)
        exact absurd (UInt32.lt_iff_toNat_lt.mp this) (Nat.not_lt_zero _)
      have hsum : entry.cost.toNat = here.cost.toNat + w.toNat := by rw [hentrycost, hadd]
      refine ⟨rt', hrt', h.set hget hnotF hnotself (hvia.tail hlinkw hsum hnext
        (hentryif.trans hif.symm)) ?_ ⟨current, hF, hlists⟩ ?_, Lower.set hget fun e he => ?_, ?_, ?_⟩
      · omega
      · rw [hnext]
        exact h.hop current here hcur hne
      · rw [hentrycost]
        exact (UInt32.lt_iff_toNat_lt.mp (hlt e he)).le
      · rw [hget, if_neg (Ne.symm hself), hcur]
      · intro c hl
        refine ⟨entry, by rw [hget, if_pos rfl], ?_⟩
        rw [hsum, hl.cost_eq hw]
    · refine ⟨rt', hrt', h, Lower.refl _, hcur, fun c hl => ?_⟩
      cases hold : rt'[cfg.reverseLookup a]? with
      | none => exact absurd hmax (UInt32.not_lt.mpr (hnone hold))
      | some e =>
        refine ⟨e, rfl, ?_⟩
        have := UInt32.le_iff_toNat_le.mp (hle e hold)
        rw [hadd] at this
        rw [hl.cost_eq hw]
        exact this

/-- The inner loop. -/
theorem Tentative.relaxAll (h : Tentative cfg n F rt) {l : List Ipv4Address}
    (hl : ∀ a ∈ l, a ∈ getNeighbors n current) :
    ∃ rt', l.foldlM (Ls.relax cfg n current) rt = some rt' ∧ Tentative cfg n F rt' ∧
      Lower rt rt' ∧ rt'[current]? = some here ∧
      ∀ a ∈ l, ∀ c, Link cfg n current (cfg.reverseLookup a) c →
        ∃ e, rt'[cfg.reverseLookup a]? = some e ∧ e.cost.toNat ≤ here.cost.toNat + c := by
  induction l generalizing rt with
  | nil => exact ⟨rt, rfl, h, Lower.refl rt, hcur, nofun⟩
  | cons a l ih =>
    obtain ⟨rt₁, hrt₁, h₁, hlow₁, hcur₁, hdone⟩ :=
      h.relax hne hF hcur hdist room small (hl a List.mem_cons_self)
    obtain ⟨rt₂, hrt₂, h₂, hlow₂, hcur₂, hrest⟩ :=
      ih hcur₁ h₁ fun b hb => hl b (List.mem_cons_of_mem _ hb)
    refine ⟨rt₂, by simp [List.foldlM_cons, hrt₁, hrt₂], h₂, hlow₁.trans hlow₂, hcur₂, ?_⟩
    intro b hb c hlink
    rcases List.mem_cons.mp hb with rfl | hb
    · obtain ⟨e, he, hle⟩ := hdone c hlink
      obtain ⟨e', he', hle'⟩ := hlow₂ _ e he
      exact ⟨e', he', hle'.trans hle⟩
    · exact hrest b hb c hlink

end Current

/-! ### The main loop -/

/-- A node more is finished. -/
theorem Tentative.insert {K : String} {e : RoutingTableEntry} (h : Tentative cfg n F rt)
    (hK : K ∉ F) (he : rt[K]? = some e) (hdist : Dist cfg n K e.cost.toNat) :
    Tentative cfg n (insert K F) rt := by
  refine ⟨h.self, h.via, ?_, ?_, ?_, h.hop⟩
  · intro J e' he'
    rw [Finset.sum_insert hK]
    exact (h.bound J e' he').trans (Nat.le_add_left _ _)
  · intro J hJ
    rcases Finset.mem_insert.mp hJ with rfl | hJ
    · exact ⟨e, he, hdist⟩
    · exact h.least J hJ
  · intro J e' he'
    exact (h.source J e' he').imp_right fun ⟨M, hM, hlists⟩ =>
      ⟨M, Finset.mem_insert_of_mem hM, hlists⟩

theorem found_insert {found : NameMap Bool} {K J : String} (hK : K ∈ n.lsTable)
    (h : found[J]? = if J ∈ n.lsTable then some (decide (J ∈ F)) else none) :
    (found.insert K true)[J]? = if J ∈ n.lsTable then some (decide (J ∈ insert K F)) else none := by
  rw [getElem?_insert_eq]
  by_cases hJK : K = J
  · subst hJK
    rw [if_pos rfl, if_pos hK, decide_eq_true (Finset.mem_insert_self K F)]
  · rw [if_neg hJK, h]
    simp only [Finset.mem_insert, Ne.symm hJK, false_or]

theorem sum_listedCost_le (hF : ∀ K ∈ F, K ∈ n.lsTable) : ∑ J ∈ F, listedCost n J ≤ totalCost n := by
  have hnd : n.lsTable.keys.Nodup := Std.ExtTreeMap.nodup_keys
  rw [totalCost, ← List.sum_toFinset _ hnd]
  refine Finset.sum_le_sum_of_subset fun K hK => ?_
  rw [List.mem_toFinset, Std.ExtTreeMap.mem_keys]
  exact hF K hK

section Loop
variable {st : Search} (hr : Searchable cfg n) (h : Searching cfg n F st)
include h

/-- A route to an unfinished node passes one that is in the routing table. -/
theorem Searching.crossing {L : String} {c : ℕ} (r : Route (Link cfg n) cfg.thisNode L c)
    (hL : L ∉ F) : ∃ z e c₂, z ∉ F ∧ st.routingTable[z]? = some e ∧ Route (Link cfg n) z L c₂ ∧
      e.cost.toNat + c₂ ≤ c := by
  obtain ⟨x, z, c₁, a, c₂, hx, hz, rx, hxz, rz, rfl⟩ := r.frontier (S := (· ∈ F)) h.self hL
  obtain ⟨d, e, hd, he, hle⟩ := h.relaxed x hx z a hxz
  have := hd.2 rx
  exact ⟨z, e, c₂, hz, he, rz, by omega⟩

include hr

/-- While a node with an entry is left, nothing else is in the routing
table. -/
theorem Searching.known {L : String} (hL : L ∈ n.lsTable) (hLF : L ∉ F) {K : String}
    {e : RoutingTableEntry} (he : st.routingTable[K]? = some e) : K ∈ n.lsTable := by
  rcases h.tentative.source K e he with rfl | ⟨J, hJ, hlists⟩
  · exact hr.self
  · rcases hr.listed with hall | ⟨hcosts, hlast⟩
    · exact hall J K hlists
    · exact hlast J L K hL (h.order hcosts J hJ L hL hLF) hlists

/-- The node that is picked: not finished, at its least cost, and before all
others that are not. -/
theorem Searching.pick {L : String} (hL : L ∈ n.lsTable) (hLF : L ∉ F) :
    ∃ K e, getMinCostNode st.routingTable st.leastCostFound = some K ∧ K ∈ n.lsTable ∧ K ∉ F ∧
      st.routingTable[K]? = some e ∧ Dist cfg n K e.cost.toNat ∧
      ((∀ K L c, Link cfg n K L c → 1 ≤ c) →
        ∀ J : String, J ∈ n.lsTable → J ∉ F → J ≠ K → Before cfg n K J) := by
  have found : ∀ (K : String) e, st.routingTable[K]? = some e →
      st.leastCostFound[K]? = some (decide (K ∈ F)) := by
    intro K e he
    rw [h.found, if_pos (h.known hr hL hLF he)]
  obtain ⟨c, r⟩ := hr.reachable L hL
  obtain ⟨z, ez, _, hz, hez, _, _⟩ := h.crossing r hLF
  have hzmax : ez.cost < intMax := by
    rw [UInt32.lt_iff_toNat_lt]
    have := (h.tentative.bound z ez hez).trans (sum_listedCost_le h.sub)
    exact this.trans_lt hr.total
  obtain ⟨K, e, hK, he, hfK, hfirst⟩ := getMinCostNode_spec
    (fun K e he => ⟨_, found K e he⟩) hez (by rw [found z ez hez, decide_eq_false hz]) hzmax
  have hKF : K ∉ F := by
    rw [found K e he] at hfK
    exact of_decide_eq_false (Option.some.inj hfK)
  -- it comes before everything on the border
  have hborder : ∀ J e', st.routingTable[J]? = some e' → J ∉ F → J ≠ K →
      Precedes K e.cost.toNat J e'.cost.toNat := by
    intro J e' he' hJ hne
    exact hfirst J e' he' (by rw [found J e' he', decide_eq_false hJ]) hne
  have hle : ∀ J e', st.routingTable[J]? = some e' → J ∉ F → e.cost.toNat ≤ e'.cost.toNat := by
    intro J e' he' hJ
    by_cases hJK : J = K
    · subst hJK
      rw [he] at he'
      obtain rfl := Option.some.inj he'
      exact le_rfl
    · rcases hborder J e' he' hJ hJK with hlt | ⟨heq, _⟩
      · exact hlt.le
      · exact heq.le
  have hdist : Dist cfg n K e.cost.toNat := by
    refine ⟨h.tentative.route he, fun c r => ?_⟩
    obtain ⟨z, ez, c₂, hz, hez, _, hc⟩ := h.crossing r hKF
    have := hle z ez hez hz
    omega
  refine ⟨K, e, hK, h.known hr hL hLF he, hKF, he, hdist, ?_⟩
  intro hcosts J hJ hJF hJK
  obtain ⟨_, r⟩ := hr.reachable J hJ
  obtain ⟨d, hd⟩ := r.exists_isDistance
  refine ⟨e.cost.toNat, d, hdist, hd, ?_⟩
  obtain ⟨z, ez, c₂, hz, hez, rz, hc⟩ := h.crossing hd.1 hJF
  by_cases hzJ : z = J
  · subst hzJ
    have hdz := hd.2 (h.tentative.route hez)
    have heq : ez.cost.toNat = d := by omega
    rw [← heq]
    exact hborder z ez hez hz hJK
  · -- the rest of the route costs something
    have hpos := rz.pos hcosts hzJ
    have := hle z ez hez hz
    exact Or.inl (by omega)

/-- One pass of the main loop. -/
theorem Searching.finishNode {L : String} (hL : L ∈ n.lsTable) (hLF : L ∉ F) :
    ∃ K st', Ls.finishNode cfg n st = some st' ∧ K ∉ F ∧ Searching cfg n (insert K F) st' := by
  obtain ⟨K, e, hmin, hK, hKF, he, hdist, hbefore⟩ := h.pick hr hL hLF
  have hsum : ∑ J ∈ insert K F, listedCost n J = listedCost n K + ∑ J ∈ F, listedCost n J :=
    Finset.sum_insert hKF
  have hsub : ∀ J ∈ insert K F, J ∈ n.lsTable := (Finset.forall_mem_insert _ _ _).mpr ⟨hK, h.sub⟩
  have hne : K ≠ cfg.thisNode := fun hs => hKF (hs ▸ h.self)
  have room : e.cost.toNat + listedCost n K ≤ ∑ J ∈ insert K F, listedCost n J := by
    have hbound := h.tentative.bound K e he
    omega
  have htent := h.tentative.insert hKF he hdist
  obtain ⟨rt', hrt', htent', hlower, hcur', hdone⟩ := htent.relaxAll hne
    (Finset.mem_insert_self K F) he hdist room ((sum_listedCost_le hsub).trans_lt hr.total)
    (l := getNeighbors n K) (fun _ ha => ha)
  refine ⟨K, ⟨rt', st.leastCostFound.insert K true⟩, ?_, hKF, ⟨htent', ?_, hsub, ?_, ?_, ?_⟩⟩
  · unfold Ls.finishNode
    have hfK : st.leastCostFound[K]? = some (decide (K ∈ F)) := by rw [h.found, if_pos hK]
    simp [hmin, hfK, hrt']
  · exact Finset.mem_insert_of_mem h.self
  · intro J
    exact found_insert hK (h.found J)
  · intro J hJ M c hlink
    rcases Finset.mem_insert.mp hJ with rfl | hJ
    · obtain ⟨_, ⟨a, ha, rfl⟩, _⟩ := id hlink
      obtain ⟨e', he', hle⟩ := hdone a ha c hlink
      exact ⟨e.cost.toNat, e', hdist, he', hle⟩
    · obtain ⟨d, e', hd, he', hle⟩ := h.relaxed J hJ M c hlink
      obtain ⟨e'', he'', hle'⟩ := hlower M e' he'
      exact ⟨d, e'', hd, he'', hle'.trans hle⟩
  · intro hcosts J hJ M hM hMF
    have hMF' : M ∉ F := fun hm => hMF (Finset.mem_insert_of_mem hm)
    rcases Finset.mem_insert.mp hJ with rfl | hJ
    · exact hbefore hcosts M hM hMF' fun hMJ => hMF (hMJ ▸ Finset.mem_insert_self J F)
    · exact h.order hcosts J hJ M hM hMF'

end Loop

/-- The main loop, as long as nodes are left. -/
theorem Searching.finishNodes (hr : Searchable cfg n) {k : ℕ} {st : Search} (h : Searching cfg n F st)
    (hk : F.card + k = n.lsTable.size) :
    ∃ F' st', Ls.finishNodes cfg n k st = some st' ∧ F'.card = n.lsTable.size ∧
      Searching cfg n F' st' := by
  induction k generalizing F st with
  | zero => exact ⟨F, st, rfl, hk, h⟩
  | succ k ih =>
    have hkeys : n.lsTable.keys.toFinset.card = n.lsTable.size := by
      rw [List.toFinset_card_of_nodup Std.ExtTreeMap.nodup_keys, Std.ExtTreeMap.length_keys]
    obtain ⟨L, hL, hLF⟩ := Finset.exists_mem_notMem_of_card_lt_card
      (show F.card < n.lsTable.keys.toFinset.card by omega)
    rw [List.mem_toFinset, Std.ExtTreeMap.mem_keys] at hL
    obtain ⟨K, st₁, hst₁, hKF, h₁⟩ := h.finishNode hr hL hLF
    have hcard := Finset.card_insert_of_notMem hKF
    obtain ⟨F', st', hst', hF', h'⟩ := ih h₁ (by omega)
    exact ⟨F', st', by rw [Ls.finishNodes, hst₁]; exact hst', hF', h'⟩

/-! ### The start -/

/-- The routing table while this node's neighbours are entered. -/
structure Initial (cfg : NodeConfig) (n : Node) (rt : RoutingTable) : Prop where
  self : rt[cfg.thisNode]? = some (selfEntry cfg)
  entry : ∀ (K : String) e, rt[K]? = some e → K ≠ cfg.thisNode →
    Lists cfg n cfg.thisNode K ∧ distanceToNeighbor cfg n cfg.thisNode K = some e.cost ∧
      cfg.reverseLookup e.nextHopAddr = K ∧ e.nextHopAddr ∈ getNeighbors n cfg.thisNode ∧
      ∃ hop, n.neighborTable[K]? = some hop ∧ e.interfaceAddr = hop.interfaceAddr

theorem Initial.neighbor (h : Initial cfg n rt) {a : Ipv4Address}
    (ha : a ∈ getNeighbors n cfg.thisNode) (hrt : initNeighbor cfg n rt a = some rt') :
    Initial cfg n rt' ∧ (∀ K : String, K ∈ rt → K ∈ rt') ∧ cfg.reverseLookup a ∈ rt' := by
  simp only [initNeighbor, Option.bind_eq_bind, Option.bind_eq_some_iff] at hrt
  obtain ⟨hop, hhop, w, hw, hrt⟩ := hrt
  obtain rfl := Option.some.inj hrt
  refine ⟨⟨?_, ?_⟩, ?_, ?_⟩
  · rw [getElem?_insertIfNew_eq, if_neg, h.self]
    intro hx
    obtain ⟨hs, hnone⟩ := hx
    rw [hs, h.self] at hnone; cases hnone
  · intro K e he hK
    rw [getElem?_insertIfNew_eq] at he
    split at he
    · rename_i hKa
      obtain rfl := Option.some.inj he
      obtain ⟨rfl, _⟩ := hKa
      exact ⟨⟨a, ha, rfl⟩, hw, rfl, ha, hop, hhop, rfl⟩
    · exact h.entry K e he hK
  · intro K hK
    rw [Std.ExtTreeMap.mem_insertIfNew]
    exact Or.inr hK
  · rw [Std.ExtTreeMap.mem_insertIfNew]
    exact Or.inl (Std.ReflCmp.compare_self)

theorem Initial.neighbors (h : Initial cfg n rt) {l : List Ipv4Address}
    (hl : ∀ a ∈ l, a ∈ getNeighbors n cfg.thisNode)
    (hrt : l.foldlM (initNeighbor cfg n) rt = some rt') :
    Initial cfg n rt' ∧ (∀ K : String, K ∈ rt → K ∈ rt') ∧ ∀ a ∈ l, cfg.reverseLookup a ∈ rt' := by
  induction l generalizing rt with
  | nil =>
    obtain rfl := Option.some.inj hrt
    exact ⟨h, fun _ => id, nofun⟩
  | cons a l ih =>
    obtain ⟨rt₁, hrt₁, hrest⟩ := foldlM_cons_some hrt
    obtain ⟨h₁, hsub₁, hmem⟩ := h.neighbor (hl a List.mem_cons_self) hrt₁
    obtain ⟨h₂, hsub₂, hmems⟩ := ih h₁ (fun b hb => hl b (List.mem_cons_of_mem _ hb)) hrest
    refine ⟨h₂, fun K hK => hsub₂ K (hsub₁ K hK), ?_⟩
    intro b hb
    rcases List.mem_cons.mp hb with rfl | hb
    · exact hsub₂ _ hmem
    · exact hmems b hb

theorem initNeighbor_exists (hr : Searchable cfg n) {a : Ipv4Address}
    (ha : a ∈ getNeighbors n cfg.thisNode) : ∃ rt', initNeighbor cfg n rt a = some rt' := by
  have hlists : Lists cfg n cfg.thisNode (cfg.reverseLookup a) := ⟨a, ha, rfl⟩
  obtain ⟨hop, hhop⟩ := mem_iff_getElem?.mp (hr.neighbors _ hlists)
  obtain ⟨w, hw⟩ : ∃ w, distanceToNeighbor cfg n cfg.thisNode (cfg.reverseLookup a) = some w := by
    by_cases hself : cfg.thisNode = cfg.reverseLookup a
    · exact ⟨0, if_pos hself⟩
    · obtain ⟨w, hw, _⟩ := hlists.exists_link hself
      exact ⟨w, hw⟩
  exact ⟨_, by simp only [initNeighbor, hhop, hw]; rfl⟩

/-- The nodes with an entry, none of them finished. -/
theorem getElem?_leastCostFound (n : Node) (K : String) :
    (n.lsTable.toList.foldl (fun m i => m.insertIfNew i.1 false) (∅ : NameMap Bool))[K]? =
      if K ∈ n.lsTable then some false else none := by
  have hiff : (∃ x ∈ n.lsTable.toList, x.1 = K) ↔ K ∈ n.lsTable := by
    rw [mem_iff_getElem?]
    constructor
    · intro hx
      obtain ⟨x, hx, rfl⟩ := hx
      exact ⟨x.2, mem_toList.mp hx⟩
    · intro hx
      obtain ⟨v, hv⟩ := hx
      exact ⟨(K, v), mem_toList.mpr hv, rfl⟩
  have hfold := getElem?_foldl_insertIfNew (m := (∅ : NameMap Bool)) (l := n.lsTable.toList)
    Prod.fst (a := K) (v := false)
  rw [hfold]
  simp [hiff]

/-- The search before the main loop. -/
theorem initSearch_some {st : Search} (h : initSearch cfg n = some st) :
    cfg.thisNode ∈ n.lsTable ∧ Initial cfg n st.routingTable ∧
      (∀ K, Lists cfg n cfg.thisNode K → K ∈ st.routingTable) ∧
      ∀ K : String, st.leastCostFound[K]? =
        if K ∈ n.lsTable then some (decide (K = cfg.thisNode)) else none := by
  simp only [initSearch, Option.bind_eq_bind, Option.bind_eq_some_iff,
    getElem?_leastCostFound] at h
  obtain ⟨rt, hrt, _, hmem, h⟩ := h
  obtain rfl := Option.some.inj h
  have hself : cfg.thisNode ∈ n.lsTable := by
    by_contra hno
    rw [if_neg hno] at hmem
    cases hmem
  have hfirst : Initial cfg n ((∅ : RoutingTable).insertIfNew cfg.thisNode (selfEntry cfg)) := by
    refine ⟨by rw [getElem?_insertIfNew_eq, if_pos ⟨rfl, by simp⟩], ?_⟩
    intro K e he hK
    rw [getElem?_insertIfNew_eq, if_neg fun hs => hK hs.1.symm] at he
    simp at he
  obtain ⟨hinit, _, hall⟩ := hfirst.neighbors (fun _ ha => ha) hrt
  refine ⟨hself, hinit, ?_, ?_⟩
  · intro K hlists
    obtain ⟨a, ha, rfl⟩ := hlists
    exact hall a ha
  · intro K
    rw [getElem?_insert_eq, getElem?_leastCostFound]
    by_cases hK : cfg.thisNode = K
    · subst hK
      simp [hself]
    · simp [hK, Ne.symm hK]

theorem Initial.searching (hr : Searchable cfg n) (h : Initial cfg n rt) {found : NameMap Bool}
    (hall : ∀ K, Lists cfg n cfg.thisNode K → K ∈ rt)
    (hfound : ∀ K : String, found[K]? =
      if K ∈ n.lsTable then some (decide (K = cfg.thisNode)) else none) :
    Searching cfg n {cfg.thisNode} ⟨rt, found⟩ := by
  have hself : Dist cfg n cfg.thisNode 0 := IsDistance.refl _
  refine ⟨⟨h.self, ?_, ?_, ?_, ?_, ?_⟩, Finset.mem_singleton_self _, ?_, ?_, ?_, ?_⟩
  · intro K e he hK
    obtain ⟨hlists, hw, hname, _, hop, hhop, hif⟩ := h.entry K e he hK
    exact ⟨K, e.cost.toNat, 0, hop, ⟨Ne.symm hK, hlists, e.cost, hw, rfl⟩, .refl, rfl, hname, hhop,
      hif⟩
  · intro K e he
    rw [Finset.sum_singleton]
    by_cases hK : K = cfg.thisNode
    · subst hK
      rw [h.self] at he
      obtain rfl := Option.some.inj he
      exact Nat.zero_le _
    · obtain ⟨hlists, hw, _⟩ := h.entry K e he hK
      obtain ⟨w, hw', _, hle⟩ := hlists.exists_link (Ne.symm hK)
      rw [hw] at hw'
      rw [Option.some.inj hw']; exact hle
  · intro K hK
    rw [Finset.mem_singleton.mp hK]
    exact ⟨_, h.self, hself⟩
  · intro K e he
    by_cases hK : K = cfg.thisNode
    · exact Or.inl hK
    · exact Or.inr ⟨_, Finset.mem_singleton_self _, (h.entry K e he hK).1⟩
  · intro K e he hK
    obtain ⟨_, _, _, ha, _⟩ := h.entry K e he hK
    exact ha
  · intro K hK
    rw [Finset.mem_singleton.mp hK]; exact hr.self
  · intro K
    simp only [hfound, Finset.mem_singleton]
  · intro K hK L c hlink
    rw [Finset.mem_singleton.mp hK] at hlink ⊢
    obtain ⟨hne, hlists, w, hw, rfl⟩ := hlink
    obtain ⟨e, he⟩ := mem_iff_getElem?.mp (hall L hlists)
    obtain ⟨_, hw', _⟩ := h.entry L e he (Ne.symm hne)
    rw [hw] at hw'
    exact ⟨0, e, hself, he, by rw [Option.some.inj hw', Nat.zero_add]⟩
  · intro hcosts K hK L hL hLF
    rw [Finset.mem_singleton.mp hK]
    obtain ⟨_, r⟩ := hr.reachable L hL
    obtain ⟨d, hd⟩ := r.exists_isDistance
    refine ⟨0, d, hself, hd, Or.inl ?_⟩
    exact hd.1.pos hcosts fun hs => hLF (hs ▸ Finset.mem_singleton_self _)

theorem initSearch_spec (hr : Searchable cfg n) :
    ∃ st, initSearch cfg n = some st ∧ Searching cfg n {cfg.thisNode} st := by
  obtain ⟨rt, hrt, _⟩ := foldlM_exists (fun _ => True) (f := initNeighbor cfg n)
    (l := getNeighbors n cfg.thisNode)
    (s := (∅ : RoutingTable).insertIfNew cfg.thisNode (selfEntry cfg)) (fun rt a ha _ => by
      obtain ⟨rt', hrt'⟩ := initNeighbor_exists hr ha
      exact ⟨rt', hrt', trivial⟩) trivial
  obtain ⟨st, hst⟩ : ∃ st, initSearch cfg n = some st := by
    unfold initSearch
    simp [hrt, getElem?_leastCostFound, hr.self]
  obtain ⟨_, hinit, hall, hfound⟩ := initSearch_some hst
  exact ⟨st, hst, hinit.searching hr hall hfound⟩

/-- `Dijkstra` finishes every node with an entry. -/
theorem dijkstra_finishes (hr : Searchable cfg n) :
    ∃ F rt, dijkstra cfg n = some rt ∧ Tentative cfg n F rt ∧ ∀ K : String, K ∈ F ↔ K ∈ n.lsTable := by
  obtain ⟨st₀, hst₀, h₀⟩ := initSearch_spec hr
  have hpos : 0 < n.lsTable.size := by
    have hkeys := Std.ExtTreeMap.mem_keys.mpr hr.self
    rw [← Std.ExtTreeMap.length_keys]
    exact List.length_pos_of_mem hkeys
  obtain ⟨F, st, hst, hcard, h⟩ := h₀.finishNodes hr (k := n.lsTable.size - 1)
    (by rw [Finset.card_singleton]; omega)
  have hsub : F ⊆ n.lsTable.keys.toFinset := by
    intro K hK
    rw [List.mem_toFinset, Std.ExtTreeMap.mem_keys]
    exact h.sub K hK
  have heq := Finset.eq_of_subset_of_card_le hsub (by
    rw [List.toFinset_card_of_nodup Std.ExtTreeMap.nodup_keys, Std.ExtTreeMap.length_keys, hcard])
  refine ⟨F, st.routingTable, by rw [dijkstra, hst₀]; simp [hst], h.tentative, fun K => ?_⟩
  rw [heq, List.mem_toFinset, Std.ExtTreeMap.mem_keys]

/-- **`Dijkstra` on a table it can search** returns: every node with an
entry has the least cost of a route to it, and the next hop and interface of
a route of that cost. -/
theorem dijkstra_spec (hr : Searchable cfg n) :
    ∃ rt, dijkstra cfg n = some rt ∧ ∀ K : String, K ∈ n.lsTable →
      ∃ e, rt[K]? = some e ∧ Dist cfg n K e.cost.toNat ∧ (K ≠ cfg.thisNode → Via cfg n K e) := by
  obtain ⟨F, rt, hrt, h, hall⟩ := dijkstra_finishes hr
  refine ⟨rt, hrt, fun K hK => ?_⟩
  obtain ⟨e, he, hdist⟩ := h.least K ((hall K).mpr hK)
  exact ⟨e, he, hdist, h.via K e he⟩

end Search

end Ns3Routing.Ls
