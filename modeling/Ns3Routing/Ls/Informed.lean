import Ns3Routing.Lib.HopDistance
import Ns3Routing.Ls.Entries
import Ns3Routing.Ls.Flooding
import Ns3Routing.Ls.Overflow
import Ns3Routing.Ls.ShortestPaths

/-! # `Dijkstra` on the whole topology

A node is informed when its database is that of the topology, which
`Flooding.complete` says of every state at rest. The links `Dijkstra` then
walks along are the edges of the graph, all at cost 1, and its table is about
shortest paths in it (`Informed.routes`), however large the topology is. -/

namespace Ns3Routing.Ls

open Lib Ns3Routing.Topology

/-- Node `i` has the entries of all nodes, and its neighbours at the ends of its
own links. -/
structure Informed (T : Topology) (i : Fin T.size) (n : Node) : Prop where
  entry : ∀ o, ∃ entry, n.lsTable[T.name o]? = some entry ∧
    ∀ x, x ∈ entry.neighborCosts ↔ ∃ j, T.graph.Adj o j ∧ x = ((T.config j).mainAddress, 1)
  named : ∀ K : String, K ∈ n.lsTable → ∃ o, K = T.name o
  neighbor : ∀ (K : String) e, n.neighborTable[K]? = some e → ∃ p, T.owner p = i ∧
    K = T.name (T.owner (peer p)) ∧ e.interfaceAddr = T.address p

theorem Flooding.informed_of_calm {T : Topology} {log : Fin T.size → List (UInt32 × NbrCostsVec)}
    {s : LsNet T} (h : Flooding T log s) (calm : Calm T s) (conn : T.graph.Connected)
    (htwo : 2 ≤ T.size) (i : Fin T.size) : Informed T i (s.node i) := by
  refine ⟨fun o => ?_, fun K hK => ?_, fun K e he => ?_⟩
  · obtain ⟨entry, hentry, _, hlist⟩ := h.complete_of_calm calm conn htwo i o
    exact ⟨entry, hentry, hlist⟩
  · obtain ⟨entry, hentry⟩ := mem_iff_getElem?.mp hK
    obtain ⟨o, hname, _⟩ := h.logged.entry i K entry hentry
    exact ⟨o, hname⟩
  · obtain ⟨p, hp, hname, _, hif⟩ := h.logged.neighbor i K e he
    exact ⟨p, hp, hname, hif⟩

/-- Nodes at rest are informed. -/
theorem Flooding.informed {T : Topology} {log : Fin T.size → List (UInt32 × NbrCostsVec)}
    {s : LsNet T} (h : Flooding T log s) (quiet : ∀ p, s.chan p = []) (conn : T.graph.Connected)
    (htwo : 2 ≤ T.size) (i : Fin T.size) : Informed T i (s.node i) :=
  h.informed_of_calm (h.calm quiet) conn htwo i

section Informed
variable {T : Topology} {i : Fin T.size} {n : Node} (h : Informed T i n)
include h

/-! ## Links and distances -/

theorem Informed.neighbors_iff {K : String} {a : Ipv4Address} :
    a ∈ getNeighbors n K ↔ ∃ o j, K = T.name o ∧ T.graph.Adj o j ∧ a = (T.config j).mainAddress := by
  constructor
  · intro ha
    obtain ⟨c, entry, hentry, x, hx, rfl, _⟩ := mem_getNeighbors.mp ha
    obtain ⟨o, rfl⟩ := h.named K (mem_iff_getElem?.mpr ⟨entry, hentry⟩)
    obtain ⟨entry', hentry', hlist⟩ := h.entry o
    rw [hentry] at hentry'
    obtain rfl := Option.some.inj hentry'
    obtain ⟨j, hadj, rfl⟩ := (hlist x).mp hx
    exact ⟨o, j, rfl, hadj, rfl⟩
  · rintro ⟨o, j, rfl, hadj, rfl⟩
    obtain ⟨entry, hentry, hlist⟩ := h.entry o
    exact mem_getNeighbors.mpr ⟨1, entry, hentry, _, (hlist _).mpr ⟨j, hadj, rfl⟩, rfl, rfl⟩

theorem Informed.distance {o j : Fin T.size} (hadj : T.graph.Adj o j) :
    distanceToNeighbor (T.config i) n (T.name o) (T.name j) = some 1 := by
  have hlists : Lists (T.config i) n (T.name o) (T.name j) :=
    ⟨_, h.neighbors_iff.mpr ⟨o, j, rfl, hadj, rfl⟩, reverseLookup_main i j⟩
  obtain ⟨entry, hentry, x, hx, hw⟩ := hlists.distance fun he => hadj.ne (name_inj.mp he)
  obtain ⟨entry', hentry', hlist⟩ := h.entry o
  rw [hentry] at hentry'
  obtain rfl := Option.some.inj hentry'
  obtain ⟨k, _, rfl⟩ := (hlist x).mp hx
  exact hw

theorem Informed.link_iff {K L : String} {c : ℕ} : Link (T.config i) n K L c ↔
    c = 1 ∧ ∃ o j, K = T.name o ∧ L = T.name j ∧ T.graph.Adj o j := by
  constructor
  · rintro ⟨_, ⟨a, ha, rfl⟩, w, hw, rfl⟩
    obtain ⟨o, j, rfl, hadj, rfl⟩ := h.neighbors_iff.mp ha
    rw [reverseLookup_main, h.distance hadj] at hw
    obtain rfl := Option.some.inj hw
    exact ⟨rfl, o, j, rfl, reverseLookup_main i j, hadj⟩
  · rintro ⟨rfl, o, j, rfl, rfl, hadj⟩
    exact ⟨fun he => hadj.ne (name_inj.mp he),
      ⟨_, h.neighbors_iff.mpr ⟨o, j, rfl, hadj, rfl⟩, reverseLookup_main i j⟩, 1, h.distance hadj, rfl⟩

/-- The routes are the walks. -/
theorem Informed.route_iff {u : Fin T.size} {K : String} {c : ℕ} :
    Route (Link (T.config i) n) (T.name u) K c ↔
      ∃ v, K = T.name v ∧ ∃ w : T.graph.Walk u v, w.length = c := by
  constructor
  · intro r
    induction r with
    | refl => exact ⟨u, rfl, .nil, rfl⟩
    | tail _ last ih =>
      obtain ⟨v, rfl, w, rfl⟩ := ih
      obtain ⟨rfl, o, j, ho, rfl, hadj⟩ := h.link_iff.mp last
      obtain rfl := name_inj.mp ho
      exact ⟨j, rfl, w.concat hadj, SimpleGraph.Walk.length_concat _ _⟩
  · rintro ⟨v, rfl, w, rfl⟩
    induction w with
    | nil => exact .refl
    | @cons u x v hadj w ih =>
      rw [SimpleGraph.Walk.length_cons, Nat.add_comm]
      exact ih.head (h.link_iff.mpr ⟨rfl, u, x, rfl, rfl, hadj⟩)

theorem Informed.dist {j : Fin T.size} {d : ℕ} (hd : Dist (T.config i) n (T.name j) d) :
    T.graph.edist i j = d := by
  rw [Dist, thisNode_eq] at hd
  obtain ⟨v, hv, w, hw⟩ := h.route_iff.mp hd.1
  obtain rfl := name_inj.mp hv
  refine le_antisymm (hw ▸ SimpleGraph.edist_le w) ?_
  obtain ⟨w', hw'⟩ := w.reachable.exists_walk_length_eq_edist
  rw [← hw', Nat.cast_le]
  exact hd.2 (h.route_iff.mpr ⟨j, rfl, w', rfl⟩)

/-- No sum of costs wraps. -/
theorem Informed.noWrapWins : NoWrapWins (T.config i) n := by
  intro K d _ _ hmax L w hlink hwrap
  obtain ⟨rfl, _⟩ := h.link_iff.mp hlink
  omega

/-! ## Entries -/

/-- An entry for the way to node `j` over a link end `p` of node `i`: the link
and `c` more. -/
structure RouteOver (T : Topology) (i : Fin T.size) (p : T.Port) (j : Fin T.size) (c : ℕ)
    (e : RoutingTableEntry) : Prop where
  owner : T.owner p = i
  destAddr : e.destAddr = (T.config j).mainAddress
  nextHopNum : e.nextHopNum = e.nextHopAddr
  nextHopAddr : e.nextHopAddr = (T.config (T.owner (peer p))).mainAddress
  interfaceAddr : e.interfaceAddr = T.address p
  cost : e.cost.toNat = c + 1
  walk : ∃ w : T.graph.Walk (T.owner (peer p)) j, w.length = c

/-- The own entry, or one for a way over a link. -/
def IsRoute (T : Topology) (i : Fin T.size) (K : String) (e : RoutingTableEntry) : Prop :=
  K = T.name i ∧ e = selfEntry (T.config i) ∨
    ∃ p j c, K = T.name j ∧ c + 1 ≤ 2 ^ 31 - 1 ∧ RouteOver T i p j c e

theorem Informed.neighbor_route {a : Ipv4Address} {hop : NeighborTableEntry} {cost : UInt32}
    (ha : a ∈ getNeighbors n (T.config i).thisNode)
    (hhop : n.neighborTable[(T.config i).reverseLookup a]? = some hop)
    (hcost : distanceToNeighbor (T.config i) n (T.config i).thisNode ((T.config i).reverseLookup a) =
      some cost) :
    IsRoute T i ((T.config i).reverseLookup a) ⟨a, a, a, hop.interfaceAddr, cost⟩ := by
  rw [thisNode_eq] at ha hcost
  obtain ⟨o, j, ho, hadj, rfl⟩ := h.neighbors_iff.mp ha
  obtain rfl := name_inj.mp ho
  rw [reverseLookup_main] at hhop hcost ⊢
  rw [h.distance hadj] at hcost
  obtain rfl := Option.some.inj hcost
  obtain ⟨p, hp, hname, hif⟩ := h.neighbor _ hop hhop
  obtain rfl := name_inj.mp hname
  exact Or.inr ⟨p, _, 0, rfl, by decide, hp, rfl, rfl, rfl, hif, rfl, .nil, rfl⟩

/-- The way through a finished node goes on over the same link. -/
theorem Informed.through_route {current : String} {a destAddr : Ipv4Address} {w : UInt32}
    {here : RoutingTableEntry} {hop : NeighborTableEntry} (ha : a ∈ getNeighbors n current)
    (hhere : IsRoute T i current here)
    (hw : distanceToNeighbor (T.config i) n current ((T.config i).reverseLookup a) = some w)
    (hhop : n.neighborTable[(T.config i).reverseLookup here.nextHopAddr]? = some hop)
    (hwon : destAddr = a ∧ here.cost + w < intMax ∨
      ∃ e, IsRoute T i ((T.config i).reverseLookup a) e ∧ destAddr = e.destAddr ∧
        here.cost + w < e.cost) :
    IsRoute T i ((T.config i).reverseLookup a)
      (throughEntry here hop destAddr (here.cost + w)) := by
  obtain ⟨o, j, rfl, hadj, rfl⟩ := h.neighbors_iff.mp ha
  rw [reverseLookup_main] at hw hwon ⊢
  rw [h.distance hadj] at hw
  obtain rfl := Option.some.inj hw
  obtain ⟨q, hq, hname, hif⟩ := h.neighbor _ hop hhop
  rcases hhere with ⟨_, rfl⟩ | ⟨p, j', c, ho, hc, hroute⟩
  · -- this node is not its own neighbour
    have hself : T.name (T.owner q) = T.name (T.owner (peer q)) := by
      rw [hq, ← hname, selfEntry, reverseLookup_main]
    exact absurd (name_inj.mp hself).symm (owner_peer_ne q)
  · obtain rfl := name_inj.mp ho
    rw [hroute.nextHopAddr, reverseLookup_main] at hname
    have hsum : (here.cost + 1).toNat = c + 1 + 1 := by
      rw [UInt32.toNat_add, hroute.cost]
      exact Nat.mod_eq_of_lt (by rw [UInt32.toNat_one]; omega)
    have hwon' : destAddr = (T.config j).mainAddress ∧ (here.cost + 1).toNat ≤ 2 ^ 31 - 1 := by
      rcases hwon with ⟨hdest, hlt⟩ | ⟨e, ⟨_, rfl⟩ | ⟨_, j₁, c₁, hj₁, hc₁, hroute₁⟩, hdest, hlt⟩
      · exact ⟨hdest, (UInt32.lt_iff_toNat_lt.mp hlt).le⟩
      · exact absurd (UInt32.lt_iff_toNat_lt.mp hlt) (Nat.not_lt_zero _)
      · obtain rfl := name_inj.mp hj₁
        rw [UInt32.lt_iff_toNat_lt, hroute₁.cost] at hlt
        exact ⟨hdest.trans hroute₁.destAddr, by omega⟩
    obtain ⟨walk, hwalk⟩ := hroute.walk
    have hpeer := name_inj.mp hname
    refine Or.inr ⟨q, j, c + 1, rfl, by omega, hq, hwon'.1, rfl, ?_, hif, hsum, ?_⟩
    · rw [← hpeer]
      exact hroute.nextHopAddr
    · rw [← hpeer]
      exact ⟨walk.concat hadj, by rw [SimpleGraph.Walk.length_concat, hwalk]⟩

theorem Informed.isRoute {rt : RoutingTable} (hrt : dijkstra (T.config i) n = some rt) :
    AllEntries (IsRoute T i) rt := by
  refine dijkstra_entries ?_ (Or.inl ⟨thisNode_eq i, rfl⟩) ?_ hrt
  · intro current a here hop w destAddr ha hhere hw hhop hwon
    exact h.through_route ha hhere hw hhop hwon
  · intro a hop cost ha hhop hcost
    exact h.neighbor_route ha hhop hcost

/-- **The table of an informed node**: itself, and every other node at its
distance, over a link to a node that is one hop closer. -/
theorem Informed.routes (conn : T.graph.Connected) {rt : RoutingTable}
    (hrt : dijkstra (T.config i) n = some rt) :
    (∀ j, ∃ e, rt[T.name j]? = some e) ∧ ∀ (K : String) e, rt[K]? = some e →
      K = T.name i ∧ e = selfEntry (T.config i) ∨
        ∃ p j c, j ≠ i ∧ K = T.name j ∧ RouteOver T i p j c e ∧
          T.graph.edist i j = c + 1 ∧ T.graph.edist (T.owner (peer p)) j = c := by
  have hleast : ∀ j, ∃ e, rt[T.name j]? = some e ∧ Dist (T.config i) n (T.name j) e.cost.toNat := by
    intro j
    obtain ⟨entry, hentry, _⟩ := h.entry j
    obtain ⟨w, hw⟩ := (conn.preconnected i j).exists_isPath
    have hlen := hw.length_lt
    rw [Fintype.card_fin] at hlen
    have hsize := T.size_lt
    refine dijkstra_least hrt h.noWrapWins (mem_iff_getElem?.mpr ⟨entry, hentry⟩) (c := w.length) ?_
      (by omega)
    rw [thisNode_eq]
    exact h.route_iff.mpr ⟨j, rfl, w, rfl⟩
  refine ⟨fun j => (hleast j).imp fun _ he => he.1, fun K e he => ?_⟩
  have hself := dijkstra_self hrt
  rw [thisNode_eq] at hself
  rcases h.isRoute hrt K e he with hown | ⟨p, j, c, rfl, _, hroute⟩
  · exact Or.inl hown
  · by_cases hj : j = i
    · subst hj
      rw [he] at hself
      exact Or.inl ⟨rfl, Option.some.inj hself⟩
    · obtain ⟨e', he', hdist⟩ := hleast j
      rw [he] at he'
      obtain rfl := Option.some.inj he'
      have hedist := h.dist hdist
      rw [hroute.cost] at hedist
      obtain ⟨w, hw⟩ := hroute.walk
      refine Or.inr ⟨p, j, c, hj, rfl, hroute, by exact_mod_cast hedist, ?_⟩
      have hadj : T.graph.Adj i (T.owner (peer p)) := hroute.owner ▸ adj_owner p
      have hstep := edist_le_succ (v := j) hadj
      rw [hedist, Nat.cast_add, Nat.cast_one] at hstep
      refine le_antisymm (hw ▸ SimpleGraph.edist_le w) ?_
      exact (ENat.add_le_add_iff_right ENat.one_ne_top).mp hstep

end Informed

/-! ## A node that is informed -/

/-- All link ends of a node. -/
def portsOf (T : Topology) (i : Fin T.size) : List T.Port :=
  ((List.finRange T.links).product [false, true]).filter fun p => T.owner p = i

/-- The tables of a node that has heard of every node. -/
def knowing (T : Topology) (i : Fin T.size) : Node where
  currentSequenceNumber := 0
  neighborTable := (portsOf T i).foldl (fun neighborTable p =>
    neighborTable.insert (T.name (T.owner (peer p)))
      { neighborAddr := (T.config (T.owner (peer p))).mainAddress
        interfaceAddr := T.address p
        lastUpdated := 0 }) ∅
  lsTable := (List.finRange T.size).foldl (fun lsTable o =>
    lsTable.insert (T.name o)
      { neighborCosts := (portsOf T o).map fun p => ((T.config (T.owner (peer p))).mainAddress, 1)
        sequenceNumber := 0 }) ∅
  routingTable := ∅

theorem mem_portsOf {T : Topology} {i : Fin T.size} {p : T.Port} : p ∈ portsOf T i ↔ T.owner p = i := by
  obtain ⟨l, b⟩ := p
  simp [portsOf]

theorem informed_knowing (T : Topology) (i : Fin T.size) : Informed T i (knowing T i) := by
  have hnames : ((List.finRange T.size).map T.name).Nodup :=
    (List.nodup_finRange _).map fun _ _ h => name_inj.mp h
  refine ⟨fun o => ⟨_, getElem?_foldl_insert_of_mem _ hnames (List.mem_finRange o), fun x => ?_⟩,
    fun K hK => ?_, fun K e he => ?_⟩
  · rw [List.mem_map]
    constructor
    · intro hx
      obtain ⟨p, hp, rfl⟩ := hx
      exact ⟨T.owner (peer p), mem_portsOf.mp hp ▸ adj_owner p, rfl⟩
    · intro hx
      obtain ⟨j, ⟨p, hp, rfl⟩, rfl⟩ := hx
      exact ⟨p, mem_portsOf.mpr hp, rfl⟩
  · obtain ⟨entry, hentry⟩ := mem_iff_getElem?.mp hK
    rcases of_getElem?_foldl_insert hentry with ⟨o, _, hname, _⟩ | hempty
    · exact ⟨o, hname.symm⟩
    · simp at hempty
  · rcases of_getElem?_foldl_insert he with ⟨p, hp, hname, rfl⟩ | hempty
    · exact ⟨p, mem_portsOf.mp hp, hname.symm, rfl⟩
    · simp at hempty

end Ns3Routing.Ls
