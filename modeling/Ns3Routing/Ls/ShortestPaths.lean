import Ns3Routing.Ls.Dijkstra

/-! # `Dijkstra` computes shortest paths

The situation of a converged network: every node of `m_lsTable` can be
reached, and only such nodes are listed. Costs are arbitrary here, zero and
asymmetric ones included. The paths are those along listed links, read off
the entries without any lookup of the code. -/

namespace Ns3Routing.Ls

open Lib

section Graph
variable (cfg : NodeConfig) (n : Node)

/-- The entry of `K` lists the address `a` at cost `c`. -/
def ListedAt (K : String) (a : Ipv4Address) (c : ℕ) : Prop :=
  ∃ entry, n.lsTable[K]? = some entry ∧ ∃ x ∈ entry.neighborCosts, x.1 = a ∧ x.2.toNat = c

/-- A link of the graph `m_lsTable` describes. -/
def ListedLink (K L : String) (c : ℕ) : Prop := ∃ a, ListedAt n K a c ∧ cfg.reverseLookup a = L

structure Converged : Prop where
  self : cfg.thisNode ∈ n.lsTable
  listed : ∀ K L c, ListedLink cfg n K L c → L ∈ n.lsTable
  reachable : ∀ K : String, K ∈ n.lsTable → ∃ c, Route (ListedLink cfg n) cfg.thisNode K c
  neighbors : ∀ L c, ListedLink cfg n cfg.thisNode L c → L ∈ n.neighborTable
  /-- No entry lists a node twice. -/
  distinct : ∀ (K : String) entry, n.lsTable[K]? = some entry →
    (entry.neighborCosts.map fun x => cfg.reverseLookup x.1).Nodup
  total : totalCost n < 2 ^ 31 - 1

end Graph

variable {cfg : NodeConfig} {n : Node} {K L : String} {c : ℕ}

theorem mem_getNeighbors {a : Ipv4Address} : a ∈ getNeighbors n K ↔ ∃ c, ListedAt n K a c := by
  unfold getNeighbors ListedAt
  cases hK : n.lsTable[K]? with
  | none => simp
  | some entry => simp

theorem lists_iff : Lists cfg n K L ↔ ∃ c, ListedLink cfg n K L c := by
  unfold Lists ListedLink
  simp only [mem_getNeighbors]
  constructor
  · intro ⟨a, ⟨c, ha⟩, hL⟩
    exact ⟨c, a, ha, hL⟩
  · intro ⟨c, a, ha, hL⟩
    exact ⟨a, ⟨c, ha⟩, hL⟩

/-- What `DistanceToNeighbor` finds, the entry lists. -/
theorem Link.listedLink (h : Link cfg n K L c) : ListedLink cfg n K L c := by
  obtain ⟨hne, hlists, w, hw, rfl⟩ := h
  obtain ⟨_, a, ⟨entry, hK, y, hy, rfl, _⟩, hL⟩ := lists_iff.mp hlists
  rw [distanceToNeighbor, if_neg hne, hK] at hw
  cases hfind : entry.neighborCosts.find? fun i => cfg.reverseLookup i.1 == L with
  | none =>
    have := List.find?_eq_none.mp hfind y hy
    simp [hL] at this
  | some x =>
    simp only [hfind, Option.bind_eq_bind, Option.bind_some, Option.pure_def, Option.some.injEq] at hw
    subst hw
    have hname := List.find?_some hfind
    exact ⟨x.1, ⟨entry, hK, x, List.mem_of_find?_eq_some hfind, rfl, rfl⟩, by simpa using hname⟩

section Converged
variable (h : Converged cfg n)
include h

/-- A node is listed at one address and one cost. -/
theorem Converged.listedAt_unique {a b : Ipv4Address} {d : ℕ} (ha : ListedAt n K a c)
    (hb : ListedAt n K b d) (hab : cfg.reverseLookup a = cfg.reverseLookup b) : a = b ∧ c = d := by
  obtain ⟨entry, hK, x, hx, rfl, rfl⟩ := ha
  obtain ⟨entry', hK', y, hy, rfl, rfl⟩ := hb
  rw [hK] at hK'
  obtain rfl := Option.some.inj hK'
  obtain rfl := List.inj_on_of_nodup_map (h.distinct K entry hK) hx hy hab
  exact ⟨rfl, rfl⟩

theorem Converged.link_of_listedLink (hl : ListedLink cfg n K L c) (hne : K ≠ L) :
    Link cfg n K L c := by
  have hlists : Lists cfg n K L := lists_iff.mpr ⟨c, hl⟩
  obtain ⟨w, hw, hlink, _⟩ := hlists.exists_link hne
  obtain ⟨a, ha, haL⟩ := hl
  obtain ⟨b, hb, hbL⟩ := hlink.listedLink
  obtain ⟨_, rfl⟩ := h.listedAt_unique ha hb (haL.trans hbL.symm)
  exact hlink

theorem Converged.cheaper (K L : String) (c : ℕ) (hl : ListedLink cfg n K L c) :
    K = L ∨ ∃ c' ≤ c, Link cfg n K L c' := by
  by_cases hne : K = L
  · exact Or.inl hne
  · exact Or.inr ⟨c, le_rfl, h.link_of_listedLink hl hne⟩

theorem Converged.searchable : Searchable cfg n := by
  refine ⟨h.self, ?_, h.total, ?_, Or.inl ?_⟩
  · intro L hlists
    obtain ⟨c, hl⟩ := lists_iff.mp hlists
    exact h.neighbors L c hl
  · intro K hK
    obtain ⟨c, r⟩ := h.reachable K hK
    obtain ⟨c', _, r'⟩ := r.cheaper h.cheaper
    exact ⟨c', r'⟩
  · intro K L hlists
    obtain ⟨c, hl⟩ := lists_iff.mp hlists
    exact h.listed K L c hl

end Converged

/-- **`Dijkstra` computes shortest paths.** -/
theorem dijkstra_shortest_paths (cfg : NodeConfig) (n : Node) (h : Converged cfg n) :
    ∃ rt, dijkstra cfg n = some rt ∧ (∀ K : String, K ∈ rt ↔ K ∈ n.lsTable) ∧
      (∃ e, rt[cfg.thisNode]? = some e ∧ e.cost = 0) ∧
      ∀ (d : String) e, rt[d]? = some e → d ≠ cfg.thisNode →
        IsDistance (ListedLink cfg n) cfg.thisNode d e.cost.toNat ∧
        (∃ c₁ c₂, ListedAt n cfg.thisNode e.nextHopAddr c₁ ∧
          Route (ListedLink cfg n) (cfg.reverseLookup e.nextHopAddr) d c₂ ∧
          c₁ + c₂ = e.cost.toNat) ∧
        ∃ hop, n.neighborTable[cfg.reverseLookup e.nextHopAddr]? = some hop ∧
          e.interfaceAddr = hop.interfaceAddr := by
  have sub : ∀ K L c, Link cfg n K L c → ListedLink cfg n K L c := fun _ _ _ => Link.listedLink
  obtain ⟨F, rt, hrt, ht, hF⟩ := dijkstra_finishes h.searchable
  refine ⟨rt, hrt, fun K => ?_, ⟨_, ht.self, rfl⟩, ?_⟩
  · rw [mem_iff_getElem?]
    constructor
    · intro ⟨e, he⟩
      rcases ht.source K e he with rfl | ⟨J, _, hlists⟩
      · exact h.self
      · obtain ⟨c, hl⟩ := lists_iff.mp hlists
        exact h.listed J K c hl
    · intro hK
      obtain ⟨e, he, _⟩ := ht.least K ((hF K).mpr hK)
      exact ⟨e, he⟩
  · intro d e he hd
    have hdist : Dist cfg n d e.cost.toNat := by
      rcases ht.source d e he with rfl | ⟨J, _, hlists⟩
      · exact absurd rfl hd
      · obtain ⟨c, hl⟩ := lists_iff.mp hlists
        obtain ⟨e', he', hdist⟩ := ht.least d ((hF d).mpr (h.listed J d c hl))
        rw [he] at he'
        rw [Option.some.inj he']
        exact hdist
    obtain ⟨N, c₁, c₂, hop, hlink, hroute, hcost, rfl, hhop, hif⟩ := ht.via d e he hd
    refine ⟨hdist.transfer sub h.cheaper, ⟨c₁, c₂, ?_, hroute.mono sub, hcost.symm⟩, hop, hhop, hif⟩
    -- the next hop is itself an address of the own entry, with the name of the first hop
    obtain ⟨c, hc⟩ := mem_getNeighbors.mp (ht.hop d e he hd)
    obtain ⟨b, hb, hname⟩ := hlink.listedLink
    obtain ⟨_, rfl⟩ := h.listedAt_unique hc hb hname.symm
    exact hc

/-- Node 0 of three nodes: the way to node 2 is shorter through node 1, and
the way back from node 2 is free. -/
def triangle : Node where
  currentSequenceNumber := 9
  neighborTable := .ofList [("1", (⟨20, 10, 0⟩ : NeighborTableEntry)), ("2", ⟨30, 11, 0⟩)]
  lsTable := .ofList [("0", (⟨[(20, 1), (30, 5)], 1⟩ : LSTableEntry)), ("1", ⟨[(10, 2), (30, 1)], 2⟩),
    ("2", ⟨[(10, 0)], 3⟩)]
  routingTable := ∅

/-- The links of `triangle`, by name. -/
def triangleLinks : List (String × String × ℕ) :=
  triangle.lsTable.toList.flatMap fun i =>
    i.2.neighborCosts.map fun x => (i.1, sampleConfig.reverseLookup x.1, x.2.toNat)

theorem triangle_link : ListedLink sampleConfig triangle K L c ↔ (K, L, c) ∈ triangleLinks := by
  unfold triangleLinks ListedLink ListedAt
  simp only [List.mem_flatMap, List.mem_map, Prod.exists, mem_toList, Prod.mk.injEq]
  constructor
  · intro ⟨_, ⟨entry, hK, a, w, hx, rfl, hc⟩, hL⟩
    exact ⟨K, entry, hK, a, w, hx, rfl, hL, hc⟩
  · intro ⟨_, entry, hK, a, w, hx, rfl, hL, hc⟩
    exact ⟨a, ⟨entry, hK, a, w, hx, rfl, hc⟩, hL⟩

theorem triangle_converged : Converged sampleConfig triangle := by
  have hself : sampleConfig.thisNode = "0" := by decide +kernel
  have hkeys : triangle.lsTable.keys = ["0", "1", "2"] := by decide +kernel
  have hlinks : triangleLinks =
      [("0", "1", 1), ("0", "2", 5), ("1", "0", 2), ("1", "2", 1), ("2", "0", 0)] := by decide +kernel
  have hlink : ∀ {K L : String} {c : ℕ}, (K, L, c) ∈ triangleLinks →
      ListedLink sampleConfig triangle K L c := triangle_link.mpr
  refine ⟨by decide +kernel, ?_, ?_, ?_, ?_, by decide +kernel⟩
  · intro K L c hl
    have hall : ∀ i ∈ triangleLinks, i.2.1 ∈ triangle.lsTable := by rw [hlinks]; decide +kernel
    exact hall (K, L, c) (triangle_link.mp hl)
  · intro K hK
    rw [← Std.ExtTreeMap.mem_keys, hkeys] at hK
    rw [hself]
    have h01 : ListedLink sampleConfig triangle "0" "1" 1 := hlink (by simp [hlinks])
    have h12 : ListedLink sampleConfig triangle "1" "2" 1 := hlink (by simp [hlinks])
    simp only [List.mem_cons, List.not_mem_nil, or_false] at hK
    rcases hK with rfl | rfl | rfl
    · exact ⟨0, .refl⟩
    · exact ⟨1, .single h01⟩
    · exact ⟨2, (Route.single h01).tail h12⟩
  · intro L c hl
    have hall : ∀ i ∈ triangleLinks, i.1 = "0" → i.2.1 ∈ triangle.neighborTable := by
      rw [hlinks]; decide +kernel
    exact hall (_, L, c) (triangle_link.mp hl) hself
  · intro K entry hK
    have hall : (triangle.lsTable.toList.all fun i =>
        decide ((i.2.neighborCosts.map fun x => sampleConfig.reverseLookup x.1).Nodup)) = true := by
      decide +kernel
    exact of_decide_eq_true (List.all_eq_true.mp hall (K, entry) (mem_toList.mpr hK))

/-- Node 0 reaches node 2 at cost 2, through node 1. -/
theorem dijkstra_shortest_paths_triangle :
    ∃ rt, dijkstra sampleConfig triangle = some rt ∧
      ∃ e, rt["2"]? = some e ∧ e.cost = 2 ∧ e.nextHopAddr = 20 ∧
        IsDistance (ListedLink sampleConfig triangle) "0" "2" 2 := by
  have hself : sampleConfig.thisNode = "0" := by decide +kernel
  obtain ⟨rt, hrt, _, _, hdist⟩ := dijkstra_shortest_paths sampleConfig triangle triangle_converged
  have hentry : (dijkstra sampleConfig triangle).bind (·["2"]?) = some ⟨30, 20, 20, 10, 2⟩ := by
    decide +kernel
  rw [hrt] at hentry
  have h2 := (hdist "2" _ hentry (by rw [hself]; decide)).1
  rw [hself] at h2
  exact ⟨rt, hrt, _, hentry, rfl, rfl, h2⟩

end Ns3Routing.Ls
