import Ns3Routing.Dv.Convergence
import Ns3Routing.Dv.Entries
import Ns3Routing.Ip

/-! # Forwarding with distance vectors

What becomes of a packet in a network at rest: the entries of `Dv.Entries`
leave over link ends, to the neighbours that `Dv.Convergence` says are
closer. -/

namespace Ns3Routing.Dv

open Lib Ns3Routing.Topology

theorem routingNode_dv {T : Topology} (lsStatic dvStatic : StaticInput) (i : Fin T.size)
    (ls : Ls.Node) (dv : Node) : routingNode T .dv lsStatic dvStatic i ls dv =
      ipNode T i [(0, dvRoutingProtocol (T.config i) (ipNode T i []).isDestinationAddress dvStatic
        dv)] := by
  rw [routingNode, Routing.protocols_dv]

/-- Every node has routes exactly to the nodes fewer than 16 hops away, and
their next hops are link neighbours one hop closer. -/
def Routed (T : Topology) (s : DvNet T) : Prop :=
  ∀ i j, i ≠ j → ((∃ rte, (s.node i).routingTable[T.name j]? = some rte) ↔ T.graph.edist i j < 16) ∧
    ∀ rte, (s.node i).routingTable[T.name j]? = some rte →
      (rte.cost.toNat : ℕ∞) = T.graph.edist i j ∧
        ∃ k, T.graph.Adj i k ∧ rte.nextHopAddr = (T.config k).mainAddress ∧
          T.graph.edist k j + 1 = T.graph.edist i j

section Routed
variable {T : Topology} {s : DvNet T} (h : Routed T s) (hN : Named T s)
  (hown : ∀ i, HasOwn (T.config i) (s.node i))
include h hN hown

/-- The entry of a node for another one leaves over a link end whose other end
is closer. -/
theorem Routed.leavesOver {i j : Fin T.size} (hne : i ≠ j) {rte : RoutingTableEntry}
    (hrte : (s.node i).routingTable[T.name j]? = some rte) :
    ∃ p, LeavesOver T i p j rte ∧ T.graph.edist (T.owner (peer p)) j + 1 = T.graph.edist i j := by
  obtain ⟨_, k, _, haddr, hcloser⟩ := (h i j hne).2 rte hrte
  rcases (hN.node i).leavesOver (hown i) hrte with ⟨hname, _⟩ | ⟨p, j', _, hname, hover⟩
  · exact absurd (name_inj.mp hname).symm hne
  · obtain rfl := name_inj.mp hname
    have hk : T.owner (peer p) = k := main_inj.mp (hover.nextHopAddr.symm.trans haddr)
    exact ⟨p, hover, hk ▸ hcloser⟩

theorem Routed.leadsTo (addressed : Addressed T) (lsNode : Fin T.size → Ls.Node)
    (lsStatic dvStatic : Fin T.size → StaticInput) (q : T.Port) :
    LeadsTo T (fun i => routingNode T .dv (lsStatic i) (dvStatic i) i (lsNode i) (s.node i)) q 16 where
  near i hi hlt := by
    have hnode := routingNode_dv (T := T) (lsStatic i) (dvStatic i) i (lsNode i) (s.node i)
    obtain ⟨hnear, _⟩ := h i _ hi
    obtain ⟨rte, hrte⟩ := hnear.mpr hlt
    obtain ⟨p, hover, hcloser⟩ := h.leavesOver hN hown hi hrte
    refine ⟨tableRoute (T.config i) (T.address q) rte, p, ?_⟩
    have hfound : foundRoute (T.config i) (s.node i) (T.address q) =
        some (tableRoute (T.config i) (T.address q) rte) := by
      rw [foundRoute, searchTable, reverseLookup_address, hrte, Option.map_some]
    exact addressed.closer hnode (routesByTable_dv _) hfound hi rfl hover.nextHopAddr hover.owner
      hover.interfaceAddr hcloser
  far i hi hle := by
    have hnone : (s.node i).routingTable[T.name (T.owner q)]? = none := by
      cases hrte : (s.node i).routingTable[T.name (T.owner q)]? with
      | none => rfl
      | some rte =>
        have hlt := (h i _ hi).1.mp ⟨rte, hrte⟩
        exact absurd hlt (not_lt.mpr hle)
    have hout : routeOutput (T.config i) (s.node i) (T.address q) = none := by
      rw [routeOutput, outputRoute, if_neg (address_ne_main hi), foundRoute, searchTable,
        reverseLookup_address, hnone]
      rfl
    simp [routingNode_dv, ipNode, IpNode.routeOutput, dvRoutingProtocol, hout]
  here s' hs' r hr := addressed.delivers

end Routed

/-- **What becomes of a packet.** In a static network at rest that routes by
distance vectors, a packet to an address of a node fewer than 16 hops away
takes a shortest way, visiting no node twice, and is delivered when its TTL
lets it cross that many links; a packet to a node further away has no
route. -/
theorem dv_packets (T : Topology) (addressed : Addressed T) (sequenceNumber : Fin T.size → UInt32)
    (ls : List (Label T)) (hstatic : Allows (netStep T) (Static T) (netStart T sequenceNumber) ls)
    (lsNode : Fin T.size → Ls.Node) (lsStatic dvStatic : Fin T.size → StaticInput) :
    ∃ s, run (netStep T) (netStart T sequenceNumber) ls = some s ∧ ((∀ p, s.chan p = []) →
      ∀ i q, i ≠ T.owner q → ∀ ttl, GoesTo T
        (fun i => routingNode T .dv (lsStatic i) (dvStatic i) i (lsNode i) (s.node i)) q 16 i ttl) := by
  obtain ⟨s, hrun, hsync, hS⟩ := synced_run T sequenceNumber ls hstatic
  refine ⟨s, hrun, fun rest i q hi ttl => ?_⟩
  have hown := (named_run hrun).2
  have hrouted : Routed T s := fun _ _ hne => hsync.route hS rest hne
  exact (hrouted.leadsTo hsync.named hown addressed lsNode lsStatic dvStatic q).goesTo hi ttl

/-! ## A packet along the line -/

theorem lineDeliveries_static : Allows (netStep lineTopology) (Static lineTopology)
    (netStart lineTopology fun _ => 0) lineDeliveries := by
  intro pre l t hp _
  have hl : l ∈ lineDeliveries := mem_of_prefix_snoc hp
  simp only [lineDeliveries, List.mem_flatten, List.mem_replicate] at hl
  obtain ⟨round, ⟨_, rfl⟩, hl⟩ := hl
  simp only [List.mem_cons, List.not_mem_nil, or_false] at hl
  rcases hl with rfl | rfl | rfl | rfl <;> trivial

theorem lineDeliveries_rest : ((run (netStep lineTopology) (netStart lineTopology fun _ => 0)
    lineDeliveries).map fun s => decide (∀ p, s.chan p = [])) = some true := by decide +kernel

theorem dv_packets_line : ∃ s ps ttl,
    run (netStep lineTopology) (netStart lineTopology fun _ => 0) lineDeliveries = some s ∧
      Crosses lineTopology (lineNode 0) ps (lineNode 2) ∧
      Conveyed lineTopology (fun i => routingNode lineTopology .dv noStatic noStatic i (Ls.doStart 0)
        (s.node i)) 30 (lineNode 0) 64 ps (.delivered (lineNode 2) ttl) := by
  obtain ⟨s, hrun, hgoes⟩ := dv_packets lineTopology line_addressed (fun _ => 0) lineDeliveries
    lineDeliveries_static (fun _ => Ls.doStart 0) (fun _ => noStatic) (fun _ => noStatic)
  have hrest := lineDeliveries_rest
  rw [hrun, Option.map_some, Option.some_inj, decide_eq_true_eq] at hrest
  obtain ⟨ps, ttl, hway, hconveyed⟩ :=
    (hgoes hrest (lineNode 0) (linePort 1 true) (by decide) 64).delivered
      (line_near.trans_lt (Nat.cast_lt.mpr (by decide : 2 < 16)))
      (line_near.trans (Nat.cast_le.mpr (by decide : 2 ≤ linksAllowed 64)))
  exact ⟨s, ps, ttl, hrun, hway, hconveyed⟩

end Ns3Routing.Dv
