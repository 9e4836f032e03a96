import Ns3Routing.Ip
import Ns3Routing.Ls.Current

/-! # Forwarding with link states

What becomes of a packet in a network at rest. Until then `Dijkstra` runs on
databases in which nodes are missing, and may have no defined result; a run
goes on with whatever stands for it there. At rest the stored table is that of
`Dijkstra` itself on the whole topology. -/

namespace Ns3Routing.Ls

open Lib Ns3Routing.Topology

/-- `Dijkstra`, with anything in place of an undefined result. -/
def Completes (dijkstra' : NodeConfig → Node → Option RoutingTable) : Prop :=
  ∀ cfg n rt, dijkstra cfg n = some rt → dijkstra' cfg n = some rt

section Calm
variable {T : Topology} {s : LsNet T} {log : Fin T.size → List (UInt32 × NbrCostsVec)}
  (h : Flooding T log s) (calm : Calm T s) (conn : T.graph.Connected) (htwo : 2 ≤ T.size)
include h calm conn htwo

/-- The stored table is the one `Dijkstra` computes. -/
theorem Flooding.routingTable {dijkstra' : NodeConfig → Node → Option RoutingTable}
    (completes : Completes dijkstra') {i : Fin T.size}
    (hcurrent : CurrentOrAlone dijkstra' (T.config i) (s.node i)) :
    dijkstra (T.config i) (s.node i) = some (s.node i).routingTable := by
  have heard : ∀ p, T.owner p = i →
      ∃ e, (s.node i).neighborTable[T.name (T.owner (peer p))]? = some e := by
    intro p hp
    subst hp
    exact calm.known p
  obtain ⟨rt, hrt⟩ := (h.informed_of_calm calm conn htwo i).dijkstra_exists heard conn
  have : Nontrivial (Fin T.size) := Fin.nontrivial_iff_two_le.mpr htwo
  obtain ⟨_, p, hp, _⟩ := conn.preconnected.exists_adj_of_nontrivial i
  rcases hcurrent with halone | ⟨m, hm, hsame⟩
  · obtain ⟨e, he⟩ := heard p hp
    rw [halone] at he
    cases he
  · have hrtm : dijkstra (T.config i) m = some rt := by rw [hsame.dijkstra, hrt]
    have hstored := (completes _ _ _ hrtm).symm.trans hm
    rw [hrt, hstored]

/-- The nodes of the network lead to every address, when link states are asked
first. -/
theorem Flooding.leadsTo
    (hrt : ∀ i, dijkstra (T.config i) (s.node i) = some (s.node i).routingTable)
    (addressed : Addressed T) {node : Fin T.size → IpNode} {lsStatic : Fin T.size → StaticInput}
    (hnode : ∀ i, ∃ priority rest, node i = ipNode T i ((priority, lsRoutingProtocol (T.config i)
      (ipNode T i []).isDestinationAddress (lsStatic i) (s.node i)) :: rest)) (q : T.Port) :
    LeadsTo T node q ⊤ where
  near i hi _ := by
    obtain ⟨priority, rest, hi'⟩ := hnode i
    obtain ⟨hall, hroutes⟩ := (h.informed_of_calm calm conn htwo i).routes conn (hrt i)
    obtain ⟨e, he⟩ := hall (T.owner q)
    rcases hroutes _ e he with ⟨hself, _⟩ | ⟨p, j, c, _, hname, hover, hdist, hcloser⟩
    · exact absurd (name_inj.mp hself).symm hi
    · obtain rfl := name_inj.mp hname
      refine ⟨tableRoute (T.config i) (T.address q) e, p, ?_⟩
      have hfound : foundRoute (T.config i) (s.node i) (T.address q) =
          some (tableRoute (T.config i) (T.address q) e) := by
        rw [foundRoute, searchTable, reverseLookup_address, he, Option.map_some]
      exact addressed.closer hi' (routesByTable_ls _) hfound hi rfl hover.nextHopAddr hover.owner
        hover.interfaceAddr (by rw [hcloser, hdist])
  far i hi hle := by
    obtain ⟨w⟩ := conn.preconnected i (T.owner q)
    exact absurd (top_le_iff.mp hle)
      (ne_top_of_le_ne_top (ENat.natCast_ne_top _) (SimpleGraph.edist_le w))
  here s' hs' r hr := by
    obtain ⟨_, _, hq⟩ := hnode (T.owner q)
    rw [hq]
    exact addressed.delivers

end Calm

/-- With `main`'s other routing protocols than distance vectors alone, link
states are asked first. -/
theorem routingNode_first {T : Topology} {routing : Routing} (hrouting : routing ≠ .dv)
    (lsStatic dvStatic : StaticInput) (i : Fin T.size) (ls : Node) (dv : Dv.Node) :
    ∃ priority rest, routingNode T routing lsStatic dvStatic i ls dv =
      ipNode T i ((priority, lsRoutingProtocol (T.config i) (ipNode T i []).isDestinationAddress
        lsStatic ls) :: rest) := by
  cases routing with
  | ls => exact ⟨0, [], by rw [routingNode, Routing.protocols_ls]⟩
  | dv => exact absurd rfl hrouting
  | any => exact ⟨10, _, by rw [routingNode, Routing.protocols_any]⟩

/-- **Link states, from the first hello to a delivered packet.** In a static
network at rest every node has stored what `Dijkstra` makes of its tables, and
a packet to any address of another node takes a shortest way, visiting no node
twice, and is delivered when its TTL lets it cross that many links; distance
vectors that run beside link states change nothing. -/
theorem ls_packets (T : Topology) (addressed : Addressed T) (conn : T.graph.Connected)
    (htwo : 2 ≤ T.size) (dijkstra' : NodeConfig → Node → Option RoutingTable)
    (completes : Completes dijkstra') (sequenceNumber : Fin T.size → UInt32) (ls : List (Label T))
    (static : Allows (netStep dijkstra' T) (Static dijkstra' T) (netStart T sequenceNumber) ls)
    (s : LsNet T) (hrun : run (netStep dijkstra' T) (netStart T sequenceNumber) ls = some s)
    (quiet : ∀ p, s.chan p = []) (dvNode : Fin T.size → Dv.Node)
    (lsStatic dvStatic : Fin T.size → StaticInput) :
    (∀ i, dijkstra (T.config i) (s.node i) = some (s.node i).routingTable) ∧
      ∀ routing, routing ≠ .dv → ∀ i q, i ≠ T.owner q → ∀ ttl, GoesTo T
        (fun i => routingNode T routing (lsStatic i) (dvStatic i) i (s.node i) (dvNode i)) q ⊤ i ttl := by
  obtain ⟨log, hflood⟩ := flooding_along static ls s (List.prefix_refl ls) hrun
  have calm := hflood.calm quiet
  have hrt : ∀ i, dijkstra (T.config i) (s.node i) = some (s.node i).routingTable :=
    fun i => hflood.routingTable calm conn htwo completes (current_run hrun i)
  refine ⟨hrt, fun routing hrouting i q hi ttl => ?_⟩
  have hleads := hflood.leadsTo calm conn htwo hrt addressed
    (fun i => routingNode_first hrouting (lsStatic i) (dvStatic i) i (s.node i) (dvNode i)) q
  exact hleads.goesTo hi ttl

/-! ## A packet along the line -/

theorem dijkstraOrEmpty_completes : Completes dijkstraOrEmpty := by
  intro cfg n rt h
  rw [dijkstraOrEmpty, h, Option.getD_some]

theorem deliverLine_static : Allows (netStep dijkstraOrEmpty lineTopology)
    (Static dijkstraOrEmpty lineTopology) (netStart lineTopology fun _ => 7) (deliverLine 1) := by
  have hwrap : Allows (netStep dijkstraOrEmpty lineTopology)
      (NoWrap dijkstraOrEmpty lineTopology) (netStart lineTopology fun _ => 7) (deliverLine 1) :=
    allows_of_checkRun (c := noWrapCheck dijkstraOrEmpty lineTopology)
      (fun _ _ => noWrap_of_check) (by decide +kernel)
  intro pre lab t hp ht
  refine ⟨hwrap pre lab t hp ht, ?_⟩
  obtain ⟨p, k, rfl⟩ := of_mem_deliverLine (mem_of_prefix_snoc hp)
  trivial

theorem deliverLine_rest : ((run (netStep dijkstraOrEmpty lineTopology)
    (netStart lineTopology fun _ => 7) (deliverLine 1)).map fun s => decide (∀ p, s.chan p = [])) =
      some true := by decide +kernel

/-- With both protocols installed, a packet from one end of the line to the
other. -/
theorem ls_packets_line : ∃ s ps ttl,
    run (netStep dijkstraOrEmpty lineTopology) (netStart lineTopology fun _ => 7) (deliverLine 1) =
      some s ∧ (∀ i, dijkstra (lineTopology.config i) (s.node i) = some (s.node i).routingTable) ∧
      Crosses lineTopology (lineNode 0) ps (lineNode 2) ∧
      Conveyed lineTopology (fun i => routingNode lineTopology .any noStatic noStatic i (s.node i)
        (Dv.doStart (lineTopology.config i) 0)) 30 (lineNode 0) 64 ps
          (.delivered (lineNode 2) ttl) := by
  obtain ⟨s, hs, hrest⟩ := Option.map_eq_some_iff.mp deliverLine_rest
  obtain ⟨hrt, hgoes⟩ := ls_packets lineTopology line_addressed line_connected (by decide)
    dijkstraOrEmpty dijkstraOrEmpty_completes (fun _ => 7) (deliverLine 1) deliverLine_static s hs
    (of_decide_eq_true hrest) (fun i => Dv.doStart (lineTopology.config i) 0) (fun _ => noStatic)
    (fun _ => noStatic)
  obtain ⟨ps, ttl, hway, hconveyed⟩ :=
    (hgoes .any (by decide) (lineNode 0) (linePort 1 true) (by decide) 64).delivered
      (line_near.trans_lt (lt_top_iff_ne_top.mpr (ENat.natCast_ne_top 2)))
      (line_near.trans (Nat.cast_le.mpr (by decide : 2 ≤ linksAllowed 64)))
  exact ⟨s, ps, ttl, hs, hrt, hway, hconveyed⟩

end Ns3Routing.Ls
