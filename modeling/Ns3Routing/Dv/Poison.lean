import Ns3Routing.Dv.Host

/-! # Poisoned reverse

`SendDVTableMessage` compares the destination with the neighbour, and the next
hop with the destination, where poisoning needs the next hop and the
neighbour. So a vector poisons the neighbour itself, when it is routed
directly, and no other destination. -/

namespace Ns3Routing.Dv

open Lib Ns3Routing.Topology

/-- The routing table sends packets for `D` to the neighbour `N`. -/
def NextHop (cfg : NodeConfig) (n : Node) (D N : String) : Prop :=
  ∃ rte, n.routingTable[D]? = some rte ∧ cfg.reverseLookup rte.nextHopAddr = N

/-- The vector has every destination of `m_dv` once: at infinity when it is
another node routed through `N`, and at its cost otherwise. -/
def Poisons (cfg : NodeConfig) (n : Node) (N : String) (vector : List (Ipv4Address × UInt32)) :
    Prop :=
  ∀ (D : String) v, n.dv[D]? = some v →
    ∃ w, vector.filter (fun x => cfg.reverseLookup x.1 == D) = [(cfg.resolveName D, w)] ∧
      (D ≠ cfg.thisNode ∧ NextHop cfg n D N → w = mInf) ∧
      (¬ (D ≠ cfg.thisNode ∧ NextHop cfg n D N) → w = v)

/-- `D` is the neighbour itself, routed directly. -/
def Direct (cfg : NodeConfig) (n : Node) (e : NeighborTableEntry) (D : String) : Prop :=
  cfg.resolveName D = e.neighborAddr ∧
    ∃ rte, n.routingTable[D]? = some rte ∧ rte.nextHopAddr = cfg.resolveName D

section Vector
variable {T : Topology} {i : Fin T.size} {n : Node} (h : NodeNamed T i n)
include h

/-- The one element of a vector for `D`. -/
theorem vectorFor_at (e : NeighborTableEntry) {D : String} {v : UInt32} (hD : n.dv[D]? = some v) :
    ∃ w, (vectorFor (T.config i) n e).filter (fun x => (T.config i).reverseLookup x.1 == D) =
        [((T.config i).resolveName D, w)] ∧
      (Direct (T.config i) n e D → w = mInf) ∧ (¬ Direct (T.config i) n e D → w = v) := by
  have hname : ∀ (K : String) v, n.dv[K]? = some v →
      (T.config i).reverseLookup ((T.config i).resolveName K) = K := by
    intro K v hK
    obtain ⟨j, rfl⟩ := h.dvKeys K v hK
    rw [resolveName_name, reverseLookup_main]
  unfold vectorFor
  rw [List.map_eq_flatMap, List.filter_flatMap, flatMap_toList_at hD]
  · simp only [hname D v hD, beq_self_eq_true, List.filter_cons_of_pos, List.filter_nil]
    refine ⟨_, rfl, ?_, ?_⟩
    · intro ⟨haddr, rte, hrte, hhop⟩
      simp [haddr, hrte, hhop]
    · intro hno
      rw [if_neg]
      simp only [Bool.and_eq_true, beq_iff_eq]
      intro ⟨haddr, hdirect⟩
      cases hrte : n.routingTable[D]? with
      | none => rw [hrte] at hdirect; cases hdirect
      | some rte =>
        rw [hrte] at hdirect
        exact hno ⟨haddr, rte, hrte, by simpa using hdirect⟩
  · intro K v' hK hne
    simp [hname K v' hK, hne]

/-- The next hop of another node is a neighbour in `m_costs`, and the node is
less than 16 hops away. -/
theorem nextHop_spec {D : String} {rte : RoutingTableEntry} (hD : D ≠ (T.config i).thisNode)
    (hrte : n.routingTable[D]? = some rte) :
    ∃ v j, n.dv[D]? = some v ∧ v < 16 ∧ rte.nextHopAddr = (T.config j).mainAddress := by
  obtain ⟨v, hv⟩ : ∃ v, n.dv[D]? = some v := by
    by_contra hno
    rw [h.inv.unknown D (Option.eq_none_iff_forall_ne_some.mpr fun v hv => hno ⟨v, hv⟩) hD] at hrte
    cases hrte
  obtain ⟨r, hmin, hroute, hstored⟩ := h.inv.route D v hv hD
  rcases hroute with ⟨_, hnone⟩ | ⟨hlt, hop, hhop, hentry⟩
  · rw [hnone] at hrte; cases hrte
  · have hv' : v = r.minCost := hstored (UInt32.le_of_lt hlt)
    rw [hentry] at hrte
    obtain rfl := Option.some.inj hrte
    rcases hmin.attained with hinf | ⟨c, w, ⟨hc, _⟩, _⟩
    · rw [hinf] at hlt
      exact absurd hlt (by decide)
    · obtain ⟨e, he⟩ := h.inv.tables.costsEntry _ c hc
      obtain ⟨p, _, hname, _⟩ := h.entry _ e he
      refine ⟨v, T.owner (peer p), hv, hv' ▸ hlt, ?_⟩
      show (T.config i).resolveName r.nextHop = _
      rw [hname, resolveName_name]

/-- **When a vector poisons**: all nodes routed through the neighbour are the
neighbour itself. -/
theorem poisons_iff {N : String} {e : NeighborTableEntry} (he : n.neighborTable[N]? = some e) :
    Poisons (T.config i) n N (vectorFor (T.config i) n e) ↔
      ∀ D, D ≠ (T.config i).thisNode → NextHop (T.config i) n D N → D = N := by
  obtain ⟨p, hp, rfl, haddr, _⟩ := h.entry N e he
  have hself : T.name (T.owner (peer p)) ≠ (T.config i).thisNode := by
    rw [thisNode_eq, Ne, name_inj, ← hp]
    exact owner_peer_ne p
  have hdirect : ∀ D v, n.dv[D]? = some v → (Direct (T.config i) n e D ↔
      D = T.name (T.owner (peer p)) ∧
        NextHop (T.config i) n D (T.name (T.owner (peer p)))) := by
    intro D v hv
    unfold Direct
    rw [haddr]
    constructor
    · intro ⟨hD, rte, hrte, hhop⟩
      obtain ⟨j, rfl⟩ := h.dvKeys D v hv
      rw [resolveName_name, main_inj] at hD
      subst hD
      exact ⟨rfl, rte, hrte, by rw [hhop, resolveName_name, reverseLookup_main]⟩
    · intro ⟨hD, rte, hrte, hhop⟩
      subst hD
      obtain ⟨_, j, _, _, hj⟩ := nextHop_spec h hself hrte
      rw [hj, reverseLookup_main, name_inj] at hhop
      exact ⟨resolveName_name _ _, rte, hrte, by rw [hj, hhop, resolveName_name]⟩
  constructor
  · intro hpoison D hD hnext
    obtain ⟨rte, hrte, _⟩ := id hnext
    obtain ⟨v, j, hv, hlt, _⟩ := nextHop_spec h hD hrte
    obtain ⟨w, hw, hinf, _⟩ := hpoison D v hv
    obtain ⟨w', hw', _, hcost⟩ := vectorFor_at h e hv
    have hww : w = w' := by simpa using hw.symm.trans hw'
    by_contra hne
    -- the vector has the cost, which is less than 16
    have hv' : v = mInf := by
      rw [← hcost fun hd => hne ((hdirect D v hv).mp hd).1, ← hww]
      exact hinf ⟨hD, hnext⟩
    rw [hv'] at hlt
    exact absurd hlt (by decide)
  · intro hall D v hv
    obtain ⟨w, hw, hinf, hcost⟩ := vectorFor_at h e hv
    refine ⟨w, hw, ?_, ?_⟩
    · intro ⟨hD, hnext⟩
      exact hinf ((hdirect D v hv).mpr ⟨hall D hD hnext, hnext⟩)
    · intro hno
      refine hcost fun hd => hno ?_
      obtain ⟨hD, hnext⟩ := (hdirect D v hv).mp hd
      exact ⟨hD ▸ hself, hnext⟩

end Vector

/-- **What `SendDVTableMessage` sends to a neighbour**, in every state of every
run: it returns, and the vector for the neighbour `N` poisons exactly when
every other node that is routed through `N` is `N`. -/
theorem poisoned_reverse_iff (T : Topology) (s : HostNet T) (hs : Reachable T s) (i : Fin T.size)
    (N : String) (hN : N ∈ (s.node i).control.costs) :
    ∃ n' out e, sendDVTableMessage (T.config i) (s.node i).control = some (n', out) ∧
      (s.node i).control.neighborTable[N]? = some e ∧
      (∀ x ∈ (T.config i).sendPacket (⟨(s.node i).control.currentSequenceNumber, 1,
        (T.config i).mainAddress, .dvTableMsg (vectorFor (T.config i) (s.node i).control e)⟩ :
          DVMessage) e.interfaceAddr, x ∈ out) ∧
      (Poisons (T.config i) (s.node i).control N (vectorFor (T.config i) (s.node i).control e) ↔
        ∀ D, D ≠ (T.config i).thisNode → NextHop (T.config i) (s.node i).control D N → D = N) := by
  have h := hs.named.node i
  obtain ⟨c, hc⟩ := mem_iff_getElem?.mp hN
  obtain ⟨e, he⟩ := h.inv.tables.costsEntry N c hc
  obtain ⟨n', out, hsend⟩ := sendDVTableMessage_exists (T.config i) h.inv.tables.costsEntry
  refine ⟨n', out, e, hsend, he, ?_, poisons_iff h he⟩
  intro x hx
  rw [(sendDVTableMessage_spec hsend).2]
  refine List.mem_flatMap.mpr ⟨(N, c), mem_toList.mpr hc, ?_⟩
  dsimp only
  rw [he]
  exact hx

/-! ## A route of two hops -/

/-- On the line, node 1 hears both others, and node 0 hears node 1 and gets its
vector. -/
def lineVector : List (HostLabel lineTopology) :=
  [.act (lineNode 2) (.control (.auditHellos 1)), .act (lineNode 1) (.control (.auditHellos 1)),
    .act (lineNode 0) (.control (.auditHellos 1)), .deliver (linePort 0 true) 0 2,
    .deliver (linePort 1 true) 0 2, .deliver (linePort 0 false) 0 3, .deliver (linePort 0 true) 0 4]

/-- Then node 0 has the neighbour 1, and the way to node 2 is through it. -/
theorem lineVector_run : ∃ s, Reachable lineTopology s ∧ "1" ∈ (s.node (lineNode 0)).control.costs ∧
    NextHop (lineTopology.config (lineNode 0)) (s.node (lineNode 0)).control "2" "1" := by
  have hrun : ((run (faultyStep dvHost) (hostsStart lineTopology (fun _ => 7) fun _ => 2000)
      lineVector).map fun s => (((s.node (lineNode 0)).control.routingTable["2"]?).map
        fun rte => (lineTopology.config (lineNode 0)).reverseLookup rte.nextHopAddr,
        (s.node (lineNode 0)).control.costs.contains "1")) = some (some "1", true) := by
    decide +kernel
  obtain ⟨s, hs, hres⟩ := Option.map_eq_some_iff.mp hrun
  obtain ⟨hroute, hcost⟩ := Prod.mk.inj hres
  obtain ⟨rte, hrte, hhop⟩ := Option.map_eq_some_iff.mp hroute
  exact ⟨s, ⟨_, _, _, hs⟩, Std.ExtTreeMap.contains_iff_mem.mp hcost, rte, hrte, hhop⟩

theorem poisoned_reverse_iff_line : ∃ s, Reachable lineTopology s ∧
    "1" ∈ (s.node (lineNode 0)).control.costs ∧
    ∃ res, sendDVTableMessage (lineTopology.config (lineNode 0)) (s.node (lineNode 0)).control =
      some res := by
  obtain ⟨s, hs, hcost, _⟩ := lineVector_run
  obtain ⟨n', out, _, hsend, _⟩ := poisoned_reverse_iff lineTopology s hs (lineNode 0) "1" hcost
  exact ⟨s, hs, hcost, (n', out), hsend⟩

/-- Node 0 tells node 1 that node 2 is two hops away, through node 1
itself. -/
theorem route_back_not_poisoned :
    ¬ ∀ s : HostNet lineTopology, Reachable lineTopology s → ∀ i (N : String) e,
      N ∈ (s.node i).control.costs → (s.node i).control.neighborTable[N]? = some e →
        Poisons (lineTopology.config i) (s.node i).control N
          (vectorFor (lineTopology.config i) (s.node i).control e) := by
  intro h
  obtain ⟨s, hs, hcost, hnext⟩ := lineVector_run
  have hnamed := hs.named.node (lineNode 0)
  obtain ⟨c, hc⟩ := mem_iff_getElem?.mp hcost
  obtain ⟨e, he⟩ := hnamed.inv.tables.costsEntry "1" c hc
  have hself : "2" ≠ (lineTopology.config (lineNode 0)).thisNode := by decide +kernel
  have h21 := (poisons_iff hnamed he).mp (h s hs _ "1" e hcost he) "2" hself hnext
  exact absurd h21 (by decide)

end Ns3Routing.Dv
