import Mathlib.Order.Bounds.Defs
import Ns3Routing.Dv.Invariants

/-! # The routing table is the Bellman-Ford minimum

For every run of a node, the routing table between handlers is the minimum of
what the neighbours in `m_costs` reported, cut off at 16 hops. -/

namespace Ns3Routing.Dv

open Lib

/-- Neighbour `N` of `m_costs` reports `D`, which puts it at total cost `k`. -/
def Reports (n : Node) (N D : String) (k : ℕ) : Prop :=
  ∃ c v, Lists n N D c v ∧ k = v.toNat + c.toNat

/-! ## The saturating sum -/

theorem toNat_throughNeighbor_one (v : UInt32) :
    (throughNeighbor 1 v).toNat = if v.toNat < 2147483646 then 1 + v.toNat else v.toNat := by
  have hlt : v < mInf - 1 ↔ v.toNat < 2147483646 := by
    rw [UInt32.lt_iff_toNat_lt]; rfl
  unfold throughNeighbor
  by_cases h : v.toNat < 2147483646
  · rw [if_pos (hlt.mpr h), if_pos h, UInt32.toNat_add, UInt32.toNat_one, Nat.mod_eq_of_lt (by omega)]
  · rw [if_neg fun h' => h (hlt.mp h'), if_neg h]

theorem throughNeighbor_one_le (v : UInt32) : (throughNeighbor 1 v).toNat ≤ 1 + v.toNat := by
  rw [toNat_throughNeighbor_one]; split <;> omega

/-- Up to 16 hops the sum is exact. -/
theorem throughNeighbor_one_of_le {v : UInt32} (h : (throughNeighbor 1 v).toNat ≤ 16) :
    (throughNeighbor 1 v).toNat = 1 + v.toNat := by
  rw [toNat_throughNeighbor_one] at h ⊢
  split at h
  · rw [if_pos ‹_›]
  · omega

section Minimum
variable {cfg : NodeConfig} {n : Node} {known : DistanceVector} {D : String} {r : MinCost}

/-- No report is below the least cost. -/
theorem IsMinCost.le_reports (hT : TablesInv cfg n known) (hr : IsMinCost n D r) {N : String}
    {k : ℕ} (h : Reports n N D k) : r.minCost.toNat ≤ k := by
  obtain ⟨c, v, hl, rfl⟩ := h
  obtain rfl := hT.costsOne N c hl.1
  have hlow := UInt32.le_iff_toNat_le.mp (hr.lower hl)
  have := throughNeighbor_one_le v
  simp only [UInt32.toNat_one]
  omega

/-- A least cost of at most 16 hops is reported by the next hop. -/
theorem IsMinCost.reports (hT : TablesInv cfg n known) (hr : IsMinCost n D r)
    (h : r.minCost.toNat ≤ 16) : Reports n r.nextHop D r.minCost.toNat := by
  rcases hr.attained with hinf | ⟨c, v, hl, hm⟩
  · rw [hinf] at h; exact absurd h (by decide)
  · obtain rfl := hT.costsOne _ c hl.1
    refine ⟨1, v, hl, ?_⟩
    rw [hm] at h ⊢
    rw [throughNeighbor_one_of_le h, UInt32.toNat_one, Nat.add_comm]

theorem IsMinCost.le_iff_reports (hT : TablesInv cfg n known) (hr : IsMinCost n D r) {b : ℕ}
    (hb : b ≤ 16) : r.minCost.toNat ≤ b ↔ ∃ N k, Reports n N D k ∧ k ≤ b := by
  constructor
  · intro h; exact ⟨_, _, hr.reports hT (by omega), h⟩
  · intro hx
    obtain ⟨N, k, hk, hle⟩ := hx
    exact (hr.le_reports hT hk).trans hle

end Minimum

/-! ## Runs -/

/-- The events of the runs considered: messages come from nodes whose name and
main address the maps of this node turn into each other, and the hello timer
never times out a neighbour that is missing from `m_costs`. -/
def FromKnown (cfg : NodeConfig) (n : Node) : Event → Prop
  | .recv _ _ dvMessage => cfg.KnownName (cfg.reverseLookup dvMessage.originatorAddress)
  | .auditHellos now => ∀ K, Expires cfg now n K → K ∈ n.costs

/-- The neighbours in `m_costs` have known names. -/
def KnownCosts (cfg : NodeConfig) (n : Node) : Prop :=
  ∀ (N : String) c, n.costs[N]? = some c → cfg.KnownName N

theorem KnownCosts.resolvable {cfg : NodeConfig} {n : Node} {known : DistanceVector}
    (hK : KnownCosts cfg n) (hT : TablesInv cfg n known) : Resolvable cfg n := by
  intro N c hN
  rw [(hK N c hN).resolveName]
  exact ⟨hT.costsEntry N c hN, hT.costsEntry N c hN⟩

theorem BeforeBF.knownCosts {cfg : NodeConfig} {n m : Node} {e : Event} {ndv : DistanceVector}
    (h : BeforeBF cfg n e m ndv) (hT : TablesInv cfg n n.dv) (hK : KnownCosts cfg n)
    (he : FromKnown cfg n e) : KnownCosts cfg m := by
  intro N c hN
  cases h with
  | hello _ fresh =>
    rw [addNeighbor_costs hT fresh] at hN
    split at hN
    · rename_i hn; exact hn ▸ he
    · exact hK N c hN
  | dvTable _ => exact hK N c hN
  | audit audited _ => exact hK N c (audited.cost hN).1

theorem knownCosts_step {cfg : NodeConfig} {n n' : Node} {e : Event} (hI : Inv cfg n)
    (hK : KnownCosts cfg n) (he : FromKnown cfg n e) (h : step cfg n e = some n') :
    KnownCosts cfg n' := by
  rcases step_cases hI.tables.keyed h with ⟨hs, _⟩ | ⟨m, ndv, hb, hr⟩
  · intro N c hN; exact hK N c (hs.costs ▸ hN)
  · intro N c hN
    exact hb.knownCosts hI.tables hK he N c (hr.costs ▸ hN)

/-- Such an event never runs into undefined behaviour. -/
theorem step_exists {cfg : NodeConfig} {n : Node} {e : Event} (hI : Inv cfg n)
    (hK : KnownCosts cfg n) (he : FromKnown cfg n e) : ∃ n', step cfg n e = some n' := by
  suffices h : ∃ n' out, handle cfg n e = some (n', out) by
    obtain ⟨n', out, h⟩ := h
    exact ⟨n', by rw [step, h]; rfl⟩
  have runs : ∀ {m ndv}, BeforeBF cfg n e m ndv → Resolvable cfg m := fun hb =>
    (hb.knownCosts hI.tables hK he).resolvable (hb.tablesInv hI.tables)
  cases e with
  | recv now socket dvMessage =>
    simp only [handle, recvDVMessage]
    split
    · rename_i hp
      simp only [processHelloReq]
      split
      · exact ⟨_, _, rfl⟩
      · rename_i fresh
        obtain ⟨n₁, sent, hbf⟩ := bellmanFord_exists ∅ (runs (.hello hp fresh))
        have hrec := (bellmanFord_spec hbf).1
        obtain ⟨n₂, resent, hsend⟩ := sendDVTableMessage_exists cfg (n := n₁)
          fun N c hN => by
            rw [hrec.neighborTable]
            exact (runs (.hello hp fresh) N c (hrec.costs ▸ hN)).1
        exact ⟨n₂, sent ++ resent, by simp [hbf, hsend]⟩
    · rename_i hp
      simp only [processDVTableMessage, DVMessage.neighborCosts, hp]
      exact bellmanFord_exists _ (runs (.dvTable hp))
  | auditHellos now =>
    have hkeyed : Keyed cfg (sendHello cfg n).1 := hI.tables.keyed
    obtain ⟨⟨m, sendMsg⟩, hloop⟩ := (auditLoop_defined_iff hkeyed).mpr he
    simp only [handle, auditHellos, hloop, Option.bind_eq_bind, Option.bind_some]
    cases sendMsg with
    | true =>
      have hb : BeforeBF cfg n (.auditHellos now) m m.dv :=
        .audit (auditLoop_spec hkeyed hloop) ((auditLoop_flag_iff hkeyed hloop).mp rfl)
      obtain ⟨n₁, sent, hbf⟩ := bellmanFord_exists m.dv (runs hb)
      exact ⟨n₁, _, by simp [hbf]; rfl⟩
    | false => exact ⟨_, _, rfl⟩

/-! ## The routing table -/

section Table
variable {cfg : NodeConfig} {n : Node} {D : String}

/-- A report for `D` makes it a known destination. -/
theorem Inv.reports_mem (hI : Inv cfg n) {N : String} {k : ℕ} (h : Reports n N D k) :
    ∃ v, n.dv[D]? = some v := by
  obtain ⟨c, v, ⟨_, e, he, hv⟩, _⟩ := h
  exact mem_iff_getElem?.mp (hI.tables.listed N e D he (mem_iff_getElem?.mpr ⟨v, hv⟩))

theorem Inv.route_iff (hI : Inv cfg n) (hD : D ≠ cfg.thisNode) :
    (∃ rte, n.routingTable[D]? = some rte) ↔ ∃ N k, Reports n N D k ∧ k < 16 := by
  cases hdv : n.dv[D]? with
  | none =>
    refine iff_of_false ?_ ?_
    · intro hx
      obtain ⟨rte, h⟩ := hx
      rw [hI.unknown D hdv hD] at h; cases h
    · intro hx
      obtain ⟨N, k, h, _⟩ := hx
      obtain ⟨v, hv⟩ := hI.reports_mem h
      rw [hdv] at hv; cases hv
  | some v =>
    obtain ⟨r, hr, hroute, _⟩ := hI.route D v hdv hD
    have hmin := hr.le_iff_reports hI.tables (b := 15) (by decide)
    simp only [Nat.lt_succ_iff.symm] at hmin
    rw [← hmin]
    rcases hroute with ⟨hge, hnone⟩ | ⟨hlt, hop, _, hsome⟩
    · refine iff_of_false ?_ ?_
      · intro hx
        obtain ⟨rte, h⟩ := hx
        rw [hnone] at h; cases h
      · exact Nat.not_lt.mpr (UInt32.le_iff_toNat_le.mp hge)
    · exact iff_of_true ⟨_, hsome⟩ (UInt32.lt_iff_toNat_lt.mp hlt)

/-- A routing table entry is the route through a neighbour with the least
report. -/
theorem Inv.route_least (hI : Inv cfg n) (hK : KnownCosts cfg n) (hD : D ≠ cfg.thisNode)
    {rte : RoutingTableEntry} (h : n.routingTable[D]? = some rte) :
    IsLeast {k | ∃ N, Reports n N D k} rte.cost.toNat ∧
      ∃ N e, Reports n N D rte.cost.toNat ∧ n.neighborTable[N]? = some e ∧
        rte.interfaceAddr = e.interfaceAddr ∧
        ∃ number : UInt32, N = toString number.toNat ∧
          cfg.nodeAddressMap[number]? = some rte.nextHopAddr := by
  cases hdv : n.dv[D]? with
  | none => rw [hI.unknown D hdv hD] at h; cases h
  | some v =>
    obtain ⟨r, hr, hroute, _⟩ := hI.route D v hdv hD
    rcases hroute with ⟨_, hnone⟩ | ⟨hlt, hop, hhop, hsome⟩
    · rw [hnone] at h; cases h
    · rw [hsome] at h
      obtain rfl := Option.some.inj h
      have hle : r.minCost.toNat ≤ 16 := (UInt32.lt_iff_toNat_lt.mp hlt).le
      have hrep := hr.reports hI.tables hle
      have hname : cfg.KnownName r.nextHop := by
        obtain ⟨c, _, hl, _⟩ := hrep
        exact hK _ c hl.1
      rw [hopEntry, hname.resolveName] at hhop
      refine ⟨⟨⟨_, hrep⟩, fun k ⟨N, hk⟩ => hr.le_reports hI.tables hk⟩,
        r.nextHop, hop, hrep, hhop, rfl, ?_⟩
      obtain ⟨number, address, hprint, hnum, _⟩ := hname
      refine ⟨number, hprint, ?_⟩
      simp only [routeEntry, NodeConfig.resolveName, hprint, atoi_toString,
        NodeConfig.resolveNodeIpAddress, hnum, Option.getD_some]

end Table

/-- **The routing table is the Bellman-Ford minimum of the reports.** In every
run of known messages and of timeouts of neighbours in `m_costs`, which is
defined to its end, a destination has a route exactly when a neighbour puts
it within 15 hops, at the least cost any neighbour reports, through a
neighbour that reports it and on the interface stored for that neighbour. -/
theorem routingTable_isLeast (cfg : NodeConfig) (sequenceNumber : UInt32) (es : List Event)
    (h : Allows (step cfg) (FromKnown cfg) (doStart cfg sequenceNumber) es) :
    ∃ n, run (step cfg) (doStart cfg sequenceNumber) es = some n ∧
      ∀ D, D ≠ cfg.thisNode →
        ((∃ rte, n.routingTable[D]? = some rte) ↔ ∃ N k, Reports n N D k ∧ k < 16) ∧
        ∀ rte, n.routingTable[D]? = some rte →
          IsLeast {k | ∃ N, Reports n N D k} rte.cost.toNat ∧
            ∃ N e, Reports n N D rte.cost.toNat ∧ n.neighborTable[N]? = some e ∧
              rte.interfaceAddr = e.interfaceAddr ∧
              ∃ number : UInt32, N = toString number.toNat ∧
                cfg.nodeAddressMap[number]? = some rte.nextHopAddr := by
  obtain ⟨n, hrun, hI, hK⟩ := run_exists (P := fun n => Inv cfg n ∧ KnownCosts cfg n)
    ⟨inv_doStart cfg sequenceNumber, fun N c hN => by simp [doStart] at hN⟩
    (fun n e ⟨hI, hK⟩ he => by
      obtain ⟨n', hst⟩ := step_exists hI hK he
      exact ⟨n', hst, inv_step hI hst, knownCosts_step hI hK he hst⟩) h
  exact ⟨n, hrun, fun D hD => ⟨hI.route_iff hD, fun rte hrte => hI.route_least hK hD hrte⟩⟩

/-- Node 1 says hello and advertises itself and node 2. -/
def sampleEvents : List Event :=
  [.recv 0 0 ⟨5, 1, 20, .helloReq 10 "hello"⟩,
    .recv 1 0 ⟨6, 1, 20, .dvTableMsg [(10, 1), (20, 0), (30, 1)]⟩]

theorem routingTable_isLeast_sample :
    ∃ n, run (step sampleConfig) (doStart sampleConfig 0) sampleEvents = some n ∧
      IsLeast {k | ∃ N, Reports n N "2" k} 2 := by
  have known : sampleConfig.KnownName (sampleConfig.reverseLookup 20) :=
    ⟨1, 20, by decide +kernel⟩
  obtain ⟨n, hrun, h⟩ := routingTable_isLeast sampleConfig 0 sampleEvents fun pre e t hp _ => by
    have he : e ∈ sampleEvents := mem_of_prefix_snoc hp
    simp only [sampleEvents, List.mem_cons, List.not_mem_nil, or_false] at he
    rcases he with rfl | rfl <;> exact known
  have hcost : (run (step sampleConfig) (doStart sampleConfig 0) sampleEvents).bind
      (·.routingTable["2"]?.map (·.cost)) = some 2 := by decide +kernel
  rw [hrun, Option.bind_some] at hcost
  obtain ⟨rte, hrte, hc⟩ := Option.map_eq_some_iff.mp hcost
  have hleast := ((h "2" (by decide +kernel)).2 rte hrte).1
  rw [hc] at hleast
  exact ⟨n, hrun, hleast⟩

end Ns3Routing.Dv
