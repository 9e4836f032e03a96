import Ns3Routing.Dv.Handlers
import Ns3Routing.Lib.Run

/-! # The tables of a distance-vector node between handlers

`Inv` is the invariant every event preserves, whatever it carries: the
routing table is what `BellmanFord` computes from the stored vectors. The
node-level results of the next modules start from it. -/

namespace Ns3Routing.Dv

open Lib

/-- The routing table has the route `r` describes, or none when `r` costs 16
or more. -/
def HasRoute (cfg : NodeConfig) (n : Node) (D : String) (r : MinCost) : Prop :=
  (16 ≤ r.minCost ∧ n.routingTable[D]? = none) ∨
    (r.minCost < 16 ∧ ∃ hop, hopEntry cfg n r = some hop ∧
      n.routingTable[D]? = some (routeEntry cfg D r hop))

/-- What the neighbour tables satisfy, before `BellmanFord` as after it;
`known` are the destinations it loops over. -/
structure TablesInv (cfg : NodeConfig) (n : Node) (known : DistanceVector) : Prop where
  keyed : Keyed cfg n
  costsOne : ∀ (N : String) c, n.costs[N]? = some c → c = 1
  costsEntry : ∀ (N : String) c, n.costs[N]? = some c → ∃ e, n.neighborTable[N]? = some e
  listed : ∀ (N : String) e D, n.neighborTable[N]? = some e → D ∈ e.dv → D ∈ known

structure Inv (cfg : NodeConfig) (n : Node) : Prop where
  tables : TablesInv cfg n n.dv
  unknown : ∀ D : String, n.dv[D]? = none → D ≠ cfg.thisNode → n.routingTable[D]? = none
  route : ∀ (D : String) v, n.dv[D]? = some v → D ≠ cfg.thisNode →
    ∃ r, IsMinCost n D r ∧ HasRoute cfg n D r ∧ (r.minCost ≤ 16 → v = r.minCost)

theorem inv_doStart (cfg : NodeConfig) (sequenceNumber : UInt32) :
    Inv cfg (doStart cfg sequenceNumber) := by
  refine ⟨⟨?_, ?_, ?_, ?_⟩, ?_, ?_⟩
  · intro K e h; simp [doStart] at h
  · intro N c h; simp [doStart] at h
  · intro N c h; simp [doStart] at h
  · intro N e D h; simp [doStart] at h
  · intro D _ _; simp [doStart]
  · intro D v h hD
    simp [doStart, Ne.symm hD] at h

/-! ## Tables that agree -/

theorem IsMinCost.congr {n n' : Node} {D : String} {r : MinCost}
    (h : ∀ {N c v}, Lists n' N D c v ↔ Lists n N D c v) (hr : IsMinCost n D r) :
    IsMinCost n' D r := by
  refine ⟨fun hl => hr.lower (h.mp hl), ?_, ?_⟩
  · rw [hr.updated]
    exact ⟨fun ⟨N, c, v, hl⟩ => ⟨N, c, v, h.mpr hl⟩, fun ⟨N, c, v, hl⟩ => ⟨N, c, v, h.mp hl⟩⟩
  · exact hr.attained.imp id fun ⟨c, v, hl, hm⟩ => ⟨c, v, h.mpr hl, hm⟩

theorem SameTables.lists_iff {n n' : Node} (h : SameTables n n') {N D : String} {c v : UInt32} :
    Lists n' N D c v ↔ Lists n N D c v := ⟨h.symm.lists, h.lists⟩

theorem SameTables.hasRoute {cfg : NodeConfig} {n n' : Node} (h : SameTables n n') {D : String}
    {r : MinCost} (hr : HasRoute cfg n D r) : HasRoute cfg n' D r := by
  unfold HasRoute
  rw [h.routingTable]
  refine hr.imp id ?_
  intro hx
  obtain ⟨hlt, hop, hhop, hrt⟩ := hx
  obtain ⟨hop', hhop', hcore⟩ := h.symm.entry hhop
  refine ⟨hlt, hop', hhop', ?_⟩
  have hif : hop.interfaceAddr = hop'.interfaceAddr := congrArg (·.2.1) hcore
  rw [hrt, routeEntry, routeEntry, hif]

theorem TablesInv.same {cfg : NodeConfig} {n n' : Node} (h : SameTables n n')
    (hT : TablesInv cfg n n.dv) : TablesInv cfg n' n'.dv := by
  refine ⟨?_, ?_, ?_, ?_⟩
  · intro K e' he'
    obtain ⟨e, he, hc⟩ := h.entry he'
    have ha : e'.neighborAddr = e.neighborAddr := congrArg (·.1) hc
    rw [ha]; exact hT.keyed K e he
  · intro N c hN; exact hT.costsOne N c (h.costs ▸ hN)
  · intro N c hN
    obtain ⟨e, he⟩ := hT.costsEntry N c (h.costs ▸ hN)
    exact (h.symm.entry he).imp fun _ h => h.1
  · intro N e' D he' hD
    obtain ⟨e, he, hc⟩ := h.entry he'
    have hdv : e'.dv = e.dv := congrArg (·.2.2) hc
    rw [h.dv]; exact hT.listed N e D he (hdv ▸ hD)

theorem Inv.same {cfg : NodeConfig} {n n' : Node} (h : SameTables n n') (hI : Inv cfg n) :
    Inv cfg n' := by
  refine ⟨hI.tables.same h, ?_, ?_⟩
  · rw [h.dv, h.routingTable]; exact hI.unknown
  · intro D v hv hD
    obtain ⟨r, hr, hroute, hstored⟩ := hI.route D v (h.dv ▸ hv) hD
    exact ⟨r, hr.congr h.lists_iff, h.hasRoute hroute, hstored⟩

/-! ## Edited tables -/

theorem mem_addUnknown {dv ndv : DistanceVector} {D : String} :
    D ∈ addUnknown dv ndv ↔ D ∈ dv ∨ D ∈ ndv := by
  rw [mem_iff_getElem?, getElem?_addUnknown, mem_iff_getElem? (m := dv)]
  cases hD : dv[D]? with
  | none => by_cases hn : D ∈ ndv <;> simp [hn]
  | some v => simp

theorem addNeighbor_entry {cfg : NodeConfig} {now socket : Nat} {a : Ipv4Address} {n : Node}
    (fresh : n.neighborTable[cfg.reverseLookup a]? = none) (K : String) :
    (addNeighbor cfg now socket a n).neighborTable[K]? =
      if cfg.reverseLookup a = K then
        some ⟨a, cfg.interfaceAddr socket, now, ∅⟩
      else n.neighborTable[K]? := by
  simp only [addNeighbor, getElem?_insertIfNew_eq, fresh, and_true]

theorem TablesInv.costs_none {cfg : NodeConfig} {n : Node} {known : DistanceVector} {K : String}
    (hT : TablesInv cfg n known) (h : n.neighborTable[K]? = none) : n.costs[K]? = none := by
  by_contra hc
  obtain ⟨c, hc⟩ := Option.ne_none_iff_exists'.mp hc
  obtain ⟨e, he⟩ := hT.costsEntry K c hc
  rw [h] at he; cases he

theorem addNeighbor_costs {cfg : NodeConfig} {now socket : Nat} {a : Ipv4Address} {n : Node}
    {known : DistanceVector} (hT : TablesInv cfg n known)
    (fresh : n.neighborTable[cfg.reverseLookup a]? = none) (K : String) :
    (addNeighbor cfg now socket a n).costs[K]? =
      if cfg.reverseLookup a = K then some 1 else n.costs[K]? := by
  simp only [addNeighbor, getElem?_insertIfNew_eq, hT.costs_none fresh, and_true]

theorem addNeighbor_tablesInv {cfg : NodeConfig} {now socket : Nat} {a : Ipv4Address} {n : Node}
    (hT : TablesInv cfg n n.dv) (fresh : n.neighborTable[cfg.reverseLookup a]? = none) :
    TablesInv cfg (addNeighbor cfg now socket a n)
      (addUnknown (addNeighbor cfg now socket a n).dv ∅) := by
  refine ⟨?_, ?_, ?_, ?_⟩
  · intro K e he
    rw [addNeighbor_entry fresh] at he
    split at he
    · rename_i hK; cases he; exact hK
    · exact hT.keyed K e he
  · intro N c hN
    rw [addNeighbor_costs hT fresh] at hN
    split at hN
    · exact (Option.some.inj hN).symm
    · exact hT.costsOne N c hN
  · intro N c hN
    rw [addNeighbor_costs hT fresh] at hN
    rw [addNeighbor_entry fresh]
    split at hN
    · exact ⟨_, if_pos ‹_›⟩
    · rw [if_neg ‹_›]; exact hT.costsEntry N c hN
  · intro N e D he hD
    rw [addNeighbor_entry fresh] at he
    rw [mem_addUnknown]
    split at he
    · cases he; exact absurd hD (by simp)
    · refine Or.inl ?_
      simp only [addNeighbor, Std.ExtTreeMap.mem_insertIfNew]
      exact Or.inr (hT.listed N e D he hD)

theorem storeVector_entry (cfg : NodeConfig) (now socket : Nat) (a : Ipv4Address)
    (newdv : DistanceVector) (n : Node) (K : String) :
    ∃ entry : NeighborTableEntry, entry.dv = newdv ∧
      (n.neighborTable[cfg.reverseLookup a]? = none ∧ entry.neighborAddr = a ∧
          entry.interfaceAddr = cfg.interfaceAddr socket ∨
        ∃ old, n.neighborTable[cfg.reverseLookup a]? = some old ∧
          entry = { old with dv := newdv }) ∧
      (storeVector cfg now socket a newdv n).neighborTable[K]? =
        if cfg.reverseLookup a = K then some entry else n.neighborTable[K]? := by
  unfold storeVector
  dsimp only
  cases h : n.neighborTable[cfg.reverseLookup a]? with
  | none => exact ⟨_, rfl, Or.inl ⟨rfl, rfl, rfl⟩, getElem?_insert_eq⟩
  | some old => exact ⟨_, rfl, Or.inr ⟨old, rfl, rfl⟩, getElem?_insert_eq⟩

theorem storeVector_tablesInv {cfg : NodeConfig} {now socket : Nat} {a : Ipv4Address}
    {newdv : DistanceVector} {n : Node} (hT : TablesInv cfg n n.dv) :
    TablesInv cfg (storeVector cfg now socket a newdv n) (addUnknown n.dv newdv) := by
  refine ⟨?_, hT.costsOne, ?_, ?_⟩
  · intro K e he
    obtain ⟨entry, _, horigin, hget⟩ := storeVector_entry cfg now socket a newdv n K
    rw [hget] at he
    split at he
    · rename_i hK
      cases he
      rcases horigin with ⟨_, ha, _⟩ | ⟨old, hold, rfl⟩
      · rw [ha]; exact hK
      · exact hT.keyed K old (hK ▸ hold)
    · exact hT.keyed K e he
  · intro N c hN
    obtain ⟨entry, _, _, hget⟩ := storeVector_entry cfg now socket a newdv n N
    rw [hget]
    split
    · exact ⟨_, rfl⟩
    · exact hT.costsEntry N c hN
  · intro N e D he hD
    obtain ⟨entry, hdv, _, hget⟩ := storeVector_entry cfg now socket a newdv n N
    rw [hget] at he
    rw [mem_addUnknown]
    split at he
    · cases he; exact Or.inr (hdv ▸ hD)
    · exact Or.inl (hT.listed N e D he hD)

theorem Audited.entry {cfg : NodeConfig} {now : Nat} {n m : Node} (h : Audited cfg now n m)
    {K : String} {e : NeighborTableEntry} (he : m.neighborTable[K]? = some e) :
    n.neighborTable[K]? = some e ∧ ¬ Expires cfg now n K := by
  by_cases hx : Expires cfg now n K
  · rw [(h.gone K hx).2.1] at he; cases he
  · exact ⟨(h.kept K hx).1 ▸ he, hx⟩

theorem Audited.cost {cfg : NodeConfig} {now : Nat} {n m : Node} (h : Audited cfg now n m)
    {K : String} {c : UInt32} (hc : m.costs[K]? = some c) :
    n.costs[K]? = some c ∧ ¬ Expires cfg now n K := by
  by_cases hx : Expires cfg now n K
  · rw [(h.gone K hx).2.2.1] at hc; cases hc
  · exact ⟨(h.kept K hx).2.1 ▸ hc, hx⟩

theorem Audited.mem_dv {cfg : NodeConfig} {now : Nat} {n m : Node} (h : Audited cfg now n m)
    {D : String} (hD : D ∈ n.dv) : D ∈ m.dv := by
  rw [mem_iff_getElem?] at hD ⊢
  by_cases hx : Expires cfg now n D
  · exact ⟨_, (h.gone D hx).2.2.2⟩
  · rw [(h.kept D hx).2.2]; exact hD

theorem Audited.tablesInv {cfg : NodeConfig} {now : Nat} {n m : Node} (h : Audited cfg now n m)
    (hT : TablesInv cfg n n.dv) : TablesInv cfg m (addUnknown m.dv m.dv) := by
  refine ⟨?_, ?_, ?_, ?_⟩
  · intro K e he; exact hT.keyed K e (h.entry he).1
  · intro N c hN; exact hT.costsOne N c (h.cost hN).1
  · intro N c hN
    obtain ⟨hc, hx⟩ := h.cost hN
    rw [(h.kept N hx).1]; exact hT.costsEntry N c hc
  · intro N e D he hD
    exact mem_addUnknown.mpr (Or.inl (h.mem_dv (hT.listed N e D (h.entry he).1 hD)))

theorem BeforeBF.tablesInv {cfg : NodeConfig} {n m : Node} {e : Event} {ndv : DistanceVector}
    (h : BeforeBF cfg n e m ndv) (hT : TablesInv cfg n n.dv) :
    TablesInv cfg m (addUnknown m.dv ndv) := by
  cases h with
  | hello _ fresh => exact addNeighbor_tablesInv hT fresh
  | dvTable _ => exact storeVector_tablesInv hT
  | audit audited _ =>
    exact audited.tablesInv (n := (sendHello cfg n).1)
      ⟨hT.keyed, hT.costsOne, hT.costsEntry, hT.listed⟩

/-! ## Every event -/

theorem Recomputed.mem_dv {cfg : NodeConfig} {m n' : Node} {known : DistanceVector}
    (h : Recomputed cfg m known n') {D : String} : D ∈ n'.dv ↔ D ∈ known := by
  simp only [mem_iff_getElem?]
  constructor
  · intro hx
    obtain ⟨v, hv⟩ := hx
    cases hk : known[D]? with
    | none => rw [(h.unknown D hk).1] at hv; cases hv
    | some w => exact ⟨w, rfl⟩
  · intro hx
    obtain ⟨v, hv⟩ := hx
    by_cases hD : D = cfg.thisNode
    · subst hD; exact ⟨v, (h.self v hv).1⟩
    · obtain ⟨r, _, hdv, _⟩ := h.dest D v hv hD
      exact ⟨_, hdv⟩

theorem Recomputed.lists {cfg : NodeConfig} {m n' : Node} {known : DistanceVector}
    (h : Recomputed cfg m known n') {N D : String} {c v : UInt32} :
    Lists n' N D c v ↔ Lists m N D c v := lists_congr h.costs h.neighborTable

theorem Recomputed.inv {cfg : NodeConfig} {m n' : Node} {known : DistanceVector}
    (h : Recomputed cfg m known n') (hT : TablesInv cfg m known) : Inv cfg n' := by
  refine ⟨⟨?_, ?_, ?_, ?_⟩, ?_, ?_⟩
  · intro K e he; exact hT.keyed K e (h.neighborTable ▸ he)
  · intro N c hN; exact hT.costsOne N c (h.costs ▸ hN)
  · intro N c hN; rw [h.neighborTable]; exact hT.costsEntry N c (h.costs ▸ hN)
  · intro N e D he hD
    exact h.mem_dv.mpr (hT.listed N e D (h.neighborTable ▸ he) hD)
  · intro D hD _
    refine (h.unknown D ?_).2
    by_contra hk
    have : D ∈ n'.dv := h.mem_dv.mpr (mem_iff_getElem?.mpr (Option.ne_none_iff_exists'.mp hk))
    obtain ⟨v, hv⟩ := mem_iff_getElem?.mp this
    rw [hD] at hv; cases hv
  · intro D v hv hD
    obtain ⟨w, hw⟩ := mem_iff_getElem?.mp (h.mem_dv.mp (mem_iff_getElem?.mpr ⟨v, hv⟩))
    obtain ⟨r, hr, hdv, hroute⟩ := h.dest D w hw hD
    refine ⟨r, (findMinCost_spec hr).congr h.lists, ?_, ?_⟩
    · unfold HasRoute hopEntry
      rw [h.neighborTable]
      exact hroute
    · intro h16
      rw [hv, (findMinCost_spec hr).stored h16 w] at hdv
      exact Option.some.inj hdv

/-- **The invariant is kept by every event.** -/
theorem inv_step {cfg : NodeConfig} {n n' : Node} {e : Event} (hI : Inv cfg n)
    (h : step cfg n e = some n') : Inv cfg n' := by
  rcases step_cases hI.tables.keyed h with ⟨hs, _⟩ | ⟨m, ndv, hb, hr⟩
  · exact hI.same hs
  · exact hr.inv (hb.tablesInv hI.tables)

theorem inv_run (cfg : NodeConfig) (sequenceNumber : UInt32) (es : List Event) :
    Along (step cfg) (Inv cfg) (doStart cfg sequenceNumber) es :=
  along_invariant (inv_doStart cfg sequenceNumber) (fun _ _ _ hI h => inv_step hI h) es

end Ns3Routing.Dv
