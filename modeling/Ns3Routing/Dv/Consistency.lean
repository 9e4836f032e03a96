import Ns3Routing.Dv.RoutingTable

/-! # Do the tables of a node agree with each other?

Two properties the code relies on and does not always keep: that `m_dv`,
which is advertised, and `m_routingTable`, which packets follow, agree
(`Advertises`), and that `m_costs` and `m_neighborTable` have the same
neighbours (`Bookkeeping`). For each of them the events that break it are
determined exactly, over all runs. -/

namespace Ns3Routing.Dv

open Lib

/-! ## What is advertised and what is routed -/

/-- For a destination that is no neighbour, `m_dv` has a cost below 16 exactly
when the routing table has a route of that cost. -/
def Advertises (cfg : NodeConfig) (n : Node) : Prop :=
  ∀ D, D ≠ cfg.thisNode → D ∉ n.costs → ∀ c,
    (n.dv[D]? = some c ∧ c < 16) ↔ ∃ rte, n.routingTable[D]? = some rte ∧ rte.cost = c

/-- `m_dv` advertises the destination `D`, which is no neighbour. -/
def Transit (cfg : NodeConfig) (n : Node) (D : String) : Prop :=
  D ≠ cfg.thisNode ∧ D ∉ n.costs ∧ ∃ v, n.dv[D]? = some v ∧ v < 16

/-- Someone who still counts after the event puts every advertised destination
within 16 hops. -/
def KeepsRoutes (cfg : NodeConfig) (n : Node) : Event → Prop
  | .recv _ _ dvMessage =>
    match dvMessage.payload with
    | .helloReq _ _ => True
    | .dvTableMsg neighborCosts => ∀ D, Transit cfg n D →
      (∃ N k, N ≠ cfg.reverseLookup dvMessage.originatorAddress ∧ Reports n N D k ∧ k ≤ 16) ∨
        (cfg.reverseLookup dvMessage.originatorAddress ∈ n.costs ∧
          ∃ v, (receivedVector cfg neighborCosts)[D]? = some v ∧ v.toNat + 1 ≤ 16)
  | .auditHellos now => ∀ D, Transit cfg n D →
    ∃ N k, ¬ Expires cfg now n N ∧ Reports n N D k ∧ k ≤ 16

section Recompute
variable {cfg : NodeConfig} {n m n' : Node} {known : DistanceVector} {D : String}

/-- `BellmanFord` leaves `m_dv` and the routing table in agreement on `D`
exactly when it had no finite cost for it before, or finds one again. -/
theorem Recomputed.agree_iff (h : Recomputed cfg m known n') (hT : TablesInv cfg m known)
    (hD : D ≠ cfg.thisNode) :
    (∀ c, (n'.dv[D]? = some c ∧ c < 16) ↔ ∃ rte, n'.routingTable[D]? = some rte ∧ rte.cost = c) ↔
      ((∃ v, known[D]? = some v ∧ v < 16) → ∃ N k, Reports m N D k ∧ k ≤ 16) := by
  cases hk : known[D]? with
  | none =>
    obtain ⟨hdv, hrt⟩ := h.unknown D hk
    simp [hdv, hrt]
  | some v =>
    obtain ⟨r, hfind, hdv, hroute⟩ := h.dest D v hk hD
    have hr := findMinCost_spec hfind
    have hle := hr.le_iff_reports hT (b := 16) (Nat.le_refl _)
    rcases hroute with ⟨hge, hrt⟩ | ⟨hlt, hop, _, hrt⟩
    · -- no route: `m_dv` must not have a cost below 16
      have hge' : 16 ≤ r.minCost.toNat := UInt32.le_iff_toNat_le.mp hge
      have stored : (if r.differs v then r.minCost else v) < 16 ↔
          v < 16 ∧ ¬ r.minCost.toNat ≤ 16 := by
        by_cases h16 : r.minCost.toNat ≤ 16
        · rw [hr.stored (UInt32.le_iff_toNat_le.mpr h16)]
          exact iff_of_false (UInt32.not_lt.mpr hge) (fun hv => hv.2 h16)
        · have : ¬ r.minCost ≤ 16 := fun h => h16 (UInt32.le_iff_toNat_le.mp h)
          simp [MinCost.differs, this, h16]
      rw [← hle]
      constructor
      · rintro h ⟨_, ⟨⟩, hv⟩
        by_contra h16
        obtain ⟨rte, hrte, _⟩ := (h _).mp ⟨hdv, stored.mpr ⟨hv, h16⟩⟩
        rw [hrt] at hrte; cases hrte
      · intro h c
        refine iff_of_false ?_ ?_
        · intro hx
          obtain ⟨hc, hlt⟩ := hx
          rw [hdv] at hc
          obtain rfl := Option.some.inj hc
          obtain ⟨hv, h16⟩ := stored.mp hlt
          exact h16 (h ⟨v, rfl, hv⟩)
        · intro hx
          obtain ⟨rte, hrte, _⟩ := hx
          rw [hrt] at hrte; cases hrte
    · -- a route: `m_dv` has the same cost
      have h16 : r.minCost.toNat ≤ 16 := (UInt32.lt_iff_toNat_lt.mp hlt).le
      rw [hr.stored (UInt32.le_of_lt hlt)] at hdv
      refine iff_of_true (fun c => ?_) (fun _ => hle.mp h16)
      rw [hdv, hrt]
      constructor
      · rintro ⟨⟨⟩, _⟩; exact ⟨_, rfl, rfl⟩
      · rintro ⟨_, ⟨⟩, rfl⟩; exact ⟨rfl, hlt⟩

theorem Recomputed.advertises_iff (h : Recomputed cfg m known n') (hT : TablesInv cfg m known) :
    Advertises cfg n' ↔ ∀ D, D ≠ cfg.thisNode → D ∉ m.costs →
      (∃ v, known[D]? = some v ∧ v < 16) → ∃ N k, Reports m N D k ∧ k ≤ 16 := by
  unfold Advertises
  rw [h.costs]
  exact forall_congr' fun D => forall_congr' fun hD => forall_congr' fun _ => h.agree_iff hT hD

/-- Adding names at infinity adds no finite cost. -/
theorem finite_addUnknown {dv ndv : DistanceVector} :
    (∃ v, (addUnknown dv ndv)[D]? = some v ∧ v < 16) ↔ ∃ v, dv[D]? = some v ∧ v < 16 := by
  rw [getElem?_addUnknown]
  cases dv[D]? with
  | some v => simp
  | none => by_cases hD : D ∈ ndv <;> simp [hD, mInf]

/-- In a state that agrees, an advertised destination is reported within 16
hops. -/
theorem Transit.reports (hI : Inv cfg n) (hA : Advertises cfg n) (h : Transit cfg n D) :
    ∃ N k, Reports n N D k ∧ k ≤ 16 := by
  obtain ⟨hD, hc, v, hv, hlt⟩ := h
  obtain ⟨rte, hrte, _⟩ := (hA D hD hc v).mp ⟨hv, hlt⟩
  obtain ⟨N, k, hk, hlt⟩ := (hI.route_iff hD).mp ⟨rte, hrte⟩
  exact ⟨N, k, hk, hlt.le⟩

end Recompute
/-! ### One event -/

section Step
variable {cfg : NodeConfig} {n n' : Node} {D N : String} {k : ℕ}

theorem SameTables.advertises (h : SameTables n n') (hA : Advertises cfg n) :
    Advertises cfg n' := by
  unfold Advertises
  rw [h.dv, h.costs, h.routingTable]
  exact hA

/-- A new neighbour reports nothing yet. -/
theorem addNeighbor_reports {now socket : Nat} {a : Ipv4Address} (hT : TablesInv cfg n n.dv)
    (fresh : n.neighborTable[cfg.reverseLookup a]? = none) (h : Reports n N D k) :
    Reports (addNeighbor cfg now socket a n) N D k := by
  obtain ⟨c, v, ⟨hc, e, he, hv⟩, hk⟩ := h
  have hne : cfg.reverseLookup a ≠ N := by
    intro he
    obtain rfl := he
    rw [fresh] at he; cases he
  refine ⟨c, v, ⟨?_, e, ?_, hv⟩, hk⟩
  · rw [addNeighbor_costs hT fresh, if_neg hne]; exact hc
  · rw [addNeighbor_entry fresh, if_neg hne]; exact he

/-- A destination advertised beside a new neighbour was advertised before. -/
theorem addNeighbor_transit {now socket : Nat} {a : Ipv4Address} (hT : TablesInv cfg n n.dv)
    (fresh : n.neighborTable[cfg.reverseLookup a]? = none) (hD : D ≠ cfg.thisNode)
    (hc : D ∉ (addNeighbor cfg now socket a n).costs)
    (hv : ∃ v, (addNeighbor cfg now socket a n).dv[D]? = some v ∧ v < 16) : Transit cfg n D := by
  rw [mem_iff_getElem?, addNeighbor_costs hT fresh] at hc
  have hne : cfg.reverseLookup a ≠ D := by
    intro he
    obtain rfl := he
    exact hc ⟨1, if_pos rfl⟩
  rw [if_neg hne, ← mem_iff_getElem?] at hc
  exact ⟨hD, hc, by simpa [addNeighbor, hne] using hv⟩

/-- Only the sender's reports change with its vector. -/
theorem storeVector_reports {now socket : Nat} {a : Ipv4Address} {newdv : DistanceVector}
    (hT : TablesInv cfg n n.dv) :
    Reports (storeVector cfg now socket a newdv n) N D k ↔
      (N ≠ cfg.reverseLookup a ∧ Reports n N D k) ∨
        (N = cfg.reverseLookup a ∧ N ∈ n.costs ∧ ∃ v, newdv[D]? = some v ∧ k = v.toNat + 1) := by
  obtain ⟨entry, hdv, _, hget⟩ := storeVector_entry cfg now socket a newdv n N
  unfold Reports Lists
  rw [hget]
  by_cases hN : cfg.reverseLookup a = N
  · rw [if_pos hN]
    constructor
    · rintro ⟨c, v, ⟨hc, e, ⟨⟩, hv⟩, rfl⟩
      obtain rfl := hT.costsOne N c hc
      exact Or.inr ⟨hN.symm, mem_iff_getElem?.mpr ⟨_, hc⟩, v, hdv ▸ hv, rfl⟩
    · rintro (⟨hne, _⟩ | ⟨_, hc, v, hv, rfl⟩)
      · exact absurd hN.symm hne
      · obtain ⟨c, hc⟩ := mem_iff_getElem?.mp hc
        obtain rfl := hT.costsOne N c hc
        exact ⟨1, v, ⟨hc, entry, rfl, hdv.symm ▸ hv⟩, rfl⟩
  · rw [if_neg hN]
    constructor
    · intro h; exact Or.inl ⟨Ne.symm hN, h⟩
    · rintro (⟨_, h⟩ | ⟨h, _⟩)
      · exact h
      · exact absurd h.symm hN

theorem Audited.reports {now : Nat} {m : Node} (h : Audited cfg now (sendHello cfg n).1 m) :
    Reports m N D k ↔ ¬ Expires cfg now n N ∧ Reports n N D k := by
  by_cases hx : Expires cfg now n N
  · refine iff_of_false ?_ (fun hr => hr.1 hx)
    intro hx
    obtain ⟨c, v, ⟨hc, _⟩, _⟩ := hx
    exact (h.cost hc).2 hx
  · have hkept := h.kept N hx
    unfold Reports Lists
    rw [hkept.1, hkept.2.1]
    exact ⟨fun hr => ⟨hx, hr⟩, fun hr => hr.2⟩

/-- A timed-out neighbour is preset to infinity: what is advertised after the
loop was advertised before. -/
theorem Audited.transit {now : Nat} {m : Node} (h : Audited cfg now (sendHello cfg n).1 m)
    (hD : D ≠ cfg.thisNode) :
    (D ∉ m.costs ∧ ∃ v, m.dv[D]? = some v ∧ v < 16) ↔ Transit cfg n D := by
  by_cases hx : Expires cfg now n D
  · obtain ⟨hc, _, _, hdv⟩ := h.gone D hx
    refine iff_of_false ?_ (fun ht => ht.2.1 hc)
    intro hx
    obtain ⟨_, v, hv, hlt⟩ := hx
    rw [hdv] at hv
    obtain rfl := Option.some.inj hv
    exact absurd hlt (by decide)
  · obtain ⟨_, hc, hdv⟩ := h.kept D hx
    rw [mem_iff_getElem?, hc, hdv, ← mem_iff_getElem?]
    exact ⟨fun ht => ⟨hD, ht⟩, fun ht => ht.2⟩

theorem advertises_step_iff {e : Event} (hI : Inv cfg n) (hA : Advertises cfg n)
    (h : step cfg n e = some n') : Advertises cfg n' ↔ KeepsRoutes cfg n e := by
  rcases step_cases hI.tables.keyed h with ⟨hs, hq⟩ | ⟨m, ndv, hb, hrec⟩
  · refine iff_of_true (hs.advertises hA) ?_
    cases hq with
    | hello payload _ => simp [KeepsRoutes, payload]
    | audit hno =>
      intro D hD
      obtain ⟨N, k, hk⟩ := hD.reports hI hA
      exact ⟨N, k, hno N, hk⟩
  · rw [hrec.advertises_iff (hb.tablesInv hI.tables)]
    simp only [finite_addUnknown]
    cases hb with
    | hello payload fresh =>
      simp only [KeepsRoutes, payload, iff_true]
      intro D hD hc hv
      obtain ⟨N, k, hk, hle⟩ := (addNeighbor_transit hI.tables fresh hD hc hv).reports hI hA
      exact ⟨N, k, addNeighbor_reports hI.tables fresh hk, hle⟩
    | dvTable payload =>
      simp only [KeepsRoutes, payload, storeVector_reports hI.tables]
      constructor
      · intro h D hx
        obtain ⟨hD, hc, hv⟩ := hx
        obtain ⟨N, k, (⟨hne, hk⟩ | ⟨rfl, hN, v, hv, rfl⟩), hle⟩ := h D hD hc hv
        · exact Or.inl ⟨N, k, hne, hk, hle⟩
        · exact Or.inr ⟨hN, v, hv, hle⟩
      · intro h D hD hc hv
        obtain ⟨N, k, hne, hk, hle⟩ | ⟨hN, v, hv, hle⟩ := h D ⟨hD, hc, hv⟩
        · exact ⟨N, k, Or.inl ⟨hne, hk⟩, hle⟩
        · exact ⟨_, _, Or.inr ⟨rfl, hN, v, hv, rfl⟩, hle⟩
    | audit audited expires =>
      simp only [KeepsRoutes, audited.reports, and_assoc]
      constructor
      · intro h D ht
        obtain ⟨hc, hv⟩ := (audited.transit ht.1).mpr ht
        exact h D ht.1 hc hv
      · intro h D hD hc hv
        exact h D ((audited.transit hD).mp ⟨hc, hv⟩)

end Step

theorem advertises_doStart (cfg : NodeConfig) (sequenceNumber : UInt32) :
    Advertises cfg (doStart cfg sequenceNumber) := by
  intro D hD _ c
  simp [doStart, Ne.symm hD]

/-- **When the advertised vector and the routing table agree.** A run keeps
them in agreement exactly as long as no event takes away the last report
within 16 hops for an advertised destination: `BellmanFord` then drops the
route and leaves the cost in `m_dv`. -/
theorem advertises_along_iff (cfg : NodeConfig) (sequenceNumber : UInt32) (es : List Event) :
    Along (step cfg) (Advertises cfg) (doStart cfg sequenceNumber) es ↔
      Meets (step cfg) (KeepsRoutes cfg) (doStart cfg sequenceNumber) es :=
  along_iff_meets es (inv_doStart cfg sequenceNumber) (fun _ _ _ hI h => inv_step hI h)
    (advertises_doStart cfg sequenceNumber) fun _ _ _ hI hA h => advertises_step_iff hI hA h

/-- Node 1, the only way to node 2, times out: node 2 stays advertised at cost
2 without a route. -/
theorem timeout_not_advertises :
    ¬ Along (step sampleConfig) (Advertises sampleConfig) (doStart sampleConfig 0)
      (sampleEvents ++ [.auditHellos 2000]) := by
  intro h
  have final : (run (step sampleConfig) (doStart sampleConfig 0)
      (sampleEvents ++ [.auditHellos 2000])).map
      (fun n => (n.dv["2"]?, n.routingTable["2"]?, n.costs["2"]?)) =
        some (some 2, none, none) := by decide +kernel
  obtain ⟨n, hn, heq⟩ := Option.map_eq_some_iff.mp final
  obtain ⟨hdv, hrt, hc⟩ : n.dv["2"]? = some 2 ∧ n.routingTable["2"]? = none ∧
      n.costs["2"]? = none := by simpa using heq
  have hmem : "2" ∉ n.costs := by
    rw [mem_iff_getElem?, hc]; simp
  obtain ⟨rte, hrte, _⟩ := (h _ n (List.prefix_refl _) hn "2" (by decide +kernel) hmem 2).mp
    ⟨hdv, by decide⟩
  rw [hrt] at hrte; cases hrte

/-! ## The neighbour tables -/

/-- `m_costs` and `m_neighborTable` have the same keys, all of them known
destinations; hence a neighbour that says hello is used, and the loop of
`AuditHellos` erases no `end ()`. -/
structure Bookkeeping (cfg : NodeConfig) (n : Node) : Prop where
  keys : ∀ K : String, K ∈ n.costs ↔ K ∈ n.neighborTable
  known : ∀ K : String, K ∈ n.costs → K ∈ n.dv
  heard : ∀ now socket dvMessage destinationAddress helloMessage n',
    dvMessage.payload = .helloReq destinationAddress helloMessage →
    step cfg n (.recv now socket dvMessage) = some n' →
    cfg.reverseLookup dvMessage.originatorAddress ∈ n'.costs
  audit : ∀ now, ∃ res, n.neighborTable.toList.foldlM (auditEntry cfg now) (n, false) = some res

/-- A vector only comes from a node in `m_neighborTable`. -/
def FromNeighbor (cfg : NodeConfig) (n : Node) : Event → Prop
  | .recv _ _ dvMessage =>
    match dvMessage.payload with
    | .helloReq _ _ => True
    | .dvTableMsg _ => cfg.reverseLookup dvMessage.originatorAddress ∈ n.neighborTable
  | .auditHellos _ => True

section Bookkeeping
variable {cfg : NodeConfig} {n n' : Node}

/-- With equal keys, a neighbour that says hello is in `m_costs` afterwards. -/
theorem hello_used {now socket : Nat} {dvMessage : DVMessage} {destinationAddress helloMessage}
    (hI : Inv cfg n) (keys : ∀ K : String, K ∈ n.costs ↔ K ∈ n.neighborTable)
    (hp : dvMessage.payload = .helloReq destinationAddress helloMessage)
    (h : step cfg n (.recv now socket dvMessage) = some n') :
    cfg.reverseLookup dvMessage.originatorAddress ∈ n'.costs := by
  rcases step_cases hI.tables.keyed h with ⟨hs, hq⟩ | ⟨m, ndv, hb, hrec⟩
  · cases hq with
    | hello _ known =>
      rw [hs.costs]
      exact (keys _).mpr (mem_iff_getElem?.mpr ⟨_, known⟩)
  · cases hb with
    | hello _ fresh =>
      rw [hrec.costs, mem_iff_getElem?]
      exact ⟨1, by rw [addNeighbor_costs hI.tables fresh, if_pos rfl]⟩
    | dvTable payload => rw [hp] at payload; cases payload

theorem Bookkeeping.of_keys (hI : Inv cfg n)
    (keys : ∀ K : String, K ∈ n.costs ↔ K ∈ n.neighborTable)
    (known : ∀ K : String, K ∈ n.costs → K ∈ n.dv) : Bookkeeping cfg n := by
  refine ⟨keys, known, ?_, ?_⟩
  · intro now socket dvMessage destinationAddress helloMessage n' hp h
    exact hello_used hI keys hp h
  · intro now
    rw [auditLoop_defined_iff hI.tables.keyed]
    intro K hx
    obtain ⟨e, he, _⟩ := hx
    exact (keys K).mpr (mem_iff_getElem?.mpr ⟨e, he⟩)

theorem BeforeBF.known {m : Node} {ndv : DistanceVector} {e : Event} (h : BeforeBF cfg n e m ndv)
    (hT : TablesInv cfg n n.dv) (known : ∀ K : String, K ∈ n.costs → K ∈ n.dv) {K : String}
    (hK : K ∈ m.costs) : K ∈ m.dv := by
  cases h with
  | hello _ fresh =>
    rw [mem_iff_getElem?, addNeighbor_costs hT fresh] at hK
    simp only [addNeighbor, Std.ExtTreeMap.mem_insertIfNew]
    split at hK
    · exact Or.inl (by simpa using ‹_›)
    · exact Or.inr (known K (mem_iff_getElem?.mpr hK))
  | dvTable _ => exact known K hK
  | audit audited _ =>
    obtain ⟨c, hc⟩ := mem_iff_getElem?.mp hK
    exact audited.mem_dv (known K (mem_iff_getElem?.mpr ⟨c, (audited.cost hc).1⟩))

/-- The edits of an event keep the keys equal exactly when a vector does not
come from a stranger. -/
theorem BeforeBF.keys_iff {m : Node} {ndv : DistanceVector} {e : Event} (h : BeforeBF cfg n e m ndv)
    (hT : TablesInv cfg n n.dv) (keys : ∀ K : String, K ∈ n.costs ↔ K ∈ n.neighborTable) :
    (∀ K : String, K ∈ m.costs ↔ K ∈ m.neighborTable) ↔ FromNeighbor cfg n e := by
  cases h with
  | hello payload fresh =>
    simp only [FromNeighbor, payload, iff_true]
    intro K
    rw [mem_iff_getElem?, mem_iff_getElem?, addNeighbor_costs hT fresh, addNeighbor_entry fresh]
    split
    · simp
    · rw [← mem_iff_getElem?, ← mem_iff_getElem?]; exact keys K
  | @dvTable now socket dvMessage neighborCosts payload =>
    simp only [FromNeighbor, payload]
    constructor
    · intro h
      obtain ⟨entry, _, _, hget⟩ := storeVector_entry cfg now socket
        dvMessage.originatorAddress (receivedVector cfg neighborCosts) n
        (cfg.reverseLookup dvMessage.originatorAddress)
      rw [if_pos rfl] at hget
      exact (keys _).mp ((h _).mpr (mem_iff_getElem?.mpr ⟨entry, hget⟩))
    · intro hfrom K
      obtain ⟨entry, _, _, hget⟩ := storeVector_entry cfg now socket
        dvMessage.originatorAddress (receivedVector cfg neighborCosts) n K
      refine (keys K).trans ?_
      rw [mem_iff_getElem? (m := (storeVector _ _ _ _ _ _).neighborTable), hget]
      split
      · rename_i hK; subst hK; simp [hfrom]
      · exact mem_iff_getElem?
  | @audit now _ audited _ =>
    simp only [FromNeighbor, iff_true]
    intro K
    by_cases hx : Expires cfg now n K
    · obtain ⟨_, ht, hc, _⟩ := audited.gone K hx
      simp [mem_iff_getElem?, ht, hc]
    · obtain ⟨ht, hc, _⟩ := audited.kept K hx
      rw [mem_iff_getElem?, mem_iff_getElem?, ht, hc, ← mem_iff_getElem?, ← mem_iff_getElem?]
      exact keys K

theorem bookkeeping_step_iff {e : Event} (hI : Inv cfg n) (hB : Bookkeeping cfg n)
    (h : step cfg n e = some n') : Bookkeeping cfg n' ↔ FromNeighbor cfg n e := by
  have hI' := inv_step hI h
  rcases step_cases hI.tables.keyed h with ⟨hs, hq⟩ | ⟨m, ndv, hb, hrec⟩
  · refine iff_of_true (.of_keys hI' ?_ ?_) ?_
    · intro K; rw [hs.costs, hs.mem]; exact hB.keys K
    · intro K hK
      rw [hs.dv]; exact hB.known K (hs.costs ▸ hK)
    · cases hq with
      | hello payload _ => simp [FromNeighbor, payload]
      | audit _ => trivial
  · have hkeys := hb.keys_iff hI.tables hB.keys
    rw [← hrec.costs, ← hrec.neighborTable] at hkeys
    rw [← hkeys]
    refine ⟨Bookkeeping.keys, fun keys => .of_keys hI' keys fun K hK => ?_⟩
    exact hrec.mem_dv.mpr (mem_addUnknown.mpr
      (Or.inl (hb.known hI.tables hB.known (hrec.costs ▸ hK))))

end Bookkeeping

/-- **When the neighbour tables stay consistent.** Exactly as long as every
vector comes from a node that is in `m_neighborTable` already: for a stranger
`ProcessDVTableMessage` adds an entry there and to no other table, and the
hello that follows finds it and adds nothing either. -/
theorem bookkeeping_along_iff (cfg : NodeConfig) (sequenceNumber : UInt32) (es : List Event) :
    Along (step cfg) (Bookkeeping cfg) (doStart cfg sequenceNumber) es ↔
      Meets (step cfg) (FromNeighbor cfg) (doStart cfg sequenceNumber) es :=
  along_iff_meets es (inv_doStart cfg sequenceNumber) (fun _ _ _ hI h => inv_step hI h)
    (.of_keys (inv_doStart cfg sequenceNumber) (by simp [doStart]) (by simp [doStart]))
    fun _ _ _ hI hB h => bookkeeping_step_iff hI hB h

/-- The vector of node 1, whose hello was lost. -/
def strangerVector : Event := .recv 0 0 ⟨6, 1, 20, .dvTableMsg [(10, 1), (20, 0)]⟩

theorem stranger_not_bookkeeping :
    ¬ Along (step sampleConfig) (Bookkeeping sampleConfig) (doStart sampleConfig 0)
      [strangerVector] := by
  intro h
  have final : (run (step sampleConfig) (doStart sampleConfig 0) [strangerVector]).map
      (fun n => (n.neighborTable["1"]?.isSome, n.costs["1"]?)) = some (true, none) := by
    decide +kernel
  obtain ⟨n, hn, heq⟩ := Option.map_eq_some_iff.mp final
  obtain ⟨ht, hc⟩ := Prod.mk.inj heq
  have hkeys := (h _ n (List.prefix_refl _) hn).keys "1"
  obtain ⟨e, he⟩ := Option.isSome_iff_exists.mp ht
  obtain ⟨c, hc'⟩ := mem_iff_getElem?.mp (hkeys.mpr (mem_iff_getElem?.mpr ⟨e, he⟩))
  rw [hc] at hc'; cases hc'

-- its hello does not repair the tables, and the timeout then erases `end ()`
example : run (step sampleConfig) (doStart sampleConfig 0)
    [strangerVector, .recv 1 0 ⟨7, 1, 20, .helloReq 10 "hello"⟩, .auditHellos 2001] = none := by
  decide +kernel

end Ns3Routing.Dv
