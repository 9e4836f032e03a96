import Ns3Routing.Dv.Invariants

/-! # What a node says and what it stores

Between two neighbours the vector of a node exists three times: in its
`m_dv`, in the messages in flight, and in the other node's neighbour table.
This module says what one event of a node does to the first and the last of
them, and that a message carries `m_dv` over unchanged, except for what it
says about its receiver. -/

namespace Ns3Routing.Dv

open Lib

/-- The cost a vector gives, an absent entry counting as infinity. -/
def DistanceVector.cost (dv : DistanceVector) (D : String) : UInt32 := dv[D]?.getD mInf

theorem cost_addUnknown (dv ndv : DistanceVector) (D : String) :
    DistanceVector.cost (addUnknown dv ndv) D = DistanceVector.cost dv D := by
  unfold DistanceVector.cost
  rw [getElem?_addUnknown]
  cases dv[D]? with
  | some v => rfl
  | none => by_cases hD : D ∈ ndv <;> simp [hD]

/-- **A vector arrives as it was sent**, apart from the entry for its
receiver, when sender and receiver give the nodes of the vector the same
names. -/
theorem receivedVector_vectorFor {cfg cfg' : NodeConfig} {n : Node} {entry : NeighborTableEntry}
    (names : ∀ (K : String) v, n.dv[K]? = some v → cfg'.reverseLookup (cfg.resolveName K) = K)
    {D : String} (hD : D ≠ cfg'.reverseLookup entry.neighborAddr) :
    (receivedVector cfg' (vectorFor cfg n entry))[D]? = n.dv[D]? := by
  unfold receivedVector vectorFor
  rw [List.foldl_map]
  have hkeys : n.dv.toList.map (fun j => cfg'.reverseLookup (cfg.resolveName j.1)) =
      n.dv.toList.map Prod.fst :=
    List.map_congr_left fun j hj => names j.1 j.2 (mem_toList.mp hj)
  have nodup : (n.dv.toList.map fun j => cfg'.reverseLookup (cfg.resolveName j.1)).Nodup := by
    rw [hkeys]; exact nodup_fst_toList
  cases hv : n.dv[D]? with
  | none =>
    rw [getElem?_foldl_insert_of_ne]
    · simp
    · intro j hj he
      rw [names j.1 j.2 (mem_toList.mp hj)] at he
      rw [← he, mem_toList.mp hj] at hv; cases hv
  | some v =>
    have hkey := names D v hv
    have hne : (cfg.resolveName D == entry.neighborAddr) = false := by
      rw [beq_eq_false_iff_ne]
      intro he
      exact hD (by rw [← he, hkey])
    conv_lhs => rw [← hkey]
    rw [getElem?_foldl_insert_of_mem (x := (D, v)) _ nodup (mem_toList.mpr hv)]
    simp [hne]

/-! ## The stored vectors -/

/-- The event is a vector from the node `K`. -/
def Event.VectorFrom (cfg : NodeConfig) (K : String) : Event → Prop
  | .recv _ _ dvMessage => (∃ neighborCosts, dvMessage.payload = .dvTableMsg neighborCosts) ∧
      cfg.reverseLookup dvMessage.originatorAddress = K
  | .auditHellos _ => False

/-- Where the entry of a neighbour `K` after an event comes from. -/
inductive EntryOrigin (cfg : NodeConfig) (n : Node) (K : String) (e' : NeighborTableEntry) :
    Event → Prop where
  /-- It was there before with the same vector. -/
  | kept {e : Event} {e₀ : NeighborTableEntry} (entry : n.neighborTable[K]? = some e₀)
      (cost : K ∈ n.costs) (core : e'.core = e₀.core) (other : ¬ e.VectorFrom cfg K) :
      EntryOrigin cfg n K e' e
  /-- The neighbour was discovered. -/
  | discovered {now socket : Nat} {dvMessage : DVMessage} {destinationAddress helloMessage}
      (payload : dvMessage.payload = .helloReq destinationAddress helloMessage)
      (sender : cfg.reverseLookup dvMessage.originatorAddress = K)
      (fresh : n.neighborTable[K]? = none)
      (entry : e' = ⟨dvMessage.originatorAddress, cfg.interfaceAddr socket, now, ∅⟩) :
      EntryOrigin cfg n K e' (.recv now socket dvMessage)
  /-- The neighbour sent its vector. -/
  | received {now socket : Nat} {dvMessage : DVMessage} {neighborCosts}
      (payload : dvMessage.payload = .dvTableMsg neighborCosts)
      (sender : cfg.reverseLookup dvMessage.originatorAddress = K) (cost : K ∈ n.costs)
      {e₀ : NeighborTableEntry} (entry : n.neighborTable[K]? = some e₀)
      (stored : e' = { e₀ with dv := receivedVector cfg neighborCosts }) :
      EntryOrigin cfg n K e' (.recv now socket dvMessage)

theorem BeforeBF.entry {cfg : NodeConfig} {n m : Node} {e : Event} {ndv : DistanceVector}
    (h : BeforeBF cfg n e m ndv) (hT : TablesInv cfg n n.dv) {K : String}
    {e' : NeighborTableEntry} (hc : K ∈ m.costs) (he : m.neighborTable[K]? = some e') :
    EntryOrigin cfg n K e' e := by
  cases h with
  | hello payload fresh =>
    rw [addNeighbor_entry fresh] at he
    rw [mem_iff_getElem?, addNeighbor_costs hT fresh] at hc
    split at he
    · rename_i hK
      exact .discovered payload hK (hK ▸ fresh) (Option.some.inj he).symm
    · rename_i hK
      rw [if_neg hK, ← mem_iff_getElem?] at hc
      refine .kept he hc rfl ?_
      intro hx
      obtain ⟨⟨_, hp⟩, _⟩ := hx
      rw [payload] at hp; cases hp
  | @dvTable now socket dvMessage neighborCosts payload =>
    obtain ⟨entry, hdv, horigin, hget⟩ := storeVector_entry cfg now socket
      dvMessage.originatorAddress (receivedVector cfg neighborCosts) n K
    rw [hget] at he
    have hc : K ∈ n.costs := hc
    split at he
    · rename_i hK
      obtain rfl := Option.some.inj he
      obtain ⟨c, hcost⟩ := mem_iff_getElem?.mp hc
      rcases horigin with ⟨hnone, _⟩ | ⟨old, hold, hentry⟩
      · rw [hT.costs_none (hK ▸ hnone)] at hcost; cases hcost
      · exact .received payload hK hc (hK ▸ hold) hentry
    · rename_i hK
      exact .kept he hc rfl fun hv => hK hv.2
  | audit audited _ =>
    obtain ⟨c, hcost⟩ := mem_iff_getElem?.mp hc
    exact .kept (audited.entry he).1 (mem_iff_getElem?.mpr ⟨c, (audited.cost hcost).1⟩) rfl id

theorem handle_entry {cfg : NodeConfig} {n n' : Node} {e : Event} {out : Packets} (hI : Inv cfg n)
    (h : handle cfg n e = some (n', out)) {K : String} {e' : NeighborTableEntry}
    (hc : K ∈ n'.costs) (he : n'.neighborTable[K]? = some e') : EntryOrigin cfg n K e' e := by
  rcases handle_cases hI.tables.keyed h with ⟨hs, hq, _⟩ | ⟨m, ndv, hb, hrec, _⟩
  · obtain ⟨e₀, he₀, hcore⟩ := hs.entry he
    refine .kept he₀ (hs.costs ▸ hc) hcore ?_
    cases hq with
    | hello payload _ =>
      intro hx
      obtain ⟨⟨_, hp⟩, _⟩ := hx
      rw [payload] at hp; cases hp
    | audit _ => exact id
  · exact hb.entry hI.tables (hrec.costs ▸ hc) (hrec.neighborTable ▸ he)

/-- The event is the hello timer, and times out `D`. -/
def TimedOut (cfg : NodeConfig) (n : Node) (D : String) : Event → Prop
  | .recv _ _ _ => False
  | .auditHellos now => Expires cfg now n D

theorem Quiet.not_timedOut {cfg : NodeConfig} {n : Node} {e : Event} (h : Quiet cfg n e)
    {D : String} : ¬ TimedOut cfg n D e := by
  cases h with
  | hello _ _ => exact id
  | audit hno => exact hno D

/-- A neighbour that does not time out stays, on the same interface. -/
theorem handle_keeps {cfg : NodeConfig} {n n' : Node} {ev : Event} {out : Packets}
    (hI : Inv cfg n) (h : handle cfg n ev = some (n', out)) {K : String}
    (hK : ¬ TimedOut cfg n K ev) :
    (K ∈ n.costs → K ∈ n'.costs) ∧ ∀ e, n.neighborTable[K]? = some e →
      ∃ e', n'.neighborTable[K]? = some e' ∧ e'.interfaceAddr = e.interfaceAddr := by
  rcases handle_cases hI.tables.keyed h with ⟨hs, _⟩ | ⟨m, ndv, hb, hrec, _⟩
  · refine ⟨fun hc => hs.costs ▸ hc, fun e he => ?_⟩
    obtain ⟨e', he', hcore⟩ := hs.symm.entry he
    exact ⟨e', he', (congrArg (·.2.1) hcore).symm⟩
  · rw [hrec.costs, hrec.neighborTable]
    cases hb with
    | hello _ fresh =>
      refine ⟨fun hc => ?_, fun e he => ⟨e, ?_, rfl⟩⟩
      · simp only [addNeighbor, Std.ExtTreeMap.mem_insertIfNew]
        exact Or.inr hc
      · rw [addNeighbor_entry fresh, if_neg]
        · exact he
        · intro he
          obtain rfl := he
          rw [fresh] at he; cases he
    | @dvTable now socket dvMessage neighborCosts _ =>
      refine ⟨id, fun e he => ?_⟩
      obtain ⟨entry, _, horigin, hget⟩ := storeVector_entry cfg now socket
        dvMessage.originatorAddress (receivedVector cfg neighborCosts) n K
      rw [hget]
      split
      · rename_i hn
        subst hn
        rcases horigin with ⟨hnone, _⟩ | ⟨old, hold, rfl⟩
        · rw [he] at hnone; cases hnone
        · rw [he] at hold
          obtain rfl := Option.some.inj hold
          exact ⟨_, rfl, rfl⟩
      · exact ⟨e, he, rfl⟩
    | audit audited _ =>
      obtain ⟨ht, hc, _⟩ := audited.kept K hK
      refine ⟨fun h => ?_, fun e he => ⟨e, ht ▸ he, rfl⟩⟩
      rw [mem_iff_getElem?, hc, ← mem_iff_getElem?]; exact h

/-- Whoever sends a message is in the neighbour table afterwards. -/
theorem handle_sender {cfg : NodeConfig} {n n' : Node} {now socket : ℕ} {dvMessage : DVMessage}
    {out : Packets} (hI : Inv cfg n)
    (h : handle cfg n (.recv now socket dvMessage) = some (n', out)) :
    cfg.reverseLookup dvMessage.originatorAddress ∈ n'.neighborTable := by
  rcases handle_cases hI.tables.keyed h with ⟨hs, hq, _⟩ | ⟨m, ndv, hb, hrec, _⟩
  · cases hq with
    | hello _ known => exact hs.mem.mpr (mem_iff_getElem?.mpr ⟨_, known⟩)
  · rw [hrec.neighborTable, mem_iff_getElem?]
    cases hb with
    | hello _ fresh => exact ⟨_, by rw [addNeighbor_entry fresh, if_pos rfl]⟩
    | @dvTable _ _ _ neighborCosts _ =>
      obtain ⟨entry, _, _, hget⟩ := storeVector_entry cfg now socket
        dvMessage.originatorAddress (receivedVector cfg neighborCosts) n
        (cfg.reverseLookup dvMessage.originatorAddress)
      exact ⟨entry, by rw [hget, if_pos rfl]⟩

/-! ## The node's own vector -/

/-- Before `BellmanFord`, only new and timed-out neighbours change in
`m_dv`. -/
theorem BeforeBF.cost {cfg : NodeConfig} {n m : Node} {e : Event} {ndv : DistanceVector}
    (h : BeforeBF cfg n e m ndv) (he : ¬ e.IsHello) (D : String) :
    (¬ TimedOut cfg n D e ∧ DistanceVector.cost m.dv D = DistanceVector.cost n.dv D) ∨
      (TimedOut cfg n D e ∧ DistanceVector.cost m.dv D = mInf) := by
  cases h with
  | hello payload _ => exact absurd ⟨_, _, payload⟩ he
  | dvTable _ => exact Or.inl ⟨id, rfl⟩
  | @audit now _ audited _ =>
    unfold DistanceVector.cost
    by_cases hx : Expires cfg now n D
    · refine Or.inr ⟨hx, ?_⟩
      rw [(audited.gone D hx).2.2.2]; rfl
    · refine Or.inl ⟨hx, ?_⟩
      rw [(audited.kept D hx).2.2]; rfl

end Ns3Routing.Dv
