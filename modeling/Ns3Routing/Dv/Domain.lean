import Ns3Routing.Dv.Invariants

/-! # The range of distance-vector costs

What neighbours send is stored as it is, so a stored vector may hold any
32-bit value. What a node makes of it stays small: a cost in `m_dv` is at most
16 hops or infinity, a link costs 1, and routes cost less than 16. The one
sum and the one difference `BellmanFord` forms are then exact. -/

namespace Ns3Routing.Dv

open Lib

section Domain
variable (cfg : NodeConfig)

/-- A cost `m_dv` may hold. -/
def DvCost (v : UInt32) : Prop := v ≤ 16 ∨ v = mInf

structure InDomain (n : Node) : Prop where
  self : n.dv[cfg.thisNode]? = some 0
  dv : ∀ (D : String) v, n.dv[D]? = some v → DvCost v
  costs : ∀ (N : String) c, n.costs[N]? = some c → c = 1
  routes : ∀ (D : String) e, n.routingTable[D]? = some e → e.cost < 16

/-- `M_INF - cost_to_neighbor` and the sum it guards are exact for everything
`BellmanFord` reads in the tables of `m`. -/
def ExactArith (m : Node) : Prop :=
  ∀ N D c v, Lists m N D c v →
    (mInf - c).toNat + c.toNat = mInf.toNat ∧
      (v < mInf - c → (c + v).toNat = c.toNat + v.toNat)

/-- The message comes from another node. -/
def FromOther : Event → Prop
  | .recv _ _ dvMessage => cfg.reverseLookup dvMessage.originatorAddress ≠ cfg.thisNode
  | .auditHellos _ => True

end Domain

section Step
variable {cfg : NodeConfig} {n m n' : Node} {e : Event} {ndv : DistanceVector}

theorem TablesInv.exactArith {known : DistanceVector} (hT : TablesInv cfg m known) :
    ExactArith m := by
  intro N D c v hl
  obtain rfl := hT.costsOne N c hl.1
  refine ⟨by decide, fun hlt => ?_⟩
  have hv : v.toNat < (mInf - 1).toNat := UInt32.lt_iff_toNat_lt.mp hlt
  have hmax : (mInf - 1).toNat = 2147483646 := by decide
  rw [UInt32.toNat_add, UInt32.toNat_one]
  omega

theorem dvCost_one : DvCost 1 := Or.inl (by decide)

theorem dvCost_mInf : DvCost mInf := Or.inr rfl

/-- The table edits before `BellmanFord`: nobody takes this node's place, and
costs stay in range. -/
theorem BeforeBF.domain (h : BeforeBF cfg n e m ndv) (ho : FromOther cfg e)
    (apart : n.neighborTable[cfg.thisNode]? = none) (hself : n.dv[cfg.thisNode]? = some 0)
    (hdv : ∀ (D : String) v, n.dv[D]? = some v → DvCost v) :
    m.neighborTable[cfg.thisNode]? = none ∧ m.dv[cfg.thisNode]? = some 0 ∧
      ∀ (D : String) v, m.dv[D]? = some v → DvCost v := by
  cases h with
  | hello _ fresh =>
    refine ⟨?_, ?_, ?_⟩
    · rw [addNeighbor_entry fresh, if_neg ho]
      exact apart
    · simp only [addNeighbor, getElem?_insertIfNew_eq]
      rw [if_neg fun hx => ho hx.1]
      exact hself
    · intro D v hv
      simp only [addNeighbor, getElem?_insertIfNew_eq] at hv
      split at hv
      · obtain rfl := Option.some.inj hv
        exact dvCost_one
      · exact hdv D v hv
  | @dvTable now socket dvMessage neighborCosts _ =>
    refine ⟨?_, hself, hdv⟩
    obtain ⟨_, _, _, hget⟩ := storeVector_entry cfg now socket dvMessage.originatorAddress
      (receivedVector cfg neighborCosts) n cfg.thisNode
    rw [hget, if_neg ho]
    exact apart
  | @audit now _ audited _ =>
    have hno : ¬ Expires cfg now (sendHello cfg n).1 cfg.thisNode := by
      intro hx
      obtain ⟨e, he, _⟩ := hx
      have hnone : (sendHello cfg n).1.neighborTable[cfg.thisNode]? = none := apart
      rw [hnone] at he
      cases he
    obtain ⟨hentry, _, hself'⟩ := audited.kept cfg.thisNode hno
    refine ⟨hentry.trans apart, hself'.trans hself, fun D v hv => ?_⟩
    by_cases hD : Expires cfg now (sendHello cfg n).1 D
    · rw [(audited.gone D hD).2.2.2] at hv
      obtain rfl := Option.some.inj hv
      exact dvCost_mInf
    · rw [(audited.kept D hD).2.2] at hv
      exact hdv D v hv

theorem addUnknown_dvCost (hdv : ∀ (D : String) v, m.dv[D]? = some v → DvCost v) (D : String)
    (v : UInt32) (hv : (addUnknown m.dv ndv)[D]? = some v) : DvCost v := by
  rw [getElem?_addUnknown] at hv
  cases hD : m.dv[D]? with
  | some w =>
    rw [hD, Option.some_or] at hv
    obtain rfl := Option.some.inj hv
    exact hdv D w hD
  | none =>
    rw [hD, Option.none_or] at hv
    split at hv
    · obtain rfl := Option.some.inj hv
      exact dvCost_mInf
    · cases hv

/-- What `BellmanFord` leaves is in range. -/
theorem Recomputed.inDomain (h : Recomputed cfg m (addUnknown m.dv ndv) n')
    (hT : TablesInv cfg m (addUnknown m.dv ndv)) (hself : m.dv[cfg.thisNode]? = some 0)
    (hdv : ∀ (D : String) v, m.dv[D]? = some v → DvCost v) : InDomain cfg n' := by
  have hknown : (addUnknown m.dv ndv)[cfg.thisNode]? = some 0 := by
    rw [getElem?_addUnknown, hself, Option.some_or]
  obtain ⟨hself', hentry⟩ := h.self 0 hknown
  refine ⟨hself', ?_, ?_, ?_⟩
  · intro D v hv
    by_cases hD : D = cfg.thisNode
    · subst hD
      rw [hself'] at hv
      obtain rfl := Option.some.inj hv
      exact Or.inl (by decide)
    · obtain ⟨w, hw⟩ := mem_iff_getElem?.mp (h.mem_dv.mp (mem_iff_getElem?.mpr ⟨v, hv⟩))
      obtain ⟨r, _, hdv', _⟩ := h.dest D w hw hD
      rw [hdv'] at hv
      obtain rfl := Option.some.inj hv
      by_cases hdiff : r.differs w = true
      · -- only a cost of at most 16 is written back
        rw [if_pos hdiff]
        simp only [MinCost.differs, Bool.and_eq_true, decide_eq_true_eq] at hdiff
        exact Or.inl hdiff.2
      · rw [if_neg hdiff]
        exact addUnknown_dvCost hdv D w hw
  · intro N c hc
    exact hT.costsOne N c (h.costs ▸ hc)
  · intro D e he
    by_cases hD : D = cfg.thisNode
    · subst hD
      rw [hentry] at he
      obtain rfl := Option.some.inj he
      exact (by decide : (0 : UInt32) < 16)
    · cases hk : (addUnknown m.dv ndv)[D]? with
      | none =>
        rw [(h.unknown D hk).2] at he
        cases he
      | some w =>
        obtain ⟨r, _, _, ⟨_, hnone⟩ | ⟨hlt, hop, _, hroute⟩⟩ := h.dest D w hk hD
        · rw [hnone] at he
          cases he
        · rw [hroute] at he
          obtain rfl := Option.some.inj he
          exact hlt

theorem SameTables.inDomain (h : SameTables n n') (hn : InDomain cfg n) : InDomain cfg n' := by
  refine ⟨?_, ?_, ?_, ?_⟩
  · rw [h.dv]; exact hn.self
  · rw [h.dv]; exact hn.dv
  · rw [h.costs]; exact hn.costs
  · rw [h.routingTable]; exact hn.routes

/-- The range, with what keeps it: no neighbour has this node's name. -/
def Ranged (cfg : NodeConfig) (n : Node) : Prop :=
  Inv cfg n ∧ InDomain cfg n ∧ n.neighborTable[cfg.thisNode]? = none

theorem ranged_doStart (cfg : NodeConfig) (sequenceNumber : UInt32) :
    Ranged cfg (doStart cfg sequenceNumber) := by
  have hdv : ∀ D : String, (doStart cfg sequenceNumber).dv[D]? =
      if cfg.thisNode = D then some 0 else none := by
    intro D
    simp only [doStart, getElem?_insertIfNew_eq]
    simp
  refine ⟨inv_doStart cfg sequenceNumber, ⟨by rw [hdv, if_pos rfl], ?_, ?_, ?_⟩, by simp [doStart]⟩
  · intro D v hv
    rw [hdv] at hv
    split at hv
    · obtain rfl := Option.some.inj hv
      exact Or.inl (by decide)
    · cases hv
  · intro N c hc
    simp [doStart] at hc
  · intro D e he
    simp [doStart] at he

/-- One event of another node, whatever it carries. -/
theorem ranged_step (hn : Ranged cfg n) (h : step cfg n e = some n') (ho : FromOther cfg e) :
    Ranged cfg n' := by
  obtain ⟨hI, hD, apart⟩ := hn
  refine ⟨inv_step hI h, ?_⟩
  rcases step_cases hI.tables.keyed h with ⟨hs, _⟩ | ⟨m, ndv, hb, hr⟩
  · refine ⟨hs.inDomain hD, ?_⟩
    cases hx : n'.neighborTable[cfg.thisNode]? with
    | none => rfl
    | some entry =>
      obtain ⟨entry', he', _⟩ := hs.entry hx
      rw [apart] at he'
      cases he'
  · obtain ⟨apart', hself, hdv⟩ := hb.domain ho apart hD.self hD.dv
    refine ⟨hr.inDomain (hb.tablesInv hI.tables) hself hdv, ?_⟩
    rw [hr.neighborTable]
    exact apart'

end Step

/-- **Costs stay in their domain**, whatever other nodes send: in every state
of a run, and in the arithmetic of every call of `BellmanFord`. -/
theorem costs_in_domain (cfg : NodeConfig) (sequenceNumber : UInt32) (es : List Event)
    (others : ∀ e ∈ es, FromOther cfg e) :
    Along (step cfg) (InDomain cfg) (doStart cfg sequenceNumber) es ∧
      Allows (step cfg) (fun n e => ∀ m ndv, BeforeBF cfg n e m ndv → ExactArith m)
        (doStart cfg sequenceNumber) es := by
  have hmeets : Meets (step cfg) (fun _ e => FromOther cfg e) (doStart cfg sequenceNumber) es :=
    fun _ e _ _ hp _ _ => others e (mem_of_prefix_snoc hp)
  have hrange := along_of_meets (ranged_doStart cfg sequenceNumber)
    (fun _ _ _ hn h ho => ranged_step hn h ho) hmeets
  refine ⟨fun pre t hp ht => (hrange pre t hp ht).2.1, fun pre e t hp ht m ndv hb => ?_⟩
  have hI := (hrange pre t (front_of_prefix_snoc hp) ht).1
  exact (hb.tablesInv hI.tables).exactArith

/-- A hello of node 1, its vector with costs at and beyond infinity, and the
hello timer. -/
def wildEvents : List Event :=
  [.recv 0 0 ⟨5, 1, 20, .helloReq 10 "hello"⟩,
    .recv 1 0 ⟨6, 1, 20, .dvTableMsg [(10, 0xFFFFFFFF), (20, 0), (30, mInf)]⟩,
    .auditHellos 1000]

/-- Node 0 takes node 2 for unreachable, and keeps itself at 0. -/
theorem costs_in_domain_wild :
    ∃ n, run (step sampleConfig) (doStart sampleConfig 7) wildEvents = some n ∧
      InDomain sampleConfig n ∧ n.dv["2"]? = some mInf := by
  have hothers : ∀ e ∈ wildEvents, FromOther sampleConfig e := by
    simp only [wildEvents, List.forall_mem_cons, FromOther]
    refine ⟨by decide +kernel, by decide +kernel, trivial, nofun⟩
  have hrun : ((run (step sampleConfig) (doStart sampleConfig 7) wildEvents).map
      (·.dv["2"]?)) = some (some mInf) := by decide +kernel
  obtain ⟨n, hn, hdv⟩ := Option.map_eq_some_iff.mp hrun
  exact ⟨n, hn, (costs_in_domain sampleConfig 7 wildEvents hothers).1 _ n (List.prefix_refl _) hn,
    hdv⟩

end Ns3Routing.Dv
