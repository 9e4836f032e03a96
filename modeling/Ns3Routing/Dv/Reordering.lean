import Ns3Routing.Dv.RoutingTable
import Ns3Routing.Lib.Log

/-! # The order of distance-vector updates

Vectors of different neighbours are stored under different names, so in the
end the same vectors are stored in any order, and the routing table is
computed from them. `m_dv` alone may remember the order: a cost is replaced
only by one of at most 16 hops, so of a destination that is lost to all
neighbours it keeps what the last neighbour to lose it had offered. -/

namespace Ns3Routing.Dv

open Lib

/-- A DV_TABLE_MSG with the time and the socket it comes in on. -/
structure Received where
  now : Nat
  socket : Nat
  dvMessage : DVMessage

namespace Received

variable (cfg : NodeConfig) (m : Received)

/-- The name of the neighbour the message is from. -/
def sender : String := cfg.reverseLookup m.dvMessage.originatorAddress

/-- The vector it carries. -/
def vector : DistanceVector := receivedVector cfg m.dvMessage.neighborCosts

end Received

/-- `ProcessDVTableMessage`. -/
def processStep (cfg : NodeConfig) (n : Node) (m : Received) : Option Node :=
  (processDVTableMessage cfg m.now m.socket m.dvMessage n).map Prod.fst

/-- The state and messages of different neighbours it has a link to. -/
structure FromNeighbors (cfg : NodeConfig) (n : Node) (ms : List Received) : Prop where
  inv : Inv cfg n
  known : KnownCosts cfg n
  distinct : (ms.map (·.sender cfg)).Nodup
  entry : ∀ m ∈ ms, ∃ e, n.neighborTable[m.sender cfg]? = some e
  cost : ∀ m ∈ ms, n.costs[m.sender cfg]? = some 1

/-- What one message does. -/
structure Processed (cfg : NodeConfig) (n : Node) (m : Received) (n' : Node) : Prop where
  entry : ∃ e, n.neighborTable[m.sender cfg]? = some e ∧ ∀ K : String, n'.neighborTable[K]? =
    if m.sender cfg = K then some { e with dv := m.vector cfg } else n.neighborTable[K]?
  recomputed : Recomputed cfg { n with neighborTable := n'.neighborTable }
    (addUnknown n.dv (m.vector cfg)) n'

section One
variable {cfg : NodeConfig} {n n' : Node} {m : Received} {ms : List Received} {D : String}

theorem processStep_spec (h : processStep cfg n m = some n')
    (he : ∃ e, n.neighborTable[m.sender cfg]? = some e) : Processed cfg n m n' := by
  obtain ⟨⟨n', out⟩, hbf, rfl⟩ := Option.map_eq_some_iff.mp h
  obtain ⟨e, he⟩ := he
  have hrec := (bellmanFord_spec hbf).1
  have hstore : storeVector cfg m.now m.socket m.dvMessage.originatorAddress (m.vector cfg) n =
      { n with neighborTable :=
        n.neighborTable.insert (m.sender cfg) { e with dv := m.vector cfg } } := by
    unfold storeVector
    dsimp only
    rw [show n.neighborTable[cfg.reverseLookup m.dvMessage.originatorAddress]? = some e from he]
    rfl
  rw [show receivedVector cfg m.dvMessage.neighborCosts = m.vector cfg from rfl, hstore] at hrec
  have htable := hrec.neighborTable
  dsimp only at htable ⊢
  refine ⟨⟨e, he, fun K => ?_⟩, ?_⟩
  · rw [htable, getElem?_insert_eq]
  · rw [htable]
    exact hrec

theorem Processed.costs (h : Processed cfg n m n') : n'.costs = n.costs := h.recomputed.costs

theorem Processed.tablesInv (h : Processed cfg n m n') (hT : TablesInv cfg n n.dv) :
    TablesInv cfg { n with neighborTable := n'.neighborTable } (addUnknown n.dv (m.vector cfg)) := by
  obtain ⟨e, he, hget⟩ := h.entry
  refine ⟨?_, hT.costsOne, ?_, ?_⟩
  · intro K e' he'
    dsimp only at he'
    rw [hget] at he'
    split at he'
    · rename_i hK
      obtain rfl := Option.some.inj he'
      exact hT.keyed K e (hK ▸ he)
    · exact hT.keyed K e' he'
  · intro N c hN
    dsimp only
    rw [hget]
    split
    · exact ⟨_, rfl⟩
    · exact hT.costsEntry N c hN
  · intro N e' D he' hD
    dsimp only at he'
    rw [hget] at he'
    rw [mem_addUnknown]
    split at he'
    · obtain rfl := Option.some.inj he'
      exact Or.inr hD
    · exact Or.inl (hT.listed N e' D he' hD)

/-- Reports after a message: those of its sender are the ones it carries. -/
theorem Processed.reports (h : Processed cfg n m n') {N : String} {k : ℕ} :
    Reports n' N D k ↔
      (N = m.sender cfg ∧ ∃ c v, n.costs[N]? = some c ∧ (m.vector cfg)[D]? = some v ∧
        k = v.toNat + c.toNat) ∨ N ≠ m.sender cfg ∧ Reports n N D k := by
  obtain ⟨e, he, hget⟩ := h.entry
  unfold Reports Lists
  rw [h.costs, hget]
  by_cases hN : m.sender cfg = N
  · subst hN
    simp only [if_true, Option.some.injEq, exists_eq_left', true_and, ne_eq, not_true_eq_false,
      false_and, or_false, and_assoc]
  · simp only [if_neg hN, ne_eq, Ne.symm hN, false_and, not_false_eq_true, true_and, false_or]

/-- Without a report within 16 hops, `m_dv` keeps what it has. -/
theorem Processed.dv_kept (h : Processed cfg n m n') (hT : TablesInv cfg n n.dv)
    (hnone : D = cfg.thisNode ∨ ∀ N k, Reports n' N D k → 16 < k) :
    n'.dv[D]? = (addUnknown n.dv (m.vector cfg))[D]? := by
  cases hk : (addUnknown n.dv (m.vector cfg))[D]? with
  | none => exact (h.recomputed.unknown D hk).1
  | some v =>
    by_cases hD : D = cfg.thisNode
    · subst hD
      exact (h.recomputed.self v hk).1
    · obtain ⟨r, hr, hdv, _⟩ := h.recomputed.dest D v hk hD
      have hfar : ¬ r.minCost ≤ 16 := by
        intro hle
        have hle' : r.minCost.toNat ≤ 16 := UInt32.le_iff_toNat_le.mp hle
        obtain ⟨c, w, hl, hw⟩ := (findMinCost_spec hr).reports (h.tablesInv hT) hle'
        have hlt := (hnone.resolve_left hD) r.nextHop _ ⟨c, w, h.recomputed.lists.mpr hl, hw⟩
        omega
      rw [hdv, if_neg]
      simp [MinCost.differs, hfar]

theorem FromNeighbors.head (h : FromNeighbors cfg n (m :: ms)) (hp : Processed cfg n m n') :
    FromNeighbors cfg n' ms := by
  obtain ⟨hfresh, hdistinct⟩ := List.nodup_cons.mp (List.map_cons ▸ h.distinct)
  refine ⟨hp.recomputed.inv (hp.tablesInv h.inv.tables), ?_, hdistinct, ?_, ?_⟩
  · intro N c hN
    exact h.known N c (hp.costs ▸ hN)
  · intro m' hm'
    obtain ⟨e, _, hget⟩ := hp.entry
    have hne : m.sender cfg ≠ m'.sender cfg := fun hs => hfresh (hs ▸ List.mem_map_of_mem hm')
    rw [hget, if_neg hne]
    exact h.entry m' (List.mem_cons_of_mem _ hm')
  · intro m' hm'
    rw [hp.costs]
    exact h.cost m' (List.mem_cons_of_mem _ hm')

theorem FromNeighbors.perm {ms' : List Received} (h : FromNeighbors cfg n ms)
    (hp : ms'.Perm ms) : FromNeighbors cfg n ms' :=
  ⟨h.inv, h.known, ((hp.map _).nodup_iff).mpr h.distinct, fun m hm => h.entry m (hp.mem_iff.mp hm),
    fun m hm => h.cost m (hp.mem_iff.mp hm)⟩

theorem FromNeighbors.exists (h : FromNeighbors cfg n ms) :
    ∃ n', run (processStep cfg) n ms = some n' := by
  induction ms generalizing n with
  | nil => exact ⟨n, rfl⟩
  | cons m ms ih =>
    have hb : BeforeBF cfg n (.recv m.now m.socket
        { m.dvMessage with payload := .dvTableMsg m.dvMessage.neighborCosts }) _ _ := .dvTable rfl
    have hresolvable : Resolvable cfg (storeVector cfg m.now m.socket
        m.dvMessage.originatorAddress (m.vector cfg) n) :=
      KnownCosts.resolvable (fun N c hN => h.known N c hN) (hb.tablesInv h.inv.tables)
    obtain ⟨n₁, out, hbf⟩ := bellmanFord_exists (m.vector cfg) hresolvable
    have hstep : processStep cfg n m = some n₁ := by
      unfold processStep processDVTableMessage
      exact congrArg (Option.map Prod.fst) hbf
    obtain ⟨n', hn'⟩ := ih (h.head (processStep_spec hstep (h.entry m List.mem_cons_self)))
    exact ⟨n', by simp [run, List.foldlM_cons, hstep]; exact hn'⟩

end One

/-! ## What does not depend on the order -/

section Order
variable {cfg : NodeConfig} {n n' n₁ n₂ : Node} {m : Received} {ms ms' : List Received} {D : String}

/-- After all messages, every sender has the vector it sent, and nothing else
has changed in `m_neighborTable` and `m_costs`. -/
theorem FromNeighbors.stored (h : FromNeighbors cfg n ms) (hr : run (processStep cfg) n ms = some n') :
    n'.costs = n.costs ∧
      (∀ m ∈ ms, n'.neighborTable[m.sender cfg]? =
        n.neighborTable[m.sender cfg]?.map fun e => { e with dv := m.vector cfg }) ∧
      ∀ K, K ∉ ms.map (·.sender cfg) → n'.neighborTable[K]? = n.neighborTable[K]? := by
  induction ms generalizing n with
  | nil =>
    obtain rfl := Option.some.inj hr
    exact ⟨rfl, nofun, fun _ _ => rfl⟩
  | cons m ms ih =>
    obtain ⟨n₁, hstep, hrest⟩ := foldlM_cons_some hr
    have hp := processStep_spec hstep (h.entry m List.mem_cons_self)
    obtain ⟨hcosts, hsent, hother⟩ := ih (h.head hp) hrest
    obtain ⟨e, he, hget⟩ := hp.entry
    obtain ⟨hfresh, _⟩ := List.nodup_cons.mp (List.map_cons ▸ h.distinct)
    refine ⟨hcosts.trans hp.costs, fun m' hm' => ?_, fun K hK => ?_⟩
    · rcases List.mem_cons.mp hm' with rfl | hm'
      · rw [hother _ hfresh, hget, if_pos rfl, he]
        rfl
      · have hne : m.sender cfg ≠ m'.sender cfg := fun hs => hfresh (hs ▸ List.mem_map_of_mem hm')
        rw [hsent m' hm', hget, if_neg hne]
    · rw [List.map_cons, List.mem_cons, not_or] at hK
      rw [hother K hK.2, hget, if_neg (Ne.symm hK.1)]

theorem FromNeighbors.neighborTable_eq (h : FromNeighbors cfg n ms) (hp : ms'.Perm ms)
    (h₁ : run (processStep cfg) n ms = some n₁) (h₂ : run (processStep cfg) n ms' = some n₂) :
    n₁.neighborTable = n₂.neighborTable := by
  obtain ⟨_, hsent₁, hother₁⟩ := h.stored h₁
  obtain ⟨_, hsent₂, hother₂⟩ := (h.perm hp).stored h₂
  refine Std.ExtTreeMap.ext_getElem? fun K => ?_
  by_cases hK : K ∈ ms.map (·.sender cfg)
  · obtain ⟨m, hm, rfl⟩ := List.mem_map.mp hK
    rw [hsent₁ m hm, hsent₂ m (hp.mem_iff.mpr hm)]
  · have hK' : K ∉ ms'.map (·.sender cfg) := fun hmem => hK ((hp.map _).mem_iff.mp hmem)
    rw [hother₁ K hK, hother₂ K hK']

/-- The destinations known after all messages. -/
theorem FromNeighbors.mem_dv (h : FromNeighbors cfg n ms)
    (hr : run (processStep cfg) n ms = some n') :
    D ∈ n'.dv ↔ D ∈ n.dv ∨ ∃ m ∈ ms, D ∈ m.vector cfg := by
  induction ms generalizing n with
  | nil =>
    obtain rfl := Option.some.inj hr
    simp
  | cons m ms ih =>
    obtain ⟨n₁, hstep, hrest⟩ := foldlM_cons_some hr
    have hp := processStep_spec hstep (h.entry m List.mem_cons_self)
    rw [ih (h.head hp) hrest, hp.recomputed.mem_dv, mem_addUnknown, List.exists_mem_cons_iff,
      or_assoc]

theorem findMinCost_congr (hc : n₁.costs = n₂.costs) (ht : n₁.neighborTable = n₂.neighborTable)
    (D : String) : findMinCost n₁ D = findMinCost n₂ D := by
  unfold findMinCost considerNeighbor
  rw [hc, ht]

/-- The routing table is computed from the stored vectors and the known
destinations. -/
theorem Recomputed.routingTable_eq {m₁ m₂ : Node} {known₁ known₂ : DistanceVector}
    (h₁ : Recomputed cfg m₁ known₁ n₁) (h₂ : Recomputed cfg m₂ known₂ n₂)
    (hc : m₁.costs = m₂.costs) (ht : m₁.neighborTable = m₂.neighborTable)
    (hk : ∀ D : String, D ∈ known₁ ↔ D ∈ known₂) : n₁.routingTable = n₂.routingTable := by
  refine Std.ExtTreeMap.ext_getElem? fun D => ?_
  cases h : known₁[D]? with
  | none =>
    have hnone : known₂[D]? = none := by
      by_contra hsome
      have hmem := (hk D).mpr (mem_iff_getElem?.mpr (Option.ne_none_iff_exists'.mp hsome))
      obtain ⟨v, hv⟩ := mem_iff_getElem?.mp hmem
      rw [h] at hv
      cases hv
    rw [(h₁.unknown D h).2, (h₂.unknown D hnone).2]
  | some v =>
    obtain ⟨w, hw⟩ := mem_iff_getElem?.mp ((hk D).mp (mem_iff_getElem?.mpr ⟨v, h⟩))
    by_cases hD : D = cfg.thisNode
    · subst hD
      rw [(h₁.self v h).2, (h₂.self w hw).2]
    · obtain ⟨r₁, hr₁, _, hroute₁⟩ := h₁.dest D v h hD
      obtain ⟨r₂, hr₂, _, hroute₂⟩ := h₂.dest D w hw hD
      rw [findMinCost_congr hc ht, hr₂] at hr₁
      obtain rfl := Option.some.inj hr₁
      rcases hroute₁ with ⟨_, hnone₁⟩ | ⟨hlt, hop, hhop, hsome₁⟩
      · rcases hroute₂ with ⟨_, hnone₂⟩ | ⟨hlt, _⟩
        · rw [hnone₁, hnone₂]
        · exact absurd hlt (UInt32.not_lt.mpr ‹_›)
      · rcases hroute₂ with ⟨hge, _⟩ | ⟨_, hop', hhop', hsome₂⟩
        · exact absurd hlt (UInt32.not_lt.mpr hge)
        · rw [hopEntry, ht] at hhop
          rw [hopEntry, hhop] at hhop'
          rw [hsome₁, hsome₂, Option.some.inj hhop']

/-- The last message of a run, with the state before it. -/
theorem FromNeighbors.last (h : FromNeighbors cfg n ms)
    (hr : run (processStep cfg) n ms = some n') :
    ms = [] ∧ n' = n ∨ ∃ n₀ m, Processed cfg n₀ m n' ∧
      ∀ D : String, D ∈ addUnknown n₀.dv (m.vector cfg) ↔ D ∈ n'.dv := by
  induction ms generalizing n with
  | nil => exact Or.inl ⟨rfl, (Option.some.inj hr).symm⟩
  | cons m ms ih =>
    obtain ⟨n₁, hstep, hrest⟩ := foldlM_cons_some hr
    have hp := processStep_spec hstep (h.entry m List.mem_cons_self)
    rcases ih (h.head hp) hrest with ⟨_, rfl⟩ | hlast
    · exact Or.inr ⟨n, m, hp, fun D => hp.recomputed.mem_dv.symm⟩
    · exact Or.inr hlast

theorem FromNeighbors.routingTable_eq (h : FromNeighbors cfg n ms) (hp : ms'.Perm ms)
    (h₁ : run (processStep cfg) n ms = some n₁) (h₂ : run (processStep cfg) n ms' = some n₂) :
    n₁.routingTable = n₂.routingTable := by
  have hcosts : n₁.costs = n₂.costs := (h.stored h₁).1.trans ((h.perm hp).stored h₂).1.symm
  have hkeys : ∀ D : String, D ∈ n₁.dv ↔ D ∈ n₂.dv := by
    intro D
    rw [h.mem_dv h₁, (h.perm hp).mem_dv h₂]
    simp only [hp.mem_iff]
  rcases h.last h₁ with ⟨rfl, rfl⟩ | ⟨k₁, m₁, hlast₁, hknown₁⟩
  · rw [List.perm_nil.mp hp] at h₂
    obtain rfl := Option.some.inj h₂
    rfl
  · rcases (h.perm hp).last h₂ with ⟨rfl, rfl⟩ | ⟨k₂, m₂, hlast₂, hknown₂⟩
    · rw [List.nil_perm.mp hp] at h₁
      obtain rfl := Option.some.inj h₁
      rfl
    · refine hlast₁.recomputed.routingTable_eq hlast₂.recomputed ?_ ?_ fun D => ?_
      · exact hlast₁.costs.symm.trans (hcosts.trans hlast₂.costs)
      · show n₁.neighborTable = n₂.neighborTable
        exact h.neighborTable_eq hp h₁ h₂
      · rw [hknown₁, hkeys, hknown₂]

end Order

/-! ## What `m_dv` keeps -/

section Kept
variable (cfg : NodeConfig) (n : Node) (ms : List Received) (D : String)

/-- After the messages, no neighbour reports the destination within 16
hops. -/
structure Lost : Prop where
  sent : ∀ m ∈ ms, ∀ v, (m.vector cfg)[D]? = some v → 16 ≤ v.toNat
  others : ∀ N k, N ∉ ms.map (·.sender cfg) → Reports n N D k → 16 < k

/-- Its stored vector, before the message, has the destination within 16
hops. -/
def Offers (m : Received) : Prop := ∃ k, Reports n (m.sender cfg) D k ∧ k ≤ 16

/-- Of each destination that gets lost, all senders had the same offer. -/
def OffersAgree : Prop :=
  ∀ D, D ≠ cfg.thisNode → Lost cfg n ms D → ∀ m ∈ ms, ∀ m' ∈ ms, ∀ k k',
    Reports n (m.sender cfg) D k → k ≤ 16 → Reports n (m'.sender cfg) D k' → k' ≤ 16 → k = k'

end Kept

section Kept
variable {cfg : NodeConfig} {n n' : Node} {m : Received} {ms : List Received} {D : String}

theorem Reports.unique {N : String} {k k' : ℕ} (h : Reports n N D k) (h' : Reports n N D k') :
    k = k' := by
  obtain ⟨c, v, ⟨hc, e, he, hv⟩, rfl⟩ := h
  obtain ⟨c', v', ⟨hc', e', he', hv'⟩, rfl⟩ := h'
  rw [hc] at hc'
  obtain rfl := Option.some.inj hc'
  rw [he] at he'
  obtain rfl := Option.some.inj he'
  rw [hv] at hv'
  rw [Option.some.inj hv']

theorem Processed.lost (hp : Processed cfg n m n') (h : FromNeighbors cfg n (m :: ms))
    (hl : Lost cfg n (m :: ms) D) : Lost cfg n' ms D := by
  refine ⟨fun m' hm' => hl.sent m' (List.mem_cons_of_mem _ hm'), fun N k hN hk => ?_⟩
  rcases hp.reports.mp hk with ⟨rfl, c, v, hc, hv, rfl⟩ | ⟨hne, hk⟩
  · have hone := h.cost m List.mem_cons_self
    rw [hc] at hone
    obtain rfl := Option.some.inj hone
    have hfar := hl.sent m List.mem_cons_self v hv
    rw [UInt32.toNat_one]
    omega
  · refine hl.others N k ?_ hk
    rw [List.map_cons, List.mem_cons, not_or]
    exact ⟨hne, hN⟩

/-- The vectors of the senders to come are as before. -/
theorem Processed.reports_rest (hp : Processed cfg n m n') (h : FromNeighbors cfg n (m :: ms))
    {m' : Received} (hm' : m' ∈ ms) {k : ℕ} :
    Reports n' (m'.sender cfg) D k ↔ Reports n (m'.sender cfg) D k := by
  obtain ⟨hfresh, _⟩ := List.nodup_cons.mp (List.map_cons ▸ h.distinct)
  have hne : m'.sender cfg ≠ m.sender cfg := fun hs => hfresh (hs ▸ List.mem_map_of_mem hm')
  rw [hp.reports]
  simp only [hne, false_and, ne_eq, not_false_eq_true, true_and, false_or]

theorem Processed.offers_rest (hp : Processed cfg n m n') (h : FromNeighbors cfg n (m :: ms))
    {m' : Received} (hm' : m' ∈ ms) : Offers cfg n' D m' ↔ Offers cfg n D m' := by
  unfold Offers
  simp only [hp.reports_rest h hm']

/-- Without offers, every report of a lost destination is beyond 16 hops. -/
theorem Lost.reports_far (hl : Lost cfg n ms D) (hno : ∀ m ∈ ms, ¬ Offers cfg n D m) (N : String)
    (k : ℕ) (hk : Reports n N D k) : 16 < k := by
  by_cases hN : N ∈ ms.map (·.sender cfg)
  · obtain ⟨m, hm, rfl⟩ := List.mem_map.mp hN
    by_contra hle
    exact hno m hm ⟨k, hk, by omega⟩
  · exact hl.others N k hN hk

/-- `m_dv` of a destination nothing replaces: what it has, or infinity when
some vector brings it up. -/
theorem FromNeighbors.dv_kept (h : FromNeighbors cfg n ms)
    (hr : run (processStep cfg) n ms = some n')
    (hkept : D = cfg.thisNode ∨ Lost cfg n ms D ∧ ∀ m ∈ ms, ¬ Offers cfg n D m) :
    (∀ v, n.dv[D]? = some v → n'.dv[D]? = some v) ∧
      (n.dv[D]? = none → ∀ v, n'.dv[D]? = some v → v = mInf) := by
  induction ms generalizing n with
  | nil =>
    obtain rfl := Option.some.inj hr
    refine ⟨fun v hv => hv, fun hnone v hv => ?_⟩
    rw [hnone] at hv
    cases hv
  | cons m ms ih =>
    obtain ⟨n₁, hstep, hrest⟩ := foldlM_cons_some hr
    have hp := processStep_spec hstep (h.entry m List.mem_cons_self)
    have hkept' : D = cfg.thisNode ∨ Lost cfg n₁ ms D ∧ ∀ m' ∈ ms, ¬ Offers cfg n₁ D m' := by
      refine hkept.imp_right fun ⟨hl, hno⟩ => ⟨hp.lost h hl, fun m' hm' => ?_⟩
      rw [hp.offers_rest h hm']
      exact hno m' (List.mem_cons_of_mem _ hm')
    have hdv := hp.dv_kept h.inv.tables
      (hkept'.imp_right fun ⟨hl, hno⟩ N k hk => hl.reports_far hno N k hk)
    obtain ⟨hsome, hnone⟩ := ih (h.head hp) hrest hkept'
    rw [getElem?_addUnknown] at hdv
    refine ⟨fun v hv => hsome v ?_, fun hno v hv => ?_⟩
    · rw [hdv, hv, Option.some_or]
    · rw [hno, Option.none_or] at hdv
      split at hdv
      · rw [hsome mInf hdv] at hv
        exact (Option.some.inj hv).symm
      · exact hnone hdv v hv

/-- `m_dv` of a destination that only the sender of the next message offers. -/
theorem FromNeighbors.dv_offered (h : FromNeighbors cfg n (m :: ms)) (hD : D ≠ cfg.thisNode)
    (hl : Lost cfg n (m :: ms) D) {k : ℕ} (hk : Reports n (m.sender cfg) D k) (hle : k ≤ 16)
    (hno : ∀ m' ∈ ms, ¬ Offers cfg n D m') : ∃ v, n.dv[D]? = some v ∧ v.toNat = k := by
  obtain ⟨v, hv⟩ := h.inv.reports_mem hk
  obtain ⟨r, hr, _, hstored⟩ := h.inv.route D v hv hD
  have hrk := hr.le_reports h.inv.tables hk
  have hreports := hr.reports h.inv.tables (hrk.trans hle)
  -- the next hop is the sender
  have hhop : r.nextHop = m.sender cfg := by
    by_contra hne
    by_cases hN : r.nextHop ∈ ms.map (·.sender cfg)
    · obtain ⟨m', hm', hs⟩ := List.mem_map.mp hN
      exact hno m' hm' ⟨_, hs ▸ hreports, hrk.trans hle⟩
    · have hfar := hl.others _ _ (by
        rw [List.map_cons, List.mem_cons, not_or]
        exact ⟨hne, hN⟩) hreports
      omega
  rw [hhop] at hreports
  refine ⟨v, hv, ?_⟩
  rw [hstored (UInt32.le_iff_toNat_le.mpr (hrk.trans hle))]
  exact hreports.unique hk

/-- Of a lost destination, `m_dv` ends with the offer of the last sender that
had one. -/
theorem FromNeighbors.dv_last {pre post : List Received}
    (h : FromNeighbors cfg n (pre ++ m :: post))
    (hr : run (processStep cfg) n (pre ++ m :: post) = some n') (hD : D ≠ cfg.thisNode)
    (hl : Lost cfg n (pre ++ m :: post) D) {k : ℕ} (hk : Reports n (m.sender cfg) D k) (hle : k ≤ 16)
    (hno : ∀ m' ∈ post, ¬ Offers cfg n D m') : ∃ v, n'.dv[D]? = some v ∧ v.toNat = k := by
  induction pre generalizing n with
  | nil =>
    obtain ⟨n₁, hstep, hrest⟩ := foldlM_cons_some hr
    have hp := processStep_spec hstep (h.entry m List.mem_cons_self)
    have hfrom : FromNeighbors cfg n (m :: post) := h
    obtain ⟨v, hv, hvk⟩ := hfrom.dv_offered hD hl hk hle hno
    have hl₁ : Lost cfg n₁ post D := hp.lost h hl
    have hno₁ : ∀ m' ∈ post, ¬ Offers cfg n₁ D m' := fun m' hm' => by
      rw [hp.offers_rest h hm']
      exact hno m' hm'
    have hdv := hp.dv_kept h.inv.tables (Or.inr (hl₁.reports_far hno₁))
    rw [getElem?_addUnknown, hv, Option.some_or] at hdv
    exact ⟨v, ((h.head hp).dv_kept hrest (Or.inr ⟨hl₁, hno₁⟩)).1 v hdv, hvk⟩
  | cons m₀ pre ih =>
    obtain ⟨n₁, hstep, hrest⟩ := foldlM_cons_some hr
    have hp := processStep_spec hstep (h.entry m₀ List.mem_cons_self)
    have hmem : m ∈ pre ++ m :: post := List.mem_append_right _ List.mem_cons_self
    refine ih (h.head hp) hrest (hp.lost h hl) ((hp.reports_rest h hmem).mpr hk) fun m' hm' => ?_
    rw [hp.offers_rest h (List.mem_append_right _ (List.mem_cons_of_mem _ hm'))]
    exact hno m' hm'

end Kept

/-! ## Two orders -/

/-- The states agree in `m_routingTable`, the stored vectors and `m_dv`. -/
structure SameResult (n₁ n₂ : Node) : Prop where
  routingTable : n₁.routingTable = n₂.routingTable
  neighborTable : n₁.neighborTable = n₂.neighborTable
  dv : n₁.dv = n₂.dv

section Orders
variable {cfg : NodeConfig} {n n' n₁ n₂ : Node} {m : Received} {ms ms' : List Received} {D : String}

/-- A destination without a report within 16 hops was lost. -/
theorem FromNeighbors.lost_of_far (h : FromNeighbors cfg n ms)
    (hr : run (processStep cfg) n ms = some n') (hfar : ∀ N k, Reports n' N D k → 16 < k) :
    Lost cfg n ms D := by
  obtain ⟨hcosts, hsent, hother⟩ := h.stored hr
  refine ⟨fun m hm v hv => ?_, fun N k hN hk => hfar N k ?_⟩
  · obtain ⟨e, he⟩ := h.entry m hm
    have hlt := hfar (m.sender cfg) (v.toNat + (1 : UInt32).toNat) ⟨1, v, ⟨?_, ?_⟩, rfl⟩
    · rw [UInt32.toNat_one] at hlt
      omega
    · rw [hcosts]
      exact h.cost m hm
    · exact ⟨_, by rw [hsent m hm, he]; rfl, hv⟩
  · obtain ⟨c, v, ⟨hc, e, he, hv⟩, rfl⟩ := hk
    exact ⟨c, v, ⟨hcosts ▸ hc, e, (hother N hN).trans he, hv⟩, rfl⟩

theorem Lost.perm (hl : Lost cfg n ms D) (hp : ms'.Perm ms) : Lost cfg n ms' D := by
  refine ⟨fun m hm => hl.sent m (hp.mem_iff.mp hm), fun N k hN => hl.others N k fun hmem => hN ?_⟩
  exact (hp.map _).mem_iff.mpr hmem

/-- The invariant after a list of messages. -/
theorem FromNeighbors.run_inv (h : FromNeighbors cfg n ms)
    (hr : run (processStep cfg) n ms = some n') : Inv cfg n' := by
  induction ms generalizing n with
  | nil =>
    obtain rfl := Option.some.inj hr
    exact h.inv
  | cons m ms ih =>
    obtain ⟨n₁, hstep, hrest⟩ := foldlM_cons_some hr
    exact ih (h.head (processStep_spec hstep (h.entry m List.mem_cons_self))) hrest

/-- A destination that is not lost has the least cost in `m_dv`, which the
stored vectors decide. -/
theorem dv_eq_of_near (hI₁ : Inv cfg n₁) (hI₂ : Inv cfg n₂) (hD : D ≠ cfg.thisNode)
    (hreports : ∀ N k, Reports n₁ N D k ↔ Reports n₂ N D k)
    (hnear : ∃ N k, Reports n₁ N D k ∧ k ≤ 16) : n₁.dv[D]? = n₂.dv[D]? := by
  obtain ⟨N, k, hk, hle⟩ := hnear
  obtain ⟨v₁, hv₁⟩ := hI₁.reports_mem hk
  obtain ⟨v₂, hv₂⟩ := hI₂.reports_mem ((hreports N k).mp hk)
  obtain ⟨r₁, hr₁, _, hstored₁⟩ := hI₁.route D v₁ hv₁ hD
  obtain ⟨r₂, hr₂, _, hstored₂⟩ := hI₂.route D v₂ hv₂ hD
  have hle₁ : r₁.minCost.toNat ≤ 16 := (hr₁.le_reports hI₁.tables hk).trans hle
  have hle₂ : r₂.minCost.toNat ≤ 16 :=
    (hr₂.le_reports hI₂.tables ((hreports N k).mp hk)).trans hle
  have heq : r₁.minCost = r₂.minCost := by
    refine UInt32.toNat_inj.mp (le_antisymm ?_ ?_)
    · exact hr₁.le_reports hI₁.tables ((hreports _ _).mpr (hr₂.reports hI₂.tables hle₂))
    · exact hr₂.le_reports hI₂.tables ((hreports _ _).mp (hr₁.reports hI₁.tables hle₁))
  rw [hv₁, hv₂, hstored₁ (UInt32.le_iff_toNat_le.mpr hle₁),
    hstored₂ (UInt32.le_iff_toNat_le.mpr hle₂), heq]

section TwoOrders
variable (h : FromNeighbors cfg n ms) (hp : ms'.Perm ms)
  (h₁ : run (processStep cfg) n ms = some n₁) (h₂ : run (processStep cfg) n ms' = some n₂)
include h hp h₁ h₂

/-- A destination that keeps what it has, keeps it in either order. -/
theorem FromNeighbors.dv_eq_of_kept
    (hk : D = cfg.thisNode ∨ Lost cfg n ms D ∧ ∀ m ∈ ms, ¬ Offers cfg n D m) :
    n₁.dv[D]? = n₂.dv[D]? := by
  have h' := h.perm hp
  have hk' : D = cfg.thisNode ∨ Lost cfg n ms' D ∧ ∀ m ∈ ms', ¬ Offers cfg n D m :=
    hk.imp_right fun ⟨hl, hno⟩ => ⟨hl.perm hp, fun m hm => hno m (hp.mem_iff.mp hm)⟩
  obtain ⟨hsome₁, hnone₁⟩ := h.dv_kept h₁ hk
  obtain ⟨hsome₂, hnone₂⟩ := h'.dv_kept h₂ hk'
  cases hn : n.dv[D]? with
  | some v => rw [hsome₁ v hn, hsome₂ v hn]
  | none =>
    have hkeys : D ∈ n₁.dv ↔ D ∈ n₂.dv := by
      rw [h.mem_dv h₁, h'.mem_dv h₂]
      simp only [hp.mem_iff]
    rw [mem_iff_getElem?, mem_iff_getElem?] at hkeys
    cases hv₁ : n₁.dv[D]? with
    | some v₁ =>
      obtain ⟨v₂, hv₂⟩ := hkeys.mp ⟨v₁, hv₁⟩
      rw [hv₂, hnone₁ hn v₁ hv₁, hnone₂ hn v₂ hv₂]
    | none =>
      cases hv₂ : n₂.dv[D]? with
      | some v₂ =>
        obtain ⟨v₁, hv⟩ := hkeys.mpr ⟨v₂, hv₂⟩
        rw [hv₁] at hv
        cases hv
      | none => rfl

/-- A lost destination that is offered ends with the last offer, and all
offers are the same. -/
theorem FromNeighbors.dv_eq_of_offer (hD : D ≠ cfg.thisNode) (hl : Lost cfg n ms D)
    (hoffers : OffersAgree cfg n ms) (hsome : ∃ m ∈ ms, Offers cfg n D m) :
    n₁.dv[D]? = n₂.dv[D]? := by
  have hsome' : ∃ m ∈ ms', Offers cfg n D m := by
    obtain ⟨m, hm, hoffer⟩ := hsome
    exact ⟨m, hp.mem_iff.mpr hm, hoffer⟩
  obtain ⟨pre₁, m₁, post₁, rfl, ⟨k₁, hk₁, hle₁⟩, hpost₁⟩ := since_of_exists hsome
  obtain ⟨pre₂, m₂, post₂, rfl, ⟨k₂, hk₂, hle₂⟩, hpost₂⟩ := since_of_exists hsome'
  obtain ⟨v₁, hv₁, hvk₁⟩ := h.dv_last h₁ hD hl hk₁ hle₁ hpost₁
  obtain ⟨v₂, hv₂, hvk₂⟩ := (h.perm hp).dv_last h₂ hD (hl.perm hp) hk₂ hle₂ hpost₂
  have hm₁ : m₁ ∈ pre₁ ++ m₁ :: post₁ := List.mem_append_right _ List.mem_cons_self
  have hm₂ : m₂ ∈ pre₁ ++ m₁ :: post₁ :=
    hp.mem_iff.mp (List.mem_append_right _ List.mem_cons_self)
  have heq := hoffers D hD hl m₁ hm₁ m₂ hm₂ k₁ k₂ hk₁ hle₁ hk₂ hle₂
  rw [hv₁, hv₂, UInt32.toNat_inj.mp (hvk₁.trans (heq.trans hvk₂.symm))]

/-- `m_dv` after two orders, when the offers agree. -/
theorem FromNeighbors.dv_eq (hoffers : OffersAgree cfg n ms) : n₁.dv = n₂.dv := by
  refine Std.ExtTreeMap.ext_getElem? fun D => ?_
  by_cases hD : D = cfg.thisNode
  · exact h.dv_eq_of_kept hp h₁ h₂ (Or.inl hD)
  by_cases hl : Lost cfg n ms D
  · by_cases hsome : ∃ m ∈ ms, Offers cfg n D m
    · exact h.dv_eq_of_offer hp h₁ h₂ hD hl hoffers hsome
    · exact h.dv_eq_of_kept hp h₁ h₂ (Or.inr ⟨hl, fun m hm hoffer => hsome ⟨m, hm, hoffer⟩⟩)
  · have hnear : ∃ N k, Reports n₁ N D k ∧ k ≤ 16 := by
      by_contra hfar
      refine hl (h.lost_of_far h₁ fun N k hk => ?_)
      by_contra hle
      exact hfar ⟨N, k, hk, by omega⟩
    have h' := h.perm hp
    have hcosts : n₁.costs = n₂.costs := (h.stored h₁).1.trans (h'.stored h₂).1.symm
    have htable := h.neighborTable_eq hp h₁ h₂
    refine dv_eq_of_near (h.run_inv h₁) (h'.run_inv h₂) hD (fun N k => ?_) hnear
    unfold Reports Lists
    rw [hcosts, htable]

end TwoOrders

/-- An order in which the message is the last. -/
theorem exists_order_last (hm : m ∈ ms) : ∃ rest, (rest ++ [m]).Perm ms := by
  obtain ⟨pre, post, rfl⟩ := List.append_of_mem hm
  refine ⟨pre ++ post, ?_⟩
  rw [List.append_assoc]
  exact (List.perm_append_left_iff pre).mpr List.perm_append_comm

/-- Every order of the messages has a result, and all results are the same. -/
def OrderFree (cfg : NodeConfig) (n : Node) (ms : List Received) : Prop :=
  ∀ ms₁ ms₂ : List Received, ms₁.Perm ms → ms₂.Perm ms →
    ∃ n₁ n₂, run (processStep cfg) n ms₁ = some n₁ ∧ run (processStep cfg) n ms₂ = some n₂ ∧
      SameResult n₁ n₂

theorem FromNeighbors.orders_agree_iff (h : FromNeighbors cfg n ms) :
    OrderFree cfg n ms ↔ OffersAgree cfg n ms := by
  constructor
  · intro hfree D hD hl m hm m' hm' k k' hk hle hk' hle'
    obtain ⟨rest₁, hp₁⟩ := exists_order_last hm
    obtain ⟨rest₂, hp₂⟩ := exists_order_last hm'
    obtain ⟨n₁, n₂, h₁, h₂, hsame⟩ := hfree _ _ hp₁ hp₂
    obtain ⟨v₁, hv₁, hvk₁⟩ := (h.perm hp₁).dv_last h₁ hD (hl.perm hp₁) hk hle nofun
    obtain ⟨v₂, hv₂, hvk₂⟩ := (h.perm hp₂).dv_last h₂ hD (hl.perm hp₂) hk' hle' nofun
    rw [hsame.dv, hv₂] at hv₁
    rw [← hvk₁, ← hvk₂, Option.some.inj hv₁]
  · intro hoffers ms₁ ms₂ hp₁ hp₂
    obtain ⟨n₁, h₁⟩ := (h.perm hp₁).exists
    obtain ⟨n₂, h₂⟩ := (h.perm hp₂).exists
    have hp : ms₂.Perm ms₁ := hp₂.trans hp₁.symm
    have hoffers₁ : OffersAgree cfg n ms₁ := by
      intro D hD hl m hm m' hm'
      exact hoffers D hD (hl.perm hp₁.symm) m (hp₁.mem_iff.mp hm) m' (hp₁.mem_iff.mp hm')
    exact ⟨n₁, n₂, h₁, h₂, (h.perm hp₁).routingTable_eq hp h₁ h₂,
      (h.perm hp₁).neighborTable_eq hp h₁ h₂, (h.perm hp₁).dv_eq hp h₁ h₂ hoffers₁⟩

end Orders

/-- **When the order of updates does not matter**: in a reachable state, for
messages of different neighbours. -/
theorem orderFree_iff (cfg : NodeConfig) (sequenceNumber : UInt32) (es : List Event) (n : Node)
    (ms : List Received) (reached : run (step cfg) (doStart cfg sequenceNumber) es = some n)
    (known : KnownCosts cfg n) (distinct : (ms.map (·.sender cfg)).Nodup)
    (neighbors : ∀ m ∈ ms, m.sender cfg ∈ n.neighborTable ∧ m.sender cfg ∈ n.costs) :
    OrderFree cfg n ms ↔ OffersAgree cfg n ms := by
  have hI : Inv cfg n := inv_run cfg sequenceNumber es es n (List.prefix_refl es) reached
  refine FromNeighbors.orders_agree_iff ⟨hI, known, distinct, fun m hm => ?_, fun m hm => ?_⟩
  · exact mem_iff_getElem?.mp (neighbors m hm).1
  · obtain ⟨c, hc⟩ := mem_iff_getElem?.mp (neighbors m hm).2
    rw [hc, hI.tables.costsOne _ c hc]

/-! ### Two withdrawals -/

/-- Node 0 of four nodes. -/
def crossConfig : NodeConfig :=
  { sampleConfig with
    nodeAddressMap := .ofList [((0 : UInt32), (10 : Ipv4Address)), (1, 20), (2, 30), (3, 40)]
    addressNodeMap :=
      .ofList [((10 : Ipv4Address), (0 : UInt32)), (11, 0), (20, 1), (30, 2), (40, 3)] }

/-- Nodes 1 and 2 are neighbours; node 1 offers node 3 within two hops, node 2
within three. -/
def crossEvents : List Event :=
  [.recv 0 0 ⟨5, 1, 20, .helloReq 10 "hello"⟩, .recv 0 1 ⟨5, 1, 30, .helloReq 10 "hello"⟩,
    .recv 1 0 ⟨6, 1, 20, .dvTableMsg [(10, 1), (20, 0), (40, 1)]⟩,
    .recv 1 1 ⟨6, 1, 30, .dvTableMsg [(10, 1), (30, 0), (40, 2)]⟩]

def withdrawal₁ : Received := ⟨2, 0, ⟨7, 1, 20, .dvTableMsg [(10, 1), (20, 0)]⟩⟩

def withdrawal₂ : Received := ⟨2, 1, ⟨7, 1, 30, .dvTableMsg [(10, 1), (30, 0)]⟩⟩

theorem cross_state :
    ∃ n, run (step crossConfig) (doStart crossConfig 7) crossEvents = some n ∧
      KnownCosts crossConfig n ∧
      (∀ m ∈ [withdrawal₁, withdrawal₂],
        m.sender crossConfig ∈ n.neighborTable ∧ m.sender crossConfig ∈ n.costs) ∧
      (run (processStep crossConfig) n [withdrawal₁, withdrawal₂]).map (·.dv["3"]?) =
        some (some 3) ∧
      (run (processStep crossConfig) n [withdrawal₂, withdrawal₁]).map (·.dv["3"]?) =
        some (some 2) := by
  have hrun : (run (step crossConfig) (doStart crossConfig 7) crossEvents).map (fun n =>
      (n.costs.keys, n.neighborTable.keys,
        (run (processStep crossConfig) n [withdrawal₁, withdrawal₂]).map (·.dv["3"]?),
        (run (processStep crossConfig) n [withdrawal₂, withdrawal₁]).map (·.dv["3"]?))) =
      some (["1", "2"], ["1", "2"], some (some 3), some (some 2)) := by decide +kernel
  obtain ⟨n, hn, hfacts⟩ := Option.map_eq_some_iff.mp hrun
  obtain ⟨hcosts, hrest⟩ := Prod.mk.inj hfacts
  obtain ⟨htable, hrest⟩ := Prod.mk.inj hrest
  obtain ⟨h₁, h₂⟩ := Prod.mk.inj hrest
  have hnames : ∀ K : String, K ∈ ["1", "2"] → K ∈ n.neighborTable ∧ K ∈ n.costs := by
    intro K hK
    rw [← Std.ExtTreeMap.mem_keys, ← Std.ExtTreeMap.mem_keys, htable, hcosts]
    exact ⟨hK, hK⟩
  refine ⟨n, hn, fun N c hN => ?_, ?_, h₁, h₂⟩
  · have hmem : N ∈ ["1", "2"] := by
      rw [← hcosts, Std.ExtTreeMap.mem_keys]
      exact mem_iff_getElem?.mpr ⟨c, hN⟩
    simp only [List.mem_cons, List.not_mem_nil, or_false] at hmem
    rcases hmem with rfl | rfl
    · exact ⟨1, 20, rfl, by decide +kernel, by decide +kernel⟩
    · exact ⟨2, 30, rfl, by decide +kernel, by decide +kernel⟩
  · simp only [List.forall_mem_cons]
    exact ⟨hnames _ (by decide +kernel), hnames _ (by decide +kernel), nofun⟩

theorem cross_distinct : ([withdrawal₁, withdrawal₂].map (·.sender crossConfig)).Nodup := by
  decide +kernel

theorem cross_not_orderFree {n : Node}
    (h₁ : (run (processStep crossConfig) n [withdrawal₁, withdrawal₂]).map (·.dv["3"]?) =
      some (some 3))
    (h₂ : (run (processStep crossConfig) n [withdrawal₂, withdrawal₁]).map (·.dv["3"]?) =
      some (some 2)) : ¬ OrderFree crossConfig n [withdrawal₁, withdrawal₂] := by
  intro hfree
  obtain ⟨n₁, n₂, hn₁, hn₂, hsame⟩ := hfree _ _ (List.Perm.refl _) (List.Perm.swap _ _ _)
  rw [hn₁, Option.map_some, hsame.dv] at h₁
  rw [hn₂, Option.map_some] at h₂
  have heq := (Option.some.inj h₁).symm.trans (Option.some.inj h₂)
  exact absurd (Option.some.inj heq) (by decide)

/-- When both withdraw node 3, `m_dv` keeps 3 or 2 for it, by their order. -/
theorem withdrawals_ordered :
    ∃ n, run (step crossConfig) (doStart crossConfig 7) crossEvents = some n ∧
      KnownCosts crossConfig n ∧
      (∀ m ∈ [withdrawal₁, withdrawal₂],
        m.sender crossConfig ∈ n.neighborTable ∧ m.sender crossConfig ∈ n.costs) ∧
      ¬ OrderFree crossConfig n [withdrawal₁, withdrawal₂] := by
  obtain ⟨n, hn, hknown, hneighbors, h₁, h₂⟩ := cross_state
  exact ⟨n, hn, hknown, hneighbors, cross_not_orderFree h₁ h₂⟩

theorem orderFree_iff_withdrawals :
    ∃ n, run (step crossConfig) (doStart crossConfig 7) crossEvents = some n ∧
      ¬ OffersAgree crossConfig n [withdrawal₁, withdrawal₂] := by
  obtain ⟨n, hn, hknown, hneighbors, h₁, h₂⟩ := cross_state
  refine ⟨n, hn, fun hoffers => cross_not_orderFree h₁ h₂ ?_⟩
  exact (orderFree_iff crossConfig 7 crossEvents n _ hn hknown cross_distinct hneighbors).mpr hoffers

end Ns3Routing.Dv
