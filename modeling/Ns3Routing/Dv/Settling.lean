import Ns3Routing.Lib.Settling
import Ns3Routing.Dv.Host

/-! # Counting to infinity ends

When nothing but vectors arrives, every run of deliveries is finite, in
whatever order they arrive. Along an infinite run the cost of each
destination would be a family of values, one for each node, that is computed
from what was heard; `Lib.Settling` says that such values settle. A node whose
costs stay the same sends nothing, and then the messages in flight run
out. -/

namespace Ns3Routing.Dv

open Lib Filter Ns3Routing.Topology

/-! ## One node receives a vector -/

/-- `BellmanFord` sends something only when a cost has changed. -/
theorem bellmanFord_silent {cfg : NodeConfig} {ndv : DistanceVector} {n n' : Node} {out : Packets}
    (h : bellmanFord cfg ndv n = some (n', out))
    (same : ∀ D, DistanceVector.cost n'.dv D = DistanceVector.cost n.dv D) : out = [] := by
  obtain ⟨hrec, _⟩ := bellmanFord_spec h
  obtain ⟨st, hst, h⟩ := Option.bind_eq_some_iff.mp h
  have raised : st.sendDV = true → ∃ (D : String) (v : UInt32) (r : MinCost),
      (addUnknown n.dv ndv)[D]? = some v ∧ D ≠ cfg.thisNode ∧ findMinCost n D = some r ∧
        r.differs v = true := by
    refine foldlM_invariant (fun s : Sweep => s.sendDV = true → _) ?_ hst (fun hf => by cases hf)
    intro s i t hi ih hu hsend
    rcases updateDest_cases hu with ⟨_, _, hf, _⟩ | ⟨hne, r, hr, _, hf, _⟩
    · exact ih (hf ▸ hsend)
    · rw [hf, Bool.or_eq_true] at hsend
      rcases hsend with hs | hdiff
      · exact ih hs
      · exact ⟨i.1, i.2, r, mem_toList.mp hi, hne, hr, hdiff⟩
  dsimp only at h
  split at h
  · rename_i hsend
    obtain ⟨D, v, r, hv, hne, hr, hdiff⟩ := raised hsend
    obtain ⟨r', hr', hdv, _⟩ := hrec.dest D v hv hne
    obtain rfl := Option.some.inj (hr.symm.trans hr')
    rw [if_pos hdiff] at hdv
    have hcost := same D
    rw [← cost_addUnknown n.dv ndv, DistanceVector.cost, DistanceVector.cost, hdv, hv] at hcost
    simp only [Option.getD_some] at hcost
    simp [MinCost.differs, hcost] at hdiff
  · exact (Prod.mk.inj (Option.some.inj h)).2.symm

/-- What the neighbour `N` said last about `D`. -/
def heardCost (n : Node) (N D : String) : UInt32 :=
  DistanceVector.cost ((n.neighborTable[N]?.map (·.dv)).getD ∅) D

theorem findMinCost_le {n : Node} {dest : String} {r : MinCost} (h : findMinCost n dest = some r) :
    r.minCost ≤ mInf := (considerNeighbor_fold h).1

/-- `r` is the least cost to `D` over the neighbours in `m_costs`, with
everything above 16 left open. -/
structure LeastCost (n : Node) (D : String) (r : UInt32) : Prop where
  lower : ∀ N, N ∈ n.costs → r ≤ throughNeighbor 1 (heardCost n N D)
  attained : r ≤ 16 → ∃ N, N ∈ n.costs ∧ r = throughNeighbor 1 (heardCost n N D)

theorem Lists.heard {n : Node} {N D : String} {c v : UInt32} (h : Lists n N D c v) :
    heardCost n N D = v := by
  obtain ⟨_, e, he, hv⟩ := h
  simp [heardCost, he, DistanceVector.cost, hv]

theorem heardCost_cases {n : Node} {N : String} (D : String) {c : UInt32}
    (hc : n.costs[N]? = some c) : (∃ v, Lists n N D c v) ∨ heardCost n N D = mInf := by
  unfold heardCost DistanceVector.cost
  cases he : n.neighborTable[N]? with
  | none => right; simp
  | some e =>
    cases hv : e.dv[D]? with
    | none => right; simp [hv]
    | some v => exact Or.inl ⟨v, hc, e, he, hv⟩

theorem IsMinCost.leastCost {n : Node} {D : String} {r : MinCost} (hr : IsMinCost n D r)
    (hle : r.minCost ≤ mInf) (one : ∀ (N : String) c, n.costs[N]? = some c → c = 1) :
    LeastCost n D r.minCost := by
  refine ⟨fun N hN => ?_, fun h16 => ?_⟩
  · obtain ⟨c, hc⟩ := mem_iff_getElem?.mp hN
    rcases heardCost_cases D hc with ⟨v, hl⟩ | hinf
    · rw [hl.heard, ← one N c hc]
      exact hr.lower hl
    · rw [hinf]
      exact hle
  · rcases hr.attained with hinf | ⟨c, v, hl, hm⟩
    · rw [hinf] at h16
      exact absurd h16 (by decide)
    · refine ⟨r.nextHop, mem_iff_getElem?.mpr ⟨c, hl.1⟩, ?_⟩
      rw [hl.heard, ← one _ c hl.1]
      exact hm

/-- What the arrival of the vector `w` from `K` does to a node. -/
structure HearsVector (cfg : NodeConfig) (n : Node) (K : String) (w : List (Ipv4Address × UInt32))
    (n' : Node) (out : Packets) : Prop where
  costs : n'.costs = n.costs
  heard : ∀ N D, heardCost n' N D =
    if K = N then DistanceVector.cost (receivedVector cfg w) D else heardCost n N D
  least : ∀ D, D ≠ cfg.thisNode → ∃ r, LeastCost n' D r ∧
    DistanceVector.cost n'.dv D = if r ≤ 16 then r else DistanceVector.cost n.dv D
  rounds : ∃ rounds : List UInt32, out = rounds.flatMap (dvRound cfg n')
  silent : (∀ D, DistanceVector.cost n'.dv D = DistanceVector.cost n.dv D) → out = []

theorem LeastCost.congr {n n' : Node} {D : String} {r : UInt32} (h : LeastCost n D r)
    (hc : n'.costs = n.costs) (ht : n'.neighborTable = n.neighborTable) : LeastCost n' D r := by
  have hheard : ∀ N, heardCost n' N D = heardCost n N D := by
    intro N
    rw [heardCost, heardCost, ht]
  refine ⟨?_, ?_⟩
  · intro N hN
    rw [hheard]
    exact h.lower N (hc ▸ hN)
  · intro h16
    obtain ⟨N, hN, hr⟩ := h.attained h16
    exact ⟨N, hc ▸ hN, by rw [hheard]; exact hr⟩

theorem storeVector_heardCost (cfg : NodeConfig) (now socket : ℕ) (a : Ipv4Address)
    (newdv : DistanceVector) (n : Node) (N D : String) :
    heardCost (storeVector cfg now socket a newdv n) N D =
      if cfg.reverseLookup a = N then DistanceVector.cost newdv D else heardCost n N D := by
  obtain ⟨entry, hdv, _, hget⟩ := storeVector_entry cfg now socket a newdv n N
  unfold heardCost
  rw [hget]
  split
  · simp [hdv]
  · rfl

/-- A destination is unknown after `BellmanFord` only when nobody lists it. -/
theorem leastCost_unknown {cfg : NodeConfig} {m : Node} {known : DistanceVector} {D : String}
    (hT : TablesInv cfg m known) (hD : known[D]? = none) : LeastCost m D mInf := by
  refine ⟨?_, fun h16 => absurd h16 (by decide)⟩
  intro N hN
  obtain ⟨c, hc⟩ := mem_iff_getElem?.mp hN
  rcases heardCost_cases D hc with ⟨v, _, e, he, hv⟩ | hinf
  · have hmem := hT.listed N e D he (mem_iff_getElem?.mpr ⟨v, hv⟩)
    obtain ⟨v', hv'⟩ := mem_iff_getElem?.mp hmem
    rw [hD] at hv'
    cases hv'
  · rw [hinf]
    exact UInt32.le_refl _

theorem payload_of_vector? {m : DVMessage} {w : List (Ipv4Address × UInt32)}
    (h : m.vector? = some w) : m.payload = .dvTableMsg w := by
  unfold DVMessage.vector? at h
  split at h
  · rename_i hp
    rw [hp, Option.some.inj h]
  · cases h

theorem handle_vector {cfg : NodeConfig} {n n' : Node} {now socket : ℕ} {m : DVMessage}
    {w : List (Ipv4Address × UInt32)} {out : Packets} (hI : Inv cfg n) (hw : m.vector? = some w)
    (h : handle cfg n (.recv now socket m) = some (n', out)) :
    HearsVector cfg n (cfg.reverseLookup m.originatorAddress) w n' out := by
  have hp := payload_of_vector? hw
  simp only [handle, recvDVMessage, hp, processDVTableMessage, DVMessage.neighborCosts] at h
  obtain ⟨hrec, hsent⟩ := bellmanFord_spec h
  have hT : TablesInv cfg (storeVector cfg now socket m.originatorAddress (receivedVector cfg w) n)
      (addUnknown n.dv (receivedVector cfg w)) := storeVector_tablesInv hI.tables
  refine ⟨hrec.costs, ?_, ?_, ?_, fun same => bellmanFord_silent h same⟩
  · intro N D
    rw [← storeVector_heardCost cfg now socket, heardCost, hrec.neighborTable]
    rfl
  · intro D hD
    cases hv : (addUnknown n.dv (receivedVector cfg w))[D]? with
    | none =>
      refine ⟨mInf, (leastCost_unknown hT hv).congr hrec.costs hrec.neighborTable, ?_⟩
      rw [if_neg (by decide), ← cost_addUnknown n.dv (receivedVector cfg w), DistanceVector.cost,
        DistanceVector.cost, hv, (hrec.unknown D hv).1]
    | some v =>
      obtain ⟨r, hr, hdv, _⟩ := hrec.dest D v hv hD
      have hmin := findMinCost_spec hr
      refine ⟨r.minCost, (hmin.leastCost (findMinCost_le hr) hT.costsOne).congr hrec.costs
        hrec.neighborTable, ?_⟩
      rw [← cost_addUnknown n.dv (receivedVector cfg w), DistanceVector.cost,
        DistanceVector.cost, hv, hdv]
      simp only [Option.getD_some]
      by_cases h16 : r.minCost ≤ 16
      · rw [if_pos h16]
        exact hmin.stored h16 v
      · rw [if_neg h16, if_neg]
        simp [MinCost.differs, h16]
  · rcases hsent with ⟨rfl, _⟩ | rfl
    · exact ⟨[], rfl⟩
    · exact ⟨[_], by simp; rfl⟩

/-! ## A step of the network -/

section Step
variable {T : Topology} {s s' : HostNet T}

/-- A vector in flight arrives: its receiver runs `ProcessDVTableMessage`, and
what that sends is in flight afterwards. -/
def DeliversVector (s s' : HostNet T) : Prop :=
  ∃ p k now m neighborCosts, (s.chan p)[k]? = some (.control m) ∧
    m.payload = .dvTableMsg neighborCosts ∧ faultyStep dvHost s (.deliver p k now) = some s'

theorem DeliversVector.named (h : DeliversVector s s') (hN : HostsNamed T s) : HostsNamed T s' := by
  obtain ⟨p, k, now, m, neighborCosts, _, _, hst⟩ := h
  exact hN.step hst

/-- The arrival of the vector `w`, the `k`-th message on `p`: the link is down,
or the other end hears it. -/
inductive Heard (s : HostNet T) (p : T.Port) (k : ℕ) (w : List (Ipv4Address × UInt32)) :
    HostNet T → Prop where
  | lost : Heard s p k w (s.take p k)
  | heard {n' : Node} {out : Packets} (named : NodeNamed T (T.owner (peer p)) n')
      (hears : HearsVector (T.config (T.owner (peer p))) (s.node (T.owner (peer p))).control
        (T.name (T.owner p)) w n' out) :
      Heard s p k w ((s.take p k).apply (T.owner (peer p))
        ({ s.node (T.owner (peer p)) with control := n' }, controlPackets out))

theorem DeliversVector.heard (h : DeliversVector s s') (hN : HostsNamed T s) :
    ∃ p k m w, (s.chan p)[k]? = some (.control m) ∧ m.vector? = some w ∧ Heard s p k w s' := by
  obtain ⟨p, k, now, m, w, hk, hp, hst⟩ := h
  have hw := vector?_dvTable hp
  refine ⟨p, k, m, w, hk, hw, ?_⟩
  simp only [faultyStep, hk] at hst
  split at hst
  · obtain ⟨res, hres, rfl⟩ := Option.map_eq_some_iff.mp hst
    obtain ⟨⟨n', out⟩, hh, rfl⟩ := Option.map_eq_some_iff.mp hres
    have hm : MsgFrom T (T.owner p) m := hN.msg p _ (List.mem_of_getElem? hk)
    have hv : ValidEvent T (T.owner (peer p)) (.recv now (T.socket (peer p)) m) :=
      ⟨peer p, rfl, rfl, by rw [peer_peer]; exact hm⟩
    have hn := hN.node (T.owner (peer p))
    refine .heard (hn.handle hv hh) ?_
    have hhears := handle_vector hn.inv hw hh
    rwa [hm.1, reverseLookup_main] at hhears
  · obtain rfl := Option.some.inj hst
    exact .lost

/-- The vector of a message of a node. -/
def hostVector? : HostMessage DVMessage → Option (List (Ipv4Address × UInt32))
  | .control m => m.vector?
  | .pingReq _ | .pingRsp _ => none

/-- What the vectors among `msgs` say about `D`, as node `u` reads them. -/
def told (T : Topology) (u : Fin T.size) (D : String) (msgs : List (HostMessage DVMessage)) :
    Multiset ℕ :=
  (msgs.filterMap fun m => (hostVector? m).map fun w =>
    (DistanceVector.cost (receivedVector (T.config u) w) D).toNat : List ℕ)

variable {u : Fin T.size} {D : String}

theorem told_append (msgs msgs' : List (HostMessage DVMessage)) :
    told T u D (msgs ++ msgs') = told T u D msgs + told T u D msgs' := by
  unfold told
  rw [List.filterMap_append, Multiset.coe_add]

theorem told_eraseIdx_le (msgs : List (HostMessage DVMessage)) (k : ℕ) :
    told T u D (msgs.eraseIdx k) ≤ told T u D msgs :=
  ((List.eraseIdx_sublist msgs k).filterMap _).subperm

theorem told_eraseIdx {msgs : List (HostMessage DVMessage)} {k : ℕ} {m : DVMessage}
    {w : List (Ipv4Address × UInt32)} (hk : msgs[k]? = some (.control m)) (hw : m.vector? = some w) :
    told T u D msgs = (DistanceVector.cost (receivedVector (T.config u) w) D).toNat ::ₘ
      told T u D (msgs.eraseIdx k) := by
  obtain ⟨hlt, hk⟩ := List.getElem?_eq_some_iff.mp hk
  have hperm := List.getElem_cons_eraseIdx_perm hlt
  rw [hk] at hperm
  unfold told
  rw [← Multiset.coe_eq_coe.mpr (hperm.filterMap _), List.filterMap_cons]
  simp [hostVector?, hw]

theorem onPort_controlPackets {M : Type} (i : Fin T.size) (out : List (Ipv4Address × M))
    (q : T.Port) : Net.onPort T i (controlPackets out) q = (Net.onPort T i out q).map .control := by
  unfold Net.onPort controlPackets
  split
  · rw [List.filterMap_map, List.map_filterMap]
    refine List.filterMap_congr fun x _ => ?_
    by_cases hx : x.1 = T.address q <;> simp [hx]
  · rfl

/-- What a node says about `D` on a link is its own cost, unless the link
leads to `D`. -/
theorem told_rounds {n : Node} {q : T.Port} (h : NodeNamed T (T.owner q) n)
    (hu : T.owner (peer q) = u) (hD : D ≠ T.name u) (rounds : List UInt32) :
    ∀ c ∈ told T u D (Net.onPort T (T.owner q)
      (controlPackets (rounds.flatMap (dvRound (T.config (T.owner q)) n))) q),
      c = (DistanceVector.cost n.dv D).toNat := by
  intro c hc
  rw [onPort_controlPackets, Net.onPort_flatMap] at hc
  obtain ⟨_, hmsg, hc⟩ := List.mem_filterMap.mp (Multiset.mem_coe.mp hc)
  obtain ⟨m, hround, rfl⟩ := List.mem_map.mp hmsg
  obtain ⟨sequenceNumber, _, hm⟩ := List.mem_flatMap.mp hround
  by_cases hs : ∃ e, StoredAt T n q e
  · obtain ⟨e, he⟩ := hs
    rw [onPort_dvRound h he, List.mem_singleton] at hm
    obtain ⟨_, hentry, _⟩ := he
    obtain ⟨q', _, hname, haddr, _⟩ := h.entry _ e hentry
    subst hm
    obtain rfl := Option.some.inj hc
    dsimp only [DistanceVector.cost]
    rw [receivedVector_vectorFor]
    · intro K v hK
      obtain ⟨j, rfl⟩ := h.dvKeys K v hK
      rw [resolveName_name, reverseLookup_main]
    · rw [haddr, reverseLookup_main, ← hname, hu]
      exact hD
  · rw [onPort_dvRound_none h (not_exists.mp hs)] at hm
    cases hm

/-! ### What it does to costs, to what is stored and to what is in flight -/

variable {p : T.Port} {k : ℕ} {m : DVMessage} {w : List (Ipv4Address × UInt32)}

theorem take_chan_ne {q : T.Port} (hq : q ≠ p) : (s.take p k).chan q = s.chan q := by
  simp [FaultyNet.take, FaultyNet.setChan, hq]

theorem take_chan_self : (s.take p k).chan p = (s.chan p).eraseIdx k := by
  simp [FaultyNet.take, FaultyNet.setChan]

/-- Only the receiver changes. -/
theorem Heard.others (h : Heard s p k w s') {i : Fin T.size} (hi : i ≠ T.owner (peer p)) :
    s'.node i = s.node i := by
  cases h with
  | lost => rfl
  | heard named hears => simp [FaultyNet.apply, FaultyNet.take, FaultyNet.setChan, hi]

/-- The receiver of a vector that was not lost. -/
theorem Heard.receiver (h : Heard s p k w s') : s'.node (T.owner (peer p)) = s.node (T.owner (peer p)) ∨
    ∃ out, HearsVector (T.config (T.owner (peer p))) (s.node (T.owner (peer p))).control
      (T.name (T.owner p)) w (s'.node (T.owner (peer p))).control out := by
  cases h with
  | lost => exact Or.inl rfl
  | @heard n' out named hears =>
    refine Or.inr ⟨out, ?_⟩
    simpa [FaultyNet.apply] using hears

theorem Heard.costs (h : Heard s p k w s') (i : Fin T.size) :
    (s'.node i).control.costs = (s.node i).control.costs := by
  by_cases hi : i = T.owner (peer p)
  · subst hi
    rcases h.receiver with hsame | ⟨_, hears⟩
    · rw [hsame]
    · exact hears.costs
  · rw [h.others hi]

/-- What is said on a link after the step was said before, or is what its
owner has now. -/
theorem Heard.chan (h : Heard s p k w s') {q : T.Port} (hu : T.owner (peer q) = u)
    (hD : D ≠ T.name u) : ∃ new : Multiset ℕ,
      (∀ c ∈ new, c = (DistanceVector.cost (s'.node (T.owner q)).control.dv D).toNat) ∧
      told T u D (s'.chan q) = told T u D ((s.take p k).chan q) + new := by
  cases h with
  | lost => exact ⟨0, by simp, by simp⟩
  | @heard n' out named hears =>
    refine ⟨told T u D (if s.up q.1 then Net.onPort T (T.owner (peer p)) (controlPackets out) q
      else []), ?_, told_append _ _⟩
    intro c hc
    split at hc
    · obtain ⟨rounds, rfl⟩ := hears.rounds
      by_cases howner : T.owner q = T.owner (peer p)
      · rw [← howner] at hc named
        rw [told_rounds named hu hD rounds c hc, howner]
        simp [FaultyNet.apply]
      · rw [Net.onPort_other howner] at hc
        cases hc
    · cases hc

/-- A step whose receiver keeps its costs sends nothing. -/
theorem Heard.inFlight (h : Heard s p k w s') (hk : (s.chan p)[k]? = some (.control m))
    (same : ∀ D, DistanceVector.cost (s'.node (T.owner (peer p))).control.dv D =
      DistanceVector.cost (s.node (T.owner (peer p))).control.dv D) : s'.inFlight < s.inFlight := by
  cases h with
  | lost => exact inFlight_take hk
  | @heard n' out named hears =>
    have hout : out = [] := by
      refine hears.silent fun D => ?_
      simpa [FaultyNet.apply] using same D
    subst hout
    rw [controlPackets, List.map_nil, inFlight_apply_nil]
    exact inFlight_take hk

end Step

/-! ## Runs of deliveries -/

/-- `throughNeighbor` for a neighbour at cost 1. -/
def offer (c : ℕ) : ℕ := if c < 2147483646 then c + 1 else c

theorem toNat_throughNeighbor (v : UInt32) : (throughNeighbor 1 v).toNat = offer v.toNat := by
  have hlt : v < mInf - 1 ↔ v.toNat < 2147483646 := by
    rw [UInt32.lt_iff_toNat_lt]
    rfl
  unfold throughNeighbor offer
  by_cases h : v.toNat < 2147483646
  · rw [if_pos (hlt.mpr h), if_pos h, UInt32.toNat_add]
    have : (1 : UInt32).toNat = 1 := rfl
    omega
  · rw [if_neg (mt hlt.mp h), if_neg h]

theorem lt_offer (c : ℕ) (h : offer c ≤ 16) : c < offer c := by
  unfold offer at *
  split_ifs at * <;> omega

section Runs
variable {T : Topology} {f : ℕ → HostNet T}

/-- A run of deliveries, with no end. -/
structure Endless (f : ℕ → HostNet T) : Prop where
  named : ∀ t, HostsNamed T (f t)
  step : ∀ t, ∃ p k m w, ((f t).chan p)[k]? = some (.control m) ∧ m.vector? = some w ∧
    Heard (f t) p k w (f (t + 1))

theorem Endless.of_delivers (h0 : HostsNamed T (f 0)) (h : ∀ t, DeliversVector (f t) (f (t + 1))) :
    Endless f := by
  have named : ∀ t, HostsNamed T (f t) := by
    intro t
    induction t with
    | zero => exact h0
    | succ t ih => exact (h t).named ih
  exact ⟨named, fun t => (h t).heard (named t)⟩

/-- The cost of `D` at node `v`. -/
def costAt (f : ℕ → HostNet T) (D : Fin T.size) (t : ℕ) (v : Fin T.size) : ℕ :=
  (DistanceVector.cost ((f t).node v).control.dv (T.name D)).toNat

/-- What `w` has told `u` about `D`. -/
def heardAt (f : ℕ → HostNet T) (u D : Fin T.size) (t : ℕ) (w : Fin T.size) : ℕ :=
  (heardCost ((f t).node u).control (T.name w) (T.name D)).toNat

/-- What is on its way to `u` about `D`. -/
def toldAt (f : ℕ → HostNet T) (u D : Fin T.size) (t : ℕ) (q : { q : T.Port // T.owner (peer q) = u }) :
    Multiset ℕ :=
  told T u (T.name D) ((f t).chan q)

theorem Endless.costs (h : Endless f) (t : ℕ) (u : Fin T.size) :
    ((f t).node u).control.costs = ((f 0).node u).control.costs := by
  induction t with
  | zero => rfl
  | succ t ih =>
    obtain ⟨p, k, m, w, _, _, hheard⟩ := h.step t
    exact (hheard.costs u).trans ih

theorem Endless.receives (h : Endless f) {u D : Fin T.size} (hu : u ≠ D) :
    Receives (costAt f D) (fun q : { q : T.Port // T.owner (peer q) = u } => T.owner q.1)
      (toldAt f u D) (heardAt f u D) := by
  have hD : T.name D ≠ T.name u := fun he => hu (name_inj.mp he).symm
  refine ⟨fun t q => ?_, fun t w => ?_⟩
  · obtain ⟨p, k, m, w, _, _, hheard⟩ := h.step t
    obtain ⟨new, hnew, hchan⟩ := hheard.chan q.2 hD
    refine ⟨_, new, hnew, ?_, hchan⟩
    by_cases hq : q.1 = p
    · rw [toldAt, hq, take_chan_self]
      exact told_eraseIdx_le _ _
    · rw [toldAt, take_chan_ne hq]
  · obtain ⟨p, k, m, v, hk, hv, hheard⟩ := h.step t
    by_cases hp : T.owner (peer p) = u
    · subst hp
      rcases hheard.receiver with hsame | ⟨out, hears⟩
      · exact Or.inl (by rw [heardAt, heardAt, hsame])
      · by_cases hw : w = T.owner p
        · subst hw
          obtain ⟨new, hnew, hchan⟩ := hheard.chan (q := p) rfl hD
          refine Or.inr ⟨⟨p, rfl⟩, _, new, rfl, hnew, ?_, hchan⟩
          rw [take_chan_self, heardAt, hears.heard, if_pos rfl]
          exact told_eraseIdx hk hv
        · refine Or.inl ?_
          rw [heardAt, hears.heard, if_neg fun he => hw (name_inj.mp he).symm]
          rfl
    · exact Or.inl (by rw [heardAt, heardAt, hheard.others (Ne.symm hp)])

/-- The neighbours of `u`. -/
def neighborsAt (f : ℕ → HostNet T) (u : Fin T.size) : Set (Fin T.size) :=
  { w | T.name w ∈ ((f 0).node u).control.costs }

theorem Endless.relaxes (h : Endless f) {u D : Fin T.size} (hu : u ≠ D) :
    Relaxes offer 16 (neighborsAt f u) (costAt f D) (heardAt f u D) u := by
  intro t
  obtain ⟨p, k, m, v, hk, hv, hheard⟩ := h.step t
  by_cases hp : T.owner (peer p) = u
  · subst hp
    rcases hheard.receiver with hsame | ⟨out, hears⟩
    · left
      refine ⟨by rw [costAt, costAt, hsame], funext fun w => ?_⟩
      rw [heardAt, heardAt, hsame]
    · right
      obtain ⟨r, hr, hcost⟩ := hears.least (T.name D) fun he => hu (by
        rw [thisNode_eq, name_inj] at he
        exact he.symm)
      have h16 : r ≤ 16 ↔ r.toNat ≤ 16 := UInt32.le_iff_toNat_le
      refine ⟨r.toNat, ⟨?_, ?_⟩, ?_⟩
      · intro w hw
        rw [heardAt, ← toNat_throughNeighbor, ← UInt32.le_iff_toNat_le]
        refine hr.lower _ ?_
        rw [h.costs]
        exact hw
      · intro hle
        obtain ⟨N, hN, heq⟩ := hr.attained (h16.mpr hle)
        obtain ⟨c, hc⟩ := mem_iff_getElem?.mp hN
        have hnamed := (h.named (t + 1)).node (T.owner (peer p))
        obtain ⟨e, he⟩ := hnamed.inv.tables.costsEntry N c hc
        obtain ⟨q, _, rfl, _⟩ := hnamed.entry N e he
        refine ⟨T.owner (peer q), ?_, ?_⟩
        · rw [h.costs] at hN
          exact hN
        · rw [heardAt, ← toNat_throughNeighbor, ← heq]
      · simp only [costAt, hcost, h16]
        split <;> rfl
  · left
    have hsame := hheard.others (Ne.symm hp)
    refine ⟨by rw [costAt, costAt, hsame], funext fun w => ?_⟩
    rw [heardAt, heardAt, hsame]

/-- The cost of a node to itself is 0. -/
theorem Endless.self (h : Endless f) (D : Fin T.size) (t : ℕ) : costAt f D t D = 0 := by
  have := ((h.named t).node D).self
  simp [costAt, DistanceVector.cost, this]

/-- **Costs settle** along every run of deliveries. -/
theorem Endless.settles (h : Endless f) (D : Fin T.size) :
    ∀ᶠ t in atTop, ∀ v, costAt f D (t + 1) v = costAt f D t v := by
  refine eventually_settled (b := 16) ?_ ?_
  · intro t v hne
    by_cases hv : v = D
    · rw [hv, h.self, h.self] at hne
      exact absurd rfl hne
    · rcases h.relaxes hv t with ⟨hsame, _⟩ | ⟨r, _, hcost⟩
      · exact absurd hsame hne
      · split at hcost
        · rw [hcost]
          assumption
        · exact absurd hcost hne
  · intro m t₀ hm hsettled v
    by_cases hv : v = D
    · subst hv
      refine Eventually.of_forall fun t hne => ?_
      rw [h.self, h.self] at hne
      exact absurd rfl hne
    · obtain ⟨t₁, hheard⟩ := (h.receives hv).settledBelow hsettled
      exact (h.relaxes hv).sticky lt_offer hm hheard

theorem Endless.cost_unknown (h : Endless f) (t : ℕ) (v : Fin T.size) {D : String}
    (hD : ¬ ∃ j, D = T.name j) : DistanceVector.cost ((f t).node v).control.dv D = mInf := by
  unfold DistanceVector.cost
  cases hv : ((f t).node v).control.dv[D]? with
  | none => rfl
  | some c => exact absurd (((h.named t).node v).dvKeys D c hv) hD

/-- No run of deliveries goes on for ever. -/
theorem Endless.elim (h : Endless f) : False := by
  have settled : ∀ᶠ t in atTop, ∀ D v, costAt f D (t + 1) v = costAt f D t v :=
    eventually_all.mpr h.settles
  have falls : ∀ᶠ t in atTop, (f (t + 1)).inFlight < (f t).inFlight := by
    filter_upwards [settled] with t ht
    obtain ⟨p, k, m, w, hk, _, hheard⟩ := h.step t
    refine hheard.inFlight hk fun D => ?_
    by_cases hD : ∃ j, D = T.name j
    · obtain ⟨j, rfl⟩ := hD
      exact UInt32.toNat_inj.mp (ht j _)
    · rw [h.cost_unknown (t + 1) _ hD, h.cost_unknown t _ hD]
  have const := eventually_const_of_antitone (f := fun t => (f t).inFlight)
    (falls.mono fun _ => Nat.le_of_lt)
  obtain ⟨t, hlt, heq⟩ := (falls.and const).exists
  omega

end Runs

/-- **Counting to infinity ends**: from every state of every run, there is no
infinite sequence of deliveries of vectors. -/
theorem deliveries_end (T : Topology) (s : HostNet T) (h : Reachable T s) :
    Acc (fun s' s => DeliversVector s s') s := by
  by_contra hacc
  obtain ⟨f, rfl, hf⟩ := not_acc_iff_exists_descending_chain.mp hacc
  exact (Endless.of_delivers h.named hf).elim

/-- On the line, nodes 0 and 1 hear each other's hello; then the vector of
node 1 is in flight and can be delivered. -/
theorem deliveries_end_line : ∃ s s' : HostNet lineTopology, Reachable lineTopology s ∧
    DeliversVector s s' ∧ Acc (fun s' s => DeliversVector s s') s := by
  have hrun : ((run (faultyStep dvHost) (hostsStart lineTopology (fun _ => 7) fun _ => 2000)
      [.act (lineNode 1) (.control (.auditHellos 1)), .act (lineNode 0) (.control (.auditHellos 1)),
        .deliver (linePort 0 false) 0 2, .deliver (linePort 0 true) 0 3]).bind fun s =>
      (((s.chan (linePort 0 true))[0]?.bind hostVector?).bind fun _ =>
        faultyStep dvHost s (.deliver (linePort 0 true) 0 4)).map fun _ => true) = some true := by
    decide +kernel
  obtain ⟨s, hs, hres⟩ := Option.bind_eq_some_iff.mp hrun
  obtain ⟨s', hstep, _⟩ := Option.map_eq_some_iff.mp hres
  obtain ⟨w, hw, hstep⟩ := Option.bind_eq_some_iff.mp hstep
  obtain ⟨m, hm, hw⟩ := Option.bind_eq_some_iff.mp hw
  have hreach : Reachable lineTopology s := ⟨_, _, _, hs⟩
  refine ⟨s, s', hreach, ?_, deliveries_end lineTopology s hreach⟩
  cases m with
  | control m => exact ⟨_, 0, 4, m, w, hm, payload_of_vector? hw, hstep⟩
  | pingReq m => cases hw
  | pingRsp m => cases hw

end Ns3Routing.Dv
