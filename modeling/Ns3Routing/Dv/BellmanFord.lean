import Ns3Routing.Dv.Protocol
import Ns3Routing.Lib.OptionFold

/-! # What `BellmanFord` computes

The loops of `BellmanFord`, from the inside out: one neighbour
(`considerNeighbor_cases`), all neighbours for one destination
(`findMinCost_spec`), one destination (`updateDest_cases`), and the whole
function (`bellmanFord_spec`). The spec of the whole function is what the
handlers use; nothing after this module unfolds a loop. -/

namespace Ns3Routing.Dv

open Lib

/-- `N` is in `m_costs` at cost `c`, and the vector stored for it has `D` at
`v`. -/
def Lists (n : Node) (N D : String) (c v : UInt32) : Prop :=
  n.costs[N]? = some c ∧ ∃ e, n.neighborTable[N]? = some e ∧ e.dv[D]? = some v

theorem lists_congr {n n' : Node} (hc : n'.costs = n.costs)
    (ht : n'.neighborTable = n.neighborTable) {N D : String} {c v : UInt32} :
    Lists n' N D c v ↔ Lists n N D c v := by
  unfold Lists; rw [hc, ht]

/-! ## All neighbours for one destination -/

theorem considerNeighbor_cases {n : Node} {dest : String} {acc r : MinCost} {j : String × UInt32}
    (h : considerNeighbor n dest acc j = some r) :
    ∃ e, n.neighborTable[j.1]? = some e ∧
      ((e.dv[dest]? = none ∧ r = acc) ∨
        ∃ v, e.dv[dest]? = some v ∧ r.updatedValue = true ∧
          ((throughNeighbor j.2 v < acc.minCost ∧ r.minCost = throughNeighbor j.2 v ∧
              r.nextHop = j.1) ∨
            (acc.minCost ≤ throughNeighbor j.2 v ∧ r.minCost = acc.minCost ∧
              r.nextHop = acc.nextHop))) := by
  unfold considerNeighbor at h
  obtain ⟨e, he, h⟩ := Option.bind_eq_some_iff.mp h
  refine ⟨e, he, ?_⟩
  split at h
  · rename_i hempty
    have hn : e.dv = ∅ := Std.ExtTreeMap.isEmpty_iff.mp hempty
    exact Or.inl ⟨by simp [hn], (Option.some.inj h).symm⟩
  · split at h
    · rename_i hd
      exact Or.inl ⟨hd, (Option.some.inj h).symm⟩
    · rename_i v hd
      refine Or.inr ⟨v, hd, ?_⟩
      dsimp only at h
      split at h
      · rename_i hlt
        obtain rfl := Option.some.inj h
        simp only [true_and, and_true]
        exact Or.inl hlt
      · rename_i hge
        obtain rfl := Option.some.inj h
        simp only [true_and, and_true]
        exact Or.inr (UInt32.not_lt.mp hge)

/-- The accumulator after a list of neighbours: a lower bound of their offers
and of where it started, set iff one of them lists the destination, and
attained. -/
theorem considerNeighbor_fold {n : Node} {dest : String} {l : List (String × UInt32)}
    {acc r : MinCost} (h : l.foldlM (considerNeighbor n dest) acc = some r) :
    r.minCost ≤ acc.minCost ∧
      (∀ j ∈ l, ∀ e v, n.neighborTable[j.1]? = some e → e.dv[dest]? = some v →
        r.minCost ≤ throughNeighbor j.2 v) ∧
      (r.updatedValue = true ↔ acc.updatedValue = true ∨
        ∃ j ∈ l, ∃ e v, n.neighborTable[j.1]? = some e ∧ e.dv[dest]? = some v) ∧
      ((r.minCost = acc.minCost ∧ r.nextHop = acc.nextHop) ∨
        ∃ j ∈ l, ∃ e v, n.neighborTable[j.1]? = some e ∧ e.dv[dest]? = some v ∧
          r.minCost = throughNeighbor j.2 v ∧ r.nextHop = j.1) := by
  induction l generalizing acc with
  | nil => cases h; simp
  | cons j l ih =>
    obtain ⟨a, ha, hl⟩ := foldlM_cons_some h
    obtain ⟨hle, hlow, hup, hatt⟩ := ih hl
    obtain ⟨e, he, ⟨hd, rfl⟩ | ⟨v, hd, hu, hc⟩⟩ := considerNeighbor_cases ha
    · -- `j` does not list the destination: nothing changed
      have hno : ∀ e' v, n.neighborTable[j.1]? = some e' → e'.dv[dest]? ≠ some v := by
        intro e' v he' hv
        rw [he] at he'; cases he'; rw [hd] at hv; cases hv
      refine ⟨hle, ?_, ?_, ?_⟩
      · intro k hk e' v he' hv
        rcases List.mem_cons.mp hk with rfl | hk
        · exact absurd hv (hno e' v he')
        · exact hlow k hk e' v he' hv
      · rw [hup]
        constructor
        · rintro (h | ⟨k, hk, hv⟩)
          · exact Or.inl h
          · exact Or.inr ⟨k, List.mem_cons_of_mem _ hk, hv⟩
        · rintro (h | ⟨k, hk, e', v, he', hv⟩)
          · exact Or.inl h
          · rcases List.mem_cons.mp hk with rfl | hk
            · exact absurd hv (hno e' v he')
            · exact Or.inr ⟨k, hk, e', v, he', hv⟩
      · rcases hatt with hatt | ⟨k, hk, hv⟩
        · exact Or.inl hatt
        · exact Or.inr ⟨k, List.mem_cons_of_mem _ hk, hv⟩
    · have hjle : a.minCost ≤ throughNeighbor j.2 v ∧ a.minCost ≤ acc.minCost := by
        rcases hc with ⟨hlt, hm, _⟩ | ⟨hge, hm, _⟩
        · rw [hm]; exact ⟨UInt32.le_refl _, UInt32.le_of_lt hlt⟩
        · rw [hm]; exact ⟨hge, UInt32.le_refl _⟩
      refine ⟨UInt32.le_trans hle hjle.2, ?_, ?_, ?_⟩
      · intro k hk e' w he' hw
        rcases List.mem_cons.mp hk with rfl | hk
        · rw [he] at he'; cases he'; rw [hd] at hw; cases hw
          exact UInt32.le_trans hle hjle.1
        · exact hlow k hk e' w he' hw
      · exact iff_of_true (hup.mpr (Or.inl hu)) (Or.inr ⟨j, List.mem_cons_self, e, v, he, hd⟩)
      · rcases hatt with ⟨hm, hn⟩ | ⟨k, hk, hv⟩
        · rcases hc with ⟨_, hm', hn'⟩ | ⟨_, hm', hn'⟩
          · exact Or.inr ⟨j, List.mem_cons_self, e, v, he, hd, hm.trans hm', hn.trans hn'⟩
          · exact Or.inl ⟨hm.trans hm', hn.trans hn'⟩
        · exact Or.inr ⟨k, List.mem_cons_of_mem _ hk, hv⟩

/-- The least cost to a destination: a lower bound of every offer, found iff
there is an offer, and attained by the recorded next hop unless infinite. -/
structure IsMinCost (n : Node) (dest : String) (r : MinCost) : Prop where
  lower : ∀ {N c v}, Lists n N dest c v → r.minCost ≤ throughNeighbor c v
  updated : r.updatedValue = true ↔ ∃ N c v, Lists n N dest c v
  attained : r.minCost = mInf ∨
    ∃ c v, Lists n r.nextHop dest c v ∧ r.minCost = throughNeighbor c v

theorem findMinCost_spec {n : Node} {dest : String} {r : MinCost}
    (h : findMinCost n dest = some r) : IsMinCost n dest r := by
  obtain ⟨_, hlow, hup, hatt⟩ := considerNeighbor_fold h
  refine ⟨?_, ?_, ?_⟩
  · intro N c v hx
    obtain ⟨hN, e, he, hv⟩ := hx
    exact hlow (N, c) (mem_toList.mpr hN) e v he hv
  · rw [hup]
    constructor
    · rintro (h | ⟨⟨N, c⟩, hj, e, v, he, hv⟩)
      · cases h
      · exact ⟨N, c, v, mem_toList.mp hj, e, he, hv⟩
    · intro hx
      obtain ⟨N, c, v, hN, e, he, hv⟩ := hx
      exact Or.inr ⟨(N, c), mem_toList.mpr hN, e, v, he, hv⟩
  · rcases hatt with ⟨hm, _⟩ | ⟨⟨N, c⟩, hj, e, v, he, hv, hm, hn⟩
    · exact Or.inl hm
    · exact Or.inr ⟨c, v, ⟨hn ▸ mem_toList.mp hj, e, hn ▸ he, hv⟩, hm⟩

/-- A minimum of at most 16 hops is what `m_dv` has afterwards. -/
theorem IsMinCost.stored {n : Node} {dest : String} {r : MinCost} (hr : IsMinCost n dest r)
    (h : r.minCost ≤ 16) (old : UInt32) : (if r.differs old then r.minCost else old) = r.minCost := by
  have hup : r.updatedValue = true := by
    rcases hr.attained with hinf | ⟨c, v, hl, _⟩
    · rw [hinf] at h; exact absurd h (by decide)
    · exact hr.updated.mpr ⟨_, c, v, hl⟩
  by_cases hold : r.minCost = old
  · simp [hold]
  · simp [MinCost.differs, hup, hold, h]

theorem considerNeighbor_exists {n : Node} (dest : String) (acc : MinCost) {j : String × UInt32}
    {e : NeighborTableEntry} (he : n.neighborTable[j.1]? = some e) :
    ∃ acc', considerNeighbor n dest acc j = some acc' := by
  unfold considerNeighbor
  simp only [he, Option.bind_eq_bind, Option.bind_some]
  split
  · exact ⟨_, rfl⟩
  · split
    · exact ⟨_, rfl⟩
    · split <;> exact ⟨_, rfl⟩

/-- The search is defined when every neighbour of `m_costs` has an entry. -/
theorem findMinCost_exists {n : Node} (dest : String)
    (h : ∀ (N : String) (c : UInt32), n.costs[N]? = some c → ∃ e, n.neighborTable[N]? = some e) :
    ∃ r, findMinCost n dest = some r := by
  have step : ∀ acc, ∀ j ∈ n.costs.toList, True →
      ∃ acc', considerNeighbor n dest acc j = some acc' ∧ True := by
    intro acc j hj _
    obtain ⟨e, he⟩ := h j.1 j.2 (mem_toList.mp hj)
    obtain ⟨acc', hacc⟩ := considerNeighbor_exists dest acc he
    exact ⟨acc', hacc, trivial⟩
  obtain ⟨r, hr, _⟩ := foldlM_exists (fun _ => True) step trivial
  exact ⟨r, hr⟩

/-! ## One destination -/

theorem lt_mInf_of_lt {a : UInt32} (h : a < 16) : a < mInf := UInt32.lt_trans h (by decide)

/-- The neighbour table entry the new route for `dest` takes its interface
from. -/
def hopEntry (cfg : NodeConfig) (n : Node) (r : MinCost) : Option NeighborTableEntry :=
  n.neighborTable[cfg.reverseLookup (cfg.resolveName r.nextHop)]?

theorem updateDest_cases {cfg : NodeConfig} {n : Node} {st st' : Sweep} {i : String × UInt32}
    (h : updateDest cfg n st i = some st') :
    (i.1 = cfg.thisNode ∧ st'.dv = st.dv ∧ st'.sendDV = st.sendDV ∧
        st'.routingTable = st.routingTable.insertIfNew cfg.thisNode (selfEntry cfg)) ∨
      (i.1 ≠ cfg.thisNode ∧ ∃ r, findMinCost n i.1 = some r ∧
        st'.dv = (if r.differs i.2 then st.dv.insert i.1 r.minCost else st.dv) ∧
        st'.sendDV = (st.sendDV || r.differs i.2) ∧
        ((16 ≤ r.minCost ∧ st'.routingTable = st.routingTable) ∨
          (r.minCost < 16 ∧ ∃ hop, hopEntry cfg n r = some hop ∧
            st'.routingTable = st.routingTable.insertIfNew i.1 (routeEntry cfg i.1 r hop)))) := by
  unfold updateDest at h
  dsimp only at h
  split at h
  · rename_i hself
    obtain rfl := Option.some.inj h
    exact Or.inl ⟨hself, rfl, rfl, rfl⟩
  · rename_i hself
    obtain ⟨r, hr, h⟩ := Option.bind_eq_some_iff.mp h
    refine Or.inr ⟨hself, r, hr, ?_⟩
    split at h
    · rename_i hlt
      obtain ⟨hop, hhop, h⟩ := Option.bind_eq_some_iff.mp h
      obtain rfl := Option.some.inj h
      refine ⟨?_, ?_, Or.inr ⟨hlt.2, hop, hhop, ?_⟩⟩ <;> cases r.differs i.2 <;> simp
    · rename_i hge
      obtain rfl := Option.some.inj h
      have h16 : 16 ≤ r.minCost := UInt32.not_lt.mp fun hlt => hge ⟨lt_mInf_of_lt hlt, hlt⟩
      refine ⟨?_, ?_, Or.inl ⟨h16, ?_⟩⟩ <;> cases r.differs i.2 <;> simp

/-- A destination's iteration touches only its own keys. -/
theorem updateDest_frame {cfg : NodeConfig} {n : Node} {i : String × UInt32} (st st' : Sweep)
    (k : String) (h : updateDest cfg n st i = some st') (hk : k ≠ i.1) :
    (st'.dv[k]?, st'.routingTable[k]?) = (st.dv[k]?, st.routingTable[k]?) := by
  rcases updateDest_cases h with ⟨hself, hd, _, ht⟩ | ⟨_, r, _, hd, _, ht⟩
  · rw [hd, ht, ← hself]
    simp [Ne.symm hk]
  · refine Prod.ext ?_ ?_
    · dsimp only
      rw [hd]
      split <;> simp [Ne.symm hk]
    · rcases ht with ⟨_, ht⟩ | ⟨_, hop, _, ht⟩ <;> simp [ht, Ne.symm hk]

/-! ## The whole function -/

theorem addUnknown_fold {l : List (String × UInt32)} {dv : DistanceVector} (D : String) :
    (l.foldl (fun dv j => if dv[j.1]? = none then dv.insert j.1 mInf else dv) dv)[D]? =
      dv[D]?.or (if D ∈ l.map Prod.fst then some mInf else none) := by
  induction l generalizing dv with
  | nil => simp
  | cons j l ih =>
    have hstep : (if dv[j.1]? = none then dv.insert j.1 mInf else dv)[D]? =
        dv[D]?.or (if D = j.1 then some mInf else none) := by
      by_cases hD : D = j.1
      · subst hD
        split <;> rename_i hk
        · simp [hk]
        · obtain ⟨v, hv⟩ := Option.ne_none_iff_exists'.mp hk
          simp [hv]
      · split <;> simp [Ne.symm hD]
    rw [List.foldl_cons, ih, hstep, Option.or_assoc]
    by_cases hD : D = j.1
    · simp [hD]
    · simp only [List.map_cons, List.mem_cons, hD, if_false, Option.none_or, false_or]

/-- Known destinations keep their cost; the other names of `ndv` get
infinity. -/
theorem getElem?_addUnknown {dv ndv : DistanceVector} (D : String) :
    (addUnknown dv ndv)[D]? = dv[D]?.or (if D ∈ ndv then some mInf else none) := by
  unfold addUnknown
  rw [addUnknown_fold, Std.ExtTreeMap.map_fst_toList_eq_keys]
  simp only [Std.ExtTreeMap.mem_keys]

/-- What `BellmanFord` leaves, given the destinations `known` with their
costs before the loop. -/
structure Recomputed (cfg : NodeConfig) (n : Node) (known : DistanceVector) (n' : Node) : Prop where
  costs : n'.costs = n.costs
  neighborTable : n'.neighborTable = n.neighborTable
  unknown : ∀ D : String, known[D]? = none → n'.dv[D]? = none ∧ n'.routingTable[D]? = none
  self : ∀ v, known[cfg.thisNode]? = some v →
    n'.dv[cfg.thisNode]? = some v ∧ n'.routingTable[cfg.thisNode]? = some (selfEntry cfg)
  dest : ∀ (D : String) v, known[D]? = some v → D ≠ cfg.thisNode →
    ∃ r, findMinCost n D = some r ∧
      n'.dv[D]? = some (if r.differs v then r.minCost else v) ∧
      ((16 ≤ r.minCost ∧ n'.routingTable[D]? = none) ∨
        (r.minCost < 16 ∧ ∃ hop, hopEntry cfg n r = some hop ∧
          n'.routingTable[D]? = some (routeEntry cfg D r hop)))

theorem sweep_spec {cfg : NodeConfig} {n : Node} {known : DistanceVector} {st : Sweep}
    (h : known.toList.foldlM (updateDest cfg n)
      { dv := known, routingTable := ∅, sendDV := false } = some st) :
    Recomputed cfg n known { n with dv := st.dv, routingTable := st.routingTable } ∧
      (st.sendDV = false → st.dv = known) := by
  let get : Sweep → String → Option UInt32 × Option RoutingTableEntry :=
    fun st k => (st.dv[k]?, st.routingTable[k]?)
  have visit : ∀ (D : String) v, known[D]? = some v →
      ∃ s' t', updateDest cfg n s' (D, v) = some t' ∧ get s' D = (some v, none) ∧
        get st D = get t' D := by
    intro D v hv
    obtain ⟨s', t', hu, hs, ht⟩ := foldlM_at get Prod.fst (fun _ _ => updateDest_frame)
      nodup_fst_toList h
      (mem_toList.mpr hv)
    exact ⟨s', t', hu, by rw [hs]; simp [get, hv], ht⟩
  refine ⟨⟨rfl, rfl, ?_, ?_, ?_⟩, ?_⟩
  · intro D hD
    have hframe := foldlM_frame get Prod.fst (fun _ _ => updateDest_frame) h (fst_ne_of_none hD)
    simpa [get, hD] using hframe
  · intro v hv
    obtain ⟨s', t', hu, hs, ht⟩ := visit _ v hv
    obtain ⟨hs1, hs2⟩ := Prod.mk.inj hs
    obtain ⟨ht1, ht2⟩ := Prod.mk.inj ht
    rcases updateDest_cases hu with ⟨_, hd, _, hrt⟩ | ⟨hne, _⟩
    · dsimp only
      rw [ht1, ht2, hd, hrt]
      exact ⟨hs1, by rw [getElem?_insertIfNew_eq, if_pos ⟨rfl, hs2⟩]⟩
    · exact absurd rfl hne
  · intro D v hv hD
    obtain ⟨s', t', hu, hs, ht⟩ := visit D v hv
    obtain ⟨hs1, hs2⟩ := Prod.mk.inj hs
    obtain ⟨ht1, ht2⟩ := Prod.mk.inj ht
    rcases updateDest_cases hu with ⟨hself, _⟩ | ⟨_, r, hr, hd, _, hrt⟩
    · exact absurd hself hD
    · refine ⟨r, hr, ?_, ?_⟩
      · dsimp only
        rw [ht1, hd]
        split <;> simp [hs1]
      · rcases hrt with ⟨hge, hrt⟩ | ⟨hlt, hop, hhop, hrt⟩
        · exact Or.inl ⟨hge, by dsimp only; rw [ht2, hrt, hs2]⟩
        · refine Or.inr ⟨hlt, hop, hhop, ?_⟩
          dsimp only
          rw [ht2, hrt, getElem?_insertIfNew_eq, if_pos ⟨rfl, hs2⟩]
  · refine foldlM_invariant (fun s : Sweep => s.sendDV = false → s.dv = known) ?_ h (fun _ => rfl)
    intro s i t _ ih hu hq
    rcases updateDest_cases hu with ⟨_, hd, hf, _⟩ | ⟨_, r, _, hd, hf, _⟩
    · rw [hd]; exact ih (hf ▸ hq)
    · rw [hf, Bool.or_eq_false_iff] at hq
      rw [hd, hq.2]; exact ih hq.1

/-- What `SendDVTableMessage` sends, given its sequence number. -/
def dvRound (cfg : NodeConfig) (n : Node) (sequenceNumber : UInt32) : Packets :=
  n.costs.toList.flatMap fun i =>
    match n.neighborTable[i.1]? with
    | some entry => cfg.sendPacket
        { sequenceNumber := sequenceNumber
          ttl := 1
          originatorAddress := cfg.mainAddress
          payload := .dvTableMsg (vectorFor cfg n entry) } entry.interfaceAddr
    | none => []

theorem sendDVTableMessage_spec {cfg : NodeConfig} {n n' : Node} {out : Packets}
    (h : sendDVTableMessage cfg n = some (n', out)) :
    n' = { n with currentSequenceNumber := n.currentSequenceNumber + 1 } ∧
      out = dvRound cfg n n.currentSequenceNumber := by
  obtain ⟨packets, hmap, heq⟩ := Option.bind_eq_some_iff.mp h
  obtain ⟨rfl, rfl⟩ := Prod.mk.inj (Option.some.inj heq)
  refine ⟨rfl, ?_⟩
  clear h heq
  unfold dvRound
  generalize n.costs.toList = l at hmap ⊢
  induction l generalizing packets with
  | nil => cases hmap; rfl
  | cons i l ih =>
    rw [List.mapM_cons] at hmap
    obtain ⟨first, hfirst, hmap⟩ := Option.bind_eq_some_iff.mp hmap
    obtain ⟨rest, hrest, hmap⟩ := Option.bind_eq_some_iff.mp hmap
    obtain rfl := Option.some.inj hmap
    obtain ⟨entry, hentry, hfirst⟩ := Option.bind_eq_some_iff.mp hfirst
    obtain rfl := Option.some.inj hfirst
    rw [List.flatten_cons, List.flatMap_cons, hentry, ih rest hrest]

/-- `BellmanFord` recomputes the tables. Either it sent nothing and left
`m_dv` as it was after adding the new names, or it ended by sending the new
vector. -/
theorem bellmanFord_spec {cfg : NodeConfig} {ndv : DistanceVector} {n n' : Node} {out : Packets}
    (h : bellmanFord cfg ndv n = some (n', out)) :
    Recomputed cfg n (addUnknown n.dv ndv) n' ∧
      ((out = [] ∧ n'.dv = addUnknown n.dv ndv) ∨
        out = dvRound cfg n' n.currentSequenceNumber) := by
  obtain ⟨st, hst, h⟩ := Option.bind_eq_some_iff.mp h
  obtain ⟨hrec, hq⟩ := sweep_spec hst
  dsimp only at h
  split at h
  · obtain ⟨rfl, rfl⟩ := sendDVTableMessage_spec h
    exact ⟨⟨hrec.costs, hrec.neighborTable, hrec.unknown, hrec.self, hrec.dest⟩, Or.inr rfl⟩
  · rename_i hs
    obtain ⟨rfl, rfl⟩ := Prod.mk.inj (Option.some.inj h)
    exact ⟨hrec, Or.inl ⟨rfl, hq (by simpa using hs)⟩⟩

/-! ## Where it is defined -/

/-- Every neighbour in `m_costs` has an entry, also under the name its main
address has. -/
def Resolvable (cfg : NodeConfig) (n : Node) : Prop :=
  ∀ (N : String) (c : UInt32), n.costs[N]? = some c →
    (∃ e, n.neighborTable[N]? = some e) ∧
      ∃ hop, n.neighborTable[cfg.reverseLookup (cfg.resolveName N)]? = some hop

theorem mapM_exists {α β : Type} {f : α → Option β} {l : List α} (h : ∀ a ∈ l, ∃ b, f a = some b) :
    ∃ bs, l.mapM f = some bs := by
  induction l with
  | nil => exact ⟨[], rfl⟩
  | cons a l ih =>
    obtain ⟨b, hb⟩ := h a List.mem_cons_self
    obtain ⟨bs, hbs⟩ := ih fun a' ha' => h a' (List.mem_cons_of_mem _ ha')
    exact ⟨b :: bs, by simp [hb, hbs]⟩

theorem sendDVTableMessage_exists (cfg : NodeConfig) {n : Node}
    (h : ∀ (N : String) (c : UInt32), n.costs[N]? = some c → ∃ e, n.neighborTable[N]? = some e) :
    ∃ n' out, sendDVTableMessage cfg n = some (n', out) := by
  obtain ⟨packets, hp⟩ := mapM_exists (l := n.costs.toList) (f := fun i => do
    let entry ← n.neighborTable[i.1]?
    return cfg.sendPacket
      ({ sequenceNumber := n.currentSequenceNumber
         ttl := 1
         originatorAddress := cfg.mainAddress
         payload := .dvTableMsg (vectorFor cfg n entry) } : DVMessage) entry.interfaceAddr) (by
      intro hx hN
      obtain ⟨N, c⟩ := hx
      obtain ⟨e, he⟩ := h N c (mem_toList.mp hN)
      exact ⟨_, by rw [he]; rfl⟩)
  exact ⟨_, _, by unfold sendDVTableMessage; rw [hp]; rfl⟩

theorem updateDest_exists {cfg : NodeConfig} {n : Node} (h : Resolvable cfg n) (st : Sweep)
    (i : String × UInt32) : ∃ st', updateDest cfg n st i = some st' := by
  unfold updateDest
  dsimp only
  split
  · exact ⟨_, rfl⟩
  · obtain ⟨r, hr⟩ := findMinCost_exists i.1 fun N c hN => (h N c hN).1
    rw [hr, Option.bind_eq_bind, Option.bind_some]
    split
    · rename_i hlt
      rcases (findMinCost_spec hr).attained with hinf | ⟨c, v, hN, _⟩
      · rw [hinf] at hlt; exact absurd hlt.1 (UInt32.lt_irrefl _)
      · obtain ⟨hop, hhop⟩ := (h _ c hN.1).2
        exact ⟨_, by rw [hhop]; rfl⟩
    · exact ⟨_, rfl⟩

theorem bellmanFord_exists {cfg : NodeConfig} {n : Node} (ndv : DistanceVector)
    (h : Resolvable cfg n) : ∃ n' out, bellmanFord cfg ndv n = some (n', out) := by
  obtain ⟨st, hst, _⟩ := foldlM_exists (f := updateDest cfg n) (fun _ => True)
    (l := (addUnknown n.dv ndv).toList)
    (s := { dv := addUnknown n.dv ndv, routingTable := ∅, sendDV := false })
    (fun s i _ _ => (updateDest_exists h s i).imp fun _ hu => ⟨hu, trivial⟩) trivial
  unfold bellmanFord
  dsimp only
  rw [hst, Option.bind_eq_bind, Option.bind_some]
  split
  · exact sendDVTableMessage_exists cfg fun N c hN => (h N c hN).1
  · exact ⟨_, _, rfl⟩

end Ns3Routing.Dv
