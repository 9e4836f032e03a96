import Ns3Routing.Dv.Network

/-! # The entries of a distance-vector routing table

`BellmanFord` starts the routing table anew and puts this node's own entry
into it. Every other entry leaves over a link end of the node, to the
neighbour it names. That is so in every run, whatever is lost and whoever
times out; only the costs need a network at rest. -/

namespace Ns3Routing.Dv

open Lib Ns3Routing.Topology

/-- The table is empty until `BellmanFord` runs, and then has the own entry. -/
def HasOwn (cfg : NodeConfig) (n : Node) : Prop :=
  n.routingTable = ∅ ∨ n.routingTable[cfg.thisNode]? = some (selfEntry cfg)

/-- An entry for node `j` that leaves over the link end `p` of node `i`. -/
structure LeavesOver (T : Topology) (i : Fin T.size) (p : T.Port) (j : Fin T.size)
    (e : RoutingTableEntry) : Prop where
  owner : T.owner p = i
  destAddr : e.destAddr = (T.config j).mainAddress
  nextHopNum : e.nextHopNum = e.nextHopAddr
  nextHopAddr : e.nextHopAddr = (T.config (T.owner (peer p))).mainAddress
  interfaceAddr : e.interfaceAddr = T.address p

section Entries
variable {T : Topology} {i : Fin T.size} {n n' : Node} {ev : Event} {out : Packets}

theorem HasOwn.handle (h : HasOwn (T.config i) n) (hN : NodeNamed T i n) (hv : ValidEvent T i ev)
    (hh : handle (T.config i) n ev = some (n', out)) : HasOwn (T.config i) n' := by
  rcases handle_cases hN.inv.tables.keyed hh with ⟨hs, _⟩ | ⟨m, ndv, hb, hrec, _⟩
  · unfold HasOwn
    rw [hs.routingTable]
    exact h
  · have hknown : (addUnknown m.dv ndv)[(T.config i).thisNode]? = some 0 := by
      rw [thisNode_eq, getElem?_addUnknown, (hb.named hN hv).self]
      rfl
    exact Or.inr (hrec.self 0 hknown).2

/-- Every entry is the own one, or leaves over a link end of the node. -/
theorem NodeNamed.leavesOver (hN : NodeNamed T i n) (hown : HasOwn (T.config i) n) {K : String}
    {e : RoutingTableEntry} (he : n.routingTable[K]? = some e) :
    K = T.name i ∧ e = selfEntry (T.config i) ∨
      ∃ p j, j ≠ i ∧ K = T.name j ∧ LeavesOver T i p j e := by
  by_cases hK : K = (T.config i).thisNode
  · rcases hown with hempty | hown
    · rw [hempty] at he
      simp at he
    · rw [hK, hown] at he
      exact Or.inl ⟨hK.trans (thisNode_eq i), (Option.some.inj he).symm⟩
  · cases hdv : n.dv[K]? with
    | none =>
      rw [hN.inv.unknown K hdv hK] at he
      cases he
    | some v =>
      obtain ⟨j, rfl⟩ := hN.dvKeys K v hdv
      have hj : j ≠ i := fun h => hK (by rw [h, thisNode_eq])
      obtain ⟨r, hr, hroute, _⟩ := hN.inv.route _ v hdv hK
      rcases hroute with ⟨_, hnone⟩ | ⟨hlt, hop, hhop, hsome⟩
      · rw [hnone] at he
        cases he
      · rw [hsome] at he
        obtain rfl := Option.some.inj he
        -- the next hop is in `m_costs`, so it is the owner of the other end of a link
        have hrep := hr.reports hN.inv.tables (UInt32.lt_iff_toNat_lt.mp hlt).le
        obtain ⟨c, _, ⟨hc, _⟩, _⟩ := hrep
        obtain ⟨stored, hstored⟩ := hN.inv.tables.costsEntry _ c hc
        obtain ⟨p, hp, hname, _, hif⟩ := hN.entry _ stored hstored
        rw [hopEntry, hname, resolveName_name, reverseLookup_main, ← hname, hstored] at hhop
        obtain rfl := Option.some.inj hhop
        refine Or.inr ⟨p, j, hj, rfl, hp, resolveName_name i j, rfl, ?_, hif⟩
        rw [routeEntry, hname]
        exact resolveName_name i _

end Entries

section Runs
variable {T : Topology} {s s' : DvNet T} {l : Label T}

/-- A step leaves the nodes as they are, but for one that handles an event. -/
theorem Named.hasOwn_step (hN : Named T s) (h : ∀ i, HasOwn (T.config i) (s.node i))
    (hst : NetStep T s l s') (i : Fin T.size) : HasOwn (T.config i) (s'.node i) := by
  have handled : ∀ {j ev n' out} (s₁ : DvNet T), s₁.node = s.node → ValidEvent T j ev →
      handle (T.config j) (s.node j) ev = some (n', out) →
      HasOwn (T.config i) ((s₁.apply j (n', out)).node i) := by
    intro j ev n' out s₁ hnode hv hh
    by_cases hij : i = j
    · subst hij
      rw [Net.apply_node_self]
      exact (h i).handle (hN.node i) hv hh
    · rw [Net.apply_node_ne _ _ hij, hnode]
      exact h i
  cases hst with
  | idle => exact h i
  | lose _ _ => exact h i
  | deliver head hh => exact handled _ rfl (hN.valid _ head) hh
  | @audit j now _ _ hh =>
    have hv : ValidEvent T j (.auditHellos now) := trivial
    exact handled s rfl hv hh

/-- Every state of every run. -/
theorem named_run {sequenceNumber : Fin T.size → UInt32} {ls : List (Label T)}
    (h : run (netStep T) (netStart T sequenceNumber) ls = some s) :
    Named T s ∧ ∀ i, HasOwn (T.config i) (s.node i) := by
  refine run_invariant (I := fun s => Named T s ∧ ∀ i, HasOwn (T.config i) (s.node i)) ?_ ?_ h
  · exact ⟨Named.start T sequenceNumber, fun i => Or.inl rfl⟩
  · intro t l t' hI hst
    exact ⟨hI.1.step (netStep_cases hst), hI.1.hasOwn_step hI.2 (netStep_cases hst)⟩

end Runs

end Ns3Routing.Dv
