import Ns3Routing.Ls.Informed

/-! # The stored routing table is current

Every handler that changes what `Dijkstra` reads runs it. So what a node has
stored is what `Dijkstra` makes of the tables it has now, whatever stands for
`Dijkstra` where it has no defined result; and on the tables of an informed
node it has one. -/

namespace Ns3Routing.Ls

open Lib Ns3Routing.Topology

/-- What `Dijkstra` reads is the same: the database, and the interfaces of the
neighbours. -/
structure SameInput (n m : Node) : Prop where
  lsTable : n.lsTable = m.lsTable
  interfaces : ∀ K : String, n.neighborTable[K]?.map (·.interfaceAddr) =
    m.neighborTable[K]?.map (·.interfaceAddr)

namespace SameInput

variable {n m k : Node}

protected theorem refl (n : Node) : SameInput n n := ⟨rfl, fun _ => rfl⟩

protected theorem trans (h : SameInput n m) (h' : SameInput m k) : SameInput n k :=
  ⟨h.lsTable.trans h'.lsTable, fun K => (h.interfaces K).trans (h'.interfaces K)⟩

end SameInput

section Congruence
variable {cfg : NodeConfig} {n m : Node} (h : SameInput n m)
include h

theorem SameInput.getNeighbors (K : String) : getNeighbors n K = getNeighbors m K := by
  rw [Ls.getNeighbors, Ls.getNeighbors, h.lsTable]

theorem SameInput.distance (K L : String) :
    distanceToNeighbor cfg n K L = distanceToNeighbor cfg m K L := by
  unfold distanceToNeighbor
  rw [h.lsTable]

/-- A lookup of a neighbour that goes on with its interface only. -/
theorem SameInput.bind_interface {β : Type} (K : String) (f : Ipv4Address → Option β) :
    (n.neighborTable[K]?.bind fun e => f e.interfaceAddr) =
      m.neighborTable[K]?.bind fun e => f e.interfaceAddr := by
  have hK := congrArg (·.bind f) (h.interfaces K)
  rwa [Option.bind_map, Option.bind_map] at hK

theorem SameInput.initNeighbor (rt : RoutingTable) (a : Ipv4Address) :
    initNeighbor cfg n rt a = initNeighbor cfg m rt a := by
  simp only [Ls.initNeighbor, Option.bind_eq_bind, h.distance]
  exact h.bind_interface (cfg.reverseLookup a) fun interfaceAddr =>
    (distanceToNeighbor cfg m cfg.thisNode (cfg.reverseLookup a)).bind fun cost =>
      pure (rt.insertIfNew (cfg.reverseLookup a) ⟨a, a, a, interfaceAddr, cost⟩)

theorem SameInput.relax (current : String) (rt : RoutingTable) (a : Ipv4Address) :
    relax cfg n current rt a = relax cfg m current rt a := by
  simp only [Ls.relax, Option.bind_eq_bind, h.distance]
  congr 1
  funext here
  congr 1
  funext w
  cases rt[cfg.reverseLookup a]? with
  | none =>
    dsimp only
    split
    · exact h.bind_interface (cfg.reverseLookup here.nextHopAddr) fun interfaceAddr =>
        some (rt.insertIfNew (cfg.reverseLookup a)
          ⟨a, here.nextHopAddr, here.nextHopAddr, interfaceAddr, here.cost + w⟩)
    · rfl
  | some e =>
    dsimp only
    split
    · exact h.bind_interface (cfg.reverseLookup here.nextHopAddr) fun interfaceAddr =>
        some (rt.insert (cfg.reverseLookup a)
          ⟨e.destAddr, here.nextHopAddr, here.nextHopAddr, interfaceAddr, here.cost + w⟩)
    · rfl

theorem SameInput.finishNodes (k : ℕ) (st : Search) :
    finishNodes cfg n k st = finishNodes cfg m k st := by
  have hstep : ∀ st, finishNode cfg n st = finishNode cfg m st := by
    intro st
    have hrelax : Ls.relax cfg n = Ls.relax cfg m := by
      funext current rt a
      exact h.relax current rt a
    simp only [Ls.finishNode, h.getNeighbors, hrelax]
  induction k generalizing st with
  | zero => rfl
  | succ k ih =>
    simp only [Ls.finishNodes, hstep, ih]

/-- `Dijkstra` makes the same of both. -/
theorem SameInput.dijkstra : dijkstra cfg n = dijkstra cfg m := by
  have hinit : Ls.initNeighbor cfg n = Ls.initNeighbor cfg m := by
    funext rt a
    exact h.initNeighbor rt a
  simp only [Ls.dijkstra, initSearch, h.finishNodes, h.getNeighbors, h.lsTable, hinit]

end Congruence

/-! ## Every handler -/

/-- `Dijkstra` has run on tables in which it reads the same. -/
def Current (dijkstra : NodeConfig → Node → Option RoutingTable) (cfg : NodeConfig) (n : Node) :
    Prop :=
  ∃ m, dijkstra cfg m = some n.routingTable ∧ SameInput m n

section Handlers
variable {dijkstra : NodeConfig → Node → Option RoutingTable} {cfg : NodeConfig} {n n' : Node}
  {e : Event} {out : Packets}

/-- The table is kept with what it has been computed from. -/
structure Kept (n n' : Node) : Prop where
  routingTable : n'.routingTable = n.routingTable
  input : SameInput n n'

theorem Kept.current (h : Kept n n') (hn : Current dijkstra cfg n) : Current dijkstra cfg n' := by
  obtain ⟨m, hm, hsame⟩ := hn
  exact ⟨m, h.routingTable ▸ hm, hsame.trans h.input⟩

theorem runDijkstra_current (h : runDijkstra dijkstra cfg n = some n') :
    Current dijkstra cfg n' := by
  obtain ⟨routingTable, hrt, rfl⟩ := Option.map_eq_some_iff.mp h
  exact ⟨n, hrt, rfl, fun _ => rfl⟩

theorem kept_touch {now : ℕ} {K : String} {e : NeighborTableEntry} (he : n.neighborTable[K]? = some e) :
    Kept n (touch now K e n) := by
  refine ⟨rfl, rfl, fun L => ?_⟩
  rw [touch, getElem?_insert_eq]
  by_cases hKL : K = L
  · subst hKL
    rw [if_pos rfl, he, Option.map_some, Option.map_some]
  · rw [if_neg hKL]

/-- An event leaves the table and what it has been computed from, or computes
it anew. -/
theorem handle_current (h : handle dijkstra cfg n e = some (n', out)) :
    Kept n n' ∨ Current dijkstra cfg n' := by
  have announced : ∀ {m : Node}, Current dijkstra cfg m →
      Current dijkstra cfg (sendLSTableMessage cfg m).1 := by
    intro m hm
    have hkept : Kept m (sendLSTableMessage cfg m).1 := ⟨rfl, rfl, fun _ => rfl⟩
    exact hkept.current hm
  cases e with
  | recv now socket lsMessage =>
    simp only [handle, recvLSMessage] at h
    split at h
    · simp only [processHelloReq] at h
      split at h
      · rename_i e he
        obtain ⟨rfl, rfl⟩ := Prod.mk.inj (Option.some.inj h)
        exact Or.inl (kept_touch he)
      · obtain ⟨n₁, hrun, h⟩ := Option.bind_eq_some_iff.mp h
        obtain ⟨rfl, rfl⟩ := Prod.mk.inj (Option.some.inj h)
        exact Or.inr (announced (runDijkstra_current hrun))
    · simp only [processLSTableMessage] at h
      split at h
      · obtain ⟨n₁, hrun, h⟩ := Option.bind_eq_some_iff.mp h
        obtain ⟨rfl, rfl⟩ := Prod.mk.inj (Option.some.inj h)
        exact Or.inr (runDijkstra_current hrun)
      · obtain ⟨rfl, rfl⟩ := Prod.mk.inj (Option.some.inj h)
        exact Or.inl ⟨rfl, .refl n⟩
  | auditHellos now =>
    simp only [handle, auditHellos] at h
    obtain ⟨⟨m, sendMsg⟩, hloop, h⟩ := Option.bind_eq_some_iff.mp h
    obtain ⟨hflag, hquiet⟩ := auditLoop_flag_iff rfl hloop
    cases sendMsg with
    | true =>
      obtain ⟨n₁, hrun, h⟩ := Option.bind_eq_some_iff.mp h
      obtain ⟨rfl, rfl⟩ := Prod.mk.inj (Option.some.inj h)
      exact Or.inr (announced (runDijkstra_current hrun))
    | false =>
      obtain ⟨rfl, rfl⟩ := Prod.mk.inj (Option.some.inj h)
      have hno : ∀ K, ¬ Expires cfg now n K := fun K hK => by
        have hup := hflag.mpr ⟨K, hK⟩
        cases hup
      obtain ⟨rfl, _⟩ := Prod.mk.inj (hquiet hno)
      exact Or.inl ⟨rfl, rfl, fun _ => rfl⟩

end Handlers

/-! ## Every run -/

/-- A node that has heard of a neighbour has run `Dijkstra`. -/
def CurrentOrAlone (dijkstra : NodeConfig → Node → Option RoutingTable) (cfg : NodeConfig)
    (n : Node) : Prop :=
  (∀ K : String, n.neighborTable[K]? = none) ∨ Current dijkstra cfg n

theorem CurrentOrAlone.handle {dijkstra : NodeConfig → Node → Option RoutingTable}
    {cfg : NodeConfig} {n n' : Node} {e : Event} {out : Packets} (hn : CurrentOrAlone dijkstra cfg n)
    (h : Ls.handle dijkstra cfg n e = some (n', out)) : CurrentOrAlone dijkstra cfg n' := by
  rcases handle_current h with hkept | hcurrent
  · rcases hn with halone | hcurrent
    · refine Or.inl fun K => ?_
      have hK := hkept.input.interfaces K
      rw [halone K, Option.map_none] at hK
      exact Option.map_eq_none_iff.mp hK.symm
    · exact Or.inr (hkept.current hcurrent)
  · exact Or.inr hcurrent

section Runs
variable {dijkstra : NodeConfig → Node → Option RoutingTable} {T : Topology} {s s' : LsNet T}
  {lab : Label T}

/-- A node is as before a step, or has handled an event. -/
theorem netStep_node (h : netStep dijkstra T s lab = some s') (i : Fin T.size) :
    s'.node i = s.node i ∨
      ∃ e out, handle dijkstra (T.config i) (s.node i) e = some (s'.node i, out) := by
  have handled : ∀ {j e res} (s₁ : LsNet T), s₁.node = s.node →
      handle dijkstra (T.config j) (s.node j) e = some res →
      (s₁.apply j res).node i = s.node i ∨
        ∃ e out, handle dijkstra (T.config i) (s.node i) e = some ((s₁.apply j res).node i, out) := by
    intro j e res s₁ hnode hh
    by_cases hij : i = j
    · subst hij
      exact Or.inr ⟨e, res.2, by rw [hh]; simp [LsNet.apply]⟩
    · exact Or.inl (by simp [LsNet.apply, hij, hnode])
  cases lab with
  | deliver p k now =>
    simp only [netStep] at h
    split at h
    · obtain rfl := Option.some.inj h
      exact Or.inl rfl
    · split at h
      · obtain ⟨res, hh, rfl⟩ := Option.map_eq_some_iff.mp h
        exact handled (s.take p k) rfl hh
      · obtain rfl := Option.some.inj h
        exact Or.inl rfl
  | auditHellos j now =>
    obtain ⟨res, hh, rfl⟩ := Option.map_eq_some_iff.mp h
    exact handled s rfl hh
  | linkDown l =>
    obtain rfl := Option.some.inj h
    exact Or.inl rfl
  | linkUp l =>
    obtain rfl := Option.some.inj h
    exact Or.inl rfl

theorem current_run {sequenceNumber : Fin T.size → UInt32} {ls : List (Label T)}
    (h : run (netStep dijkstra T) (netStart T sequenceNumber) ls = some s) (i : Fin T.size) :
    CurrentOrAlone dijkstra (T.config i) (s.node i) := by
  refine run_invariant (I := fun s => ∀ i, CurrentOrAlone dijkstra (T.config i) (s.node i)) ?_ ?_ h i
  · intro i
    refine Or.inl fun K => ?_
    simp [netStart, sendHello, doStart]
  · intro s lab s' hI hst i
    rcases netStep_node hst i with hsame | ⟨e, out, hh⟩
    · rw [hsame]
      exact hI i
    · exact (hI i).handle hh

end Runs

/-! ## `Dijkstra` of an informed node -/

section Defined
variable {T : Topology} {i : Fin T.size} {n : Node} (h : Informed T i n)
  (heard : ∀ p, T.owner p = i → ∃ e, n.neighborTable[T.name (T.owner (peer p))]? = some e)

theorem IsRoute.mem_names {K : String} {e : RoutingTableEntry} (he : IsRoute T i K e) :
    ∃ o, K = T.name o := by
  rcases he with ⟨hK, _⟩ | ⟨_, j, _, hK, _⟩
  · exact ⟨i, hK⟩
  · exact ⟨j, hK⟩

include h

theorem Informed.mem_lsTable (o : Fin T.size) : T.name o ∈ n.lsTable := by
  obtain ⟨entry, hentry, _⟩ := h.entry o
  exact mem_iff_getElem?.mpr ⟨entry, hentry⟩

include heard

/-- One pass of the inner loop. It does not write the entry it reads. -/
theorem Informed.relax_exists {current : String} {a : Ipv4Address} {rt : RoutingTable}
    {here : RoutingTableEntry} (ha : a ∈ getNeighbors n current) (hne : current ≠ T.name i)
    (hroute : IsRoute T i current here) (hhere : rt[current]? = some here) :
    ∃ rt', relax (T.config i) n current rt a = some rt' ∧ rt'[current]? = some here := by
  obtain ⟨o, j, rfl, hadj, rfl⟩ := h.neighbors_iff.mp ha
  have hw := h.distance hadj
  rw [← reverseLookup_main i j] at hw
  obtain ⟨hop, hhop⟩ : ∃ hop,
      n.neighborTable[(T.config i).reverseLookup here.nextHopAddr]? = some hop := by
    rcases hroute with ⟨hself, _⟩ | ⟨p, _, _, _, _, hroute⟩
    · exact absurd hself hne
    · rw [hroute.nextHopAddr, reverseLookup_main]
      exact heard p hroute.owner
  obtain ⟨rt', hrt'⟩ : ∃ rt', relax (T.config i) n (T.name o) rt (T.config j).mainAddress =
    some rt' := by
    simp only [relax, hhere, hw, hhop, Option.bind_eq_bind, Option.bind_some]
    cases rt[(T.config i).reverseLookup (T.config j).mainAddress]? <;> dsimp only <;> split <;>
      exact ⟨_, rfl⟩
  refine ⟨rt', hrt', ?_⟩
  rcases relax_entry hrt' with rfl | ⟨_, _, _, _, _, _, _, _, hget⟩
  · exact hhere
  · rw [hget, reverseLookup_main, if_neg fun he => hadj.ne (name_inj.mp he).symm, hhere]

/-- While a node is left, one more is finished. -/
theorem Informed.finishNode_exists (conn : T.graph.Connected) {F : Finset String} {st : Search}
    (hs : Surveyed (T.config i) n F st) (hall : AllEntries (IsRoute T i) st.routingTable)
    {left : Fin T.size} (hleft : T.name left ∉ F) :
    ∃ st' K, finishNode (T.config i) n st = some st' ∧ K ∉ F ∧
      Surveyed (T.config i) n (insert K F) st' ∧ AllEntries (IsRoute T i) st'.routingTable := by
  have known : ∀ (K : String) e, st.routingTable[K]? = some e →
      st.leastCostFound[K]? = some (decide (K ∈ F)) := by
    intro K e he
    obtain ⟨o, rfl⟩ := (hall K e he).mem_names
    rw [hs.found _ (hs.costs.named _ e he), if_pos (h.mem_lsTable o)]
  have notStuck : ¬ Stuck (T.config i) n F := by
    intro hstuck
    obtain ⟨w, hw⟩ := (conn.preconnected i left).exists_isPath
    have hlen := hw.length_lt
    rw [Fintype.card_fin] at hlen
    have hfar := hstuck _ hleft w.length (by
      rw [thisNode_eq]
      exact h.route_iff.mpr ⟨left, rfl, w, rfl⟩)
    have hsize := T.size_lt
    omega
  have sorted : st.routingTable.toList.Pairwise fun x y => x.1 < y.1 :=
    (Std.ExtTreeMap.ordered_keys_toList (t := st.routingTable)).imp compare_lt_iff_lt.mp
  have hknown : ∀ x ∈ st.routingTable.toList, ∃ b, st.leastCostFound[x.1]? = some b :=
    fun x hx => ⟨_, known x.1 x.2 (mem_toList.mp hx)⟩
  obtain ⟨res, hres, _⟩ := considerNodes_spec ⟨intMax, ""⟩ sorted hknown
  have hmin : getMinCostNode st.routingTable st.leastCostFound = some res.closest := by
    rw [getMinCostNode, hres, Option.map_some]
  rcases (getMinCostNode_some hmin).2 with ⟨hempty, hfar⟩ | ⟨e, he, hfK, _, _⟩
  · exact absurd (hs.stuck (hempty ▸ hmin) hfar) notStuck
  · have hK : res.closest ≠ T.name i := by
      intro hK
      rw [known _ e he, hK, ← thisNode_eq, decide_eq_true hs.self] at hfK
      cases hfK
    obtain ⟨rt', hrt', _⟩ := foldlM_exists (f := relax (T.config i) n res.closest)
      (fun rt => rt[res.closest]? = some e) (l := getNeighbors n res.closest)
      (fun rt a ha hrt => h.relax_exists heard ha hK (hall _ e he) hrt) he
    have hst : finishNode (T.config i) n st =
        some ⟨rt', st.leastCostFound.insert res.closest true⟩ := by
      simp [finishNode, hmin, hfK, hrt']
    have hall' : AllEntries (IsRoute T i) rt' :=
      AllEntries.relaxAll (fun _ _ _ _ _ _ ha hhere hw hhop hwon =>
        h.through_route ha hhere hw hhop hwon) hrt' hall
    rcases hs.finishNode hst with ⟨K, hKF, hs'⟩ | ⟨hstuck, _⟩ | ⟨_, hwins⟩
    · exact ⟨_, K, hst, hKF, hs', hall'⟩
    · exact absurd hstuck notStuck
    · exact absurd h.noWrapWins hwins

theorem Informed.finishNodes_exists (conn : T.graph.Connected) {k : ℕ} {F : Finset String}
    {st : Search} (hs : Surveyed (T.config i) n F st)
    (hall : AllEntries (IsRoute T i) st.routingTable) (hk : F.card + k = n.lsTable.size) :
    ∃ st', finishNodes (T.config i) n k st = some st' := by
  induction k generalizing F st with
  | zero => exact ⟨st, rfl⟩
  | succ k ih =>
    have hkeys : n.lsTable.keys.toFinset.card = n.lsTable.size := by
      rw [List.toFinset_card_of_nodup Std.ExtTreeMap.nodup_keys, Std.ExtTreeMap.length_keys]
    obtain ⟨L, hL, hLF⟩ := Finset.exists_mem_notMem_of_card_lt_card
      (show F.card < n.lsTable.keys.toFinset.card by omega)
    rw [List.mem_toFinset, Std.ExtTreeMap.mem_keys] at hL
    obtain ⟨left, rfl⟩ := h.named L hL
    obtain ⟨st₁, K, hst₁, hKF, hs₁, hall₁⟩ := h.finishNode_exists heard conn hs hall hLF
    have hcard := Finset.card_insert_of_notMem hKF
    obtain ⟨st', hst'⟩ := ih hs₁ hall₁ (by omega)
    exact ⟨st', by rw [finishNodes, hst₁]; exact hst'⟩

/-- **`Dijkstra` returns** on the tables of an informed node that has heard of
its neighbours, however many nodes and links there are. -/
theorem Informed.dijkstra_exists (conn : T.graph.Connected) :
    ∃ rt, dijkstra (T.config i) n = some rt := by
  have hself := h.mem_lsTable i
  rw [← thisNode_eq] at hself
  obtain ⟨rt, hrt, hall⟩ := foldlM_exists (f := initNeighbor (T.config i) n)
    (fun rt => AllEntries (IsRoute T i) rt) (l := getNeighbors n (T.config i).thisNode)
    (s := (∅ : RoutingTable).insertIfNew (T.config i).thisNode (selfEntry (T.config i))) (by
      intro rt a ha hrt
      have ha' := ha
      rw [thisNode_eq] at ha
      obtain ⟨o, j, ho, hadj, rfl⟩ := h.neighbors_iff.mp ha
      obtain rfl := name_inj.mp ho
      obtain ⟨p, hp, hj⟩ := hadj
      obtain ⟨hop, hhop⟩ := heard p hp
      rw [hj, ← reverseLookup_main i j] at hhop
      have hcost := h.distance (hj ▸ hp ▸ adj_owner p : T.graph.Adj i j)
      rw [← reverseLookup_main i j, ← thisNode_eq i] at hcost
      refine ⟨_, by simp only [initNeighbor, hhop, hcost]; rfl, ?_⟩
      exact hrt.insertIfNew (h.neighbor_route ha' hhop hcost))
    (AllEntries.insertIfNew (fun K e he => by simp at he) (Or.inl ⟨thisNode_eq i, rfl⟩))
  obtain ⟨found, hst⟩ : ∃ found, initSearch (T.config i) n = some ⟨rt, found⟩ := by
    unfold initSearch
    simp [-thisNode_eq, hrt, getElem?_leastCostFound, hself]
  have hpos : 0 < n.lsTable.size := by
    have hkeys := Std.ExtTreeMap.mem_keys.mpr hself
    rw [← Std.ExtTreeMap.length_keys]
    exact List.length_pos_of_mem hkeys
  obtain ⟨st', hfin⟩ := h.finishNodes_exists heard conn (k := n.lsTable.size - 1)
    (initSearch_surveyed hst) hall (by rw [Finset.card_singleton]; omega)
  refine ⟨st'.routingTable, ?_⟩
  rw [dijkstra, hst]
  exact congrArg (·.bind fun st => some st.routingTable) hfin

end Defined

end Ns3Routing.Ls
