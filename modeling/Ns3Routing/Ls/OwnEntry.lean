import Ns3Routing.Ls.Handlers
import Ns3Routing.Lib.Run

/-! # A node's own entry and its neighbour table

Three handlers write the own entry of a node. Discoveries and timeouts keep
it in step with `m_neighborTable`; an announcement of the node's own that
comes back replaces it, because the entry has the sequence number of some
neighbour's hello and not of the node's last announcement. The runs that keep
the two in step are exactly those in which every such echo lists the current
neighbours. -/

namespace Ns3Routing.Ls

open Lib

/-- The addresses of `l` are those of the neighbours, each once. -/
def ListsNeighbors (n : Node) (l : NbrCostsVec) : Prop :=
  (l.map Prod.fst).Nodup ∧ ∀ a, a ∈ l.map Prod.fst ↔
    ∃ (K : String) (e : NeighborTableEntry), n.neighborTable[K]? = some e ∧ e.neighborAddr = a

/-- The own entry lists the neighbours, or there is none of either. -/
def Mirrors (cfg : NodeConfig) (n : Node) : Prop :=
  match n.lsTable[cfg.thisNode]? with
  | none => ∀ K : String, n.neighborTable[K]? = none
  | some entry => ListsNeighbors n entry.neighborCosts

/-- An announcement of this node that is taken for new lists the current
neighbours. -/
def EchoesCurrent (cfg : NodeConfig) (n : Node) : Event → Prop
  | .recv _ _ lsMessage =>
    match lsMessage.payload with
    | .helloReq _ _ => True
    | .lsTableMsg neighborCosts =>
      cfg.reverseLookup lsMessage.originatorAddress = cfg.thisNode →
        isNew n cfg.thisNode lsMessage.sequenceNumber = true → ListsNeighbors n neighborCosts
  | .auditHellos _ => True

section Tables
variable {cfg : NodeConfig} {n n' : Node} {e : Event} {out : Packets}

theorem addNeighbor_entry {now socket : Nat} {lsMessage : LSMessage}
    (fresh : n.neighborTable[cfg.reverseLookup lsMessage.originatorAddress]? = none) (K : String) :
    (addNeighbor cfg now socket lsMessage n).neighborTable[K]? =
      if cfg.reverseLookup lsMessage.originatorAddress = K then
        some ⟨lsMessage.originatorAddress, cfg.interfaceAddr socket, now⟩
      else n.neighborTable[K]? := by
  simp only [addNeighbor, getElem?_insertIfNew_eq, fresh, and_true]

/-- Setting the time of a hello leaves the addresses. -/
theorem touch_entry (now : Nat) {K₀ : String} {e₀ : NeighborTableEntry}
    (known : n.neighborTable[K₀]? = some e₀) (K : String) (a : Ipv4Address) :
    (∃ e, (touch now K₀ e₀ n).neighborTable[K]? = some e ∧ e.neighborAddr = a) ↔
      ∃ e, n.neighborTable[K]? = some e ∧ e.neighborAddr = a := by
  simp only [touch, getElem?_insert_eq]
  by_cases hK : K₀ = K
  · subst hK
    simp [known]
  · simp [hK]

theorem Keyed.handled (hk : Keyed cfg n) (h : Handled cfg n e n' out) : Keyed cfg n' := by
  cases h with
  | refresh payload known =>
    intro K e' he'
    obtain ⟨e₀, he₀, ha⟩ := (touch_entry _ known K e'.neighborAddr).mp ⟨e', he', rfl⟩
    rw [← ha]; exact hk K e₀ he₀
  | discover payload fresh rt =>
    intro K e' he'
    rw [addNeighbor_entry fresh] at he'
    split at he'
    · rename_i hK
      obtain rfl := Option.some.inj he'
      exact hK
    · exact hk K e' he'
  | stale _ _ => exact hk
  | accept _ _ _ => exact hk
  | quiet _ => exact hk
  | timeout _ loop _ =>
    intro K e' he'
    exact hk K e' (((auditLoop_spec (n := (sendHello cfg n).1) hk loop).neighbors K e').mp he').1

theorem keyed_step {dijkstra : NodeConfig → Node → Option RoutingTable} (hk : Keyed cfg n)
    (h : step dijkstra cfg n e = some n') : Keyed cfg n' := by
  obtain ⟨⟨n', out⟩, hh, rfl⟩ := Option.map_eq_some_iff.mp h
  exact hk.handled (handle_cases hh)

end Tables

/-! ## Discoveries and timeouts -/

section Mirror
variable {cfg : NodeConfig} {n : Node}

theorem ListsNeighbors.congr {n' : Node} {l : NbrCostsVec}
    (h : ∀ (K : String) a, (∃ e, n'.neighborTable[K]? = some e ∧ e.neighborAddr = a) ↔
      ∃ e, n.neighborTable[K]? = some e ∧ e.neighborAddr = a) :
    ListsNeighbors n' l ↔ ListsNeighbors n l := by
  unfold ListsNeighbors
  simp only [h]

theorem addNeighbor_lsTable {now socket : Nat} {lsMessage : LSMessage} (K : String) :
    (addNeighbor cfg now socket lsMessage n).lsTable[K]? =
      if cfg.thisNode = K then some (ownEntryWith cfg lsMessage n) else n.lsTable[K]? :=
  getElem?_insert_eq

section AddNeighbor
variable {now socket : Nat} {lsMessage : LSMessage} (hk : Keyed cfg n)
  (fresh : n.neighborTable[cfg.reverseLookup lsMessage.originatorAddress]? = none)
include hk fresh

/-- A new neighbour has a new address. -/
theorem address_fresh : ¬ ∃ (K : String) (e : NeighborTableEntry), n.neighborTable[K]? = some e ∧
    e.neighborAddr = lsMessage.originatorAddress := by
  intro hx
  obtain ⟨K, e, he, ha⟩ := hx
  have hname := hk K e he
  rw [ha] at hname
  rw [hname, he] at fresh; cases fresh

/-- A new neighbour is appended to a list of the others. -/
theorem addNeighbor_lists {l : NbrCostsVec} (h : ListsNeighbors n l) :
    ListsNeighbors (addNeighbor cfg now socket lsMessage n)
      (l ++ [(lsMessage.originatorAddress, 1)]) := by
  obtain ⟨hnd, hmem⟩ := h
  refine ⟨?_, fun a => ?_⟩
  · rw [List.map_append]
    refine List.Nodup.append hnd (by simp) ?_
    simp only [List.map_cons, List.map_nil, List.disjoint_singleton]
    rw [hmem]; exact address_fresh hk fresh
  · rw [List.map_append, List.mem_append, hmem]
    simp only [List.map_cons, List.map_nil, List.mem_singleton, addNeighbor_entry fresh]
    constructor
    · rintro (⟨K, e, he, rfl⟩ | rfl)
      · refine ⟨K, e, ?_, rfl⟩
        rw [if_neg, he]
        intro he
        obtain rfl := he
        rw [fresh] at he; cases he
      · exact ⟨_, _, if_pos rfl, rfl⟩
    · intro hx
      obtain ⟨K, e, he, rfl⟩ := hx
      split at he
      · obtain rfl := Option.some.inj he
        exact Or.inr rfl
      · exact Or.inl ⟨K, e, he, rfl⟩

theorem addNeighbor_mirrors (h : Mirrors cfg n) :
    Mirrors cfg (addNeighbor cfg now socket lsMessage n) := by
  unfold Mirrors at h ⊢
  rw [addNeighbor_lsTable, if_pos rfl]
  unfold ownEntryWith
  cases hls : n.lsTable[cfg.thisNode]? with
  | none =>
    rw [hls] at h
    have hnil : ListsNeighbors n [] := ⟨by simp, fun a => by simp [h]⟩
    exact addNeighbor_lists hk fresh hnil
  | some entry =>
    rw [hls] at h
    exact addNeighbor_lists hk fresh h

end AddNeighbor

theorem map_fst_removeLSTableLink (a : Ipv4Address) (l : NbrCostsVec) :
    (removeLSTableLink a l).map Prod.fst = (l.map Prod.fst).erase a := by
  unfold removeLSTableLink
  induction l with
  | nil => rfl
  | cons x l ih =>
    rw [List.eraseP_cons, List.map_cons, List.erase_cons]
    by_cases hx : x.1 = a
    · simp [hx]
    · have hne : (x.1 == a) = false := beq_false_of_ne hx
      simp [hne, ih]

theorem removeLSTableLink_absent {a : Ipv4Address} {l : NbrCostsVec} (h : a ∉ l.map Prod.fst) :
    removeLSTableLink a l = l := by
  refine List.eraseP_of_forall_not ?_
  intro x hx hxa
  exact h (List.mem_map.mpr ⟨x, hx, by simpa using hxa⟩)

/-- A neighbour is gone from the table, and its address from the list. -/
theorem ListsNeighbors.erase {K : String} {e : NeighborTableEntry} {l : NbrCostsVec}
    (h : ListsNeighbors n l) (hk : Keyed cfg n) (he : n.neighborTable[K]? = some e) :
    ListsNeighbors { n with neighborTable := n.neighborTable.erase K }
      (removeLSTableLink e.neighborAddr l) := by
  obtain ⟨hnd, hmem⟩ := h
  unfold ListsNeighbors
  rw [map_fst_removeLSTableLink]
  refine ⟨hnd.erase _, fun a => ?_⟩
  rw [hnd.mem_erase_iff, hmem]
  dsimp only
  simp only [getElem?_erase_eq]
  constructor
  · intro h
    obtain ⟨hne, L, e', he', rfl⟩ := h
    refine ⟨L, e', ?_, rfl⟩
    rw [if_neg, he']
    intro hKL
    obtain rfl := hKL
    rw [he] at he'
    exact hne (congrArg _ (Option.some.inj he')).symm
  · intro h
    obtain ⟨L, e', he', rfl⟩ := h
    split at he'
    · cases he'
    · rename_i hne
      refine ⟨fun ha => hne ?_, L, e', he', rfl⟩
      rw [← hk K e he, ← ha]
      exact hk L e' he'

/-- Without a neighbour of this node's own name, this node's address is not
listed. -/
theorem ListsNeighbors.own_absent {l : NbrCostsVec} (h : ListsNeighbors n l) (hk : Keyed cfg n)
    (hself : n.neighborTable[cfg.thisNode]? = none) : cfg.mainAddress ∉ l.map Prod.fst := by
  rw [h.2]
  intro hlisted
  obtain ⟨K, e, he, ha⟩ := hlisted
  have hname := hk K e he
  rw [ha] at hname
  rw [NodeConfig.thisNode, hname, he] at hself
  cases hself

theorem Keyed.erase (hk : Keyed cfg n) (K : String) :
    Keyed cfg { n with neighborTable := n.neighborTable.erase K } := by
  intro L e he
  dsimp only at he
  rw [getElem?_erase_eq] at he
  split at he
  · cases he
  · exact hk L e he

/-- One timeout takes the neighbour from both tables. -/
theorem auditEntry_mirrors {now : Nat} {s t : Node × Bool} {i : String × NeighborTableEntry}
    (hk : Keyed cfg s.1) (h : Mirrors cfg s.1)
    (hi : s.1.neighborTable[i.1]? = some i.2) (hst : auditEntry cfg now s i = some t) :
    Mirrors cfg t.1 := by
  rcases auditEntry_cases hst with ⟨_, rfl⟩ | ⟨_, t₁, t₂, h₁, h₂, rfl⟩
  · exact h
  · obtain ⟨own, hown, hget₁⟩ := removeLink_some h₁
    obtain ⟨entry2, hentry2, hget₂⟩ := removeLink_some h₂
    rw [hk i.1 i.2 hi] at hget₂ hentry2
    unfold Mirrors at h ⊢
    rw [hown] at h
    -- the first removal takes the neighbour's address from the own list
    have hlist := ListsNeighbors.erase h hk hi
    dsimp only
    rw [hget₂]
    by_cases hself : i.1 = cfg.thisNode
    · -- a neighbour with this node's own name: the second removal finds nothing
      rw [hget₁, if_pos hself.symm] at hentry2
      obtain rfl := Option.some.inj hentry2
      rw [if_pos hself]
      dsimp only
      rw [removeLSTableLink_absent (hlist.own_absent (hk.erase i.1) (by simp [hself]))]
      exact hlist
    · rw [if_neg hself, hget₁, if_pos rfl]
      exact hlist

theorem auditLoop_mirrors {now : Nat} {res : Node × Bool} {flag : Bool} (hk : Keyed cfg n)
    (h : Mirrors cfg n)
    (hloop : n.neighborTable.toList.foldlM (auditEntry cfg now) (n, flag) = some res) :
    Mirrors cfg res.1 := by
  -- along the loop, entries still to be visited are still in the table
  suffices hgen : ∀ (l : List (String × NeighborTableEntry)) (s : Node × Bool),
      (l.map Prod.fst).Nodup → (∀ i ∈ l, s.1.neighborTable[i.1]? = some i.2) →
      Keyed cfg s.1 → Mirrors cfg s.1 → l.foldlM (auditEntry cfg now) s = some res →
      Mirrors cfg res.1 from
    hgen _ (n, flag) nodup_fst_toList (fun i hi => mem_toList.mp hi) hk h hloop
  intro l
  induction l with
  | nil => intro s _ _ _ hm hres; cases hres; exact hm
  | cons i l ih =>
    intro s hnd hmem hk hm hres
    obtain ⟨hfresh, hnd⟩ := List.nodup_cons.mp (List.map_cons ▸ hnd)
    obtain ⟨t, hst, hres⟩ := foldlM_cons_some hres
    have hi := hmem i List.mem_cons_self
    have hm' := auditEntry_mirrors hk hm hi hst
    refine ih t hnd ?_ ?_ hm' hres
    · intro j hj
      have hj' := hmem j (List.mem_cons_of_mem _ hj)
      rcases auditEntry_cases hst with ⟨_, rfl⟩ | ⟨_, _, _, _, _, rfl⟩
      · exact hj'
      · have hne : i.1 ≠ j.1 := fun he => hfresh (he ▸ List.mem_map_of_mem hj)
        simpa [hne] using hj'
    · rcases auditEntry_cases hst with ⟨_, rfl⟩ | ⟨_, _, _, _, _, rfl⟩
      · exact hk
      · exact hk.erase i.1

end Mirror

/-! ## Every event -/

theorem Handled.mirrors_iff {cfg : NodeConfig} {n n' : Node} {e : Event} {out : Packets}
    (hh : Handled cfg n e n' out) (hk : Keyed cfg n) (h : Mirrors cfg n) :
    Mirrors cfg n' ↔ EchoesCurrent cfg n e := by
  cases hh with
  | @refresh now _ lsMessage _ _ payload e₀ known =>
    refine iff_of_true ?_ (by simp [EchoesCurrent, payload])
    have hls : (touch now (cfg.reverseLookup lsMessage.originatorAddress) e₀ n).lsTable =
        n.lsTable := rfl
    unfold Mirrors at h ⊢
    rw [hls]
    have hsame := touch_entry now known
    cases hown : n.lsTable[cfg.thisNode]? with
    | none =>
      rw [hown] at h
      rw [h] at known; cases known
    | some entry =>
      rw [hown] at h
      exact (ListsNeighbors.congr hsame).mpr h
  | discover payload fresh _ =>
    exact iff_of_true (addNeighbor_mirrors hk fresh h) (by simp [EchoesCurrent, payload])
  | stale payload old =>
    refine iff_of_true h ?_
    simp only [EchoesCurrent, payload]
    intro hname hnew
    rw [hname, hnew] at old; cases old
  | @accept _ _ lsMessage _ payload new _ =>
    simp only [EchoesCurrent, payload]
    unfold Mirrors
    dsimp only [storeEntry]
    rw [getElem?_insert_eq]
    by_cases hname : cfg.reverseLookup lsMessage.originatorAddress = cfg.thisNode
    · rw [hname] at new
      rw [if_pos hname]
      exact ⟨fun hl _ _ => hl, fun hl => hl hname new⟩
    · rw [if_neg hname]
      exact iff_of_true h fun hn => absurd hn hname
  | quiet _ => exact iff_of_true h trivial
  | timeout _ loop _ =>
    exact iff_of_true (auditLoop_mirrors (n := (sendHello cfg n).1) hk h loop) trivial

theorem mirrors_step_iff {dijkstra : NodeConfig → Node → Option RoutingTable} {cfg : NodeConfig}
    {n n' : Node} {e : Event} (hk : Keyed cfg n) (h : Mirrors cfg n)
    (hst : step dijkstra cfg n e = some n') : Mirrors cfg n' ↔ EchoesCurrent cfg n e := by
  obtain ⟨⟨n', out⟩, hh, rfl⟩ := Option.map_eq_some_iff.mp hst
  exact (handle_cases hh).mirrors_iff hk h

/-- **When the own entry mirrors the neighbour table.** Exactly in the runs in
which no echo with another list is taken for new, whatever `Dijkstra`
does. -/
theorem mirrors_along_iff (dijkstra : NodeConfig → Node → Option RoutingTable) (cfg : NodeConfig)
    (sequenceNumber : UInt32) (es : List Event) :
    Along (step dijkstra cfg) (Mirrors cfg) (doStart sequenceNumber) es ↔
      Meets (step dijkstra cfg) (EchoesCurrent cfg) (doStart sequenceNumber) es :=
  along_iff_meets es (I := Keyed cfg) (by intro K e he; simp [doStart] at he)
    (fun _ _ _ hk h => keyed_step hk h) (by simp [Mirrors, doStart])
    fun _ _ _ hk hm h => mirrors_step_iff hk hm h

/-- Node 0 discovers nodes 1 and 2, announces both, and gets its first
announcement back from node 1. -/
def echoEvents : List Event :=
  [.recv 0 0 ⟨5, 1, 20, .helloReq 10 "hello"⟩, .recv 0 1 ⟨7, 1, 30, .helloReq 10 "hello"⟩,
    .recv 1 0 ⟨100, 15, 10, .lsTableMsg [(20, 1)]⟩]

/-- The announcement in `echoEvents` is the one node 0 sent. -/
example : ((handle dijkstra sampleConfig (doStart 100)
    (.recv 0 0 ⟨5, 1, 20, .helloReq 10 "hello"⟩)).map Prod.snd) =
      some (sampleConfig.broadcastPacket ⟨100, 16, 10, .lsTableMsg [(20, 1)]⟩) := by
  decide +kernel

/-- It drops node 2 from the own entry, not from the neighbour table. -/
theorem echo_not_mirrors :
    ¬ Along (step dijkstra sampleConfig) (Mirrors sampleConfig) (doStart 100) echoEvents := by
  intro h
  have final : (run (step dijkstra sampleConfig) (doStart 100) echoEvents).map
      (fun n => (n.lsTable["0"]?.map fun e => e.neighborCosts.map Prod.fst,
        n.neighborTable["2"]?.map (·.neighborAddr))) =
        some (some [20], some 30) := by decide +kernel
  obtain ⟨n, hn, heq⟩ := Option.map_eq_some_iff.mp final
  obtain ⟨hls, hnt⟩ := Prod.mk.inj heq
  obtain ⟨entry, hentry, hlist⟩ := Option.map_eq_some_iff.mp hls
  obtain ⟨e, he, ha⟩ := Option.map_eq_some_iff.mp hnt
  have hm := h _ n (List.prefix_refl _) hn
  have hname : sampleConfig.thisNode = "0" := by decide +kernel
  rw [Mirrors, hname, hentry] at hm
  have hmem := (hm.2 30).mpr ⟨"2", e, he, ha⟩
  rw [hlist] at hmem
  exact absurd hmem (by decide)

end Ns3Routing.Ls
