import Ns3Routing.Ls.Protocol
import Ns3Routing.Lib.OptionFold

/-! # What a link-state handler can do

`handle_cases` lists once what an event does to the tables and what it sends,
for any `Dijkstra`; `auditLoop_spec` is about the loop of `AuditHellos`.
Invariants are proved from these. -/

namespace Ns3Routing.Ls

open Lib

/-- The announcement node state `n` sends. -/
def announcement (cfg : NodeConfig) (n : Node) : LSMessage where
  sequenceNumber := n.currentSequenceNumber
  ttl := cfg.maxTTL
  originatorAddress := cfg.mainAddress
  payload := .lsTableMsg (neighborAddrs n)

/-- The hello node state `n` sends. -/
def helloMessage (cfg : NodeConfig) (n : Node) : LSMessage where
  sequenceNumber := n.currentSequenceNumber
  ttl := 1
  originatorAddress := cfg.mainAddress
  payload := .helloReq (cfg.resolveNodeIpAddress 0) "hello"

/-- The neighbour `K` has timed out. -/
def Expires (cfg : NodeConfig) (now : Nat) (n : Node) (K : String) : Prop :=
  ∃ e, n.neighborTable[K]? = some e ∧ e.expired cfg now = true

/-- Entries of `m_neighborTable` are stored under the name of their address. -/
def Keyed (cfg : NodeConfig) (n : Node) : Prop :=
  ∀ (K : String) e, n.neighborTable[K]? = some e → cfg.reverseLookup e.neighborAddr = K

/-- What an event does: the state it leaves and the packets it sends. -/
inductive Handled (cfg : NodeConfig) (n : Node) : Event → Node → Packets → Prop where
  /-- The hello of a known neighbour. -/
  | refresh {now socket : Nat} {lsMessage : LSMessage} {destinationAddress helloMessage}
      (payload : lsMessage.payload = .helloReq destinationAddress helloMessage)
      {e : NeighborTableEntry}
      (known : n.neighborTable[cfg.reverseLookup lsMessage.originatorAddress]? = some e) :
      Handled cfg n (.recv now socket lsMessage)
        (touch now (cfg.reverseLookup lsMessage.originatorAddress) e n) []
  /-- The hello of a new neighbour. -/
  | discover {now socket : Nat} {lsMessage : LSMessage} {destinationAddress helloMessage}
      (payload : lsMessage.payload = .helloReq destinationAddress helloMessage)
      (fresh : n.neighborTable[cfg.reverseLookup lsMessage.originatorAddress]? = none)
      (routingTable : RoutingTable) :
      Handled cfg n (.recv now socket lsMessage)
        { addNeighbor cfg now socket lsMessage n with
          routingTable
          currentSequenceNumber := n.currentSequenceNumber + 1 }
        (cfg.broadcastPacket (announcement cfg (addNeighbor cfg now socket lsMessage n)))
  /-- An announcement that is not new. -/
  | stale {now socket : Nat} {lsMessage : LSMessage} {neighborCosts : NbrCostsVec}
      (payload : lsMessage.payload = .lsTableMsg neighborCosts)
      (old : isNew n (cfg.reverseLookup lsMessage.originatorAddress)
        lsMessage.sequenceNumber = false) :
      Handled cfg n (.recv now socket lsMessage) n []
  /-- A new announcement. -/
  | accept {now socket : Nat} {lsMessage : LSMessage} {neighborCosts : NbrCostsVec}
      (payload : lsMessage.payload = .lsTableMsg neighborCosts)
      (new : isNew n (cfg.reverseLookup lsMessage.originatorAddress)
        lsMessage.sequenceNumber = true) (routingTable : RoutingTable) :
      Handled cfg n (.recv now socket lsMessage)
        { storeEntry (cfg.reverseLookup lsMessage.originatorAddress) neighborCosts
            lsMessage.sequenceNumber n with routingTable }
        (cfg.broadcastPacket { lsMessage with ttl := lsMessage.ttl - 1 })
  /-- The hello timer, and nobody has timed out. -/
  | quiet {now : Nat} (none_expires : ∀ K, ¬ Expires cfg now n K) :
      Handled cfg n (.auditHellos now) (sendHello cfg n).1 (sendHello cfg n).2
  /-- The hello timer, and somebody has. -/
  | timeout {now : Nat} {m : Node} (expires : ∃ K, Expires cfg now n K)
      (loop : n.neighborTable.toList.foldlM (auditEntry cfg now)
        ((sendHello cfg n).1, false) = some (m, true)) (routingTable : RoutingTable) :
      Handled cfg n (.auditHellos now)
        { m with routingTable, currentSequenceNumber := m.currentSequenceNumber + 1 }
        ((sendHello cfg n).2 ++ cfg.broadcastPacket (announcement cfg m))

theorem auditEntry_cases {cfg : NodeConfig} {now : Nat} {st st' : Node × Bool}
    {i : String × NeighborTableEntry} (h : auditEntry cfg now st i = some st') :
    (i.2.expired cfg now = false ∧ st' = st) ∨
      (i.2.expired cfg now = true ∧ ∃ lsTable₁ lsTable₂,
        removeLink cfg.thisNode i.2.neighborAddr st.1.lsTable = some lsTable₁ ∧
        removeLink (cfg.reverseLookup i.2.neighborAddr) cfg.mainAddress lsTable₁ = some lsTable₂ ∧
        st' = ({ st.1 with
          lsTable := lsTable₂
          neighborTable := st.1.neighborTable.erase i.1 }, true)) := by
  unfold auditEntry at h
  split at h
  · rename_i hx
    obtain ⟨t₁, h₁, h⟩ := Option.bind_eq_some_iff.mp h
    obtain ⟨t₂, h₂, h⟩ := Option.bind_eq_some_iff.mp h
    exact Or.inr ⟨hx, t₁, t₂, h₁, h₂, (Option.some.inj h).symm⟩
  · rename_i hx
    exact Or.inl ⟨by simpa using hx, (Option.some.inj h).symm⟩

/-- The flag `sendMsg` is up from the first timed-out entry on; before it
nothing has changed. -/
theorem auditLoop_flag {cfg : NodeConfig} {now : Nat} {l : List (String × NeighborTableEntry)}
    {st res : Node × Bool} (h : l.foldlM (auditEntry cfg now) st = some res) :
    res.2 = (st.2 || l.any fun i => i.2.expired cfg now) ∧
      ((∀ i ∈ l, i.2.expired cfg now = false) → res = st) := by
  induction l generalizing st with
  | nil => cases h; simp
  | cons i l ih =>
    obtain ⟨s, hs, hrest⟩ := foldlM_cons_some h
    obtain ⟨hflag, hquiet⟩ := ih hrest
    rcases auditEntry_cases hs with ⟨hx, rfl⟩ | ⟨hx, t₁, t₂, _, _, rfl⟩
    · refine ⟨by simp [hflag, hx], fun hall => hquiet fun j hj => hall j (List.mem_cons_of_mem _ hj)⟩
    · refine ⟨by simp [hflag, hx], fun hall => ?_⟩
      have := hall i List.mem_cons_self
      rw [hx] at this; cases this

theorem auditLoop_flag_iff {cfg : NodeConfig} {now : Nat} {n : Node} {st res : Node × Bool}
    (hst : st.2 = false) (h : n.neighborTable.toList.foldlM (auditEntry cfg now) st = some res) :
    (res.2 = true ↔ ∃ K, Expires cfg now n K) ∧ ((∀ K, ¬ Expires cfg now n K) → res = st) := by
  obtain ⟨hflag, hquiet⟩ := auditLoop_flag h
  refine ⟨?_, fun hno => hquiet fun i hi => ?_⟩
  · rw [hflag, hst, Bool.false_or, List.any_eq_true]
    constructor
    · intro hx
      obtain ⟨⟨K, e⟩, hi, hx⟩ := hx
      exact ⟨K, e, mem_toList.mp hi, hx⟩
    · intro hx
      obtain ⟨K, e, he, hx⟩ := hx
      exact ⟨(K, e), mem_toList.mpr he, hx⟩
  · by_contra hx
    exact hno i.1 ⟨i.2, mem_toList.mp hi, by simpa using hx⟩

section Cases
variable {dijkstra : NodeConfig → Node → Option RoutingTable} {cfg : NodeConfig} {n n' : Node}
  {e : Event} {out : Packets}

theorem runDijkstra_some (h : runDijkstra dijkstra cfg n = some n') :
    ∃ routingTable, n' = { n with routingTable } := by
  obtain ⟨routingTable, _, rfl⟩ := Option.map_eq_some_iff.mp h
  exact ⟨routingTable, rfl⟩

/-- **What one event does.** -/
theorem handle_cases (h : handle dijkstra cfg n e = some (n', out)) : Handled cfg n e n' out := by
  cases e with
  | recv now socket lsMessage =>
    simp only [handle, recvLSMessage] at h
    split at h
    · rename_i payload
      simp only [processHelloReq] at h
      split at h
      · rename_i known
        obtain ⟨rfl, rfl⟩ := Prod.mk.inj (Option.some.inj h)
        exact .refresh payload known
      · rename_i fresh
        obtain ⟨n₁, hrun, h⟩ := Option.bind_eq_some_iff.mp h
        obtain ⟨routingTable, rfl⟩ := runDijkstra_some hrun
        obtain ⟨rfl, rfl⟩ := Prod.mk.inj (Option.some.inj h)
        exact .discover payload fresh routingTable
    · rename_i payload
      simp only [processLSTableMessage] at h
      split at h
      · rename_i new
        obtain ⟨n₁, hrun, h⟩ := Option.bind_eq_some_iff.mp h
        obtain ⟨routingTable, rfl⟩ := runDijkstra_some hrun
        obtain ⟨rfl, rfl⟩ := Prod.mk.inj (Option.some.inj h)
        exact .accept payload new routingTable
      · rename_i old
        obtain ⟨rfl, rfl⟩ := Prod.mk.inj (Option.some.inj h)
        exact .stale payload (by simpa using old)
  | auditHellos now =>
    simp only [handle, auditHellos] at h
    obtain ⟨⟨m, sendMsg⟩, hloop, h⟩ := Option.bind_eq_some_iff.mp h
    obtain ⟨hflag, hquiet⟩ := auditLoop_flag_iff (n := n) rfl hloop
    cases sendMsg with
    | true =>
      obtain ⟨n₁, hrun, h⟩ := Option.bind_eq_some_iff.mp h
      obtain ⟨routingTable, rfl⟩ := runDijkstra_some hrun
      obtain ⟨rfl, rfl⟩ := Prod.mk.inj (Option.some.inj h)
      exact .timeout (hflag.mp rfl) hloop routingTable
    | false =>
      obtain ⟨rfl, rfl⟩ := Prod.mk.inj (Option.some.inj h)
      have hno : ∀ K, ¬ Expires cfg now n K := by
        intro K hK
        have := hflag.mpr ⟨K, hK⟩
        cases this
      obtain ⟨rfl, _⟩ := Prod.mk.inj (hquiet hno)
      exact .quiet hno

end Cases

/-! ## The loop of `AuditHellos` -/

theorem removeLink_some {node : String} {a : Ipv4Address} {t t' : NameMap LSTableEntry}
    (h : removeLink node a t = some t') :
    ∃ entry, t[node]? = some entry ∧ ∀ K : String, t'[K]? =
      if node = K then some { entry with neighborCosts := removeLSTableLink a entry.neighborCosts }
      else t[K]? := by
  obtain ⟨entry, hentry, h⟩ := Option.bind_eq_some_iff.mp h
  obtain rfl := Option.some.inj h
  exact ⟨entry, hentry, fun K => getElem?_insert_eq⟩

/-- Removing a link changes no sequence number. -/
theorem removeLink_seq {node : String} {a : Ipv4Address} {t t' : NameMap LSTableEntry}
    (h : removeLink node a t = some t') (K : String) :
    t'[K]?.map (·.sequenceNumber) = t[K]?.map (·.sequenceNumber) := by
  obtain ⟨entry, hentry, hget⟩ := removeLink_some h
  rw [hget]
  split
  · rename_i hK; subst hK; rw [hentry]; rfl
  · rfl

/-- The tables after the loop over `m_neighborTable`, as far as other nodes'
entries go. -/
structure Audited (cfg : NodeConfig) (now : Nat) (n m : Node) : Prop where
  seq : m.currentSequenceNumber = n.currentSequenceNumber
  neighbors : ∀ (K : String) e,
    m.neighborTable[K]? = some e ↔ n.neighborTable[K]? = some e ∧ ¬ Expires cfg now n K
  entrySeq : ∀ K : String,
    m.lsTable[K]?.map (·.sequenceNumber) = n.lsTable[K]?.map (·.sequenceNumber)
  /-- Only the own entry and those of timed-out neighbours are edited. -/
  entryKept : ∀ K : String, K ≠ cfg.thisNode → ¬ Expires cfg now n K → m.lsTable[K]? = n.lsTable[K]?

section Loop
variable {cfg : NodeConfig} {now : Nat} {n : Node} {res : Node × Bool} {flag : Bool}

/-- A pass leaves the neighbours it does not visit alone. -/
theorem auditEntry_frame {i : String × NeighborTableEntry} {s t : Node × Bool} {K : String}
    (hst : auditEntry cfg now s i = some t) (hK : K ≠ i.1) :
    t.1.neighborTable[K]? = s.1.neighborTable[K]? := by
  rcases auditEntry_cases hst with ⟨_, rfl⟩ | ⟨_, _, _, _, _, rfl⟩
  · rfl
  · simp [Ne.symm hK]

variable (h : n.neighborTable.toList.foldlM (auditEntry cfg now) (n, flag) = some res)
include h

theorem auditLoop_neighbors (K : String) (e : NeighborTableEntry) :
    res.1.neighborTable[K]? = some e ↔ n.neighborTable[K]? = some e ∧ ¬ Expires cfg now n K := by
  let get : Node × Bool → String → Option NeighborTableEntry := fun st K => st.1.neighborTable[K]?
  have frame : ∀ i ∈ n.neighborTable.toList, ∀ (s t : Node × Bool) (K : String),
      auditEntry cfg now s i = some t → K ≠ i.1 → get t K = get s K :=
    fun _ _ _ _ _ => auditEntry_frame
  show get res K = some e ↔ _
  cases he : n.neighborTable[K]? with
  | none =>
    have hframe : get res K = n.neighborTable[K]? :=
      foldlM_frame get Prod.fst frame h (fst_ne_of_none he)
    rw [hframe, he]
    simp
  | some e₀ =>
    obtain ⟨s, t, hst, hs, ht⟩ := foldlM_at get Prod.fst frame nodup_fst_toList h (mem_toList.mpr he)
    rw [ht]
    rcases auditEntry_cases hst with ⟨hx, rfl⟩ | ⟨hx, _, _, _, _, rfl⟩
    · have hkept : get t K = n.neighborTable[K]? := hs
      rw [hkept, he]
      refine (and_iff_left ?_).symm
      intro hexpires
      obtain ⟨e', he', hx'⟩ := hexpires
      rw [he] at he'
      obtain rfl := Option.some.inj he'
      rw [hx] at hx'
      cases hx'
    · refine iff_of_false (by simp [get]) ?_
      intro h
      obtain ⟨_, hno⟩ := h
      exact hno ⟨e₀, he, hx⟩

theorem auditLoop_entrySeq (K : String) :
    res.1.lsTable[K]?.map (·.sequenceNumber) = n.lsTable[K]?.map (·.sequenceNumber) := by
  refine foldlM_invariant (fun st : Node × Bool =>
    st.1.lsTable[K]?.map (·.sequenceNumber) = n.lsTable[K]?.map (·.sequenceNumber)) ?_ h rfl
  intro s i t _ hs hst
  rcases auditEntry_cases hst with ⟨_, rfl⟩ | ⟨_, t₁, t₂, h₁, h₂, rfl⟩
  · exact hs
  · exact (removeLink_seq h₂ K).trans ((removeLink_seq h₁ K).trans hs)

theorem auditLoop_entryKept (hk : Keyed cfg n) {K : String} (hself : K ≠ cfg.thisNode)
    (hno : ¬ Expires cfg now n K) : res.1.lsTable[K]? = n.lsTable[K]? := by
  refine foldlM_invariant (fun st : Node × Bool => st.1.lsTable[K]? = n.lsTable[K]?) ?_ h rfl
  intro s i t hi hs hst
  rcases auditEntry_cases hst with ⟨_, rfl⟩ | ⟨hx, t₁, t₂, h₁, h₂, rfl⟩
  · exact hs
  · obtain ⟨_, _, hget₁⟩ := removeLink_some h₁
    obtain ⟨_, _, hget₂⟩ := removeLink_some h₂
    have hname := hk i.1 i.2 (mem_toList.mp hi)
    have hne : i.1 ≠ K := by
      intro he
      obtain rfl := he
      exact hno ⟨i.2, mem_toList.mp hi, hx⟩
    dsimp only
    rw [hget₂, hname, if_neg hne, hget₁, if_neg hself.symm, hs]

end Loop

theorem auditLoop_spec {cfg : NodeConfig} {now : Nat} {n : Node} {res : Node × Bool} {flag : Bool}
    (hk : Keyed cfg n)
    (h : n.neighborTable.toList.foldlM (auditEntry cfg now) (n, flag) = some res) :
    Audited cfg now n res.1 := by
  refine ⟨?_, auditLoop_neighbors h, auditLoop_entrySeq h, fun K => auditLoop_entryKept h hk⟩
  refine foldlM_invariant (fun st : Node × Bool =>
    st.1.currentSequenceNumber = n.currentSequenceNumber) ?_ h rfl
  intro s i t _ hs hst
  rcases auditEntry_cases hst with ⟨_, rfl⟩ | ⟨_, _, _, _, _, rfl⟩
  · exact hs
  · exact hs

end Ns3Routing.Ls
