import Ns3Routing.Ls.OwnEntry

/-! # Sequence numbers and announcements

What the flooding of announcements rests on, for one event of one node. The
sequence number stored for a node never goes down (`Handled.held_mono`), an
announcement that was received is held afterwards (`Handled.held_recv`), and
the entry of another node changes only to what is sent on to all interfaces
(`Handled.entry`). `Effect` collects what the node says itself. -/

namespace Ns3Routing.Ls

open Lib

/-- The sequence number stored for `K`. -/
def heldSeq (n : Node) (K : String) : Option UInt32 := n.lsTable[K]?.map (·.sequenceNumber)

theorem heldSeq_eq_some {n : Node} {K : String} {q : UInt32} :
    heldSeq n K = some q ↔ ∃ entry, n.lsTable[K]? = some entry ∧ entry.sequenceNumber = q :=
  Option.map_eq_some_iff

theorem heldSeq_congr {n n' : Node} {K : String} (h : n'.lsTable[K]? = n.lsTable[K]?) :
    heldSeq n' K = heldSeq n K := by
  rw [heldSeq, h]; rfl

/-- A message with an announcement of the neighbours `a.2` under the number
`a.1`, as its originator sends it. -/
def ownMessage (cfg : NodeConfig) (a : UInt32 × NbrCostsVec) : LSMessage :=
  ⟨a.1, cfg.maxTTL, cfg.mainAddress, .lsTableMsg a.2⟩

/-- What an event makes a node say: `ann` is its own new announcement, if
there is one. -/
structure Effect (cfg : NodeConfig) (n : Node) (e : Event) (n' : Node) (out : Packets)
    (ann : Option (UInt32 × NbrCostsVec)) : Prop where
  /-- The number is taken from the counter. -/
  number : n.currentSequenceNumber ≤ n'.currentSequenceNumber → ∀ a, ann = some a →
    n.currentSequenceNumber ≤ a.1 ∧ a.1 < n'.currentSequenceNumber
  lists : ∀ a, ann = some a → a.2 = neighborAddrs n'
  /-- A change of the neighbour table is announced. -/
  silent : ann = none → ∀ (K : String) addr,
    (∃ e, n'.neighborTable[K]? = some e ∧ e.neighborAddr = addr) ↔
      ∃ e, n.neighborTable[K]? = some e ∧ e.neighborAddr = addr
  sent : ∀ a, ann = some a → ∀ x ∈ cfg.broadcastPacket (ownMessage cfg a), x ∈ out
  /-- Everything else is a hello or sent on. -/
  sends : ∀ x ∈ out,
    (∃ destinationAddress helloMessage, x.2.payload = .helloReq destinationAddress helloMessage ∧
      x.2.originatorAddress = cfg.mainAddress) ∨
    (∃ a, ann = some a ∧ x.2 = ownMessage cfg a) ∨
    ∃ now socket lsMessage neighborCosts, e = .recv now socket lsMessage ∧
      lsMessage.payload = .lsTableMsg neighborCosts ∧
      x.2 = { lsMessage with ttl := lsMessage.ttl - 1 }

section Effects
variable {cfg : NodeConfig} {n n' : Node} {e : Event} {out : Packets}

theorem lt_add_one_of_le {a : UInt32} (h : a ≤ a + 1) : a < a + 1 := by
  rw [UInt32.le_iff_toNat_le] at h
  rw [UInt32.lt_iff_toNat_lt]
  have := UInt32.toNat_add a 1
  have := a.toNat_lt
  simp only [UInt32.reduceToNat] at *
  omega

theorem between_of_le {a : UInt32} (h : a ≤ a + 1 + 1) : a ≤ a + 1 ∧ a + 1 < a + 1 + 1 := by
  rw [UInt32.le_iff_toNat_le] at h ⊢
  rw [UInt32.lt_iff_toNat_lt]
  have := UInt32.toNat_add a 1
  have := UInt32.toNat_add (a + 1) 1
  have := a.toNat_lt
  simp only [UInt32.reduceToNat] at *
  omega

/-- The effect of an event without an announcement of the node's own. -/
theorem Effect.unannounced
    (silent : ∀ (K : String) addr, (∃ e, n'.neighborTable[K]? = some e ∧ e.neighborAddr = addr) ↔
      ∃ e, n.neighborTable[K]? = some e ∧ e.neighborAddr = addr)
    (sends : ∀ x ∈ out,
      (∃ destinationAddress helloMessage,
        x.2.payload = .helloReq destinationAddress helloMessage ∧
          x.2.originatorAddress = cfg.mainAddress) ∨
      ∃ now socket lsMessage neighborCosts, e = .recv now socket lsMessage ∧
        lsMessage.payload = .lsTableMsg neighborCosts ∧
        x.2 = { lsMessage with ttl := lsMessage.ttl - 1 }) : Effect cfg n e n' out none where
  number _ a ha := by cases ha
  lists a ha := by cases ha
  silent _ := silent
  sent a ha := by cases ha
  sends x hx := (sends x hx).imp_right Or.inr

theorem Handled.effect (hk : Keyed cfg n) (h : Handled cfg n e n' out) :
    ∃ ann, Effect cfg n e n' out ann := by
  cases h with
  | refresh payload known =>
    exact ⟨none, .unannounced (touch_entry _ known) fun x hx => by cases hx⟩
  | @discover now socket lsMessage _ _ payload fresh routingTable =>
    refine ⟨some (n.currentSequenceNumber, neighborAddrs (addNeighbor cfg now socket lsMessage n)),
      ⟨?_, ?_, nofun, ?_, ?_⟩⟩
    · intro hle a ha
      obtain rfl := Option.some.inj ha
      exact ⟨UInt32.le_refl _, lt_add_one_of_le hle⟩
    · intro a ha
      obtain rfl := Option.some.inj ha
      rfl
    · intro a ha x hx
      obtain rfl := Option.some.inj ha
      exact hx
    · intro x hx
      exact Or.inr (Or.inl ⟨_, rfl, of_mem_broadcastPacket hx⟩)
  | stale _ _ => exact ⟨none, .unannounced (fun _ _ => Iff.rfl) fun x hx => by cases hx⟩
  | accept payload _ _ =>
    refine ⟨none, .unannounced (fun _ _ => Iff.rfl) fun x hx => ?_⟩
    exact Or.inr ⟨_, _, _, _, rfl, payload, of_mem_broadcastPacket hx⟩
  | quiet _ =>
    refine ⟨none, .unannounced (fun _ _ => Iff.rfl) fun x hx => ?_⟩
    rw [of_mem_broadcastPacket hx]
    exact Or.inl ⟨_, _, rfl, rfl⟩
  | @timeout now m expires loop routingTable =>
    have audited := auditLoop_spec (n := (sendHello cfg n).1) hk loop
    have hseq : m.currentSequenceNumber = n.currentSequenceNumber + 1 := audited.seq
    refine ⟨some (m.currentSequenceNumber, neighborAddrs m),
      ⟨?_, ?_, nofun, ?_, ?_⟩⟩
    · intro hle a ha
      obtain rfl := Option.some.inj ha
      dsimp only at hle ⊢
      rw [hseq] at hle ⊢
      exact between_of_le hle
    · intro a ha
      obtain rfl := Option.some.inj ha
      rfl
    · intro a ha x hx
      obtain rfl := Option.some.inj ha
      exact List.mem_append_right _ hx
    · intro x hx
      rcases List.mem_append.mp hx with hx | hx
      · rw [of_mem_broadcastPacket hx]
        exact Or.inl ⟨_, _, rfl, rfl⟩
      · exact Or.inr (Or.inl ⟨_, rfl, of_mem_broadcastPacket hx⟩)

end Effects

/-! ## Entries -/

section Entries
variable {cfg : NodeConfig} {n n' : Node} {e : Event} {out : Packets}

/-- What an event does to the entry of another node: nothing, the entry is
replaced by a newer one that is sent on, or the node has timed out. -/
theorem Handled.entry (hk : Keyed cfg n) (h : Handled cfg n e n' out) {K : String}
    (hK : K ≠ cfg.thisNode) :
    n'.lsTable[K]? = n.lsTable[K]? ∨
    (∃ now socket lsMessage neighborCosts, e = .recv now socket lsMessage ∧
      lsMessage.payload = .lsTableMsg neighborCosts ∧
      cfg.reverseLookup lsMessage.originatorAddress = K ∧
      isNew n K lsMessage.sequenceNumber = true ∧
      n'.lsTable[K]? = some ⟨neighborCosts, lsMessage.sequenceNumber⟩ ∧
      out = cfg.broadcastPacket { lsMessage with ttl := lsMessage.ttl - 1 }) ∨
    ∃ now, e = .auditHellos now ∧ Expires cfg now n K ∧ heldSeq n' K = heldSeq n K := by
  cases h with
  | refresh _ _ => exact Or.inl rfl
  | discover _ _ _ =>
    left
    dsimp only
    rw [addNeighbor_lsTable, if_neg hK.symm]
  | stale _ _ => exact Or.inl rfl
  | @accept _ _ lsMessage neighborCosts payload new _ =>
    dsimp only [storeEntry]
    by_cases hname : cfg.reverseLookup lsMessage.originatorAddress = K
    · refine Or.inr (Or.inl ⟨_, _, _, _, rfl, payload, hname, hname ▸ new, ?_, rfl⟩)
      rw [getElem?_insert_eq, if_pos hname]
    · left
      rw [getElem?_insert_eq, if_neg hname]
  | quiet _ => exact Or.inl rfl
  | @timeout now m _ loop _ =>
    have audited := auditLoop_spec (n := (sendHello cfg n).1) hk loop
    by_cases hx : Expires cfg now n K
    · exact Or.inr (Or.inr ⟨now, rfl, hx, audited.entrySeq K⟩)
    · exact Or.inl (audited.entryKept K hK hx)

/-- A neighbour after an event was one before, or its hello has come in. -/
theorem Handled.neighbor (hk : Keyed cfg n) (h : Handled cfg n e n' out) {K : String}
    {entry' : NeighborTableEntry} (he : n'.neighborTable[K]? = some entry') :
    (∃ entry, n.neighborTable[K]? = some entry ∧ entry.neighborAddr = entry'.neighborAddr ∧
      entry.interfaceAddr = entry'.interfaceAddr) ∨
    ∃ now socket lsMessage destinationAddress helloMessage, e = .recv now socket lsMessage ∧
      lsMessage.payload = .helloReq destinationAddress helloMessage ∧
      cfg.reverseLookup lsMessage.originatorAddress = K ∧
      entry' = ⟨lsMessage.originatorAddress, cfg.interfaceAddr socket, now⟩ := by
  cases h with
  | @refresh _ _ lsMessage _ _ _ e₀ known =>
    left
    simp only [touch, getElem?_insert_eq] at he
    split at he
    · rename_i hK
      obtain rfl := Option.some.inj he
      exact ⟨e₀, hK ▸ known, rfl, rfl⟩
    · exact ⟨entry', he, rfl, rfl⟩
  | discover payload fresh _ =>
    rw [addNeighbor_entry fresh] at he
    split at he
    · rename_i hK
      exact Or.inr ⟨_, _, _, _, _, rfl, payload, hK, (Option.some.inj he).symm⟩
    · exact Or.inl ⟨entry', he, rfl, rfl⟩
  | stale _ _ => exact Or.inl ⟨entry', he, rfl, rfl⟩
  | accept _ _ _ => exact Or.inl ⟨entry', he, rfl, rfl⟩
  | quiet _ => exact Or.inl ⟨entry', he, rfl, rfl⟩
  | timeout _ loop _ =>
    have audited := auditLoop_spec (n := (sendHello cfg n).1) hk loop
    exact Or.inl ⟨entry', ((audited.neighbors K entry').mp he).1, rfl, rfl⟩

/-- A new announcement has a greater number than the entry it replaces. -/
theorem isNew_iff {K : String} {seqNum : UInt32} :
    isNew n K seqNum = true ↔ ∀ q, heldSeq n K = some q → q < seqNum := by
  unfold isNew heldSeq
  cases n.lsTable[K]? with
  | none => simp
  | some entry => simp

theorem ownEntryWith_seq {lsMessage : LSMessage} {q : UInt32}
    (h : heldSeq n cfg.thisNode = some q) : (ownEntryWith cfg lsMessage n).sequenceNumber = q := by
  obtain ⟨entry, hentry, rfl⟩ := heldSeq_eq_some.mp h
  rw [ownEntryWith, hentry]

/-- Stored sequence numbers never go down. -/
theorem Handled.held_mono (hk : Keyed cfg n) (h : Handled cfg n e n' out) {K : String} {q : UInt32}
    (hq : heldSeq n K = some q) : ∃ q', heldSeq n' K = some q' ∧ q ≤ q' := by
  cases h with
  | refresh _ _ => exact ⟨q, hq, UInt32.le_refl q⟩
  | discover _ _ _ =>
    refine ⟨q, ?_, UInt32.le_refl q⟩
    dsimp only [heldSeq]
    rw [addNeighbor_lsTable]
    by_cases hK : cfg.thisNode = K
    · subst hK
      rw [if_pos rfl, Option.map_some, ownEntryWith_seq hq]
    · rw [if_neg hK]; exact hq
  | stale _ _ => exact ⟨q, hq, UInt32.le_refl q⟩
  | @accept _ _ lsMessage _ _ new _ =>
    dsimp only [heldSeq, storeEntry]
    rw [getElem?_insert_eq]
    by_cases hK : cfg.reverseLookup lsMessage.originatorAddress = K
    · subst hK
      rw [if_pos rfl]
      exact ⟨_, rfl, UInt32.le_of_lt (isNew_iff.mp new q hq)⟩
    · rw [if_neg hK]
      exact ⟨q, hq, UInt32.le_refl q⟩
  | quiet _ => exact ⟨q, hq, UInt32.le_refl q⟩
  | timeout _ loop _ =>
    refine ⟨q, ?_, UInt32.le_refl q⟩
    exact ((auditLoop_spec (n := (sendHello cfg n).1) hk loop).entrySeq K).trans hq

/-- After an announcement was received, its number is held, or a greater
one. -/
theorem Handled.held_recv {now socket : Nat} {lsMessage : LSMessage} {neighborCosts : NbrCostsVec}
    (payload : lsMessage.payload = .lsTableMsg neighborCosts)
    (h : Handled cfg n (.recv now socket lsMessage) n' out) :
    ∃ q, heldSeq n' (cfg.reverseLookup lsMessage.originatorAddress) = some q ∧
      lsMessage.sequenceNumber ≤ q := by
  cases h with
  | refresh hello _ => rw [payload] at hello; cases hello
  | discover hello _ _ => rw [payload] at hello; cases hello
  | stale _ old =>
    rw [← Bool.not_eq_true, isNew_iff] at old
    push Not at old
    obtain ⟨q, hq, hle⟩ := old
    exact ⟨q, hq, UInt32.not_lt.mp hle⟩
  | accept _ _ _ =>
    refine ⟨_, ?_, UInt32.le_refl _⟩
    dsimp only [heldSeq, storeEntry]
    rw [getElem?_insert_eq, if_pos rfl]; rfl

/-- What an event does to the own entry: an announcement of the node's own
replaces it, or its number stays. -/
theorem Handled.own (hk : Keyed cfg n) (h : Handled cfg n e n' out) :
    (∃ now socket lsMessage neighborCosts, e = .recv now socket lsMessage ∧
      lsMessage.payload = .lsTableMsg neighborCosts ∧
      cfg.reverseLookup lsMessage.originatorAddress = cfg.thisNode ∧
      n'.lsTable[cfg.thisNode]? = some ⟨neighborCosts, lsMessage.sequenceNumber⟩ ∧
      n'.neighborTable = n.neighborTable) ∨
    EchoesCurrent cfg n e ∧
      ∀ q, heldSeq n cfg.thisNode = some q → heldSeq n' cfg.thisNode = some q := by
  cases h with
  | refresh payload _ => exact Or.inr ⟨by simp [EchoesCurrent, payload], fun q hq => hq⟩
  | discover payload _ _ =>
    refine Or.inr ⟨by simp [EchoesCurrent, payload], fun q hq => ?_⟩
    dsimp only [heldSeq]
    rw [addNeighbor_lsTable, if_pos rfl, Option.map_some, ownEntryWith_seq hq]
  | stale payload old =>
    refine Or.inr ⟨?_, fun q hq => hq⟩
    simp only [EchoesCurrent, payload]
    intro hname hnew
    rw [hname, hnew] at old; cases old
  | @accept _ _ lsMessage neighborCosts payload _ _ =>
    dsimp only [heldSeq, storeEntry]
    by_cases hname : cfg.reverseLookup lsMessage.originatorAddress = cfg.thisNode
    · refine Or.inl ⟨_, _, _, _, rfl, payload, hname, ?_, rfl⟩
      rw [getElem?_insert_eq, if_pos hname]
    · refine Or.inr ⟨?_, fun q hq => ?_⟩
      · simp only [EchoesCurrent, payload]
        exact fun hn => absurd hn hname
      · rw [getElem?_insert_eq, if_neg hname]; exact hq
  | quiet _ => exact Or.inr ⟨trivial, fun q hq => hq⟩
  | timeout _ loop _ =>
    refine Or.inr ⟨trivial, fun q hq => ?_⟩
    exact ((auditLoop_spec (n := (sendHello cfg n).1) hk loop).entrySeq _).trans hq

end Entries

end Ns3Routing.Ls
