import Ns3Routing.Dv.BellmanFord

/-! # What a handler can do to the tables

Every event either leaves the tables alone, up to the time of the last hello
(`SameTables`), or edits them and runs `BellmanFord` once (`BeforeBF` gives
the tables it runs on). `step_cases` says so once; invariants are proved from
it. -/

namespace Ns3Routing.Dv

open Lib

/-- An entry without the time of the last hello, which no table is computed
from. -/
def NeighborTableEntry.core (e : NeighborTableEntry) :
    Ipv4Address × Ipv4Address × DistanceVector :=
  (e.neighborAddr, e.interfaceAddr, e.dv)

/-- The tables agree up to the times of the last hellos. -/
structure SameTables (n n' : Node) : Prop where
  dv : n'.dv = n.dv
  costs : n'.costs = n.costs
  routingTable : n'.routingTable = n.routingTable
  neighborTable : ∀ K : String,
    n'.neighborTable[K]?.map (·.core) = n.neighborTable[K]?.map (·.core)

theorem SameTables.entry {n n' : Node} (h : SameTables n n') {K : String} {e' : NeighborTableEntry}
    (he : n'.neighborTable[K]? = some e') : ∃ e, n.neighborTable[K]? = some e ∧ e'.core = e.core := by
  have hK := h.neighborTable K
  rw [he] at hK
  obtain ⟨e, hn, hc⟩ := Option.map_eq_some_iff.mp hK.symm
  exact ⟨e, hn, hc.symm⟩

theorem SameTables.symm {n n' : Node} (h : SameTables n n') : SameTables n' n :=
  ⟨h.dv.symm, h.costs.symm, h.routingTable.symm, fun K => (h.neighborTable K).symm⟩

theorem SameTables.mem {n n' : Node} (h : SameTables n n') {K : String} :
    K ∈ n'.neighborTable ↔ K ∈ n.neighborTable := by
  simp only [mem_iff_getElem?]
  exact ⟨fun ⟨_, he⟩ => (h.entry he).imp fun _ h => h.1,
    fun ⟨_, he⟩ => (h.symm.entry he).imp fun _ h => h.1⟩

theorem SameTables.lists {n n' : Node} (h : SameTables n n') {N D : String} {c v : UInt32}
    (hl : Lists n N D c v) : Lists n' N D c v := by
  obtain ⟨hc, e, he, hv⟩ := hl
  obtain ⟨e', he', hcore⟩ := h.symm.entry he
  have hdv : e.dv = e'.dv := congrArg (·.2.2) hcore
  exact ⟨h.costs ▸ hc, e', he', hdv ▸ hv⟩

/-! ## The loop of `AuditHellos` -/

/-- The neighbour `K` has timed out. -/
def Expires (cfg : NodeConfig) (now : Nat) (n : Node) (K : String) : Prop :=
  ∃ e, n.neighborTable[K]? = some e ∧ e.expired cfg now = true

/-- Entries are stored under the name of their address. -/
def Keyed (cfg : NodeConfig) (n : Node) : Prop :=
  ∀ (K : String) e, n.neighborTable[K]? = some e → cfg.reverseLookup e.neighborAddr = K

theorem auditEntry_cases {cfg : NodeConfig} {now : Nat} {st st' : Node × Bool}
    {i : String × NeighborTableEntry} (h : auditEntry cfg now st i = some st')
    (hi : cfg.reverseLookup i.2.neighborAddr = i.1) :
    (i.2.expired cfg now = false ∧ st' = st) ∨
      (i.2.expired cfg now = true ∧ i.1 ∈ st.1.costs ∧
        st' = ({ st.1 with
          dv := st.1.dv.insert i.1 mInf
          costs := st.1.costs.erase i.1
          neighborTable := st.1.neighborTable.erase i.1 }, true)) := by
  unfold auditEntry at h
  rw [hi] at h
  split at h
  · rename_i hx
    dsimp only at h
    split at h
    · rename_i hc
      exact Or.inr ⟨hx, hc, (Option.some.inj h).symm⟩
    · cases h
  · rename_i hx
    exact Or.inl ⟨by simpa using hx, (Option.some.inj h).symm⟩

/-- The tables after the loop over `m_neighborTable`: timed-out neighbours are
gone and preset to infinity, everything else is as before. -/
structure Audited (cfg : NodeConfig) (now : Nat) (n m : Node) : Prop where
  seq : m.currentSequenceNumber = n.currentSequenceNumber
  routingTable : m.routingTable = n.routingTable
  gone : ∀ K, Expires cfg now n K →
    K ∈ n.costs ∧ m.neighborTable[K]? = none ∧ m.costs[K]? = none ∧ m.dv[K]? = some mInf
  kept : ∀ K : String, ¬ Expires cfg now n K →
    m.neighborTable[K]? = n.neighborTable[K]? ∧ m.costs[K]? = n.costs[K]? ∧ m.dv[K]? = n.dv[K]?

section AuditLoop
variable {cfg : NodeConfig} {now : Nat} {n : Node} {res : Node × Bool} (hk : Keyed cfg n)
include hk

theorem auditEntry_key {i : String × NeighborTableEntry} (hi : i ∈ n.neighborTable.toList) :
    cfg.reverseLookup i.2.neighborAddr = i.1 := hk i.1 i.2 (mem_toList.mp hi)

theorem auditEntry_frame {i : String × NeighborTableEntry} (hi : i ∈ n.neighborTable.toList)
    (s t : Node × Bool) (K : String) (h : auditEntry cfg now s i = some t) (hne : K ≠ i.1) :
    (t.1.neighborTable[K]?, t.1.costs[K]?, t.1.dv[K]?) =
      (s.1.neighborTable[K]?, s.1.costs[K]?, s.1.dv[K]?) := by
  rcases auditEntry_cases h (auditEntry_key hk hi) with ⟨_, rfl⟩ | ⟨_, _, rfl⟩
  · rfl
  · simp [Ne.symm hne]

theorem auditLoop_spec
    (h : n.neighborTable.toList.foldlM (auditEntry cfg now) (n, false) = some res) :
    Audited cfg now n res.1 := by
  let get : Node × Bool → String → Option NeighborTableEntry × Option UInt32 × Option UInt32 :=
    fun st K => (st.1.neighborTable[K]?, st.1.costs[K]?, st.1.dv[K]?)
  have frame := fun i (hi : i ∈ n.neighborTable.toList) s t K (hst : auditEntry cfg now s i = some t) =>
    auditEntry_frame hk hi s t K hst
  have rest : res.1.currentSequenceNumber = n.currentSequenceNumber ∧
      res.1.routingTable = n.routingTable := by
    refine foldlM_invariant (fun st : Node × Bool =>
      st.1.currentSequenceNumber = n.currentSequenceNumber ∧
        st.1.routingTable = n.routingTable) ?_ h ⟨rfl, rfl⟩
    intro s i t hi hs hst
    rcases auditEntry_cases hst (auditEntry_key hk hi) with ⟨_, rfl⟩ | ⟨_, _, rfl⟩ <;> exact hs
  refine ⟨rest.1, rest.2, ?_, ?_⟩
  · intro K hx
    obtain ⟨e, he, hx⟩ := hx
    have hi := mem_toList.mpr he
    obtain ⟨s, t, hu, hs, ht⟩ := foldlM_at get Prod.fst frame nodup_fst_toList h hi
    rcases auditEntry_cases hu (auditEntry_key hk hi) with ⟨hx', _⟩ | ⟨_, hc, rfl⟩
    · rw [hx] at hx'; cases hx'
    · have hsc : s.1.costs[K]? = n.costs[K]? := congrArg (·.2.1) hs
      have hv : get res K = (none, none, some mInf) := ht.trans (by simp [get])
      refine ⟨?_, congrArg (·.1) hv, congrArg (·.2.1) hv, congrArg (·.2.2) hv⟩
      rw [mem_iff_getElem?] at hc ⊢
      rwa [← hsc]
  · intro K hno
    have hget : get res K = get (n, false) K := by
      cases he : n.neighborTable[K]? with
      | none =>
        exact foldlM_frame get Prod.fst frame h (fst_ne_of_none he)
      | some e =>
        have hi := mem_toList.mpr he
        obtain ⟨s, t, hu, hs, ht⟩ := foldlM_at get Prod.fst frame nodup_fst_toList h hi
        rcases auditEntry_cases hu (auditEntry_key hk hi) with ⟨_, rfl⟩ | ⟨hx, _, _⟩
        · exact ht.trans hs
        · exact absurd ⟨e, he, hx⟩ hno
    exact ⟨congrArg (·.1) hget, congrArg (·.2.1) hget, congrArg (·.2.2) hget⟩

/-- The flag `sendMsg` is up from the first timed-out entry on. -/
theorem auditLoop_flag {l : List (String × NeighborTableEntry)} {st : Node × Bool}
    (hl : ∀ i ∈ l, i ∈ n.neighborTable.toList) (h : l.foldlM (auditEntry cfg now) st = some res) :
    res.2 = (st.2 || l.any fun i => i.2.expired cfg now) := by
  induction l generalizing st with
  | nil => cases h; simp
  | cons i l ih =>
    obtain ⟨s, hs, hrest⟩ := foldlM_cons_some h
    rw [ih (fun j hj => hl j (List.mem_cons_of_mem _ hj)) hrest]
    rcases auditEntry_cases hs (auditEntry_key hk (hl i List.mem_cons_self)) with
      ⟨hx, rfl⟩ | ⟨hx, _, rfl⟩ <;> simp [hx]

theorem auditLoop_flag_iff
    (h : n.neighborTable.toList.foldlM (auditEntry cfg now) (n, false) = some res) :
    res.2 = true ↔ ∃ K, Expires cfg now n K := by
  rw [auditLoop_flag hk (fun _ hi => hi) h, Bool.false_or, List.any_eq_true]
  constructor
  · intro hx
    obtain ⟨⟨K, e⟩, hi, hx⟩ := hx
    exact ⟨K, e, mem_toList.mp hi, hx⟩
  · intro hx
    obtain ⟨K, e, he, hx⟩ := hx
    exact ⟨(K, e), mem_toList.mpr he, hx⟩

/-- Without a timed-out neighbour the loop changes nothing. -/
theorem auditLoop_quiet
    (h : n.neighborTable.toList.foldlM (auditEntry cfg now) (n, false) = some res)
    (hno : ∀ K, ¬ Expires cfg now n K) : res.1 = n := by
  refine foldlM_invariant (fun st : Node × Bool => st.1 = n) ?_ h rfl
  intro s i t hi hs hst
  rcases auditEntry_cases hst (auditEntry_key hk hi) with ⟨_, rfl⟩ | ⟨hx, _, _⟩
  · exact hs
  · exact absurd ⟨i.2, mem_toList.mp hi, hx⟩ (hno i.1)

theorem auditLoop_exists {l : List (String × NeighborTableEntry)} {st : Node × Bool}
    (hl : ∀ i ∈ l, i ∈ n.neighborTable.toList) (nodup : (l.map Prod.fst).Nodup)
    (hc : ∀ i ∈ l, i.2.expired cfg now = true → i.1 ∈ st.1.costs) :
    ∃ res, l.foldlM (auditEntry cfg now) st = some res := by
  induction l generalizing st with
  | nil => exact ⟨st, rfl⟩
  | cons i l ih =>
    obtain ⟨hfresh, hnd⟩ := List.nodup_cons.mp (List.map_cons ▸ nodup)
    have fresh : ∀ j ∈ l, j.1 ≠ i.1 := fun j hj he => hfresh (he ▸ List.mem_map_of_mem hj)
    have hi := hl i List.mem_cons_self
    obtain ⟨t, ht⟩ : ∃ t, auditEntry cfg now st i = some t := by
      unfold auditEntry
      rw [auditEntry_key hk hi]
      split
      · rename_i hx
        exact ⟨_, if_pos (hc i List.mem_cons_self hx)⟩
      · exact ⟨_, rfl⟩
    obtain ⟨res, hres⟩ := @ih t (fun j hj => hl j (List.mem_cons_of_mem _ hj)) hnd (by
      intro j hj hx
      have hjc := hc j (List.mem_cons_of_mem _ hj) hx
      have hsame : t.1.costs[j.1]? = st.1.costs[j.1]? :=
        congrArg (·.2.1) (auditEntry_frame hk hi st t j.1 ht (fresh j hj))
      rw [mem_iff_getElem?] at hjc ⊢
      rwa [hsame])
    exact ⟨res, by simp [List.foldlM_cons, ht, hres]⟩

/-- The loop never erases `end ()` exactly when every timed-out neighbour is
in `m_costs`. -/
theorem auditLoop_defined_iff :
    (∃ res, n.neighborTable.toList.foldlM (auditEntry cfg now) (n, false) = some res) ↔
      ∀ K, Expires cfg now n K → K ∈ n.costs := by
  constructor
  · intro hx K hK
    obtain ⟨res, h⟩ := hx
    exact ((auditLoop_spec hk h).gone K hK).1
  · intro hc
    exact auditLoop_exists hk (fun _ hi => hi) nodup_fst_toList
      fun i hi hx => hc i.1 ⟨i.2, mem_toList.mp hi, hx⟩

end AuditLoop

/-! ## One event -/

/-- The tables on which an event runs `BellmanFord`, and the vector it passes
to it. -/
inductive BeforeBF (cfg : NodeConfig) (n : Node) : Event → Node → DistanceVector → Prop where
  | hello {now socket : Nat} {dvMessage : DVMessage} {destinationAddress helloMessage}
      (payload : dvMessage.payload = .helloReq destinationAddress helloMessage)
      (fresh : n.neighborTable[cfg.reverseLookup dvMessage.originatorAddress]? = none) :
      BeforeBF cfg n (.recv now socket dvMessage)
        (addNeighbor cfg now socket dvMessage.originatorAddress n) ∅
  | dvTable {now socket : Nat} {dvMessage : DVMessage} {neighborCosts}
      (payload : dvMessage.payload = .dvTableMsg neighborCosts) :
      BeforeBF cfg n (.recv now socket dvMessage)
        (storeVector cfg now socket dvMessage.originatorAddress
          (receivedVector cfg neighborCosts) n)
        (receivedVector cfg neighborCosts)
  | audit {now : Nat} {m : Node}
      (audited : Audited cfg now (sendHello cfg n).1 m)
      (expires : ∃ K, Expires cfg now n K) : BeforeBF cfg n (.auditHellos now) m m.dv

/-- The events that do not run `BellmanFord`: the hello of a known neighbour,
and the hello timer when nobody timed out. -/
inductive Quiet (cfg : NodeConfig) (n : Node) : Event → Prop where
  | hello {now socket : Nat} {dvMessage : DVMessage} {destinationAddress helloMessage}
      (payload : dvMessage.payload = .helloReq destinationAddress helloMessage)
      {e : NeighborTableEntry}
      (known : n.neighborTable[cfg.reverseLookup dvMessage.originatorAddress]? = some e) :
      Quiet cfg n (.recv now socket dvMessage)
  | audit {now : Nat} (none_expires : ∀ K, ¬ Expires cfg now n K) : Quiet cfg n (.auditHellos now)

theorem refresh_sameTables {n : Node} {K : String} {e : NeighborTableEntry} {now : Nat}
    (he : n.neighborTable[K]? = some e) :
    SameTables n
      { n with neighborTable := n.neighborTable.insert K { e with lastUpdated := now } } := by
  refine ⟨rfl, rfl, rfl, fun k => ?_⟩
  dsimp only
  rw [getElem?_insert_eq]
  split
  · rename_i hk; subst hk; rw [he]; rfl
  · rfl

theorem Recomputed.of_seq {cfg : NodeConfig} {m n' : Node} {known : DistanceVector} {seq : UInt32}
    (h : Recomputed cfg m known n') :
    Recomputed cfg m known { n' with currentSequenceNumber := seq } :=
  ⟨h.costs, h.neighborTable, h.unknown, h.self, h.dest⟩

/-- The hello an event broadcasts. -/
def helloPackets (cfg : NodeConfig) (n : Node) : Event → Packets
  | .recv _ _ _ => []
  | .auditHellos _ => (sendHello cfg n).2

/-- The event is a hello message. -/
def Event.IsHello : Event → Prop
  | .recv _ _ dvMessage => ∃ destinationAddress helloMessage,
      dvMessage.payload = .helloReq destinationAddress helloMessage
  | .auditHellos _ => False

/-- **What one event does.** The tables stay, or `BellmanFord` recomputes them
from tables that were edited first, and the new vector is sent to every
neighbour some number of times: at least once for a new neighbour, and when
`m_dv` changed. -/
theorem handle_cases {cfg : NodeConfig} {n n' : Node} {e : Event} {out : Packets}
    (hk : Keyed cfg n) (h : handle cfg n e = some (n', out)) :
    (SameTables n n' ∧ Quiet cfg n e ∧ out = helloPackets cfg n e) ∨
      ∃ m ndv, BeforeBF cfg n e m ndv ∧ Recomputed cfg m (addUnknown m.dv ndv) n' ∧
        ∃ rounds : List UInt32, out = helloPackets cfg n e ++ rounds.flatMap (dvRound cfg n') ∧
          (rounds = [] → n'.dv = addUnknown m.dv ndv ∧ ¬ e.IsHello) := by
  cases e with
  | recv now socket dvMessage =>
    simp only [handle, recvDVMessage] at h
    split at h
    · rename_i destinationAddress helloMessage hp
      simp only [processHelloReq] at h
      split at h
      · rename_i e he
        obtain ⟨rfl, rfl⟩ := Prod.mk.inj (Option.some.inj h)
        exact Or.inl ⟨refresh_sameTables he, .hello hp he, rfl⟩
      · rename_i he
        obtain ⟨⟨n₁, sent⟩, hbf, h⟩ := Option.bind_eq_some_iff.mp h
        obtain ⟨⟨n₂, resent⟩, hsend, h⟩ := Option.bind_eq_some_iff.mp h
        obtain ⟨rfl, rfl⟩ := Prod.mk.inj (Option.some.inj h)
        obtain ⟨hn₂, rfl⟩ := sendDVTableMessage_spec hsend
        obtain ⟨hrec, hsent⟩ := bellmanFord_spec hbf
        refine Or.inr ⟨_, _, .hello hp he, hn₂ ▸ hrec.of_seq, ?_⟩
        subst hn₂
        rcases hsent with ⟨rfl, _⟩ | rfl
        · exact ⟨[_], by simp [helloPackets]; rfl, by simp⟩
        · exact ⟨[_, _], by simp [helloPackets]; rfl, by simp⟩
    · rename_i neighborCosts hp
      simp only [processDVTableMessage, DVMessage.neighborCosts, hp] at h
      obtain ⟨hrec, hsent⟩ := bellmanFord_spec h
      refine Or.inr ⟨_, _, .dvTable hp, hrec, ?_⟩
      rcases hsent with ⟨rfl, hdv⟩ | rfl
      · refine ⟨[], rfl, fun _ => ⟨hdv, ?_⟩⟩
        intro hx
        obtain ⟨_, _, hp'⟩ := hx
        rw [hp] at hp'; cases hp'
      · exact ⟨[_], by simp [helloPackets]; rfl, by simp⟩
  | auditHellos now =>
    simp only [handle, auditHellos] at h
    obtain ⟨⟨m, sendMsg⟩, hloop, h⟩ := Option.bind_eq_some_iff.mp h
    have hflag := auditLoop_flag_iff (n := (sendHello cfg n).1) hk hloop
    cases sendMsg with
    | true =>
      obtain ⟨⟨n₁, sent⟩, hbf, h⟩ := Option.bind_eq_some_iff.mp h
      obtain ⟨rfl, rfl⟩ := Prod.mk.inj (Option.some.inj h)
      obtain ⟨hrec, hsent⟩ := bellmanFord_spec hbf
      refine Or.inr ⟨m, m.dv, .audit (auditLoop_spec (n := (sendHello cfg n).1) hk hloop)
        (hflag.mp rfl), hrec, ?_⟩
      rcases hsent with ⟨rfl, hdv⟩ | rfl
      · exact ⟨[], by simp [helloPackets], fun _ => ⟨hdv, id⟩⟩
      · exact ⟨[_], by simp [helloPackets]; rfl, by simp⟩
    | false =>
      obtain ⟨rfl, rfl⟩ := Prod.mk.inj (Option.some.inj h)
      have hno : ∀ K, ¬ Expires cfg now n K := by
        intro K hK
        have := hflag.mpr ⟨K, hK⟩
        cases this
      have hm := auditLoop_quiet (n := (sendHello cfg n).1) hk hloop hno
      dsimp only at hm
      exact Or.inl ⟨hm ▸ ⟨rfl, rfl, rfl, fun _ => rfl⟩, .audit hno, rfl⟩

/-- What one event does to the tables. -/
theorem step_cases {cfg : NodeConfig} {n n' : Node} {e : Event} (hk : Keyed cfg n)
    (hstep : step cfg n e = some n') :
    (SameTables n n' ∧ Quiet cfg n e) ∨
      ∃ m ndv, BeforeBF cfg n e m ndv ∧ Recomputed cfg m (addUnknown m.dv ndv) n' := by
  obtain ⟨⟨n', out⟩, h, rfl⟩ := Option.map_eq_some_iff.mp hstep
  rcases handle_cases hk h with ⟨hs, hq, _⟩ | ⟨m, ndv, hb, hrec, _⟩
  · exact Or.inl ⟨hs, hq⟩
  · exact Or.inr ⟨m, ndv, hb, hrec⟩

end Ns3Routing.Dv
