import Ns3Routing.Lib.Lease
import Ns3Routing.Dv.Host
import Ns3Routing.Ls.Host

/-! # Who is a neighbour, and on which interface

Both protocols keep `m_neighborTable` in the same way: an entry is a lease
that hellos renew and `AuditHellos` drops, and its interface is that of the
message that began it. `Hearing` is what a protocol has to provide for that.
In a network with a clock, the log of what a node has heard decides who is in
the table after `AuditHellos` (`Hearing.exact`); the stored interface is one
the neighbour was heard on lately when its hellos come in on that interface
(`Hearing.live`), and `parallel_link_down` is a run where it is not. -/

namespace Ns3Routing

open Lib Ns3Routing.Topology

/-- How a protocol keeps its neighbours. -/
structure Hearing {σ M A : Type} (C : Control σ M A) where
  /-- The interface of a neighbour, and the time it was heard last. -/
  neighbors : σ → Leases String Ipv4Address
  /-- The node a message counts as heard from. -/
  hears : NodeConfig → σ → M → Option String
  /-- The time of the hello timer. -/
  audit : A → Option ℕ
  inv : NodeConfig → σ → Prop
  inv_handle : ∀ {cfg n e n' out}, inv cfg n → C.handle cfg n e = some (n', out) → inv cfg n'
  inv_set : ∀ {cfg n q}, inv cfg n → inv cfg (C.setSequenceNumber n q)
  neighbors_set : ∀ {n q}, neighbors (C.setSequenceNumber n q) = neighbors n
  neighbors_recv : ∀ {cfg now socket m n n' out}, inv cfg n →
    C.recv cfg now socket m n = some (n', out) →
    neighbors n' = match hears cfg n m with
      | some K => (neighbors n).renew K (cfg.interfaceAddr socket) now
      | none => neighbors n
  neighbors_act : ∀ {cfg a n n' out}, inv cfg n → C.act cfg a n = some (n', out) →
    neighbors n' = match audit a with
      | some now => (neighbors n).expire cfg.helloTimeout now
      | none => neighbors n

namespace Hearing

variable {σ M A : Type} {C : Control σ M A} (H : Hearing C)

/-- What a node hears in an event: the neighbour, the interface and the
time. -/
def heardIn (cfg : NodeConfig) (n : Host σ) (e : NodeEvent (HostMessage M) (HostAct A)) :
    List (String × Ipv4Address × ℕ) :=
  match e.control? with
  | some (.recv now socket m) =>
    ((H.hears cfg n.control m).map fun K => (K, cfg.interfaceAddr socket, now)).toList
  | _ => []

section Net
variable (T : Topology) (i : Fin T.size)

/-- What node `i` hears in a step of the network. -/
def heard (s : FaultyNet T (Host σ) (HostMessage M)) (lab : FaultyLabel T (HostAct A)) :
    List (String × Ipv4Address × ℕ) :=
  match lab.event? s with
  | some (j, e) => if j = i then H.heardIn (T.config i) (s.node i) e else []
  | none => []

/-- The time of a step. -/
def time : FaultyLabel T (HostAct A) → Option ℕ
  | .deliver _ _ now => some now
  | .act _ (.control a) => H.audit a
  | .act _ (.ping now _ _) => some now
  | .act _ (.auditPings now) => some now
  | .lose _ _ | .duplicate _ _ | .linkDown _ | .linkUp _ => none

/-- The network with a clock and the log of what node `i` has heard. -/
abbrev State := (FaultyNet T (Host σ) (HostMessage M) × ℕ) × List (String × Ipv4Address × ℕ)

def step : State (σ := σ) (M := M) T → FaultyLabel T (HostAct A) →
    Option (State (σ := σ) (M := M) T) :=
  logged (fun st => H.heard T i st.1) (clocked (H.time T) (faultyStep (host C)))

end Net

/-! ## One event -/

section Event
variable {cfg : NodeConfig} {n n' : Host σ} {e : NodeEvent (HostMessage M) (HostAct A)}
  {out : List (Ipv4Address × HostMessage M)}

variable {H}

/-- What an event does to the neighbours. -/
theorem neighbors_handle (hn : H.inv cfg n.control)
    (h : (host C).handle cfg n e = some (n', out)) :
    H.inv cfg n'.control ∧ H.neighbors n'.control = match e.control? with
      | some (.recv now socket m) => (match H.hears cfg n.control m with
        | some K => (H.neighbors n.control).renew K (cfg.interfaceAddr socket) now
        | none => H.neighbors n.control)
      | some (.act a) => (match H.audit a with
        | some now => (H.neighbors n.control).expire cfg.helloTimeout now
        | none => H.neighbors n.control)
      | none => H.neighbors n.control := by
  rcases host_cases h with ⟨e₀, out₀, he₀, hc, _⟩ | ⟨hnone, hsame, _⟩
  · refine ⟨H.inv_handle hn hc, ?_⟩
    rw [he₀]
    cases e₀ with
    | recv now socket m => exact H.neighbors_recv hn hc
    | act a => exact H.neighbors_act hn hc
  · rw [hnone]
    rcases hsame with hsame | ⟨q, hsame⟩
    · rw [hsame]
      exact ⟨hn, rfl⟩
    · rw [hsame]
      exact ⟨H.inv_set hn, H.neighbors_set⟩

end Event

/-! ## Runs -/

section Runs
variable {H} {T : Topology} {i : Fin T.size} {st st' : State (σ := σ) (M := M) T}
  {lab : FaultyLabel T (HostAct A)}

/-- What node `i` hears of a neighbour in its table comes in on the interface
stored there. -/
def OnStoredInterface (H : Hearing C) (T : Topology) (i : Fin T.size)
    (st : State (σ := σ) (M := M) T) (lab : FaultyLabel T (HostAct A)) : Prop :=
  ∀ K a t, (K, a, t) ∈ H.heard T i st.1.1 lab → ∀ a₀ t₀,
    H.neighbors (st.1.1.node i).control K = some (a₀, t₀) → a = a₀

/-- The same as a check. -/
def onStoredInterface (H : Hearing C) (T : Topology) (i : Fin T.size)
    (st : State (σ := σ) (M := M) T) (lab : FaultyLabel T (HostAct A)) : Bool :=
  (H.heard T i st.1.1 lab).all fun x =>
    (H.neighbors (st.1.1.node i).control x.1).all fun y => x.2.1 == y.1

theorem onStoredInterface_sound (h : H.onStoredInterface T i st lab = true) :
    H.OnStoredInterface T i st lab := by
  intro K a t hmem a₀ t₀ hK
  have hall := List.all_eq_true.mp h (K, a, t) hmem
  simpa [hK] using hall

/-- The time of a step is the time of its event. -/
theorem time_event {s : FaultyNet T (Host σ) (HostMessage M)} {j : Fin T.size}
    {e : NodeEvent (HostMessage M) (HostAct A)} {e₀ : NodeEvent M A}
    (h : lab.event? s = some (j, e)) (he : e.control? = some e₀) :
    H.time T lab = match e₀ with
      | .recv now _ _ => some now
      | .act a => H.audit a := by
  cases lab with
  | deliver p k now =>
    simp only [FaultyLabel.event?] at h
    split at h
    · rename_i m _
      split at h
      · obtain ⟨_, rfl⟩ := Prod.mk.inj (Option.some.inj h)
        cases m with
        | control m =>
          obtain rfl := Option.some.inj he
          rfl
        | pingReq m => cases he
        | pingRsp m => cases he
      · cases h
    · cases h
  | act j' a =>
    obtain ⟨_, rfl⟩ := Prod.mk.inj (Option.some.inj h)
    cases a with
    | control a =>
      obtain rfl := Option.some.inj he
      rfl
    | ping _ _ _ => cases he
    | auditPings _ => cases he
  | lose _ _ => cases h
  | duplicate _ _ => cases h
  | linkDown _ => cases h
  | linkUp _ => cases h

/-- **What a step does to the table of node `i`**: a lease is renewed, old
leases are dropped, or nothing happens. -/
theorem step_cases (hn : H.inv (T.config i) (st.1.1.node i).control)
    (h : H.step T i st lab = some st') :
    H.inv (T.config i) (st'.1.1.node i).control ∧ st.1.2 ≤ st'.1.2 ∧
      st'.2 = st.2 ++ H.heard T i st.1.1 lab ∧
      ((∃ K a, H.heard T i st.1.1 lab = [(K, a, st'.1.2)] ∧ H.neighbors (st'.1.1.node i).control =
          (H.neighbors (st.1.1.node i).control).renew K a st'.1.2) ∨
        H.heard T i st.1.1 lab = [] ∧
          (H.neighbors (st'.1.1.node i).control = H.neighbors (st.1.1.node i).control ∨
            H.neighbors (st'.1.1.node i).control =
              (H.neighbors (st.1.1.node i).control).expire (T.config i).helloTimeout st'.1.2)) := by
  obtain ⟨⟨s', clock'⟩, hc, rfl⟩ := Option.map_eq_some_iff.mp h
  obtain ⟨hle, hclock, hst⟩ := clocked_some hc
  dsimp only at hle hclock hst ⊢
  rcases faultyStep_cases hst with ⟨j, e, out, hev, ha⟩ | ⟨hev, hstill⟩
  · by_cases hj : j = i
    · subst hj
      obtain ⟨hinv, hnb⟩ := neighbors_handle hn ha.handled
      refine ⟨hinv, hle, rfl, ?_⟩
      have hheard : H.heard T j st.1.1 lab = H.heardIn (T.config j) (st.1.1.node j) e := by
        simp [heard, hev]
      rw [hheard, heardIn]
      cases he₀ : e.control? with
      | none =>
        rw [he₀] at hnb
        exact Or.inr ⟨rfl, Or.inl hnb⟩
      | some e₀ =>
        rw [he₀] at hnb
        rw [time_event hev he₀] at hclock
        cases e₀ with
        | recv now socket m =>
          obtain rfl : clock' = now := hclock
          dsimp only at hnb ⊢
          cases hK : H.hears (T.config j) (st.1.1.node j).control m with
          | none =>
            rw [hK] at hnb
            exact Or.inr ⟨rfl, Or.inl hnb⟩
          | some K =>
            rw [hK] at hnb
            exact Or.inl ⟨K, _, rfl, hnb⟩
        | act a =>
          dsimp only at hnb hclock ⊢
          refine Or.inr ⟨rfl, ?_⟩
          cases hnow : H.audit a with
          | none =>
            rw [hnow] at hnb
            exact Or.inl hnb
          | some now =>
            rw [hnow] at hnb hclock
            obtain rfl : clock' = now := hclock
            exact Or.inr hnb
    · have hheard : H.heard T i st.1.1 lab = [] := by simp [heard, hev, hj]
      rw [ha.others i (Ne.symm hj)]
      exact ⟨hn, hle, rfl, Or.inr ⟨hheard, Or.inl rfl⟩⟩
  · have hheard : H.heard T i st.1.1 lab = [] := by simp [heard, hev]
    rw [hstill.node]
    exact ⟨hn, hle, rfl, Or.inr ⟨hheard, Or.inl rfl⟩⟩

/-- The table of node `i` is what its log makes of it. -/
structure Kept (H : Hearing C) (T : Topology) (i : Fin T.size) (st : State (σ := σ) (M := M) T) :
    Prop where
  inv : H.inv (T.config i) (st.1.1.node i).control
  leased : Leased (T.config i).helloTimeout st.2 (H.neighbors (st.1.1.node i).control) st.1.2

theorem Kept.step (h : Kept H T i st) (hst : H.step T i st lab = some st') : Kept H T i st' := by
  obtain ⟨hinv, hle, hlog, hcases⟩ := step_cases h.inv hst
  refine ⟨hinv, ?_⟩
  rw [hlog]
  rcases hcases with ⟨K, a, hheard, hnb⟩ | ⟨hheard, hnb⟩
  · rw [hheard, hnb]
    exact h.leased.renew hle K a
  · rw [hheard, List.append_nil]
    rcases hnb with hnb | hnb
    · rw [hnb]
      exact h.leased.later hle
    · rw [hnb]
      exact h.leased.expire hle

theorem inPlace_step (h : Kept H T i st)
    (hp : InPlace st.2 (H.neighbors (st.1.1.node i).control)) (hst : H.step T i st lab = some st')
    (hon : H.OnStoredInterface T i st lab) :
    InPlace st'.2 (H.neighbors (st'.1.1.node i).control) := by
  obtain ⟨_, _, hlog, hcases⟩ := step_cases h.inv hst
  rw [hlog]
  rcases hcases with ⟨K, a, hheard, hnb⟩ | ⟨hheard, hnb⟩
  · rw [hheard, hnb]
    exact hp.renew fun a₀ t₀ hk => hon K a _ (hheard ▸ List.mem_singleton.mpr rfl) a₀ t₀ hk
  · rw [hheard, List.append_nil]
    rcases hnb with hnb | hnb
    · rw [hnb]
      exact hp
    · rw [hnb]
      exact hp.expire

/-- Nodes that have just started. -/
def Fresh (H : Hearing C) (T : Topology) (node : Fin T.size → Host σ) : Prop :=
  ∀ i, H.inv (T.config i) (node i).control ∧ ∀ K, H.neighbors (node i).control K = none

theorem Fresh.kept {node : Fin T.size → Host σ} (h : Fresh H T node) (i : Fin T.size) :
    Kept H T i ((FaultyNet.start node, 0), []) := by
  have hnone : H.neighbors (node i).control = fun _ => none := funext (h i).2
  refine ⟨(h i).1, ?_⟩
  show Leased _ [] (H.neighbors (node i).control) 0
  rw [hnone]
  exact Leased.empty _ 0

theorem Fresh.inPlace {node : Fin T.size → Host σ} (h : Fresh H T node) (i : Fin T.size) :
    InPlace [] (H.neighbors (node i).control) := by
  intro K a t hK
  rw [(h i).2 K] at hK
  cases hK

/-- The hello timer of node `i` drops what is old. -/
theorem audit_step {a : A} {now : ℕ} (hn : H.inv (T.config i) (st.1.1.node i).control)
    (ha : H.audit a = some now) (h : H.step T i st (.act i (.control a)) = some st') :
    st.1.2 ≤ now ∧ st'.2 = st.2 ∧ H.neighbors (st'.1.1.node i).control =
      (H.neighbors (st.1.1.node i).control).expire (T.config i).helloTimeout now := by
  obtain ⟨⟨s', clock'⟩, hc, rfl⟩ := Option.map_eq_some_iff.mp h
  obtain ⟨hle, hclock, hst⟩ := clocked_some hc
  obtain ⟨res, hres, rfl⟩ := Option.map_eq_some_iff.mp hst
  have hnow : clock' = now := by
    rw [show clock' = _ from hclock, time, ha]
    rfl
  obtain ⟨_, hnb⟩ := neighbors_handle hn (e := .act (.control a)) hres
  refine ⟨hnow ▸ hle, ?_, ?_⟩
  · simp [heard, heardIn, FaultyLabel.event?, NodeEvent.control?]
  · simp only [NodeEvent.control?, ha] at hnb
    rw [← hnb]
    simp [FaultyNet.apply]

/-- What the table of a node is to be after `AuditHellos` at time `now`. -/
structure LiveNeighbors (H : Hearing C) (cfg : NodeConfig) (now : ℕ)
    (log : List (String × Ipv4Address × ℕ)) (n : σ) : Prop where
  /-- The neighbours are those heard within the timeout. -/
  exact : ∀ K, (∃ x, H.neighbors n K = some x) ↔
    ∃ a t, (K, a, t) ∈ log ∧ now < t + cfg.helloTimeout
  /-- A neighbour was heard within the timeout on the interface stored for
  it. -/
  live : ∀ K a t, H.neighbors n K = some (a, t) →
    ∃ t', (K, a, t') ∈ log ∧ now < t' + cfg.helloTimeout

/-- **After `AuditHellos`**, exactly the nodes heard within the timeout are
neighbours. -/
theorem exact {node : Fin T.size → Host σ} (hnode : Fresh H T node) {a : A} {now : ℕ}
    (ha : H.audit a = some now) {labs : List (FaultyLabel T (HostAct A))}
    (h : run (H.step T i) ((FaultyNet.start node, 0), []) (labs ++ [.act i (.control a)]) = some st)
    (K : String) : (∃ x, H.neighbors (st.1.1.node i).control K = some x) ↔
      ∃ a t, (K, a, t) ∈ st.2 ∧ now < t + (T.config i).helloTimeout := by
  obtain ⟨st₀, h₀, hst⟩ := run_snoc.mp h
  have hk : Kept H T i st₀ := run_invariant (hnode.kept i) (fun _ _ _ hk hst => hk.step hst) h₀
  obtain ⟨hle, hlog, hnb⟩ := audit_step hk.inv ha hst
  rw [hnb, hlog]
  exact hk.leased.exact hle K

/-- **And their interfaces are live** when the hellos of neighbours come in on
the interfaces stored for them. -/
theorem live {node : Fin T.size → Host σ} (hnode : Fresh H T node) {a : A} {now : ℕ}
    (ha : H.audit a = some now) {labs : List (FaultyLabel T (HostAct A))}
    (h : run (H.step T i) ((FaultyNet.start node, 0), []) (labs ++ [.act i (.control a)]) = some st)
    (hon : Meets (H.step T i) (H.OnStoredInterface T i) ((FaultyNet.start node, 0), []) labs) :
    LiveNeighbors H (T.config i) now st.2 (st.1.1.node i).control := by
  refine ⟨exact hnode ha h, ?_⟩
  obtain ⟨st₀, h₀, hst⟩ := run_snoc.mp h
  obtain ⟨hk, hp⟩ := along_of_meets (P := fun st => Kept H T i st ∧
    InPlace st.2 (H.neighbors (st.1.1.node i).control)) ⟨hnode.kept i, hnode.inPlace i⟩
    (fun _ _ _ hP hst hon => ⟨hP.1.step hst, inPlace_step hP.1 hP.2 hst hon⟩) hon labs st₀
    (List.prefix_refl _) h₀
  obtain ⟨_, hlog, hnb⟩ := audit_step hk.inv ha hst
  rw [hnb, hlog]
  intro K a t hK
  obtain ⟨hK, hlt⟩ := expire_some.mp hK
  exact ⟨t, hp K a t hK, hlt⟩

end Runs

end Hearing

/-! ## Link state -/

namespace Ls

section Neighbors
variable {dijkstra : NodeConfig → Node → Option RoutingTable} {cfg : NodeConfig} {n n' : Node}

/-- The interface of a neighbour and the time of its last hello. -/
def neighborLease (n : Node) : Leases String Ipv4Address :=
  fun K => n.neighborTable[K]?.map fun e => (e.interfaceAddr, e.lastUpdated)

/-- A HELLO_REQ is heard. -/
def hearsHello (cfg : NodeConfig) (_ : Node) (m : LSMessage) : Option String :=
  match m.payload with
  | .helloReq _ _ => some (cfg.reverseLookup m.originatorAddress)
  | .lsTableMsg _ => none

def Action.audit : Action → Option ℕ
  | .auditHellos now => some now
  | .hello | .lsTableMsg => none

theorem neighborLease_recv {now socket : ℕ} {m : LSMessage} {out : Packets}
    (h : handle dijkstra cfg n (.recv now socket m) = some (n', out)) :
    neighborLease n' = match hearsHello cfg n m with
      | some K => (neighborLease n).renew K (cfg.interfaceAddr socket) now
      | none => neighborLease n := by
  unfold hearsHello
  cases handle_cases h with
  | @refresh _ _ _ _ _ payload e known =>
    simp only [payload]
    refine eq_renew ?_ fun K hK => ?_
    · simp [neighborLease, touch, known]
    · simp [neighborLease, touch, Ne.symm hK]
  | discover payload fresh _ =>
    simp only [payload]
    refine eq_renew ?_ fun K hK => ?_
    · simp only [neighborLease, addNeighbor, getElem?_insertIfNew_eq, fresh]
      simp
    · simp [neighborLease, addNeighbor, Ne.symm hK]
  | stale payload _ => simp only [payload]
  | accept payload _ _ => simp only [payload]; rfl

theorem neighborLease_audit (hk : Keyed cfg n) {now : ℕ} {out : Packets}
    (h : handle dijkstra cfg n (.auditHellos now) = some (n', out)) :
    neighborLease n' = (neighborLease n).expire cfg.helloTimeout now := by
  -- an entry that has not expired stays
  have old : ∀ (K : String) e, n.neighborTable[K]? = some e →
      (¬ Expires cfg now n K ↔ now < e.lastUpdated + cfg.helloTimeout) := by
    intro K e he
    simp [Expires, he, NeighborTableEntry.expired]
  have key : ∀ m : Node, (∀ (K : String) e, m.neighborTable[K]? = some e ↔
      n.neighborTable[K]? = some e ∧ ¬ Expires cfg now n K) →
      neighborLease m = (neighborLease n).expire cfg.helloTimeout now := by
    intro m hm
    funext K
    refine Option.ext fun x => ?_
    rw [expire_some]
    simp only [neighborLease, Option.map_eq_some_iff]
    constructor
    · intro ⟨e, he, hx⟩
      obtain ⟨he, hno⟩ := (hm K e).mp he
      subst hx
      exact ⟨⟨e, he, rfl⟩, (old K e he).mp hno⟩
    · intro ⟨⟨e, he, hx⟩, hlt⟩
      subst hx
      exact ⟨e, (hm K e).mpr ⟨he, (old K e he).mpr hlt⟩, rfl⟩
  cases handle_cases h with
  | quiet none_expires =>
    refine key _ fun K e => ?_
    simp [sendHello, none_expires K]
  | timeout _ loop _ =>
    exact key _ (auditLoop_spec (n := (sendHello cfg n).1) hk loop).neighbors

end Neighbors

def lsHearing (dijkstra : NodeConfig → Node → Option RoutingTable) : Hearing (lsControl dijkstra) where
  neighbors := neighborLease
  hears := hearsHello
  audit := Action.audit
  inv := Keyed
  inv_handle hk h := by
    rcases lsControl_cases h with ⟨e₀, _, hh⟩ | ⟨_, _, rfl⟩
    · exact keyed_step (e := e₀) hk (by rw [step, hh]; rfl)
    · exact hk
  inv_set hk := hk
  neighbors_set := rfl
  neighbors_recv _ h := neighborLease_recv h
  neighbors_act {_ a _ _ _} hk h := by
    cases a with
    | auditHellos now => exact neighborLease_audit hk h
    | hello =>
      obtain ⟨rfl, _⟩ := Prod.mk.inj (Option.some.inj h)
      rfl
    | lsTableMsg =>
      obtain ⟨rfl, _⟩ := Prod.mk.inj (Option.some.inj h)
      rfl

end Ls

/-! ## Distance vector -/

namespace Dv

section Neighbors
variable {cfg : NodeConfig} {n n' : Node}

/-- The interface of a neighbour and the time of its last hello. -/
def neighborLease (n : Node) : Leases String Ipv4Address :=
  fun K => n.neighborTable[K]?.map fun e => (e.interfaceAddr, e.lastUpdated)

/-- A HELLO_REQ is heard, and a DV_TABLE_MSG that adds an entry. -/
def hearsNeighbor (cfg : NodeConfig) (n : Node) (m : DVMessage) : Option String :=
  let fromNode := cfg.reverseLookup m.originatorAddress
  match m.payload with
  | .helloReq _ _ => some fromNode
  | .dvTableMsg _ => if fromNode ∈ n.neighborTable then none else some fromNode

def Action.audit : Action → Option ℕ
  | .auditHellos now => some now

theorem bellmanFord_neighborTable {ndv : DistanceVector} {out : Packets}
    (h : bellmanFord cfg ndv n = some (n', out)) : n'.neighborTable = n.neighborTable :=
  (bellmanFord_spec h).1.neighborTable

theorem neighborLease_hello {now socket : ℕ} {m : DVMessage} {out : Packets}
    (h : processHelloReq cfg now socket m n = some (n', out)) :
    neighborLease n' = (neighborLease n).renew (cfg.reverseLookup m.originatorAddress)
      (cfg.interfaceAddr socket) now := by
  unfold processHelloReq at h
  dsimp only at h
  split at h
  · rename_i e known
    obtain ⟨rfl, _⟩ := Prod.mk.inj (Option.some.inj h)
    refine eq_renew ?_ fun K hK => ?_
    · simp [neighborLease, known]
    · simp [neighborLease, Ne.symm hK]
  · rename_i fresh
    obtain ⟨⟨n₁, sent⟩, hbf, h⟩ := Option.bind_eq_some_iff.mp h
    obtain ⟨⟨n₂, resent⟩, hsend, h⟩ := Option.bind_eq_some_iff.mp h
    obtain ⟨rfl, _⟩ := Prod.mk.inj (Option.some.inj h)
    obtain ⟨hn₂, _⟩ := sendDVTableMessage_spec hsend
    have htable : n₂.neighborTable =
        (addNeighbor cfg now socket m.originatorAddress n).neighborTable := by
      have hbf := bellmanFord_neighborTable hbf
      rw [hn₂]
      exact hbf
    refine eq_renew ?_ fun K hK => ?_
    · simp only [neighborLease, htable, addNeighbor_entry fresh, fresh]
      simp
    · simp only [neighborLease, htable, addNeighbor_entry fresh, if_neg (Ne.symm hK)]

theorem neighborLease_vector {now socket : ℕ} {m : DVMessage} {out : Packets}
    (h : processDVTableMessage cfg now socket m n = some (n', out)) :
    neighborLease n' = if cfg.reverseLookup m.originatorAddress ∈ n.neighborTable then neighborLease n
      else (neighborLease n).renew (cfg.reverseLookup m.originatorAddress)
        (cfg.interfaceAddr socket) now := by
  have htable := bellmanFord_neighborTable h
  unfold storeVector at htable
  dsimp only at htable
  cases hold : n.neighborTable[cfg.reverseLookup m.originatorAddress]? with
  | some e =>
    rw [if_pos (mem_iff_getElem?.mpr ⟨e, hold⟩)]
    rw [hold] at htable
    funext K
    by_cases hK : K = cfg.reverseLookup m.originatorAddress
    · subst hK
      simp [neighborLease, htable, hold]
    · simp [neighborLease, htable, Ne.symm hK]
  | none =>
    have hno : cfg.reverseLookup m.originatorAddress ∉ n.neighborTable := by
      rw [mem_iff_getElem?, hold]
      simp
    rw [if_neg hno]
    rw [hold] at htable
    refine eq_renew ?_ fun K hK => ?_
    · simp [neighborLease, htable, hold]
    · simp [neighborLease, htable, Ne.symm hK]

theorem neighborLease_audit (hk : Keyed cfg n) {now : ℕ} {out : Packets}
    (h : auditHellos cfg now n = some (n', out)) :
    neighborLease n' = (neighborLease n).expire cfg.helloTimeout now := by
  obtain ⟨⟨m, sendMsg⟩, hloop, h⟩ := Option.bind_eq_some_iff.mp h
  have haudited := auditLoop_spec (n := (sendHello cfg n).1) hk hloop
  have htable : n'.neighborTable = m.neighborTable := by
    dsimp only at h
    split at h
    · obtain ⟨⟨n₁, sent⟩, hbf, h⟩ := Option.bind_eq_some_iff.mp h
      obtain ⟨rfl, _⟩ := Prod.mk.inj (Option.some.inj h)
      exact bellmanFord_neighborTable hbf
    · obtain ⟨rfl, _⟩ := Prod.mk.inj (Option.some.inj h)
      rfl
  funext K
  refine Option.ext fun x => ?_
  rw [expire_some]
  simp only [neighborLease, htable, Option.map_eq_some_iff]
  by_cases hx : Expires cfg now (sendHello cfg n).1 K
  · rw [(haudited.gone K hx).2.1]
    obtain ⟨e, he, hexp⟩ := hx
    have he : n.neighborTable[K]? = some e := he
    simp only [NeighborTableEntry.expired, decide_eq_true_eq] at hexp
    refine iff_of_false (by simp) ?_
    intro ⟨⟨e', he', hx'⟩, hlt⟩
    obtain rfl := Option.some.inj (he.symm.trans he')
    subst hx'
    exact absurd hlt (not_lt.mpr hexp)
  · rw [(haudited.kept K hx).1]
    refine (and_iff_left_of_imp ?_).symm
    intro ⟨e, he, hx'⟩
    subst hx'
    by_contra hlt
    exact hx ⟨e, he, by simpa [NeighborTableEntry.expired] using hlt⟩

end Neighbors

def dvHearing : Hearing dvControl where
  neighbors := neighborLease
  hears := hearsNeighbor
  audit := Action.audit
  inv := Inv
  inv_handle hI h := by
    obtain ⟨e₀, hh, _⟩ := dvControl_handle h
    exact inv_step (e := e₀) hI (by rw [step, hh]; rfl)
  inv_set {_ n _} hI := Inv.same (n := n) ⟨rfl, rfl, rfl, fun _ => rfl⟩ hI
  neighbors_set := rfl
  neighbors_recv {cfg now socket m n _ _} hI h := by
    have h : recvDVMessage cfg now socket m n = some _ := h
    unfold recvDVMessage at h
    unfold hearsNeighbor
    cases hp : m.payload with
    | helloReq _ _ =>
      simp only [hp] at h ⊢
      exact neighborLease_hello h
    | dvTableMsg _ =>
      simp only [hp] at h ⊢
      rw [neighborLease_vector h]
      split <;> rfl
  neighbors_act {_ a _ _ _} hI h := by
    cases a with
    | auditHellos now => exact neighborLease_audit hI.tables.keyed h

end Dv

/-! ## Both protocols -/

theorem Ls.hosts_fresh (dijkstra : NodeConfig → Ls.Node → Option Ls.RoutingTable) (T : Topology)
    (sequenceNumber : Fin T.size → UInt32) (pingTimeout : Fin T.size → ℕ) :
    Hearing.Fresh (Ls.lsHearing dijkstra) T
      fun i => ⟨Ls.doStart (sequenceNumber i), Pinger.start (pingTimeout i)⟩ := by
  intro i
  refine ⟨?_, ?_⟩
  · intro K e he
    simp [Ls.doStart] at he
  · intro K
    simp [Ls.lsHearing, Ls.neighborLease, Ls.doStart]

theorem Dv.hosts_fresh (T : Topology) (sequenceNumber : Fin T.size → UInt32)
    (pingTimeout : Fin T.size → ℕ) : Hearing.Fresh Dv.dvHearing T
      fun i => ⟨Dv.doStart (T.config i) (sequenceNumber i), Pinger.start (pingTimeout i)⟩ := by
  intro i
  refine ⟨Dv.inv_doStart _ _, ?_⟩
  intro K
  simp [Dv.dvHearing, Dv.neighborLease, Dv.doStart]

theorem Ls.mem_neighborTable {n : Ls.Node} {K : String} :
    K ∈ n.neighborTable ↔ ∃ x, Ls.neighborLease n K = some x := by
  simp [Ls.neighborLease, mem_iff_getElem?]

theorem Dv.mem_neighborTable {n : Dv.Node} {K : String} :
    K ∈ n.neighborTable ↔ ∃ x, Dv.neighborLease n K = some x := by
  simp [Dv.neighborLease, mem_iff_getElem?]

/-- **A neighbour entry points at a live link.** After `AuditHellos` of a node
at time `now`, in every run of a network of either protocol, the neighbours
are the nodes heard within the timeout; and when the hellos of neighbours come
in on the interfaces stored for them, each was heard within the timeout on
the interface stored for it. -/
theorem neighbors_live (dijkstra : NodeConfig → Ls.Node → Option Ls.RoutingTable) (T : Topology)
    (sequenceNumber : Fin T.size → UInt32) (pingTimeout : Fin T.size → ℕ) (i : Fin T.size) (now : ℕ) :
    (∀ (labs : List (FaultyLabel T (HostAct Ls.Action))) st,
      run ((Ls.lsHearing dijkstra).step T i) ((Ls.hostsStart T sequenceNumber pingTimeout, 0), [])
        (labs ++ [.act i (.control (.auditHellos now))]) = some st →
      (∀ K : String, K ∈ (st.1.1.node i).control.neighborTable ↔
        ∃ a t, (K, a, t) ∈ st.2 ∧ now < t + (T.config i).helloTimeout) ∧
      (Meets ((Ls.lsHearing dijkstra).step T i) ((Ls.lsHearing dijkstra).OnStoredInterface T i)
          ((Ls.hostsStart T sequenceNumber pingTimeout, 0), []) labs →
        ∀ (K : String) e, (st.1.1.node i).control.neighborTable[K]? = some e →
          ∃ t, (K, e.interfaceAddr, t) ∈ st.2 ∧ now < t + (T.config i).helloTimeout)) ∧
    (∀ (labs : List (FaultyLabel T (HostAct Dv.Action))) st,
      run (Dv.dvHearing.step T i) ((Dv.hostsStart T sequenceNumber pingTimeout, 0), [])
        (labs ++ [.act i (.control (.auditHellos now))]) = some st →
      (∀ K : String, K ∈ (st.1.1.node i).control.neighborTable ↔
        ∃ a t, (K, a, t) ∈ st.2 ∧ now < t + (T.config i).helloTimeout) ∧
      (Meets (Dv.dvHearing.step T i) (Dv.dvHearing.OnStoredInterface T i)
          ((Dv.hostsStart T sequenceNumber pingTimeout, 0), []) labs →
        ∀ (K : String) e, (st.1.1.node i).control.neighborTable[K]? = some e →
          ∃ t, (K, e.interfaceAddr, t) ∈ st.2 ∧ now < t + (T.config i).helloTimeout)) := by
  refine ⟨?_, ?_⟩
  · intro labs st h
    have hfresh := Ls.hosts_fresh dijkstra T sequenceNumber pingTimeout
    refine ⟨fun K => ?_, fun hon K e he => ?_⟩
    · rw [Ls.mem_neighborTable]
      exact Hearing.exact hfresh (a := .auditHellos now) rfl h K
    · refine (Hearing.live hfresh rfl h hon).live K _ e.lastUpdated ?_
      simp [Ls.lsHearing, Ls.neighborLease, he]
  · intro labs st h
    have hfresh := Dv.hosts_fresh T sequenceNumber pingTimeout
    refine ⟨fun K => ?_, fun hon K e he => ?_⟩
    · rw [Dv.mem_neighborTable]
      exact Hearing.exact hfresh (a := .auditHellos now) rfl h K
    · refine (Hearing.live hfresh rfl h hon).live K _ e.lastUpdated ?_
      simp [Dv.dvHearing, Dv.neighborLease, he]

/-! ## Two links between the same nodes -/

/-- Two nodes and two links between them. -/
def parallelTopology : Topology where
  size := 2
  size_lt := by decide
  links := 2
  owner p := ⟨p.2.toNat, Bool.toNat_lt p.2⟩
  owner_ne := by decide
  config i :=
    { mainAddress := 10 * UInt32.ofNat (i + 1)
      socketAddresses :=
        [(0, 10 * UInt32.ofNat (i + 1)), (1, 10 * UInt32.ofNat (i + 1) + 1)]
      nodeAddressMap := .ofList [((0 : UInt32), (10 : Ipv4Address)), (1, 20)]
      addressNodeMap := .ofList [((10 : Ipv4Address), (0 : UInt32)), (11, 0), (20, 1), (21, 1)]
      helloTimeout := 2000
      maxTTL := 16 }
  address p := 10 * UInt32.ofNat (p.2.toNat + 1) + UInt32.ofNat p.1.val
  socket p := p.1.val
  nodeAddressMap := by decide +kernel
  addressNodeMap := by decide +kernel
  addressNodeMap_address := by decide +kernel
  addressNodeMap_eq _ _ := rfl
  mem_sockets := by decide +kernel
  of_mem_sockets := by decide +kernel
  sockets_nodup := by decide +kernel
  addresses_nodup := by decide +kernel
  address_inj := by decide +kernel

/-- Its nodes and the link ends of node 1. -/
def parallelNode (i : ℕ) : Fin parallelTopology.size := ⟨i % 2, Nat.mod_lt i Nat.two_pos⟩

def parallelLink (l : ℕ) : Fin parallelTopology.links := ⟨l % 2, Nat.mod_lt l Nat.two_pos⟩

def parallelPort (l : ℕ) : parallelTopology.Port := (parallelLink l, true)

/-- Node 0 hears node 1 on the first link, twice. -/
def helloTwice {A : Type} (audit : ℕ → A) : List (FaultyLabel parallelTopology (HostAct A)) :=
  [.act (parallelNode 1) (.control (audit 1)), .deliver (parallelPort 0) 0 2,
    .act (parallelNode 1) (.control (audit 2001)), .deliver (parallelPort 0) 0 2002]

/-- Node 0 hears node 1 on both links, first on the first one. Then the first
link goes down, and node 0 hears node 1 on the second. -/
def helloElsewhere {A : Type} (audit : ℕ → A) : List (FaultyLabel parallelTopology (HostAct A)) :=
  [.act (parallelNode 1) (.control (audit 1)), .deliver (parallelPort 0) 0 2,
    .deliver (parallelPort 1) 0 2, .linkDown (parallelLink 0),
    .act (parallelNode 1) (.control (audit 2001)), .deliver (parallelPort 1) 0 2002]

/-- The networks at the start. -/
def lsParallel : FaultyNet parallelTopology (Host Ls.Node) (HostMessage Ls.LSMessage) :=
  Ls.hostsStart parallelTopology (fun _ => 7) fun _ => 2000

def dvParallel : FaultyNet parallelTopology (Host Dv.Node) (HostMessage Dv.DVMessage) :=
  Dv.hostsStart parallelTopology (fun _ => 7) fun _ => 2000

theorem neighbors_live_parallel :
    (∃ st, run ((Ls.lsHearing Ls.dijkstra).step parallelTopology (parallelNode 0)) ((lsParallel, 0), [])
        (helloTwice .auditHellos ++ [.act (parallelNode 0) (.control (.auditHellos 2003))]) = some st ∧
      ∃ e, (st.1.1.node (parallelNode 0)).control.neighborTable["1"]? = some e ∧
        ∃ t, ("1", e.interfaceAddr, t) ∈ st.2 ∧ 2003 < t + 2000) ∧
    (∃ st, run (Dv.dvHearing.step parallelTopology (parallelNode 0)) ((dvParallel, 0), [])
        (helloTwice .auditHellos ++ [.act (parallelNode 0) (.control (.auditHellos 2003))]) = some st ∧
      ∃ e, (st.1.1.node (parallelNode 0)).control.neighborTable["1"]? = some e ∧
        ∃ t, ("1", e.interfaceAddr, t) ∈ st.2 ∧ 2003 < t + 2000) := by
  refine ⟨?_, ?_⟩
  · have hrun : ((run ((Ls.lsHearing Ls.dijkstra).step parallelTopology (parallelNode 0))
        ((lsParallel, 0), []) (helloTwice .auditHellos ++
          [.act (parallelNode 0) (.control (.auditHellos 2003))])).bind fun st =>
        ((st.1.1.node (parallelNode 0)).control.neighborTable["1"]?).map fun _ => true) =
          some true := by decide +kernel
    obtain ⟨st, hst, hres⟩ := Option.bind_eq_some_iff.mp hrun
    obtain ⟨e, he, _⟩ := Option.map_eq_some_iff.mp hres
    have hon : Meets ((Ls.lsHearing Ls.dijkstra).step parallelTopology (parallelNode 0))
        ((Ls.lsHearing Ls.dijkstra).OnStoredInterface parallelTopology (parallelNode 0))
        ((lsParallel, 0), []) (helloTwice .auditHellos) :=
      (allows_of_checkRun (fun _ _ => Hearing.onStoredInterface_sound) (by decide +kernel)).meets
    have hlive := (neighbors_live Ls.dijkstra parallelTopology (fun _ => 7) (fun _ => 2000)
      (parallelNode 0) 2003).1 (helloTwice .auditHellos) st hst
    exact ⟨st, hst, e, he, hlive.2 hon "1" e he⟩
  · have hrun : ((run (Dv.dvHearing.step parallelTopology (parallelNode 0))
        ((dvParallel, 0), []) (helloTwice .auditHellos ++
          [.act (parallelNode 0) (.control (.auditHellos 2003))])).bind fun st =>
        ((st.1.1.node (parallelNode 0)).control.neighborTable["1"]?).map fun _ => true) =
          some true := by decide +kernel
    obtain ⟨st, hst, hres⟩ := Option.bind_eq_some_iff.mp hrun
    obtain ⟨e, he, _⟩ := Option.map_eq_some_iff.mp hres
    have hon : Meets (Dv.dvHearing.step parallelTopology (parallelNode 0))
        (Dv.dvHearing.OnStoredInterface parallelTopology (parallelNode 0))
        ((dvParallel, 0), []) (helloTwice .auditHellos) :=
      (allows_of_checkRun (fun _ _ => Hearing.onStoredInterface_sound) (by decide +kernel)).meets
    have hlive := (neighbors_live Ls.dijkstra parallelTopology (fun _ => 7) (fun _ => 2000)
      (parallelNode 0) 2003).2 (helloTwice .auditHellos) st hst
    exact ⟨st, hst, e, he, hlive.2 hon "1" e he⟩

/-- The log of node 0 when node 1 is heard elsewhere: nothing on the first
link within the timeout. -/
theorem not_live_elsewhere {log : List (String × Ipv4Address × ℕ)}
    (hlog : log = [("1", 10, 2), ("1", 11, 2), ("1", 11, 2002)]) :
    ¬ ∃ t, ("1", 10, t) ∈ log ∧ 2003 < t + 2000 := by
  intro ⟨t, hmem, hlt⟩
  simp only [hlog, List.mem_cons, Prod.mk.injEq, List.not_mem_nil] at hmem
  have h10 : (10 : Ipv4Address) ≠ 11 := by decide
  simp only [h10, true_and, false_and, and_false, or_false] at hmem
  omega

/-- Node 0 keeps the entry of node 1 with its interface to the first link,
which is down, in both protocols. -/
theorem parallel_link_down :
    (¬ ∀ (T : Topology) (sequenceNumber : Fin T.size → UInt32) (pingTimeout : Fin T.size → ℕ)
      (i : Fin T.size) (labs : List (FaultyLabel T (HostAct Ls.Action))) (now : ℕ) st,
      run ((Ls.lsHearing Ls.dijkstra).step T i) ((Ls.hostsStart T sequenceNumber pingTimeout, 0), [])
        (labs ++ [.act i (.control (.auditHellos now))]) = some st →
      (∀ K : String, K ∈ (st.1.1.node i).control.neighborTable ↔
        ∃ a t, (K, a, t) ∈ st.2 ∧ now < t + (T.config i).helloTimeout) ∧
      ∀ (K : String) e, (st.1.1.node i).control.neighborTable[K]? = some e →
        ∃ t, (K, e.interfaceAddr, t) ∈ st.2 ∧ now < t + (T.config i).helloTimeout) ∧
    ¬ ∀ (T : Topology) (sequenceNumber : Fin T.size → UInt32) (pingTimeout : Fin T.size → ℕ)
      (i : Fin T.size) (labs : List (FaultyLabel T (HostAct Dv.Action))) (now : ℕ) st,
      run (Dv.dvHearing.step T i) ((Dv.hostsStart T sequenceNumber pingTimeout, 0), [])
        (labs ++ [.act i (.control (.auditHellos now))]) = some st →
      (∀ K : String, K ∈ (st.1.1.node i).control.neighborTable ↔
        ∃ a t, (K, a, t) ∈ st.2 ∧ now < t + (T.config i).helloTimeout) ∧
      ∀ (K : String) e, (st.1.1.node i).control.neighborTable[K]? = some e →
        ∃ t, (K, e.interfaceAddr, t) ∈ st.2 ∧ now < t + (T.config i).helloTimeout := by
  refine ⟨?_, ?_⟩
  · intro h
    have hrun : ((run ((Ls.lsHearing Ls.dijkstra).step parallelTopology (parallelNode 0))
        ((lsParallel, 0), []) (helloElsewhere .auditHellos ++
          [.act (parallelNode 0) (.control (.auditHellos 2003))])).bind fun st =>
        ((st.1.1.node (parallelNode 0)).control.neighborTable["1"]?).map fun e =>
          (e.interfaceAddr, st.2)) =
        some (10, [("1", 10, 2), ("1", 11, 2), ("1", 11, 2002)]) := by decide +kernel
    obtain ⟨st, hst, hres⟩ := Option.bind_eq_some_iff.mp hrun
    obtain ⟨e, he, hres⟩ := Option.map_eq_some_iff.mp hres
    obtain ⟨hif, hlog⟩ := Prod.mk.inj hres
    have hlive := (h parallelTopology (fun _ => 7) (fun _ => 2000) (parallelNode 0) _ 2003 st hst).2
      "1" e he
    rw [hif] at hlive
    exact not_live_elsewhere hlog hlive
  · intro h
    have hrun : ((run (Dv.dvHearing.step parallelTopology (parallelNode 0))
        ((dvParallel, 0), []) (helloElsewhere .auditHellos ++
          [.act (parallelNode 0) (.control (.auditHellos 2003))])).bind fun st =>
        ((st.1.1.node (parallelNode 0)).control.neighborTable["1"]?).map fun e =>
          (e.interfaceAddr, st.2)) =
        some (10, [("1", 10, 2), ("1", 11, 2), ("1", 11, 2002)]) := by decide +kernel
    obtain ⟨st, hst, hres⟩ := Option.bind_eq_some_iff.mp hrun
    obtain ⟨e, he, hres⟩ := Option.map_eq_some_iff.mp hres
    obtain ⟨hif, hlog⟩ := Prod.mk.inj hres
    have hlive := (h parallelTopology (fun _ => 7) (fun _ => 2000) (parallelNode 0) _ 2003 st hst).2
      "1" e he
    rw [hif] at hlive
    exact not_live_elsewhere hlog hlive

end Ns3Routing
