import Ns3Routing.Network
import Ns3Routing.Ls.Messages

/-! # A network of link-state nodes

Messages in flight on a link arrive in any order. A link can go down and come
up again: nothing is sent on a link that is down, and what would arrive on it
is lost. `Act` and `Still` say what a step does, by membership in the queues
only.

The announcements a node has made so far are a log beside the state.
`Logged` is what holds in every run in which no sequence counter wraps:
announcements in flight and stored sequence numbers are those of logs, in
which numbers only grow. -/

namespace Ns3Routing.Ls

open Lib Ns3Routing.Topology

structure LsNet (T : Topology) extends Net T Node LSMessage where
  up : Fin T.links → Bool

/-- What can happen in the network: the `k`-th message of a queue arrives, the
hello timer of a node fires, or a link goes down or comes up. -/
inductive Label (T : Topology) where
  | deliver (p : T.Port) (k : ℕ) (now : ℕ)
  | auditHellos (i : Fin T.size) (now : ℕ)
  | linkDown (l : Fin T.links)
  | linkUp (l : Fin T.links)
  deriving DecidableEq

namespace LsNet

variable {T : Topology}

/-- Node `i` goes to a new state, and its packets go to its link ends that are
up. -/
def apply (s : LsNet T) (i : Fin T.size) (res : Node × Packets) : LsNet T where
  node := Function.update s.node i res.1
  chan p := s.chan p ++ if s.up p.1 then Net.onPort T i res.2 p else []
  up := s.up

/-- The `k`-th message of a queue is taken out. -/
def take (s : LsNet T) (p : T.Port) (k : ℕ) : LsNet T :=
  { s with chan := Function.update s.chan p ((s.chan p).eraseIdx k) }

def setUp (s : LsNet T) (l : Fin T.links) (b : Bool) : LsNet T :=
  { s with up := Function.update s.up l b }

end LsNet

section Steps
variable (dijkstra : NodeConfig → Node → Option RoutingTable) (T : Topology)

/-- `none` where the handler has no defined result; a label that does not
apply changes nothing. -/
def netStep (s : LsNet T) : Label T → Option (LsNet T)
  | .deliver p k now =>
    match (s.chan p)[k]? with
    | none => some s
    | some lsMessage =>
      if s.up p.1 then
        (handle dijkstra (T.config (T.owner (peer p))) (s.node (T.owner (peer p)))
          (.recv now (T.socket (peer p)) lsMessage)).map
          ((s.take p k).apply (T.owner (peer p)))
      else some (s.take p k)
  | .auditHellos i now =>
    (handle dijkstra (T.config i) (s.node i) (.auditHellos now)).map (s.apply i)
  | .linkDown l => some (s.setUp l false)
  | .linkUp l => some (s.setUp l true)

end Steps

/-- All links are up, and all nodes have started and broadcast their first
hello message; the sequence numbers they start with are random. -/
def netStart (T : Topology) (sequenceNumber : Fin T.size → UInt32) : LsNet T where
  node i := (sendHello (T.config i) (doStart (sequenceNumber i))).1
  chan p := Net.onPort T (T.owner p)
    (sendHello (T.config (T.owner p)) (doStart (sequenceNumber (T.owner p)))).2 p
  up _ := true

/-- `Dijkstra` with an empty table where it has no defined result. -/
def dijkstraOrEmpty (cfg : NodeConfig) (n : Node) : Option RoutingTable :=
  some ((dijkstra cfg n).getD ∅)

/-- Node `i` handles the event `e`, which is the arrival of a message in
flight or its hello timer, sends `out` and announces `ann`. -/
structure Act (T : Topology) (s : LsNet T) (i : Fin T.size) (e : Event) (out : Packets)
    (ann : Option (UInt32 × NbrCostsVec)) (s' : LsNet T) : Prop where
  handled : Handled (T.config i) (s.node i) e (s'.node i) out
  effect : Effect (T.config i) (s.node i) e (s'.node i) out ann
  others : ∀ j, j ≠ i → s'.node j = s.node j
  up : s'.up = s.up
  /-- A message in flight was there before, or node `i` has sent it. -/
  chan : ∀ p m, m ∈ s'.chan p → m ∈ s.chan p ∨ T.owner p = i ∧ ∃ x ∈ out, x.2 = m
  left : ∀ p m, m ∈ s.chan p → m ∈ s'.chan p ∨
    T.owner (peer p) = i ∧ ∃ now, e = .recv now (T.socket (peer p)) m
  broadcast : ∀ p m, T.owner p = i → s.up p.1 = true →
    (∀ x ∈ (T.config i).broadcastPacket m, x ∈ out) → m ∈ s'.chan p
  arrives : ∀ now socket m, e = .recv now socket m →
    ∃ p, T.owner (peer p) = i ∧ socket = T.socket (peer p) ∧ m ∈ s.chan p

/-- No node does anything; only what is on links that are down may get
lost. -/
structure Still (T : Topology) (s s' : LsNet T) : Prop where
  node : s'.node = s.node
  chan : ∀ p m, m ∈ s'.chan p → m ∈ s.chan p
  left : ∀ p m, s.up p.1 = true → m ∈ s.chan p → m ∈ s'.chan p

inductive NetStep (T : Topology) (s : LsNet T) : Label T → LsNet T → Prop where
  | act {lab : Label T} {i : Fin T.size} {e : Event} {out : Packets}
      {ann : Option (UInt32 × NbrCostsVec)} {s' : LsNet T} (h : Act T s i e out ann s')
      (audit : ∀ now, e = .auditHellos now → lab = .auditHellos i now) : NetStep T s lab s'
  | still {lab : Label T} {s' : LsNet T} (h : Still T s s')
      (up : ∀ l, lab ≠ .linkDown l → s.up l = true → s'.up l = true) : NetStep T s lab s'

section Cases
variable {dijkstra : NodeConfig → Node → Option RoutingTable} {T : Topology} {s s' : LsNet T}

theorem mem_onPort_of_broadcast {i : Fin T.size} {out : Packets} {p : T.Port} {m : LSMessage}
    (hp : T.owner p = i) (h : ∀ x ∈ (T.config i).broadcastPacket m, x ∈ out) :
    m ∈ Net.onPort T i out p := by
  subst hp
  rw [Net.onPort, if_pos rfl, List.mem_filterMap]
  refine ⟨(T.address p, m), h _ ?_, if_pos rfl⟩
  exact List.mem_map.mpr ⟨_, T.mem_sockets p, rfl⟩

theorem mem_take {p q : T.Port} {k : ℕ} {m lsMessage : LSMessage}
    (hk : (s.chan p)[k]? = some lsMessage) (hm : m ∈ s.chan q) :
    m ∈ (s.take p k).chan q ∨ q = p ∧ m = lsMessage := by
  unfold LsNet.take
  dsimp only
  by_cases hq : q = p
  · subst hq
    rw [Function.update_self]
    obtain ⟨j, hj⟩ := List.mem_iff_getElem?.mp hm
    by_cases hjk : j = k
    · subst hjk
      rw [hk] at hj
      exact Or.inr ⟨rfl, (Option.some.inj hj).symm⟩
    · exact Or.inl (List.mem_eraseIdx_iff_getElem?.mpr ⟨j, hjk, hj⟩)
  · rw [Function.update_of_ne hq]
    exact Or.inl hm

theorem of_mem_take {p q : T.Port} {k : ℕ} {m : LSMessage} (hm : m ∈ (s.take p k).chan q) :
    m ∈ s.chan q := by
  unfold LsNet.take at hm
  dsimp only at hm
  by_cases hq : q = p
  · subst hq
    rw [Function.update_self] at hm
    exact List.mem_of_mem_eraseIdx hm
  · rwa [Function.update_of_ne hq] at hm

/-- What a node's event does to the network, when `s₀` is what is left of `s`
once the message that arrives is taken out. -/
theorem act_of_effect (s₀ : LsNet T) {i : Fin T.size} {e : Event} {n' : Node} {out : Packets}
    {ann : Option (UInt32 × NbrCostsVec)} (hnode : s₀.node = s.node) (hup : s₀.up = s.up)
    (hsub : ∀ p m, m ∈ s₀.chan p → m ∈ s.chan p)
    (hleft : ∀ p m, m ∈ s.chan p → m ∈ s₀.chan p ∨
      T.owner (peer p) = i ∧ ∃ now, e = .recv now (T.socket (peer p)) m)
    (arrives : ∀ now socket m, e = .recv now socket m →
      ∃ p, T.owner (peer p) = i ∧ socket = T.socket (peer p) ∧ m ∈ s.chan p)
    (hH : Handled (T.config i) (s.node i) e n' out)
    (heffect : Effect (T.config i) (s.node i) e n' out ann) :
    Act T s i e out ann (s₀.apply i (n', out)) := by
  have hnode' : (s₀.apply i (n', out)).node i = n' := by simp [LsNet.apply]
  refine ⟨hnode'.symm ▸ hH, hnode'.symm ▸ heffect, ?_, hup, ?_, ?_, ?_, arrives⟩
  · intro j hj
    simp [LsNet.apply, hj, hnode]
  · intro p m hm
    rcases List.mem_append.mp hm with hm | hm
    · exact Or.inl (hsub p m hm)
    · split at hm
      · exact Or.inr (Net.of_mem_onPort hm)
      · cases hm
  · intro p m hm
    exact (hleft p m hm).imp_left fun h => List.mem_append_left _ h
  · intro p m hp hpup hm
    refine List.mem_append_right _ ?_
    rw [hup, if_pos hpup]
    exact mem_onPort_of_broadcast hp hm

theorem act_apply (s₀ : LsNet T) {i : Fin T.size} {e : Event} {n' : Node} {out : Packets}
    (hnode : s₀.node = s.node) (hup : s₀.up = s.up)
    (hsub : ∀ p m, m ∈ s₀.chan p → m ∈ s.chan p)
    (hleft : ∀ p m, m ∈ s.chan p → m ∈ s₀.chan p ∨
      T.owner (peer p) = i ∧ ∃ now, e = .recv now (T.socket (peer p)) m)
    (arrives : ∀ now socket m, e = .recv now socket m →
      ∃ p, T.owner (peer p) = i ∧ socket = T.socket (peer p) ∧ m ∈ s.chan p)
    (hk : Keyed (T.config i) (s.node i))
    (handled : handle dijkstra (T.config i) (s.node i) e = some (n', out)) :
    ∃ ann, Act T s i e out ann (s₀.apply i (n', out)) := by
  have hH := handle_cases handled
  obtain ⟨ann, heffect⟩ := hH.effect hk
  exact ⟨ann, act_of_effect s₀ hnode hup hsub hleft arrives hH heffect⟩

theorem netStep_cases {lab : Label T} (hk : ∀ i, Keyed (T.config i) (s.node i))
    (h : netStep dijkstra T s lab = some s') : NetStep T s lab s' := by
  cases lab with
  | deliver p k now =>
    simp only [netStep] at h
    split at h
    · obtain rfl := Option.some.inj h
      exact .still ⟨rfl, fun _ _ => id, fun _ _ _ => id⟩ fun _ _ => id
    · rename_i lsMessage head
      split at h
      · obtain ⟨⟨n', out⟩, handled, rfl⟩ := Option.map_eq_some_iff.mp h
        have arrives : ∀ now' socket m, Event.recv now (T.socket (peer p)) lsMessage =
            .recv now' socket m → ∃ q, T.owner (peer q) = T.owner (peer p) ∧
              socket = T.socket (peer q) ∧ m ∈ s.chan q := by
          rintro _ _ _ ⟨⟩
          exact ⟨p, rfl, rfl, List.mem_of_getElem? head⟩
        have hleft : ∀ q m, m ∈ s.chan q → m ∈ (s.take p k).chan q ∨
            T.owner (peer q) = T.owner (peer p) ∧ ∃ now', Event.recv now (T.socket (peer p))
              lsMessage = .recv now' (T.socket (peer q)) m := by
          intro q m hm
          refine (mem_take head hm).imp_right ?_
          intro hx
          obtain ⟨rfl, rfl⟩ := hx
          exact ⟨rfl, now, rfl⟩
        obtain ⟨ann, hact⟩ := act_apply (s := s) (s.take p k) rfl rfl
          (fun _ _ => of_mem_take) hleft arrives (hk _) handled
        exact .act hact nofun
      · rename_i hdown
        obtain rfl := Option.some.inj h
        refine .still ⟨rfl, fun _ _ => of_mem_take, fun q m hq hm => ?_⟩ fun _ _ => id
        refine (mem_take head hm).resolve_right fun hqm => hdown ?_
        rw [← hqm.1]; exact hq
  | auditHellos i now =>
    obtain ⟨⟨n', out⟩, handled, rfl⟩ := Option.map_eq_some_iff.mp h
    have arrives : ∀ now' socket m, Event.auditHellos now = .recv now' socket m →
        ∃ p, T.owner (peer p) = i ∧ socket = T.socket (peer p) ∧ m ∈ s.chan p := by
      rintro _ _ _ ⟨⟩
    obtain ⟨ann, hact⟩ := act_apply s rfl rfl (fun _ _ => id) (fun _ _ => Or.inl) arrives
      (hk i) handled
    refine .act hact fun now' he => ?_
    cases he; rfl
  | linkDown l =>
    obtain rfl := Option.some.inj h
    refine .still ⟨rfl, fun _ _ => id, fun _ _ _ => id⟩ fun l' hl' hup => ?_
    have hne : l' ≠ l := fun he => hl' (he ▸ rfl)
    simpa [LsNet.setUp, hne] using hup
  | linkUp l =>
    obtain rfl := Option.some.inj h
    refine .still ⟨rfl, fun _ _ => id, fun _ _ _ => id⟩ fun l' _ hup => ?_
    by_cases hl : l' = l
    · simp [LsNet.setUp, hl]
    · simpa [LsNet.setUp, hl] using hup

end Cases

/-! ## Logs of announcements -/

/-- Node `i` has made the announcement `ann`, if it is one. -/
def record {T : Topology} (log : Fin T.size → List (UInt32 × NbrCostsVec)) (i : Fin T.size)
    (ann : Option (UInt32 × NbrCostsVec)) : Fin T.size → List (UInt32 × NbrCostsVec) :=
  Function.update log i (log i ++ ann.toList)

/-- The tables and the messages in flight speak about nodes of the topology
and of announcements in the logs. -/
structure Logged (T : Topology) (log : Fin T.size → List (UInt32 × NbrCostsVec)) (s : LsNet T) :
    Prop where
  sorted : ∀ o, (log o).Pairwise fun a b => a.1 < b.1
  below : ∀ o, ∀ a ∈ log o, a.1 < (s.node o).currentSequenceNumber
  hello : ∀ p, ∀ m ∈ s.chan p, ∀ destinationAddress helloMessage,
    m.payload = .helloReq destinationAddress helloMessage →
      m.originatorAddress = (T.config (T.owner p)).mainAddress
  announced : ∀ p, ∀ m ∈ s.chan p, ∀ neighborCosts, m.payload = .lsTableMsg neighborCosts →
    ∃ o, m.originatorAddress = (T.config o).mainAddress ∧
      (m.sequenceNumber, neighborCosts) ∈ log o
  neighbor : ∀ i (K : String) e, (s.node i).neighborTable[K]? = some e → ∃ p, T.owner p = i ∧
    K = T.name (T.owner (peer p)) ∧
    e.neighborAddr = (T.config (T.owner (peer p))).mainAddress ∧ e.interfaceAddr = T.address p
  entry : ∀ i (K : String) e, (s.node i).lsTable[K]? = some e → ∃ o, K = T.name o ∧
    (o ≠ i → ∃ neighborCosts, (e.sequenceNumber, neighborCosts) ∈ log o)

/-- No sequence counter wraps in the step. -/
def NoWrap (dijkstra : NodeConfig → Node → Option RoutingTable) (T : Topology) (s : LsNet T)
    (lab : Label T) : Prop :=
  ∀ s', netStep dijkstra T s lab = some s' →
    ∀ i, (s.node i).currentSequenceNumber ≤ (s'.node i).currentSequenceNumber

/-- `NoWrap` computed. -/
def noWrapCheck (dijkstra : NodeConfig → Node → Option RoutingTable) (T : Topology) (s : LsNet T)
    (lab : Label T) : Bool :=
  (netStep dijkstra T s lab).all fun s' =>
    decide (∀ i, (s.node i).currentSequenceNumber ≤ (s'.node i).currentSequenceNumber)

theorem noWrap_of_check {dijkstra : NodeConfig → Node → Option RoutingTable} {T : Topology}
    {s : LsNet T} {lab : Label T} (h : noWrapCheck dijkstra T s lab = true) :
    NoWrap dijkstra T s lab := by
  intro s' hs'
  rw [noWrapCheck, hs', Option.all_some] at h
  exact of_decide_eq_true h

section Logs
variable {T : Topology} {log : Fin T.size → List (UInt32 × NbrCostsVec)} {s s' : LsNet T}
  {i : Fin T.size} {e : Event} {out : Packets} {ann : Option (UInt32 × NbrCostsVec)}

theorem record_self : record log i ann i = log i ++ ann.toList := by simp [record]

theorem record_ne {j : Fin T.size} (h : j ≠ i) : record log i ann j = log j := by simp [record, h]

theorem mem_record {o : Fin T.size} {a : UInt32 × NbrCostsVec} :
    a ∈ record log i ann o ↔ a ∈ log o ∨ o = i ∧ ann = some a := by
  by_cases h : o = i
  · subst h
    rw [record_self, List.mem_append, Option.mem_toList]
    simp
  · rw [record_ne h]
    simp [h]

theorem Logged.keyed (h : Logged T log s) (i : Fin T.size) : Keyed (T.config i) (s.node i) := by
  intro K e he
  obtain ⟨p, _, hK, ha, _⟩ := h.neighbor i K e he
  rw [ha, reverseLookup_main, hK]

/-- An announcement is known by its number. -/
theorem Logged.unique (h : Logged T log s) {o : Fin T.size} {q : UInt32} {l l' : NbrCostsVec}
    (hl : (q, l) ∈ log o) (hl' : (q, l') ∈ log o) : l = l' := by
  have hnd : ((log o).map Prod.fst).Nodup := by
    rw [List.nodup_iff_pairwise_ne, List.pairwise_map]
    exact (h.sorted o).imp fun hlt => UInt32.ne_of_lt hlt
  exact congrArg Prod.snd (List.inj_on_of_nodup_map hnd hl hl' rfl)

theorem Logged.start (T : Topology) (sequenceNumber : Fin T.size → UInt32) :
    Logged T (fun _ => []) (netStart T sequenceNumber) := by
  have hchan : ∀ p, ∀ m ∈ (netStart T sequenceNumber).chan p,
      m = helloMessage (T.config (T.owner p)) (doStart (sequenceNumber (T.owner p))) := by
    intro p m hm
    obtain ⟨_, x, hx, rfl⟩ := Net.of_mem_onPort hm
    exact of_mem_broadcastPacket hx
  refine ⟨fun _ => .nil, nofun, ?_, ?_, ?_, ?_⟩
  · intro p m hm _ _ _
    rw [hchan p m hm]; rfl
  · intro p m hm l hl
    rw [hchan p m hm] at hl; cases hl
  · intro i K e he
    simp [netStart, sendHello, doStart] at he
  · intro i K e he
    simp [netStart, sendHello, doStart] at he

theorem Logged.still (h : Logged T log s) (hst : Still T s s') : Logged T log s' := by
  refine ⟨h.sorted, ?_, fun p m hm => h.hello p m (hst.chan p m hm),
    fun p m hm => h.announced p m (hst.chan p m hm), ?_, ?_⟩
  · rw [hst.node]; exact h.below
  · rw [hst.node]; exact h.neighbor
  · rw [hst.node]; exact h.entry

section Act
variable (h : Logged T log s) (hact : Act T s i e out ann s')
include h hact

/-- An announcement that arrives was made. -/
theorem Logged.made {now socket : ℕ} {m : LSMessage} {neighborCosts : NbrCostsVec}
    (he : e = .recv now socket m) (hl : m.payload = .lsTableMsg neighborCosts) :
    ∃ o, m.originatorAddress = (T.config o).mainAddress ∧
      (m.sequenceNumber, neighborCosts) ∈ log o := by
  obtain ⟨q, _, _, hm⟩ := hact.arrives now socket m he
  exact h.announced q m hm neighborCosts hl

theorem Logged.announced_act (p : T.Port) (m : LSMessage) (hm : m ∈ s'.chan p)
    (neighborCosts : NbrCostsVec) (hpay : m.payload = .lsTableMsg neighborCosts) :
    ∃ o, m.originatorAddress = (T.config o).mainAddress ∧
      (m.sequenceNumber, neighborCosts) ∈ record log i ann o := by
  rcases hact.chan p m hm with hm | ⟨rfl, x, hx, rfl⟩
  · obtain ⟨o, ho, hmem⟩ := h.announced p m hm neighborCosts hpay
    exact ⟨o, ho, mem_record.mpr (Or.inl hmem)⟩
  · rcases hact.effect.sends x hx with ⟨_, _, hhello, _⟩ | ⟨a, ha, hown⟩ | ⟨_, _, _, _, he, hl, hrelay⟩
    · rw [hhello] at hpay; cases hpay
    · rw [hown] at hpay ⊢
      refine ⟨T.owner p, rfl, mem_record.mpr (Or.inr ⟨rfl, ?_⟩)⟩
      rw [ha, ← Payload.lsTableMsg.inj hpay]; rfl
    · obtain ⟨o, ho, hmem⟩ := h.made hact he hl
      rw [hrelay] at hpay ⊢
      rw [hl] at hpay
      obtain rfl := Payload.lsTableMsg.inj hpay
      exact ⟨o, ho, mem_record.mpr (Or.inl hmem)⟩

theorem Logged.neighbor_act (K : String) (entry' : NeighborTableEntry)
    (he' : (s'.node i).neighborTable[K]? = some entry') : ∃ p, T.owner p = i ∧
      K = T.name (T.owner (peer p)) ∧
      entry'.neighborAddr = (T.config (T.owner (peer p))).mainAddress ∧
      entry'.interfaceAddr = T.address p := by
  rcases hact.handled.neighbor (h.keyed i) he' with
    ⟨entry, hentry, ha, hif⟩ | ⟨now, socket, m, d, g, he, hpay, hK, rfl⟩
  · rw [← ha, ← hif]; exact h.neighbor i K entry hentry
  · obtain ⟨q, rfl, rfl, hm⟩ := hact.arrives now socket m he
    have horigin := h.hello q m hm d g hpay
    refine ⟨peer q, rfl, ?_, ?_, interfaceAddr_socket (peer q)⟩
    · rw [peer_peer, ← hK, horigin, reverseLookup_main]
    · rw [peer_peer]; exact horigin

theorem Logged.entry_act (K : String) (entry' : LSTableEntry)
    (he' : (s'.node i).lsTable[K]? = some entry') : ∃ o, K = T.name o ∧
      (o ≠ i → ∃ neighborCosts, (entry'.sequenceNumber, neighborCosts) ∈ log o) := by
  by_cases hK : K = (T.config i).thisNode
  · exact ⟨i, by rw [hK, thisNode_eq], fun hne => absurd rfl hne⟩
  · rcases hact.handled.entry (h.keyed i) hK with
      hsame | ⟨now, socket, m, l, he, hl, hname, _, hget, _⟩ | ⟨now, _, _, hseq⟩
    · rw [hsame] at he'
      exact h.entry i K entry' he'
    · obtain ⟨o, ho, hmem⟩ := h.made hact he hl
      rw [hget] at he'
      obtain rfl := Option.some.inj he'
      refine ⟨o, ?_, fun _ => ⟨l, hmem⟩⟩
      rw [← hname, ho, reverseLookup_main]
    · have hq : heldSeq (s.node i) K = some entry'.sequenceNumber := by
        rw [← hseq]; exact heldSeq_eq_some.mpr ⟨entry', he', rfl⟩
      obtain ⟨entry, hentry, hs⟩ := heldSeq_eq_some.mp hq
      rw [← hs]
      exact h.entry i K entry hentry

theorem Logged.act
    (hwrap : (s.node i).currentSequenceNumber ≤ (s'.node i).currentSequenceNumber) :
    Logged T (record log i ann) s' := by
  have hnumber := hact.effect.number hwrap
  refine ⟨?_, ?_, ?_, h.announced_act hact, ?_, ?_⟩
  · intro o
    by_cases ho : o = i
    · subst ho
      rw [record_self, List.pairwise_append]
      refine ⟨h.sorted o, by cases ann <;> simp, ?_⟩
      intro a ha b hb
      rw [Option.mem_toList] at hb
      exact UInt32.lt_of_lt_of_le (h.below o a ha) (hnumber b hb).1
    · rw [record_ne ho]; exact h.sorted o
  · intro o a ha
    rcases mem_record.mp ha with hold | ⟨rfl, hnew⟩
    · by_cases ho : o = i
      · subst ho
        exact UInt32.lt_of_lt_of_le (h.below o a hold) hwrap
      · rw [hact.others o ho]; exact h.below o a hold
    · exact (hnumber a hnew).2
  · intro p m hm d g hpay
    rcases hact.chan p m hm with hm | ⟨rfl, x, hx, rfl⟩
    · exact h.hello p m hm d g hpay
    · rcases hact.effect.sends x hx with ⟨_, _, _, horigin⟩ | ⟨a, _, hown⟩ | ⟨_, _, _, _, _, hl, hrelay⟩
      · exact horigin
      · rw [hown] at hpay; cases hpay
      · rw [hrelay] at hpay
        rw [hl] at hpay; cases hpay
  · intro j K entry' he'
    by_cases hj : j = i
    · subst hj
      exact h.neighbor_act hact K entry' he'
    · rw [hact.others j hj] at he'
      exact h.neighbor j K entry' he'
  · intro j K entry' he'
    have hentry : ∃ o, K = T.name o ∧
        (o ≠ j → ∃ neighborCosts, (entry'.sequenceNumber, neighborCosts) ∈ log o) := by
      by_cases hj : j = i
      · subst hj
        exact h.entry_act hact K entry' he'
      · rw [hact.others j hj] at he'
        exact h.entry j K entry' he'
    obtain ⟨o, ho, hlog⟩ := hentry
    exact ⟨o, ho, fun hne => (hlog hne).imp fun _ hm => mem_record.mpr (Or.inl hm)⟩

end Act

theorem Logged.step {dijkstra : NodeConfig → Node → Option RoutingTable} {lab : Label T}
    (h : Logged T log s) (hst : netStep dijkstra T s lab = some s')
    (hwrap : NoWrap dijkstra T s lab) : ∃ log', Logged T log' s' := by
  cases netStep_cases h.keyed hst with
  | act hact _ => exact ⟨_, h.act hact (hwrap s' hst _)⟩
  | still hstill _ => exact ⟨log, h.still hstill⟩

end Logs

/-! ## Announcements across a link -/

/-- The announcement number `q` of node `o`, or a later one, is on its way to
the other end of `p` or has arrived there. -/
def Covered (T : Topology) (s : LsNet T) (p : T.Port) (o : Fin T.size) (q : UInt32) : Prop :=
  (∃ m ∈ s.chan p, ∃ neighborCosts, m.payload = .lsTableMsg neighborCosts ∧
    m.originatorAddress = (T.config o).mainAddress ∧ q ≤ m.sequenceNumber) ∨
  ∃ q', heldSeq (s.node (T.owner (peer p))) (T.name o) = some q' ∧ q ≤ q'

section Coverage
variable {T : Topology} {log : Fin T.size → List (UInt32 × NbrCostsVec)} {s s' : LsNet T}
  {i : Fin T.size} {e : Event} {out : Packets} {ann : Option (UInt32 × NbrCostsVec)}
  {p : T.Port} {o : Fin T.size} {q : UInt32}

theorem Covered.still (h : Covered T s p o q) (hst : Still T s s') (hup : s.up p.1 = true) :
    Covered T s' p o q := by
  rcases h with ⟨m, hm, hrest⟩ | h
  · exact Or.inl ⟨m, hst.left p m hup hm, hrest⟩
  · exact Or.inr (by rw [hst.node]; exact h)

theorem Covered.act (h : Covered T s p o q) (hk : Keyed (T.config i) (s.node i))
    (hact : Act T s i e out ann s') : Covered T s' p o q := by
  rcases h with ⟨m, hm, l, hl, horigin, hq⟩ | ⟨q', hq', hle⟩
  · rcases hact.left p m hm with hm | ⟨rfl, now, rfl⟩
    · exact Or.inl ⟨m, hm, l, hl, horigin, hq⟩
    · obtain ⟨q', hq', hle⟩ := hact.handled.held_recv hl
      rw [horigin, reverseLookup_main] at hq'
      exact Or.inr ⟨q', hq', UInt32.le_trans hq hle⟩
  · by_cases hp : T.owner (peer p) = i
    · subst hp
      obtain ⟨q'', hq'', hle'⟩ := hact.handled.held_mono hk hq'
      exact Or.inr ⟨q'', hq'', UInt32.le_trans hle hle'⟩
    · refine Or.inr ⟨q', ?_, hle⟩
      rw [hact.others _ hp]; exact hq'

/-- A number a node newly stores for another is sent on to all links that are
up. -/
theorem Logged.relay (h : Logged T log s) (hact : Act T s (T.owner p) e out ann s')
    (hup : s.up p.1 = true) (ho : o ≠ T.owner p)
    (hq : heldSeq (s'.node (T.owner p)) (T.name o) = some q) :
    heldSeq (s.node (T.owner p)) (T.name o) = some q ∨ Covered T s' p o q := by
  have hne : T.name o ≠ (T.config (T.owner p)).thisNode := by
    rw [thisNode_eq]
    exact fun he => ho (name_inj.mp he)
  rcases hact.handled.entry (h.keyed _) hne with hsame |
    ⟨now, socket, m, l, he, hl, hname, _, hget, hout⟩ |
    ⟨_, _, _, hseq⟩
  · exact Or.inl ((heldSeq_congr hsame).symm.trans hq)
  · rw [heldSeq, hget] at hq
    obtain rfl := Option.some.inj hq
    obtain ⟨r, _, _, hm⟩ := hact.arrives now socket m he
    obtain ⟨o', ho', _⟩ := h.announced r m hm l hl
    rw [ho', reverseLookup_main, name_inj] at hname
    subst hname
    refine Or.inr (Or.inl ⟨{ m with ttl := m.ttl - 1 }, ?_, l, hl, ho', UInt32.le_refl _⟩)
    exact hact.broadcast p _ rfl hup fun x hx => hout ▸ hx
  · exact Or.inl (hseq.symm.trans hq)

/-- A new announcement is sent to all links that are up. -/
theorem Act.announce (hact : Act T s (T.owner p) e out ann s') (hup : s.up p.1 = true)
    {a : UInt32 × NbrCostsVec} (ha : ann = some a) : Covered T s' p (T.owner p) a.1 :=
  Or.inl ⟨ownMessage (T.config (T.owner p)) a,
    hact.broadcast p _ rfl hup (hact.effect.sent a ha), a.2, rfl, rfl, UInt32.le_refl _⟩

end Coverage

end Ns3Routing.Ls
