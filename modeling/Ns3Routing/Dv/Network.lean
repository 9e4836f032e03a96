import Ns3Routing.Network
import Ns3Routing.Dv.Messages
import Ns3Routing.Dv.RoutingTable

/-! # A network of distance-vector nodes

Every node of a topology runs the protocol. Each direction of each link is a
FIFO queue that can only lose hello messages. `Named` is what holds in every
run, whatever is lost and whoever times out: tables and messages speak about
nodes of the topology. `Agree` relates, across one link end, what a node has
in `m_dv` to what its neighbour was told last; `Agree.step` says which steps
keep it. -/

namespace Ns3Routing.Dv

open Lib Ns3Routing.Topology

abbrev DvNet (T : Topology) := Net T Node DVMessage

/-- What can happen in the network: the oldest message of a queue is
delivered, the hello timer of a node fires, or a queue loses a hello
message. -/
inductive Label (T : Topology) where
  | deliver (p : T.Port) (now : ℕ)
  | auditHellos (i : Fin T.size) (now : ℕ)
  | lose (p : T.Port)

/-- `none` where the handler has no defined result; a label that does not
apply changes nothing. -/
def netStep (T : Topology) (s : DvNet T) : Label T → Option (DvNet T)
  | .deliver p now =>
    match s.chan p with
    | [] => some s
    | dvMessage :: rest =>
      (handle (T.config (T.owner (peer p))) (s.node (T.owner (peer p)))
        (.recv now (T.socket (peer p)) dvMessage)).map
        ((s.setChan p rest).apply (T.owner (peer p)))
  | .auditHellos i now => (handle (T.config i) (s.node i) (.auditHellos now)).map (s.apply i)
  | .lose p =>
    match s.chan p with
    | [] => some s
    | dvMessage :: rest =>
      match dvMessage.payload with
      | .helloReq _ _ => some (s.setChan p rest)
      | .dvTableMsg _ => some s

/-- All nodes have started and broadcast their first hello message; the
sequence numbers they start with are random. -/
def netStart (T : Topology) (sequenceNumber : Fin T.size → UInt32) : DvNet T where
  node i := (sendHello (T.config i) (doStart (T.config i) (sequenceNumber i))).1
  chan p := Net.onPort T (T.owner p)
    (sendHello (T.config (T.owner p)) (doStart (T.config (T.owner p))
      (sequenceNumber (T.owner p)))).2 p

inductive NetStep (T : Topology) (s : DvNet T) : Label T → DvNet T → Prop where
  | idle {l : Label T} : NetStep T s l s
  | lose {p : T.Port} {dvMessage : DVMessage} {rest : List DVMessage}
      {destinationAddress helloMessage} (head : s.chan p = dvMessage :: rest)
      (payload : dvMessage.payload = .helloReq destinationAddress helloMessage) :
      NetStep T s (.lose p) (s.setChan p rest)
  | deliver {p : T.Port} {now : ℕ} {dvMessage : DVMessage} {rest : List DVMessage} {n' : Node}
      {out : Packets} (head : s.chan p = dvMessage :: rest)
      (handled : handle (T.config (T.owner (peer p))) (s.node (T.owner (peer p)))
        (.recv now (T.socket (peer p)) dvMessage) = some (n', out)) :
      NetStep T s (.deliver p now) ((s.setChan p rest).apply (T.owner (peer p)) (n', out))
  | audit {i : Fin T.size} {now : ℕ} {n' : Node} {out : Packets}
      (handled : handle (T.config i) (s.node i) (.auditHellos now) = some (n', out)) :
      NetStep T s (.auditHellos i now) (s.apply i (n', out))

theorem netStep_cases {T : Topology} {s s' : DvNet T} {l : Label T}
    (h : netStep T s l = some s') : NetStep T s l s' := by
  cases l with
  | deliver p now =>
    simp only [netStep] at h
    split at h
    · obtain rfl := Option.some.inj h; exact .idle
    · rename_i head
      obtain ⟨⟨n', out⟩, handled, rfl⟩ := Option.map_eq_some_iff.mp h
      exact .deliver head handled
  | auditHellos i now =>
    obtain ⟨⟨n', out⟩, handled, rfl⟩ := Option.map_eq_some_iff.mp h
    exact .audit handled
  | lose p =>
    simp only [netStep] at h
    split at h
    · obtain rfl := Option.some.inj h; exact .idle
    · rename_i head
      split at h
      · rename_i payload
        obtain rfl := Option.some.inj h
        exact .lose head payload
      · obtain rfl := Option.some.inj h; exact .idle

/-! ## Names -/

/-- The tables of node `i` speak about nodes of the topology, and every
neighbour is stored with the address of a link end that leads to it. -/
structure NodeNamed (T : Topology) (i : Fin T.size) (n : Node) : Prop where
  inv : Inv (T.config i) n
  self : n.dv[T.name i]? = some 0
  dvKeys : ∀ (K : String) v, n.dv[K]? = some v → ∃ j, K = T.name j
  entry : ∀ (K : String) e, n.neighborTable[K]? = some e → ∃ p, T.owner p = i ∧
    K = T.name (T.owner (peer p)) ∧
    e.neighborAddr = (T.config (T.owner (peer p))).mainAddress ∧ e.interfaceAddr = T.address p

/-- A message node `i` can have sent. -/
def MsgFrom (T : Topology) (i : Fin T.size) (dvMessage : DVMessage) : Prop :=
  dvMessage.originatorAddress = (T.config i).mainAddress ∧
    ∀ x ∈ dvMessage.neighborCosts, ∃ j, x.1 = (T.config j).mainAddress

/-- An event node `i` can see. -/
def ValidEvent (T : Topology) (i : Fin T.size) : Event → Prop
  | .recv _ socket dvMessage =>
    ∃ p, T.owner p = i ∧ socket = T.socket p ∧ MsgFrom T (T.owner (peer p)) dvMessage
  | .auditHellos _ => True

section Names
variable {T : Topology} {i : Fin T.size} {n n' : Node} {e : Event} {out : Packets}

theorem NodeNamed.start (T : Topology) (i : Fin T.size) (sequenceNumber : UInt32) :
    NodeNamed T i (sendHello (T.config i) (doStart (T.config i) sequenceNumber)).1 := by
  refine ⟨(inv_doStart _ _).same ⟨rfl, rfl, rfl, fun _ => rfl⟩, ?_, ?_, ?_⟩
  · simp only [sendHello, doStart, thisNode_eq]
    rw [getElem?_insertIfNew_eq, if_pos ⟨rfl, by simp⟩]
  · intro K v hK
    simp only [sendHello, doStart, thisNode_eq, getElem?_insertIfNew_eq] at hK
    split at hK
    · rename_i hn; exact ⟨i, hn.1.symm⟩
    · simp at hK
  · intro K e he; simp [sendHello, doStart] at he

theorem NodeNamed.knownCosts (h : NodeNamed T i n) : KnownCosts (T.config i) n := by
  intro N c hN
  obtain ⟨e, he⟩ := h.inv.tables.costsEntry N c hN
  obtain ⟨p, _, rfl, _⟩ := h.entry N e he
  exact knownName i _

/-- No node is its own neighbour. -/
theorem NodeNamed.entry_ne (h : NodeNamed T i n) : n.neighborTable[T.name i]? = none := by
  by_contra hne
  obtain ⟨e, he⟩ := Option.ne_none_iff_exists'.mp hne
  obtain ⟨p, hp, hname, _⟩ := h.entry _ e he
  exact owner_peer_ne p ((name_inj.mp hname).symm.trans hp.symm)

theorem receivedVector_named {neighborCosts : List (Ipv4Address × UInt32)}
    (h : ∀ x ∈ neighborCosts, ∃ j, x.1 = (T.config j).mainAddress) (K : String)
    (hK : K ∈ receivedVector (T.config i) neighborCosts) : ∃ j, K = T.name j := by
  by_contra hno
  obtain ⟨v, hv⟩ := mem_iff_getElem?.mp hK
  rw [receivedVector, getElem?_foldl_insert_of_ne] at hv
  · simp at hv
  · intro x hx he
    obtain ⟨j, hj⟩ := h x hx
    rw [hj, reverseLookup_main] at he
    exact hno ⟨j, he.symm⟩

/-- Tables that `BellmanFord` runs on, when they speak about nodes of the
topology. -/
structure TablesNamed (T : Topology) (i : Fin T.size) (m : Node) (ndv : DistanceVector) : Prop where
  self : m.dv[T.name i]? = some 0
  dvKeys : ∀ K : String, K ∈ addUnknown m.dv ndv → ∃ j, K = T.name j
  entry : ∀ (K : String) e, m.neighborTable[K]? = some e → ∃ p, T.owner p = i ∧
    K = T.name (T.owner (peer p)) ∧
    e.neighborAddr = (T.config (T.owner (peer p))).mainAddress ∧ e.interfaceAddr = T.address p

theorem NodeNamed.mem_dv (h : NodeNamed T i n) {K : String} (hK : K ∈ n.dv) : ∃ j, K = T.name j := by
  obtain ⟨v, hv⟩ := mem_iff_getElem?.mp hK
  exact h.dvKeys K v hv

theorem NodeNamed.addNeighbor (h : NodeNamed T i n) {p : T.Port} (hp : T.owner p = i) (now : ℕ)
    (fresh : n.neighborTable[T.name (T.owner (peer p))]? = none) :
    TablesNamed T i (Dv.addNeighbor (T.config i) now (T.socket p)
      (T.config (T.owner (peer p))).mainAddress n) ∅ := by
  refine ⟨?_, ?_, ?_⟩
  · rw [Dv.addNeighbor, getElem?_insertIfNew_eq, if_neg, h.self]
    rw [reverseLookup_main, name_inj]
    exact fun hn => owner_peer_ne p (hn.1.trans hp.symm)
  · intro K hK
    rcases mem_addUnknown.mp hK with hK | hK
    · simp only [Dv.addNeighbor, reverseLookup_main, Std.ExtTreeMap.mem_insertIfNew] at hK
      rcases hK with hK | hK
      · exact ⟨_, (by simpa using hK : _ = K).symm⟩
      · exact h.mem_dv hK
    · simp at hK
  · intro K e hK
    rw [addNeighbor_entry (by rw [reverseLookup_main]; exact fresh), reverseLookup_main] at hK
    split at hK
    · rename_i hn
      obtain rfl := Option.some.inj hK
      exact ⟨p, hp, hn.symm, rfl, hp ▸ interfaceAddr_socket p⟩
    · exact h.entry K e hK

theorem NodeNamed.storeVector (h : NodeNamed T i n) {p : T.Port} (hp : T.owner p = i) (now : ℕ)
    {newdv : DistanceVector} (hnew : ∀ K : String, K ∈ newdv → ∃ j, K = T.name j) :
    TablesNamed T i (Dv.storeVector (T.config i) now (T.socket p)
      (T.config (T.owner (peer p))).mainAddress newdv n) newdv := by
  refine ⟨h.self, ?_, ?_⟩
  · intro K hK
    rcases mem_addUnknown.mp hK with hK | hK
    · exact h.mem_dv hK
    · exact hnew K hK
  · intro K e hK
    obtain ⟨entry, _, hfrom, hget⟩ := storeVector_entry (T.config i) now (T.socket p)
      (T.config (T.owner (peer p))).mainAddress newdv n K
    rw [hget] at hK
    rw [reverseLookup_main] at hfrom hK
    split at hK
    · rename_i hn
      obtain rfl := Option.some.inj hK
      rcases hfrom with ⟨_, ha, hif⟩ | ⟨old, hold, rfl⟩
      · exact ⟨p, hp, hn.symm, ha, hif.trans (hp ▸ interfaceAddr_socket p)⟩
      · exact h.entry K old (hn ▸ hold)
    · exact h.entry K e hK

theorem NodeNamed.audited (h : NodeNamed T i n) {now : ℕ} {m : Node}
    (audited : Audited (T.config i) now (sendHello (T.config i) n).1 m) : TablesNamed T i m m.dv := by
  refine ⟨?_, ?_, ?_⟩
  · have hx : ¬ Expires (T.config i) now n (T.name i) := by
      intro hx
      obtain ⟨e, he, _⟩ := hx
      rw [h.entry_ne] at he; cases he
    rw [(audited.kept _ hx).2.2]; exact h.self
  · intro K hK
    rw [mem_addUnknown, or_self] at hK
    by_cases hx : Expires (T.config i) now n K
    · obtain ⟨e, he, _⟩ := hx
      obtain ⟨p, _, hK, _⟩ := h.entry K e he
      exact ⟨_, hK⟩
    · rw [mem_iff_getElem?, (audited.kept K hx).2.2, ← mem_iff_getElem?] at hK
      exact h.mem_dv hK
  · intro K e hK
    exact h.entry K e (audited.entry hK).1

theorem BeforeBF.named {m : Node} {ndv : DistanceVector} (hb : BeforeBF (T.config i) n e m ndv)
    (h : NodeNamed T i n) (he : ValidEvent T i e) : TablesNamed T i m ndv := by
  cases hb with
  | hello payload fresh =>
    obtain ⟨p, hp, rfl, horigin, _⟩ := he
    rw [horigin, reverseLookup_main] at fresh
    rw [horigin]
    exact h.addNeighbor hp _ fresh
  | dvTable payload =>
    obtain ⟨p, hp, rfl, horigin, hlist⟩ := he
    rw [DVMessage.neighborCosts, payload] at hlist
    rw [horigin]
    exact h.storeVector hp _ (receivedVector_named hlist)
  | audit audited _ => exact h.audited audited

theorem NodeNamed.handle (h : NodeNamed T i n) (he : ValidEvent T i e)
    (hh : handle (T.config i) n e = some (n', out)) : NodeNamed T i n' := by
  have hinv : Inv (T.config i) n' := inv_step (e := e) h.inv (by rw [step, hh]; rfl)
  rcases handle_cases h.inv.tables.keyed hh with ⟨hs, _⟩ | ⟨m, ndv, hb, hrec, _⟩
  · refine ⟨hinv, hs.dv ▸ h.self, hs.dv ▸ h.dvKeys, ?_⟩
    intro K e' he'
    obtain ⟨e, he, hcore⟩ := hs.entry he'
    have haddr : e'.neighborAddr = e.neighborAddr := congrArg (·.1) hcore
    have hif : e'.interfaceAddr = e.interfaceAddr := congrArg (·.2.1) hcore
    rw [haddr, hif]; exact h.entry K e he
  · obtain ⟨hself, hkeys, hentry⟩ := hb.named h he
    refine ⟨hinv, ?_, ?_, ?_⟩
    · have hknown : (addUnknown m.dv ndv)[T.name i]? = some 0 := by
        rw [getElem?_addUnknown, hself]; rfl
      rw [← thisNode_eq] at hknown ⊢
      exact (hrec.self 0 hknown).1
    · intro K v hv
      exact hkeys K (hrec.mem_dv.mp (mem_iff_getElem?.mpr ⟨v, hv⟩))
    · rw [hrec.neighborTable]; exact hentry

/-! ### Messages -/

theorem of_mem_sendPacket {cfg : NodeConfig} {M : Type} {packet : M} {a : Ipv4Address}
    {x : Ipv4Address × M} (h : x ∈ cfg.sendPacket packet a) : x.2 = packet := by
  unfold NodeConfig.sendPacket at h
  split at h
  · rw [List.mem_singleton] at h; rw [h]
  · cases h

theorem of_mem_dvRound {cfg : NodeConfig} {sequenceNumber : UInt32} {x : Ipv4Address × DVMessage}
    (h : x ∈ dvRound cfg n sequenceNumber) :
    x.2.originatorAddress = cfg.mainAddress ∧
      ∀ y ∈ x.2.neighborCosts, ∃ K v, n.dv[K]? = some v ∧ y.1 = cfg.resolveName K ∧
        (y.2 = mInf ∨ y.2 = v) := by
  obtain ⟨i, _, hx⟩ := List.mem_flatMap.mp h
  split at hx
  · rw [of_mem_sendPacket hx]
    refine ⟨rfl, ?_⟩
    intro y hy
    obtain ⟨j, hj, rfl⟩ := List.mem_map.mp hy
    exact ⟨j.1, j.2, mem_toList.mp hj, rfl, ite_eq_or_eq _ _ _⟩
  · cases hx

theorem NodeNamed.dvRound (h : NodeNamed T i n) {sequenceNumber : UInt32}
    {x : Ipv4Address × DVMessage} (hx : x ∈ Dv.dvRound (T.config i) n sequenceNumber) :
    MsgFrom T i x.2 := by
  obtain ⟨horigin, hlist⟩ := of_mem_dvRound hx
  refine ⟨horigin, fun y hy => ?_⟩
  obtain ⟨K, v, hK, hres, _⟩ := hlist y hy
  obtain ⟨j, rfl⟩ := h.dvKeys K v hK
  exact ⟨j, hres.trans (resolveName_name i j)⟩

theorem helloPackets_from {x : Ipv4Address × DVMessage} (hx : x ∈ helloPackets (T.config i) n e) :
    MsgFrom T i x.2 := by
  cases e with
  | recv _ _ _ => cases hx
  | auditHellos _ =>
    obtain ⟨j, _, rfl⟩ := List.mem_map.mp hx
    exact ⟨rfl, fun y hy => by cases hy⟩

theorem NodeNamed.sends (h : NodeNamed T i n) (he : ValidEvent T i e)
    (hh : Dv.handle (T.config i) n e = some (n', out)) : ∀ x ∈ out, MsgFrom T i x.2 := by
  have h' := h.handle he hh
  intro x hx
  rcases handle_cases h.inv.tables.keyed hh with ⟨_, _, rfl⟩ | ⟨_, _, _, _, rounds, rfl, _⟩
  · exact helloPackets_from hx
  · rcases List.mem_append.mp hx with hx | hx
    · exact helloPackets_from hx
    · obtain ⟨_, _, hx⟩ := List.mem_flatMap.mp hx
      exact h'.dvRound hx

end Names

/-- Tables and messages speak about nodes of the topology. -/
structure Named (T : Topology) (s : DvNet T) : Prop where
  node : ∀ i, NodeNamed T i (s.node i)
  msg : ∀ p, ∀ dvMessage ∈ s.chan p, MsgFrom T (T.owner p) dvMessage

section NetNames
variable {T : Topology} {s s' : DvNet T} {l : Label T}

theorem Named.start (T : Topology) (sequenceNumber : Fin T.size → UInt32) :
    Named T (netStart T sequenceNumber) := by
  refine ⟨fun i => NodeNamed.start T i _, ?_⟩
  intro p m hm
  obtain ⟨_, x, hx, rfl⟩ := Net.of_mem_onPort hm
  exact helloPackets_from (e := .auditHellos 0) hx

/-- A node of a network only sees messages from the nodes it has links to. -/
theorem Named.valid (h : Named T s) {p : T.Port} (now : ℕ) {dvMessage : DVMessage}
    {rest : List DVMessage} (head : s.chan p = dvMessage :: rest) :
    ValidEvent T (T.owner (peer p)) (.recv now (T.socket (peer p)) dvMessage) := by
  refine ⟨peer p, rfl, rfl, ?_⟩
  rw [peer_peer]
  exact h.msg p dvMessage (head ▸ List.mem_cons_self)

theorem Named.apply (h : Named T s) {i : Fin T.size} {n' : Node} {out : Packets}
    (hn : NodeNamed T i n') (hout : ∀ x ∈ out, MsgFrom T i x.2) :
    Named T (s.apply i (n', out)) := by
  refine ⟨?_, ?_⟩
  · intro j
    by_cases hj : j = i
    · subst hj; rw [Net.apply_node_self]; exact hn
    · rw [Net.apply_node_ne _ _ hj]; exact h.node j
  · intro p m hm
    rcases List.mem_append.mp hm with hm | hm
    · exact h.msg p m hm
    · obtain ⟨rfl, x, hx, rfl⟩ := Net.of_mem_onPort hm
      exact hout x hx

theorem Named.pop (h : Named T s) {p : T.Port} {dvMessage : DVMessage} {rest : List DVMessage}
    (head : s.chan p = dvMessage :: rest) :
    Named T (s.setChan p rest) := by
  refine ⟨h.node, ?_⟩
  intro q m hm
  by_cases hq : q = p
  · subst hq
    rw [Net.setChan_self] at hm
    exact h.msg q m (head ▸ List.mem_cons_of_mem _ hm)
  · rw [Net.setChan_ne _ _ hq] at hm; exact h.msg q m hm

theorem Named.step (h : Named T s) (hst : NetStep T s l s') : Named T s' := by
  cases hst with
  | idle => exact h
  | lose head _ => exact h.pop head
  | @deliver p now _ _ _ _ head handled =>
    have hv := h.valid now head
    exact (h.pop head).apply ((h.node _).handle hv handled) ((h.node _).sends hv handled)
  | @audit i now _ _ handled =>
    have hv : ValidEvent T i (.auditHellos now) := trivial
    exact h.apply ((h.node _).handle hv handled) ((h.node _).sends hv handled)

end NetNames

/-! ## What a node puts on a link -/

/-- The neighbour at the other end of `p` is in `m_costs`, with the entry `e`,
and is sent its vectors on `p`. -/
def StoredAt (T : Topology) (n : Node) (p : T.Port) (e : NeighborTableEntry) : Prop :=
  T.name (T.owner (peer p)) ∈ n.costs ∧ n.neighborTable[T.name (T.owner (peer p))]? = some e ∧
    e.interfaceAddr = T.address p

/-- The vector a message carries. -/
def DVMessage.vector? (dvMessage : DVMessage) : Option (List (Ipv4Address × UInt32)) :=
  match dvMessage.payload with
  | .dvTableMsg neighborCosts => some neighborCosts
  | .helloReq _ _ => none

/-- The last vector of a queue. -/
def lastVector (msgs : List DVMessage) : Option (List (Ipv4Address × UInt32)) :=
  (msgs.filterMap DVMessage.vector?).getLast?

theorem lastVector_append (msgs msgs' : List DVMessage) :
    lastVector (msgs ++ msgs') = (lastVector msgs').or (lastVector msgs) := by
  rw [lastVector, List.filterMap_append, List.getLast?_append]; rfl

theorem lastVector_cons (dvMessage : DVMessage) (msgs : List DVMessage) :
    lastVector (dvMessage :: msgs) = (lastVector msgs).or dvMessage.vector? := by
  rw [← List.singleton_append, lastVector_append]
  unfold lastVector
  cases h : dvMessage.vector? <;> simp [h]

theorem lastVector_eq_none {msgs : List DVMessage} :
    lastVector msgs = none ↔ ∀ m ∈ msgs, m.vector? = none := by
  rw [lastVector, List.getLast?_eq_none_iff, List.filterMap_eq_nil_iff]

section Sends
variable {T : Topology} {n : Node} {p : T.Port} {e : NeighborTableEntry} {sequenceNumber : UInt32}

theorem onPort_dvRound (h : NodeNamed T (T.owner p) n) (he : StoredAt T n p e) :
    Net.onPort T (T.owner p) (dvRound (T.config (T.owner p)) n sequenceNumber) p =
      [⟨sequenceNumber, 1, (T.config (T.owner p)).mainAddress,
        .dvTableMsg (vectorFor (T.config (T.owner p)) n e)⟩] := by
  obtain ⟨hc, he, hif⟩ := he
  obtain ⟨c, hc⟩ := mem_iff_getElem?.mp hc
  unfold dvRound
  rw [Net.onPort_flatMap, flatMap_toList_at hc]
  · simp only [he, hif]
    rw [Net.onPort_sendPacket p p _ rfl, if_pos rfl]
  · -- another neighbour's vector does not go to this link end
    intro K c' hK hne
    obtain ⟨e', he'⟩ := h.inv.tables.costsEntry K c' hK
    obtain ⟨q, hq, hname, _, hif'⟩ := h.entry K e' he'
    simp only [he', hif']
    rw [Net.onPort_sendPacket p q _ hq.symm, if_neg]
    intro he
    obtain rfl := he
    exact hne hname

/-- No vector goes to a link end that no neighbour is stored with. -/
theorem onPort_dvRound_none (h : NodeNamed T (T.owner p) n) (he : ∀ e, ¬ StoredAt T n p e) :
    Net.onPort T (T.owner p) (dvRound (T.config (T.owner p)) n sequenceNumber) p = [] := by
  unfold dvRound
  rw [Net.onPort_flatMap, List.flatMap_eq_nil_iff]
  intro hx hK
  obtain ⟨K, c⟩ := hx
  rw [mem_toList] at hK
  obtain ⟨e', he'⟩ := h.inv.tables.costsEntry K c hK
  obtain ⟨q, hq, hname, _, hif'⟩ := h.entry K e' he'
  simp only [he', hif']
  rw [Net.onPort_sendPacket p q _ hq.symm, if_neg]
  intro he
  obtain rfl := he
  exact he e' ⟨hname ▸ mem_iff_getElem?.mpr ⟨c, hK⟩, hname ▸ he', hif'⟩

theorem vector?_of_mem_helloPackets {cfg : NodeConfig} {ev : Event} {x : Ipv4Address × DVMessage}
    (hx : x ∈ helloPackets cfg n ev) : x.2.vector? = none := by
  cases ev with
  | recv _ _ _ => cases hx
  | auditHellos _ =>
    obtain ⟨j, _, rfl⟩ := List.mem_map.mp hx
    rfl

theorem lastVector_helloPackets (i : Fin T.size) (ev : Event) :
    lastVector (Net.onPort T i (helloPackets (T.config i) n ev) p) = none := by
  rw [lastVector_eq_none]
  intro m hm
  obtain ⟨_, x, hx, rfl⟩ := Net.of_mem_onPort hm
  exact vector?_of_mem_helloPackets hx

/-- The last vector of a step's messages to a stored neighbour is the one
`m_dv` gives for it. -/
theorem lastVector_rounds (h : NodeNamed T (T.owner p) n) (he : StoredAt T n p e)
    {rounds : List UInt32} (hr : rounds ≠ []) :
    lastVector (Net.onPort T (T.owner p)
      (rounds.flatMap (dvRound (T.config (T.owner p)) n)) p) =
        some (vectorFor (T.config (T.owner p)) n e) := by
  obtain ⟨rounds, last, rfl⟩ := (List.eq_nil_or_concat rounds).resolve_left hr
  rw [List.concat_eq_append, List.flatMap_append, Net.onPort_append, lastVector_append,
    List.flatMap_singleton, onPort_dvRound h he]
  rfl

/-- What the event of a node does to what it tells the neighbour at `p`. Its
last message gives the new `m_dv`, or there is none, and then only timed-out
neighbours changed in `m_dv`. -/
theorem NodeNamed.speaks {ev : Event} {n' : Node} {out : Packets}
    (h : NodeNamed T (T.owner p) n) (hv : ValidEvent T (T.owner p) ev)
    (hh : Dv.handle (T.config (T.owner p)) n ev = some (n', out)) (he : StoredAt T n' p e) :
    lastVector (Net.onPort T (T.owner p) out p) =
        some (vectorFor (T.config (T.owner p)) n' e) ∨
      (lastVector (Net.onPort T (T.owner p) out p) = none ∧ (∃ e₀, StoredAt T n p e₀) ∧
        ∀ D, (¬ TimedOut (T.config (T.owner p)) n D ev ∧
            DistanceVector.cost n'.dv D = DistanceVector.cost n.dv D) ∨
          (TimedOut (T.config (T.owner p)) n D ev ∧ DistanceVector.cost n'.dv D = mInf)) := by
  have h' := h.handle hv hh
  have hello := lastVector_helloPackets (n := n) (p := p) (T.owner p) ev
  rcases handle_cases h.inv.tables.keyed hh with
    ⟨hs, hq, rfl⟩ | ⟨m, ndv, hb, hrec, rounds, rfl, hsilent⟩
  · refine Or.inr ⟨hello, ?_, fun D => Or.inl ⟨hq.not_timedOut, by rw [hs.dv]⟩⟩
    obtain ⟨hc, he, hif⟩ := he
    obtain ⟨e₀, he₀, hcore⟩ := hs.entry he
    have hif₀ : e.interfaceAddr = e₀.interfaceAddr := congrArg (·.2.1) hcore
    exact ⟨e₀, hs.costs ▸ hc, he₀, hif₀ ▸ hif⟩
  · rw [Net.onPort_append, lastVector_append, hello, Option.or_none]
    by_cases hr : rounds = []
    · obtain ⟨hdv, hno⟩ := hsilent hr
      refine Or.inr ⟨by rw [hr]; simp [lastVector], ?_, fun D => ?_⟩
      · obtain ⟨hc, he, hif⟩ := he
        cases handle_entry h.inv hh hc he with
        | kept entry cost core _ =>
          have hif₀ := congrArg (·.2.1) core
          exact ⟨_, cost, entry, hif₀.symm.trans hif⟩
        | discovered payload _ _ _ => exact absurd ⟨_, _, payload⟩ hno
        | received _ _ cost entry stored => exact ⟨_, cost, entry, by rw [stored] at hif; exact hif⟩
      · rw [hdv, cost_addUnknown]
        exact hb.cost hno D
    · exact Or.inl (lastVector_rounds h' he hr)

end Sends

/-! ## Agreement across a link -/

/-- While the owner of `p` sends its vectors there, the other end knows its
`m_dv` or is about to: the last vector in flight, or else the one stored at
the other end, gives the same costs to everything but the other end. -/
def Agree (T : Topology) (s : DvNet T) (p : T.Port) : Prop :=
  (∃ e, StoredAt T (s.node (T.owner p)) p e) →
    match lastVector (s.chan p) with
    | some w => ∀ D, D ≠ T.name (T.owner (peer p)) →
        DistanceVector.cost (receivedVector (T.config (T.owner (peer p))) w) D =
          DistanceVector.cost (s.node (T.owner p)).dv D
    | none => ∀ e, T.name (T.owner p) ∈ (s.node (T.owner (peer p))).costs →
        (s.node (T.owner (peer p))).neighborTable[T.name (T.owner p)]? = some e →
        ∀ D, D ≠ T.name (T.owner (peer p)) →
          DistanceVector.cost e.dv D = DistanceVector.cost (s.node (T.owner p)).dv D

section Agreement
variable {T : Topology} {s s' : DvNet T} {p : T.Port} {n' : Node} {out : Packets}

theorem Agree.congr (h : Agree T s p) (hn : s'.node (T.owner p) = s.node (T.owner p))
    (hpeer : s'.node (T.owner (peer p)) = s.node (T.owner (peer p)))
    (hc : lastVector (s'.chan p) = lastVector (s.chan p)) : Agree T s' p := by
  unfold Agree
  rw [hn, hpeer, hc]
  exact h

/-- The owner of the link end handles an event. -/
theorem Agree.speaker {ev : Event} (hN : NodeNamed T (T.owner p) (s.node (T.owner p)))
    (h : Agree T s p) (hv : ValidEvent T (T.owner p) ev)
    (hh : handle (T.config (T.owner p)) (s.node (T.owner p)) ev = some (n', out))
    (preset : (∃ e, StoredAt T n' p e) → lastVector (Net.onPort T (T.owner p) out p) = none →
      ∀ D, TimedOut (T.config (T.owner p)) (s.node (T.owner p)) D ev →
        DistanceVector.cost (s.node (T.owner p)).dv D = mInf) :
    Agree T (s.apply (T.owner p) (n', out)) p := by
  intro hx
  obtain ⟨e, he⟩ := hx
  have hpeer := Net.apply_node_ne s (n', out) (owner_peer_ne p)
  rw [Net.apply_node_self] at he ⊢
  rw [Net.apply_chan, lastVector_append, hpeer]
  rcases hN.speaks hv hh he with hsaid | ⟨hsilent, hstored, hcost⟩
  · rw [hsaid, Option.some_or]
    intro D hD
    obtain ⟨_, he, _⟩ := he
    have hN' := hN.handle hv hh
    obtain ⟨q, _, hname, haddr, _⟩ := hN'.entry _ e he
    unfold DistanceVector.cost
    rw [receivedVector_vectorFor]
    · intro K v hK
      obtain ⟨j, rfl⟩ := hN'.dvKeys K v hK
      rw [resolveName_name, reverseLookup_main]
    · rw [haddr, reverseLookup_main, ← hname]; exact hD
  · have same : ∀ D, DistanceVector.cost n'.dv D =
        DistanceVector.cost (s.node (T.owner p)).dv D := by
      intro D
      rcases hcost D with ⟨_, hD⟩ | ⟨hout, hD⟩
      · exact hD
      · rw [hD, preset ⟨e, he⟩ hsilent D hout]
    rw [hsilent, Option.none_or]
    simp only [same]
    exact h hstored

/-- The other end handles an event that leaves the messages `msgs` in the
queue. -/
theorem Agree.listener (h : Agree T s p) {msgs : List DVMessage} (hchan : s'.chan p = msgs)
    (howner : s'.node (T.owner p) = s.node (T.owner p))
    (hlast : ∀ w, lastVector msgs = some w → lastVector (s.chan p) = some w)
    (hentry : (∃ e, StoredAt T (s.node (T.owner p)) p e) → lastVector msgs = none →
      ∀ e, T.name (T.owner p) ∈ (s'.node (T.owner (peer p))).costs →
        (s'.node (T.owner (peer p))).neighborTable[T.name (T.owner p)]? = some e →
        (lastVector (s.chan p) = none ∧
          T.name (T.owner p) ∈ (s.node (T.owner (peer p))).costs ∧
          ∃ e₀, (s.node (T.owner (peer p))).neighborTable[T.name (T.owner p)]? = some e₀ ∧
            e.dv = e₀.dv) ∨
        ∃ w, lastVector (s.chan p) = some w ∧
          e.dv = receivedVector (T.config (T.owner (peer p))) w) :
    Agree T s' p := by
  intro hstored
  rw [howner] at hstored ⊢
  have hA := h hstored
  rw [hchan]
  cases hm : lastVector msgs with
  | some w =>
    rw [hlast w hm] at hA
    exact hA
  | none =>
    intro e hc he
    rcases hentry hstored hm e hc he with ⟨hnone, hc₀, e₀, he₀, hdv⟩ | ⟨w, hw, hdv⟩
    · rw [hnone] at hA
      rw [hdv]; exact hA e₀ hc₀ he₀
    · rw [hw] at hA
      rw [hdv]; exact hA

/-- What a step must not do to keep the agreement across `p`: make the other
end forget, by a hello, what it is not about to be told again; deliver a
vector that came another way; or change `m_dv` at the hello timer without a
message. -/
def KeepsAgreement (T : Topology) (s : DvNet T) (p : T.Port) : Label T → Prop
  | .deliver q _ => T.owner q = T.owner p → T.owner (peer q) = T.owner (peer p) →
      (∃ e, StoredAt T (s.node (T.owner p)) p e) → ∀ dvMessage rest, s.chan q = dvMessage :: rest →
        (dvMessage.vector? = none →
          (s.node (T.owner (peer p))).neighborTable[T.name (T.owner p)]? = none →
          lastVector (s.chan p) ≠ none) ∧
        (dvMessage.vector? ≠ none → q = p)
  | .auditHellos i now => i = T.owner p → ∀ n' out,
      handle (T.config i) (s.node i) (.auditHellos now) = some (n', out) →
      (∃ e, StoredAt T n' p e) → lastVector (Net.onPort T i out p) = none →
      ∀ D, Expires (T.config i) now (s.node i) D →
        DistanceVector.cost (s.node i).dv D = mInf
  | .lose _ => True

theorem vector?_hello {dvMessage : DVMessage} {destinationAddress helloMessage}
    (h : dvMessage.payload = .helloReq destinationAddress helloMessage) :
    dvMessage.vector? = none := by
  rw [DVMessage.vector?, h]

theorem vector?_dvTable {dvMessage : DVMessage} {neighborCosts}
    (h : dvMessage.payload = .dvTableMsg neighborCosts) :
    dvMessage.vector? = some neighborCosts := by
  rw [DVMessage.vector?, h]

/-- The other end of `p` handles the oldest message of the queue of `q`. -/
theorem Agree.deliver_listener (hN : Named T s) (h : Agree T s p) {q : T.Port} {now : ℕ}
    {dvMessage : DVMessage} {rest : List DVMessage} (head : s.chan q = dvMessage :: rest)
    (hq : T.owner (peer q) = T.owner (peer p))
    (handled : handle (T.config (T.owner (peer q))) (s.node (T.owner (peer q)))
      (.recv now (T.socket (peer q)) dvMessage) = some (n', out))
    (hkeep : KeepsAgreement T s p (.deliver q now)) :
    Agree T ((s.setChan q rest).apply (T.owner (peer q)) (n', out)) p := by
  have hother : T.owner p ≠ T.owner (peer q) := hq ▸ (owner_peer_ne p).symm
  have hchan : ((s.setChan q rest).apply (T.owner (peer q)) (n', out)).chan p =
      (s.setChan q rest).chan p := by
    rw [Net.apply_chan, Net.onPort_other hother, List.append_nil]
  -- what is left of the queue of `p`
  have hleft : lastVector (s.chan p) =
      (lastVector ((s.setChan q rest).chan p)).or (if q = p then dvMessage.vector? else none) := by
    by_cases hqp : q = p
    · subst hqp
      rw [Net.setChan_self, head, lastVector_cons, if_pos rfl]
    · rw [Net.setChan_ne _ _ (Ne.symm hqp), if_neg hqp, Option.or_none]
  refine h.listener hchan (Net.apply_node_ne _ _ hother) ?_ ?_
  · intro w hw
    rw [hleft, hw, Option.some_or]
  · intro hstored hnone e hc he
    rw [hnone, Option.none_or] at hleft
    rw [← hq, Net.apply_node_self] at hc he
    have horigin := (hN.msg q dvMessage (head ▸ List.mem_cons_self)).1
    have hsender : (T.config (T.owner (peer q))).reverseLookup dvMessage.originatorAddress =
        T.name (T.owner q) := by rw [horigin, reverseLookup_main]
    cases handle_entry (hN.node _).inv handled hc he with
    | kept entry cost core other =>
      left
      have hdv := congrArg (·.2.2) core
      refine ⟨?_, hq ▸ cost, _, hq ▸ entry, hdv⟩
      rw [hleft]
      by_cases hqp : q = p
      · rw [if_pos hqp]
        cases hp : dvMessage.payload with
        | helloReq _ _ => exact vector?_hello hp
        | dvTableMsg _ => exact absurd ⟨⟨_, hp⟩, hqp ▸ hsender⟩ other
      · rw [if_neg hqp]
    | discovered payload sender fresh _ =>
      have howner : T.owner q = T.owner p := name_inj.mp (hsender.symm.trans sender)
      obtain ⟨htold, _⟩ := hkeep howner hq hstored dvMessage rest head
      refine absurd ?_ (htold (vector?_hello payload) (hq ▸ fresh))
      rw [hleft, vector?_hello payload, ite_self]
    | received payload sender _ _ stored =>
      have howner : T.owner q = T.owner p := name_inj.mp (hsender.symm.trans sender)
      obtain ⟨_, hway⟩ := hkeep howner hq hstored dvMessage rest head
      have hqp : q = p := hway (by rw [vector?_dvTable payload]; exact Option.some_ne_none _)
      refine Or.inr ⟨_, ?_, by rw [stored, hq]⟩
      rw [hleft, if_pos hqp, vector?_dvTable payload]

/-- **Agreement is kept by every other step.** -/
theorem Agree.step {l : Label T} (hN : Named T s) (h : Agree T s p) (hst : NetStep T s l s')
    (hkeep : KeepsAgreement T s p l) : Agree T s' p := by
  cases hst with
  | idle => exact h
  | @lose q dvMessage rest _ _ head payload =>
    refine h.congr rfl rfl ?_
    by_cases hqp : p = q
    · subst hqp
      rw [Net.setChan_self, head, lastVector_cons, vector?_hello payload, Option.or_none]
    · rw [Net.setChan_ne _ _ hqp]
  | @deliver q now dvMessage rest n' out head handled =>
    have hv := hN.valid now head
    by_cases hspeak : T.owner (peer q) = T.owner p
    · have hqp : p ≠ q := by
        intro he
        obtain rfl := he
        exact owner_peer_ne p hspeak
      rw [hspeak] at handled hv ⊢
      refine Agree.speaker (hN.node _) (h.congr rfl rfl ?_) hv handled fun _ _ D hD => hD.elim
      rw [Net.setChan_ne _ _ hqp]
    · by_cases hlisten : T.owner (peer q) = T.owner (peer p)
      · exact h.deliver_listener hN head hlisten handled hkeep
      · have hqp : p ≠ q := by
          intro he
          obtain rfl := he
          exact hlisten rfl
        refine h.congr (Net.apply_node_ne _ _ (Ne.symm hspeak))
          (Net.apply_node_ne _ _ (Ne.symm hlisten)) ?_
        rw [Net.apply_chan, Net.onPort_other (Ne.symm hspeak), List.append_nil,
          Net.setChan_ne _ _ hqp]
  | @audit i now n' out handled =>
    by_cases hspeak : i = T.owner p
    · subst hspeak
      exact h.speaker (hN.node _) (show ValidEvent T _ (.auditHellos now) from trivial) handled
        (hkeep rfl n' out handled)
    · have hchan : (s.apply i (n', out)).chan p = s.chan p := by
        rw [Net.apply_chan, Net.onPort_other (Ne.symm hspeak), List.append_nil]
      by_cases hlisten : i = T.owner (peer p)
      · subst hlisten
        refine h.listener hchan (Net.apply_node_ne _ _ (Ne.symm hspeak)) (fun _ => id) ?_
        intro _ hnone e hc he
        rw [Net.apply_node_self] at hc he
        cases handle_entry (hN.node _).inv handled hc he with
        | kept entry cost core _ =>
          exact Or.inl ⟨hnone, cost, _, entry, congrArg (·.2.2) core⟩
      · exact h.congr (Net.apply_node_ne _ _ (Ne.symm hspeak))
          (Net.apply_node_ne _ _ (Ne.symm hlisten)) (by rw [hchan])

end Agreement

end Ns3Routing.Dv
