import Mathlib.Combinatorics.SimpleGraph.Metric
import Ns3Routing.NodeConfig

/-! # Networks of point-to-point links

`Topology` is a finite set of nodes and links as the simulator sets them up:
every node knows the number and the main address of every node, and has one
interface for each link end it owns. A `Net` is the state of all nodes with
the messages in flight, a queue for each direction of each link. Which message of
a queue is delivered next, and what a node does with it, is up to the
protocol. -/

namespace Ns3Routing

/-- Nodes, links between distinct nodes, and the configuration of every node
in them. A link end is a link with a side. -/
structure Topology where
  size : ℕ
  /-- Node numbers are read with `std::atoi`. -/
  size_lt : size < 2 ^ 31
  links : ℕ
  owner : Fin links × Bool → Fin size
  owner_ne : ∀ l, owner (l, false) ≠ owner (l, true)
  config : Fin size → NodeConfig
  address : Fin links × Bool → Ipv4Address
  socket : Fin links × Bool → ℕ
  nodeAddressMap : ∀ i j,
    (config i).nodeAddressMap[UInt32.ofNat (j : Fin size)]? = some (config j).mainAddress
  addressNodeMap : ∀ i j,
    (config i).addressNodeMap[(config j).mainAddress]? = some (UInt32.ofNat (j : Fin size))
  /-- The map from addresses to numbers has all interfaces and is the same at
  every node. -/
  addressNodeMap_address : ∀ i p, (config i).addressNodeMap[address p]? =
    some (UInt32.ofNat (owner p))
  addressNodeMap_eq : ∀ i j, (config i).addressNodeMap = (config j).addressNodeMap
  mem_sockets : ∀ p, (socket p, address p) ∈ (config (owner p)).socketAddresses
  of_mem_sockets : ∀ i, ∀ x ∈ (config i).socketAddresses,
    ∃ p, owner p = i ∧ x = (socket p, address p)
  sockets_nodup : ∀ i, ((config i).socketAddresses.map Prod.fst).Nodup
  addresses_nodup : ∀ i, ((config i).socketAddresses.map Prod.snd).Nodup
  address_inj : ∀ p q, owner p = owner q → address p = address q → p = q

namespace Topology

variable (T : Topology)

/-- A link end. What a node sends on it goes to the owner of the other end. -/
abbrev Port := Fin T.links × Bool

variable {T}

/-- The other end of the link. -/
def peer (p : T.Port) : T.Port := (p.1, !p.2)

@[simp] theorem peer_peer (p : T.Port) : peer (peer p) = p := by simp [peer]

theorem owner_peer_ne (p : T.Port) : T.owner (peer p) ≠ T.owner p := by
  obtain ⟨l, b⟩ := p
  cases b
  · exact (T.owner_ne l).symm
  · exact T.owner_ne l

/-- The name of a node, the same at every node. -/
def name (T : Topology) (i : Fin T.size) : String := toString (UInt32.ofNat i).toNat

theorem toNat_number (i : Fin T.size) : (UInt32.ofNat i).toNat = i := by
  have := T.size_lt
  rw [UInt32.toNat_ofNat']
  exact Nat.mod_eq_of_lt (by omega)

theorem number_inj {i j : Fin T.size} (h : UInt32.ofNat i = UInt32.ofNat j) : i = j := by
  have hnat := congrArg UInt32.toNat h
  rw [toNat_number, toNat_number] at hnat
  exact Fin.ext hnat

theorem name_inj {i j : Fin T.size} : T.name i = T.name j ↔ i = j := by
  constructor
  · intro h
    have hnum : UInt32.ofNat i = UInt32.ofNat j := by
      rw [← atoi_toString (UInt32.ofNat i), ← atoi_toString (UInt32.ofNat j)]
      exact congrArg atoi h
    exact number_inj hnum
  · rintro rfl; rfl

@[simp] theorem reverseLookup_main (i j : Fin T.size) :
    (T.config i).reverseLookup (T.config j).mainAddress = T.name j := by
  rw [NodeConfig.reverseLookup, T.addressNodeMap]; rfl

theorem reverseLookup_address (i : Fin T.size) (p : T.Port) :
    (T.config i).reverseLookup (T.address p) = T.name (T.owner p) := by
  rw [NodeConfig.reverseLookup, T.addressNodeMap_address]; rfl

theorem reverseLookup_eq (i j : Fin T.size) (a : Ipv4Address) :
    (T.config i).reverseLookup a = (T.config j).reverseLookup a := by
  rw [NodeConfig.reverseLookup, NodeConfig.reverseLookup, T.addressNodeMap_eq i j]

@[simp] theorem thisNode_eq (i : Fin T.size) : (T.config i).thisNode = T.name i :=
  reverseLookup_main i i

@[simp] theorem resolveName_name (i j : Fin T.size) :
    (T.config i).resolveName (T.name j) = (T.config j).mainAddress := by
  rw [NodeConfig.resolveName, name, atoi_toString, NodeConfig.resolveNodeIpAddress,
    T.nodeAddressMap, Option.getD_some]

theorem main_inj {i j : Fin T.size} : (T.config i).mainAddress = (T.config j).mainAddress ↔ i = j := by
  constructor
  · intro h
    rw [← name_inj, ← reverseLookup_main i i, h, reverseLookup_main]
  · rintro rfl; rfl

theorem knownName (i j : Fin T.size) : (T.config i).KnownName (T.name j) :=
  ⟨_, _, rfl, T.nodeAddressMap i j, T.addressNodeMap i j⟩

/-! ## Interfaces -/

theorem lookup_of_mem {α β : Type} [DecidableEq α] {l : List (α × β)} {x : α × β}
    (hnd : (l.map Prod.fst).Nodup) (hx : x ∈ l) : l.lookup x.1 = some x.2 := by
  induction l with
  | nil => cases hx
  | cons y l ih =>
    obtain ⟨hy, hnd⟩ := List.nodup_cons.mp (List.map_cons ▸ hnd)
    rcases List.mem_cons.mp hx with rfl | hx
    · rw [List.lookup_cons, beq_self_eq_true]
    · have hne : x.1 ≠ y.1 := fun he => hy (he ▸ List.mem_map_of_mem hx)
      rw [List.lookup_cons, beq_false_of_ne hne]
      exact ih hnd hx

/-- A message on the socket of a link end is stored with that end's address. -/
theorem interfaceAddr_socket (p : T.Port) :
    (T.config (T.owner p)).interfaceAddr (T.socket p) = T.address p := by
  rw [NodeConfig.interfaceAddr, lookup_of_mem (T.sockets_nodup _) (T.mem_sockets p), Option.getD_some]

/-- A packet for a local address leaves by the interface that has it. -/
theorem sendPacket_address {M : Type} (p : T.Port) (packet : M) :
    (T.config (T.owner p)).sendPacket packet (T.address p) = [(T.address p, packet)] := by
  unfold NodeConfig.sendPacket
  cases h : (T.config (T.owner p)).socketAddresses.find? fun i => T.address p == i.2 with
  | none =>
    have := List.find?_eq_none.mp h _ (T.mem_sockets p)
    simp at this
  | some i =>
    have := List.find?_some h
    rw [beq_iff_eq] at this
    dsimp only
    rw [← this]

/-! ## The graph -/

/-- Two nodes are adjacent when a link joins them. -/
def graph (T : Topology) : SimpleGraph (Fin T.size) where
  Adj i j := ∃ p, T.owner p = i ∧ T.owner (peer p) = j
  symm := ⟨by
    intro i j hx
    obtain ⟨p, rfl, rfl⟩ := hx
    exact ⟨peer p, rfl, by rw [peer_peer]⟩⟩
  loopless := ⟨by
    intro i hx
    obtain ⟨p, rfl, h⟩ := hx
    exact owner_peer_ne p h⟩

theorem adj_owner (p : T.Port) : T.graph.Adj (T.owner p) (T.owner (peer p)) := ⟨p, rfl, rfl⟩

end Topology

/-! ## States of a network -/

/-- The state of every node, and for each link end what its owner sent on it
and the other end has not received yet, oldest first. -/
structure Net (T : Topology) (σ M : Type) where
  node : Fin T.size → σ
  chan : T.Port → List M

namespace Net

open Ns3Routing.Topology

variable {T : Topology} {σ M : Type}

/-- What of the packets `out` of node `i` goes to the link end `p`. -/
def onPort (T : Topology) (i : Fin T.size) (out : List (Ipv4Address × M)) (p : T.Port) : List M :=
  if T.owner p = i then out.filterMap fun x => if x.1 = T.address p then some x.2 else none
  else []

/-- Node `i` goes to a new state and its packets go to its link ends. -/
def apply (s : Net T σ M) (i : Fin T.size) (res : σ × List (Ipv4Address × M)) : Net T σ M where
  node := Function.update s.node i res.1
  chan p := s.chan p ++ onPort T i res.2 p

/-- The queue of one link end is replaced. -/
def setChan (s : Net T σ M) (p : T.Port) (msgs : List M) : Net T σ M :=
  { s with chan := Function.update s.chan p msgs }

@[simp] theorem setChan_node (s : Net T σ M) (p : T.Port) (msgs : List M) :
    (s.setChan p msgs).node = s.node := rfl

theorem setChan_self (s : Net T σ M) (p : T.Port) (msgs : List M) :
    (s.setChan p msgs).chan p = msgs := by simp [setChan]

theorem setChan_ne (s : Net T σ M) {p q : T.Port} (msgs : List M) (h : q ≠ p) :
    (s.setChan p msgs).chan q = s.chan q := by simp [setChan, h]

theorem apply_chan (s : Net T σ M) (i : Fin T.size) (res : σ × List (Ipv4Address × M))
    (p : T.Port) : (s.apply i res).chan p = s.chan p ++ onPort T i res.2 p := rfl

theorem apply_node_self (s : Net T σ M) (i : Fin T.size) (res : σ × List (Ipv4Address × M)) :
    (s.apply i res).node i = res.1 := by simp [apply]

theorem apply_node_ne (s : Net T σ M) {i j : Fin T.size} (res : σ × List (Ipv4Address × M))
    (h : j ≠ i) : (s.apply i res).node j = s.node j := by simp [apply, h]

theorem onPort_other {i : Fin T.size} {out : List (Ipv4Address × M)} {p : T.Port}
    (h : T.owner p ≠ i) : onPort T i out p = [] := if_neg h

@[simp] theorem onPort_nil (i : Fin T.size) (p : T.Port) :
    onPort T i ([] : List (Ipv4Address × M)) p = [] := by simp [onPort]

theorem of_mem_onPort {i : Fin T.size} {out : List (Ipv4Address × M)} {p : T.Port} {m : M}
    (h : m ∈ onPort T i out p) : T.owner p = i ∧ ∃ x ∈ out, x.2 = m := by
  unfold onPort at h
  split at h
  · rename_i hp
    obtain ⟨x, hx, hm⟩ := List.mem_filterMap.mp h
    split at hm
    · exact ⟨hp, x, hx, Option.some.inj hm⟩
    · cases hm
  · cases h

theorem onPort_append (i : Fin T.size) (out out' : List (Ipv4Address × M)) (p : T.Port) :
    onPort T i (out ++ out') p = onPort T i out p ++ onPort T i out' p := by
  unfold onPort
  split <;> simp

theorem onPort_flatMap {α : Type} (i : Fin T.size) (l : List α)
    (f : α → List (Ipv4Address × M)) (p : T.Port) :
    onPort T i (l.flatMap f) p = l.flatMap fun a => onPort T i (f a) p := by
  induction l with
  | nil => simp
  | cons a l ih => rw [List.flatMap_cons, onPort_append, ih, List.flatMap_cons]

theorem filterMap_of_nodup {α β : Type} [DecidableEq β] {l : List (α × β)} {x : α × β} (packet : M)
    (hnd : (l.map Prod.snd).Nodup) (hx : x ∈ l) :
    (l.map fun i => (i.2, packet)).filterMap (fun y => if y.1 = x.2 then some y.2 else none) =
      [packet] := by
  induction l with
  | nil => cases hx
  | cons y l ih =>
    obtain ⟨hy, hnd⟩ := List.nodup_cons.mp (List.map_cons ▸ hnd)
    rw [List.map_cons, List.filterMap_cons]
    rcases List.mem_cons.mp hx with rfl | hx
    · have hrest : (l.map fun i => (i.2, packet)).filterMap
          (fun y => if y.1 = x.2 then some y.2 else none) = [] := by
        rw [List.filterMap_eq_nil_iff]
        intro z hz
        obtain ⟨i, hi, rfl⟩ := List.mem_map.mp hz
        refine if_neg fun (he : i.2 = x.2) => hy ?_
        exact he ▸ List.mem_map_of_mem hi
      simp only [if_true, hrest]
    · have hne : y.2 ≠ x.2 := fun he => hy (he ▸ List.mem_map_of_mem hx)
      simp only [if_neg hne]
      exact ih hnd hx

/-- A broadcast puts one copy on every link end of the node. -/
theorem onPort_broadcastPacket (p : T.Port) (packet : M) :
    onPort T (T.owner p) ((T.config (T.owner p)).broadcastPacket packet) p = [packet] := by
  rw [onPort, if_pos rfl]
  exact filterMap_of_nodup packet (T.addresses_nodup _) (T.mem_sockets p)

/-- A packet for a local address of the node goes to the link end with that
address. -/
theorem onPort_sendPacket (p q : T.Port) (packet : M) (h : T.owner p = T.owner q) :
    onPort T (T.owner p) ((T.config (T.owner p)).sendPacket packet (T.address q)) p =
      if p = q then [packet] else [] := by
  rw [onPort, if_pos rfl, h, sendPacket_address]
  by_cases hpq : p = q
  · subst hpq; simp
  · have hne : T.address q ≠ T.address p := fun he => hpq (T.address_inj p q h he.symm)
    simp [hne, hpq]

end Net

/-! ## An example -/

/-- The interfaces of three nodes in a line. -/
def lineSockets : Fin 3 → List (ℕ × Ipv4Address)
  | 0 => [(0, 10)]
  | 1 => [(0, 20), (1, 21)]
  | 2 => [(0, 30)]

/-- Three nodes in a line, 0 – 1 – 2. -/
def lineTopology : Topology where
  size := 3
  size_lt := by decide
  links := 2
  owner
    | (0, false) => 0
    | (0, true) => 1
    | (1, false) => 1
    | (1, true) => 2
  owner_ne := by decide
  config i :=
    { mainAddress := 10 * UInt32.ofNat (i + 1)
      socketAddresses := lineSockets i
      nodeAddressMap := .ofList [((0 : UInt32), (10 : Ipv4Address)), (1, 20), (2, 30)]
      addressNodeMap := .ofList [((10 : Ipv4Address), (0 : UInt32)), (20, 1), (21, 1), (30, 2)]
      helloTimeout := 2000
      maxTTL := 16 }
  address
    | (0, false) => 10
    | (0, true) => 20
    | (1, false) => 21
    | (1, true) => 30
  socket
    | (0, false) => 0
    | (0, true) => 0
    | (1, false) => 1
    | (1, true) => 0
  nodeAddressMap := by decide +kernel
  addressNodeMap := by decide +kernel
  addressNodeMap_address := by decide +kernel
  addressNodeMap_eq _ _ := rfl
  mem_sockets := by decide +kernel
  of_mem_sockets := by decide +kernel
  sockets_nodup := by decide +kernel
  addresses_nodup := by decide +kernel
  address_inj := by decide +kernel

/-- Its links, link ends and nodes. -/
def lineLink (l : ℕ) : Fin lineTopology.links := Fin.ofNat 2 l

def linePort (l : ℕ) (b : Bool) : lineTopology.Port := (lineLink l, b)

def lineNode (i : ℕ) : Fin lineTopology.size := Fin.ofNat 3 i

theorem line_connected : lineTopology.graph.Connected := by
  refine SimpleGraph.connected_iff_exists_forall_reachable _ |>.mpr ⟨lineNode 1, ?_⟩
  have h0 : lineTopology.graph.Adj (lineNode 1) (lineNode 0) := Topology.adj_owner (linePort 0 true)
  have h2 : lineTopology.graph.Adj (lineNode 1) (lineNode 2) := Topology.adj_owner (linePort 1 false)
  intro i
  match i with
  | ⟨0, _⟩ => exact h0.reachable
  | ⟨1, _⟩ => exact .rfl
  | ⟨2, _⟩ => exact h2.reachable

end Ns3Routing
