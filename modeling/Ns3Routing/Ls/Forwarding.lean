import Ns3Routing.Network
import Ns3Routing.Ls.Dijkstra

/-! # Forwarding

`RouteOutput` and `RouteInput`, and the way of a packet through a network in
which all nodes have run `Dijkstra` on the same tables. Every node computes
its own routes and breaks ties its own way, so a packet need not follow a
route that any one of them has computed. But every next hop is on a shortest
route, so the distance to the destination drops by the cost of each link. -/

namespace Ns3Routing.Ls

open Lib Ns3Routing.Topology

/-- An `Ipv4Route`. The output device is that of the interface with the given
local address. -/
structure Ipv4Route where
  destination : Ipv4Address
  source : Ipv4Address
  gateway : Ipv4Address
  outputDevice : Ipv4Address
  deriving DecidableEq

section Routes
variable (cfg : NodeConfig) (n : Node)

def searchTable (dest : Ipv4Address) : Option RoutingTableEntry :=
  n.routingTable[cfg.reverseLookup dest]?

/-- The route of a routing table entry. -/
def tableRoute (destination : Ipv4Address) (entry : RoutingTableEntry) : Ipv4Route where
  destination := destination
  source := cfg.mainAddress
  gateway := entry.nextHopAddr
  outputDevice := entry.interfaceAddr

def routeOutput (destination : Ipv4Address) : Option Ipv4Route :=
  if destination = cfg.mainAddress then
    some
      { destination := destination
        source := cfg.mainAddress
        gateway := Ipv4Address.getLoopback
        outputDevice := Ipv4Address.getLoopback }
  else
    match searchTable cfg n destination with
    | some entry => some (tableRoute cfg destination entry)
    -- the static route goes to a variable of the same name in an inner scope
    | none => none

/-- What `RouteInput` does with a packet. -/
inductive Routed where
  /-- Nothing: the packet is this node's own. -/
  | own
  | localDelivery
  /-- There is no callback for local delivery. -/
  | undeliverable
  | forward (route : Ipv4Route)
  /-- Static routing decides. -/
  | staticRouting
  deriving DecidableEq

/-- `isDestinationAddress` is that of the IP stack; interfaces are given by
their local address. -/
def routeInput (isDestinationAddress : Ipv4Address → Ipv4Address → Bool) (lcbIsNull : Bool)
    (inputInterface sourceAddress destinationAddress : Ipv4Address) : Routed :=
  if cfg.isOwnAddress sourceAddress then .own
  else if isDestinationAddress destinationAddress inputInterface then
    if lcbIsNull then .undeliverable else .localDelivery
  else
    match searchTable cfg n destinationAddress with
    | some entry => .forward (tableRoute cfg destinationAddress entry)
    | none => .staticRouting

end Routes

/-! ## The way of a packet -/

section Packets
variable (T : Topology) (node : Fin T.size → Node)
  (isDestinationAddress : Fin T.size → Ipv4Address → Ipv4Address → Bool)
  (sourceAddress destinationAddress : Ipv4Address)

/-- A packet that came in at the link end `q` is sent on over the link ends
`ps` and delivered at node `i`. -/
inductive Forwards : T.Port → List T.Port → Fin T.size → Prop where
  | deliver {q : T.Port}
      (here : routeInput (T.config (T.owner q)) (node (T.owner q)) (isDestinationAddress (T.owner q))
        false (T.address q) sourceAddress destinationAddress = .localDelivery) :
      Forwards q [] (T.owner q)
  | forward {q p : T.Port} {ps : List T.Port} {i : Fin T.size} {route : Ipv4Route}
      (here : routeInput (T.config (T.owner q)) (node (T.owner q)) (isDestinationAddress (T.owner q))
        false (T.address q) sourceAddress destinationAddress = .forward route)
      (owner : T.owner p = T.owner q) (device : route.outputDevice = T.address p)
      (rest : Forwards (peer p) ps i) : Forwards q (p :: ps) i

/-- A packet of node `s` crosses the link ends `ps` and is delivered at node
`i`. -/
def Sends (s : Fin T.size) (ps : List T.Port) (i : Fin T.size) : Prop :=
  ∃ route p rest, routeOutput (T.config s) (node s) destinationAddress = some route ∧
    T.owner p = s ∧ route.outputDevice = T.address p ∧ ps = p :: rest ∧
    Forwards T node isDestinationAddress route.source destinationAddress (peer p) rest i

/-- The cost of the link of `p`, as its owner has it. -/
def crossingCost (p : T.Port) : ℕ :=
  ((distanceToNeighbor (T.config (T.owner p)) (node (T.owner p)) (T.name (T.owner p))
    (T.name (T.owner (peer p)))).map (·.toNat)).getD 0

/-- All nodes have the same complete database, and each its own neighbours
with interfaces that lead to them. -/
structure SameDatabase : Prop where
  same : ∀ i j, (node i).lsTable = (node j).lsTable
  keys : ∀ i (K : String), K ∈ (node i).lsTable ↔ ∃ j, K = T.name j
  listed : ∀ i K L, Lists (T.config i) (node i) K L → L ∈ (node i).lsTable
  reachable : ∀ i j, ∃ c, Route (Link (T.config i) (node i)) (T.name i) (T.name j) c
  costs : ∀ i (K : String) entry, (node i).lsTable[K]? = some entry →
    ∀ x ∈ entry.neighborCosts, 1 ≤ x.2
  total : ∀ i, totalCost (node i) < 2 ^ 31 - 1
  neighbors : ∀ i L, Lists (T.config i) (node i) (T.name i) L →
    ∃ hop p, (node i).neighborTable[L]? = some hop ∧ T.owner p = i ∧
      L = T.name (T.owner (peer p)) ∧ hop.interfaceAddr = T.address p

end Packets

section Tables
variable {T : Topology} {node : Fin T.size → Node}

theorem SameDatabase.link_eq (h : SameDatabase T node) (i j : Fin T.size) :
    Link (T.config i) (node i) = Link (T.config j) (node j) := by
  have hneighbors : ∀ K, getNeighbors (node i) K = getNeighbors (node j) K := by
    intro K
    rw [getNeighbors, getNeighbors, h.same i j]
  have hdistance : ∀ K L, distanceToNeighbor (T.config i) (node i) K L =
      distanceToNeighbor (T.config j) (node j) K L := by
    intro K L
    unfold distanceToNeighbor
    simp only [h.same i j, reverseLookup_eq i j]
  funext K L c
  unfold Link Lists
  simp only [hneighbors, hdistance, reverseLookup_eq i j]

theorem SameDatabase.ready (h : SameDatabase T node) (i : Fin T.size) :
    Ready (T.config i) (node i) := by
  refine ⟨?_, ?_, fun _ _ _ hlink => hlink.one_le (h.costs i), h.total i, ?_, ?_⟩
  · rw [thisNode_eq]
    exact (h.keys i _).mpr ⟨i, rfl⟩
  · rw [thisNode_eq]
    intro K hK
    obtain ⟨hop, _, hhop, _⟩ := h.neighbors i K hK
    exact mem_iff_getElem?.mpr ⟨hop, hhop⟩
  · rw [thisNode_eq]
    intro K hK
    obtain ⟨j, rfl⟩ := (h.keys i K).mp hK
    exact h.reachable i j
  · intro K L M _ _ hlists
    exact h.listed i K M hlists

/-- An address of an interface of node `d` is no address of another node. -/
theorem owner_of_address {p q : T.Port} (h : T.address p = T.address q) : T.owner p = T.owner q := by
  rw [← name_inj, ← reverseLookup_address (T.owner p) p, h, reverseLookup_address]

theorem isOwnAddress_main {i s : Fin T.size} (h : i ≠ s) :
    (T.config i).isOwnAddress (T.config s).mainAddress = false := by
  rw [NodeConfig.isOwnAddress, List.any_eq_false]
  intro x hx heq
  obtain ⟨p, hp, rfl⟩ := T.of_mem_sockets i x hx
  rw [beq_iff_eq] at heq
  dsimp only at heq
  refine h ?_
  rw [← name_inj, ← hp, ← reverseLookup_address i p, ← heq, reverseLookup_main]

end Tables

/-! ## Forwarding on shortest routes -/

section Shortest
variable {T : Topology} {node : Fin T.size → Node}
  {isDestinationAddress : Fin T.size → Ipv4Address → Ipv4Address → Bool}

/-- Two nodes' least cost, in the common database. -/
def Apart (T : Topology) (node : Fin T.size → Node) (i d : Fin T.size) (c : ℕ) : Prop :=
  IsDistance (Link (T.config i) (node i)) (T.name i) (T.name d) c

/-- Every node's entry for node `d` has the least cost and leads, by the
interface of a link end, to a node that is closer by the cost of that
link. -/
def RoutesTo (T : Topology) (node : Fin T.size → Node) (d : Fin T.size) : Prop :=
  ∀ i, ∃ e, (node i).routingTable[T.name d]? = some e ∧ Apart T node i d e.cost.toNat ∧
    (i ≠ d → ∃ p c, T.owner p = i ∧ e.interfaceAddr = T.address p ∧
      e.cost.toNat = crossingCost T node p + c ∧ 1 ≤ crossingCost T node p ∧
      Apart T node (T.owner (peer p)) d c)

theorem SameDatabase.routesTo (h : SameDatabase T node)
    (hspec : ∀ i (K : String), K ∈ (node i).lsTable →
      ∃ e, (node i).routingTable[K]? = some e ∧ Dist (T.config i) (node i) K e.cost.toNat ∧
        (K ≠ (T.config i).thisNode → Via (T.config i) (node i) K e)) (d : Fin T.size) :
    RoutesTo T node d := by
  intro i
  obtain ⟨e, he, hdist, hvia⟩ := hspec i (T.name d) ((h.keys i _).mpr ⟨d, rfl⟩)
  unfold Dist at hdist
  rw [thisNode_eq] at hvia hdist
  refine ⟨e, he, hdist, fun hid => ?_⟩
  obtain ⟨N, c₁, c₂, hop, hlink, hroute, hcost, hname, hhop, hif⟩ :=
    hvia fun hn => hid (name_inj.mp hn).symm
  rw [thisNode_eq] at hlink
  obtain ⟨_, hlists, w, hw, hwc⟩ := id hlink
  obtain ⟨hop', p, hhop', hp, hN, hif'⟩ := h.neighbors i N hlists
  rw [hhop] at hhop'
  obtain rfl := Option.some.inj hhop'
  have hcross : crossingCost T node p = c₁ := by
    subst hp
    rw [crossingCost, ← hN, hw, Option.map_some, Option.getD_some, hwc]
  refine ⟨p, c₂, hp, hif.trans hif', by rw [hcross, hcost], ?_, ?_⟩
  · rw [hcross]
    exact (h.ready i).costs _ _ _ hlink
  · rw [Apart, h.link_eq (T.owner (peer p)) i, ← hN]
    rw [hcost] at hdist
    exact hdist.of_head hlink hroute

section Delivery
variable (hdest : ∀ i a interface, isDestinationAddress i a interface = true ↔
    ∃ p, T.owner p = i ∧ T.address p = a)
  {q : T.Port} (hroutes : RoutesTo T node (T.owner q))
include hdest hroutes

/-- A packet from node `s` for an address of another node, at a node closer to
it than `s`. -/
theorem forwards_of_apart {s : Fin T.size} {D : ℕ} (hs : Apart T node s (T.owner q) D) (c : ℕ)
    (hc : c < D) (r : T.Port) (hr : Apart T node (T.owner r) (T.owner q) c) :
    ∃ ps, Forwards T node isDestinationAddress (T.config s).mainAddress (T.address q) r ps
        (T.owner q) ∧
      (ps.map (crossingCost T node)).sum = c ∧
      (T.owner r :: ps.map fun p => T.owner (peer p)).Nodup ∧
      ∀ j ∈ T.owner r :: ps.map fun p => T.owner (peer p),
        ∃ b ≤ c, Apart T node j (T.owner q) b := by
  induction c using Nat.strong_induction_on generalizing r with
  | _ c ih =>
    have hrs : T.owner r ≠ s := by
      intro he
      subst he
      exact absurd (hs.unique hr) (by omega)
    have hown := isOwnAddress_main hrs
    by_cases hrq : T.owner r = T.owner q
    · -- the packet has arrived
      have hzero : c = 0 := by
        have hrefl : Apart T node (T.owner r) (T.owner q) 0 := by
          rw [Apart, hrq]; exact IsDistance.refl _
        exact hr.unique hrefl
      refine ⟨[], ?_, hzero.symm, List.nodup_singleton _, ?_⟩
      · rw [← hrq]
        refine .deliver ?_
        rw [routeInput, hown, (hdest (T.owner r) (T.address q) (T.address r)).mpr ⟨q, hrq.symm, rfl⟩]
        rfl
      · intro j hj
        rw [List.map_nil, List.mem_singleton] at hj
        exact ⟨c, le_rfl, hj ▸ hr⟩
    · obtain ⟨e, he, hapart, hnext⟩ := hroutes (T.owner r)
      obtain ⟨p, c', hp, hif, hcost, hpos, hapart'⟩ := hnext hrq
      rw [← hr.unique hapart] at hcost
      obtain ⟨ps, hforwards, hsum, hnd, hcloser⟩ := ih c' (by omega) (by omega) (peer p) hapart'
      have hnotdest : isDestinationAddress (T.owner r) (T.address q) (T.address r) = false := by
        rw [← Bool.not_eq_true, hdest]
        intro hx
        obtain ⟨p', hp', ha⟩ := hx
        exact hrq (hp' ▸ owner_of_address ha)
      have hhere : routeInput (T.config (T.owner r)) (node (T.owner r))
          (isDestinationAddress (T.owner r)) false (T.address r) (T.config s).mainAddress
          (T.address q) = .forward (tableRoute (T.config (T.owner r)) (T.address q) e) := by
        rw [routeInput, hown, hnotdest, searchTable, reverseLookup_address, he]
        rfl
      refine ⟨p :: ps, .forward hhere hp hif hforwards, ?_, ?_, ?_⟩
      · rw [List.map_cons, List.sum_cons, hsum, hcost]
      · rw [List.map_cons, List.nodup_cons]
        refine ⟨fun hmem => ?_, hnd⟩
        obtain ⟨b, hb, hapartb⟩ := hcloser _ hmem
        exact absurd (hr.unique hapartb) (by omega)
      · intro j hj
        rcases List.mem_cons.mp hj with rfl | hj
        · exact ⟨c, le_rfl, hr⟩
        · obtain ⟨b, hb, hapartb⟩ := hcloser j hj
          exact ⟨b, by omega, hapartb⟩

/-- The way of a packet from node `s` to an address of another node. -/
theorem sends_of_routesTo {s : Fin T.size} (hs : s ≠ T.owner q) :
    ∃ e ps, (node s).routingTable[T.name (T.owner q)]? = some e ∧
      Sends T node isDestinationAddress (T.address q) s ps (T.owner q) ∧
      (s :: ps.map fun p => T.owner (peer p)).Nodup ∧
      (ps.map (crossingCost T node)).sum = e.cost.toNat := by
  obtain ⟨e, he, hapart, hnext⟩ := hroutes s
  obtain ⟨p, c, hp, hif, hcost, hpos, hapart'⟩ := hnext hs
  obtain ⟨ps, hforwards, hsum, hnd, hcloser⟩ :=
    forwards_of_apart hdest hroutes hapart c (by omega) (peer p) hapart'
  refine ⟨e, p :: ps, he, ⟨tableRoute (T.config s) (T.address q) e, p, ps, ?_, hp, hif, rfl,
    hforwards⟩, ?_, ?_⟩
  · have hmain : T.address q ≠ (T.config s).mainAddress := by
      intro ha
      refine hs (name_inj.mp ?_)
      rw [← reverseLookup_main s s, ← ha, reverseLookup_address]
    rw [routeOutput, if_neg hmain, searchTable, reverseLookup_address, he]
  · rw [List.map_cons, List.nodup_cons]
    refine ⟨fun hmem => ?_, hnd⟩
    obtain ⟨b, hb, hapartb⟩ := hcloser _ hmem
    exact absurd (hapart.unique hapartb) (by omega)
  · rw [List.map_cons, List.sum_cons, hsum, hcost]

end Delivery

/-- The decisions leave no choice. -/
theorem Forwards.unique {sourceAddress destinationAddress : Ipv4Address} {q : T.Port}
    {ps ps' : List T.Port} {i i' : Fin T.size}
    (h : Forwards T node isDestinationAddress sourceAddress destinationAddress q ps i)
    (h' : Forwards T node isDestinationAddress sourceAddress destinationAddress q ps' i') :
    ps' = ps ∧ i' = i := by
  induction h generalizing ps' with
  | deliver here =>
    cases h' with
    | deliver _ => exact ⟨rfl, rfl⟩
    | forward here' _ _ _ => rw [here] at here'; cases here'
  | @forward q p ps i route here owner device rest ih =>
    cases h' with
    | deliver here' => rw [here] at here'; cases here'
    | @forward _ p' ps' _ route' here' owner' device' rest' =>
      rw [here] at here'
      obtain rfl := Routed.forward.inj here'
      obtain rfl := T.address_inj p p' (owner.trans owner'.symm) (device.symm.trans device')
      obtain ⟨rfl, rfl⟩ := ih rest'
      exact ⟨rfl, rfl⟩

theorem Sends.unique {destinationAddress : Ipv4Address} {s : Fin T.size} {ps ps' : List T.Port}
    {i i' : Fin T.size} (h : Sends T node isDestinationAddress destinationAddress s ps i)
    (h' : Sends T node isDestinationAddress destinationAddress s ps' i') : ps' = ps ∧ i' = i := by
  obtain ⟨route, p, rest, hroute, hp, hdev, rfl, hf⟩ := h
  obtain ⟨route', p', rest', hroute', hp', hdev', rfl, hf'⟩ := h'
  rw [hroute] at hroute'
  obtain rfl := Option.some.inj hroute'
  obtain rfl := T.address_inj p p' (hp.trans hp'.symm) (hdev.symm.trans hdev')
  obtain ⟨rfl, rfl⟩ := hf.unique hf'
  exact ⟨rfl, rfl⟩

end Shortest

/-- **Forwarding is loop-free and delivers.** When all nodes have the same
complete database and have run `Dijkstra`, the forwarding decisions for a
packet from `s` to any address of another node `d` lead, visiting no node
twice, to local delivery at `d`, over links whose costs add up to the cost
`s` has for `d`. -/
theorem forwarding_delivers (T : Topology) (node : Fin T.size → Node)
    (isDestinationAddress : Fin T.size → Ipv4Address → Ipv4Address → Bool)
    (hdest : ∀ i a interface, isDestinationAddress i a interface = true ↔
      ∃ p, T.owner p = i ∧ T.address p = a)
    (h : SameDatabase T node) :
    ∃ node', (∀ i, runDijkstra dijkstra (T.config i) (node i) = some (node' i)) ∧
      ∀ s q, s ≠ T.owner q →
        ∃ e ps, (node' s).routingTable[T.name (T.owner q)]? = some e ∧
          (∀ ps' i, Sends T node' isDestinationAddress (T.address q) s ps' i ↔
            ps' = ps ∧ i = T.owner q) ∧
          (s :: ps.map fun p => T.owner (peer p)).Nodup ∧
          (ps.map (crossingCost T node')).sum = e.cost.toNat := by
  choose rt hrt hspec using fun i => dijkstra_spec (h.ready i).searchable
  have h' : SameDatabase T fun i => { node i with routingTable := rt i } :=
    ⟨h.same, h.keys, h.listed, h.reachable, h.costs, h.total, h.neighbors⟩
  refine ⟨fun i => { node i with routingTable := rt i }, fun i => by rw [runDijkstra, hrt]; rfl, ?_⟩
  intro s q hs
  obtain ⟨e, ps, he, hsends, hnd, hsum⟩ := sends_of_routesTo hdest (h'.routesTo hspec (T.owner q)) hs
  refine ⟨e, ps, he, fun ps' i => ⟨fun hs' => hsends.unique hs', ?_⟩, hnd, hsum⟩
  intro hx
  obtain ⟨rfl, rfl⟩ := hx
  exact hsends

/-- The neighbours of the line's nodes. -/
def lineNeighbors : Fin 3 → List (String × NeighborTableEntry)
  | 0 => [("1", ⟨20, 10, 0⟩)]
  | 1 => [("0", ⟨10, 20, 0⟩), ("2", ⟨30, 21, 0⟩)]
  | 2 => [("1", ⟨20, 30, 0⟩)]

/-- The database of the line. -/
def lineDatabase : List (String × LSTableEntry) :=
  [("0", ⟨[(20, 1)], 8⟩), ("1", ⟨[(10, 1), (30, 1)], 8⟩), ("2", ⟨[(20, 1)], 8⟩)]

/-- The tables of the line's nodes, when all is known. -/
def lineTables (i : Fin lineTopology.size) : Node where
  currentSequenceNumber := 9
  neighborTable := .ofList (lineNeighbors i)
  lsTable := .ofList lineDatabase
  routingTable := ∅

theorem line_link (i : Fin lineTopology.size) (p : lineTopology.Port) :
    Link (lineTopology.config i) (lineTables i) (lineTopology.name (lineTopology.owner p))
      (lineTopology.name (lineTopology.owner (peer p))) 1 := by
  have hlists : ∀ (i : Fin lineTopology.size) (p : lineTopology.Port),
      lineTopology.name (lineTopology.owner (peer p)) ∈ (getNeighbors (lineTables i)
        (lineTopology.name (lineTopology.owner p))).map (lineTopology.config i).reverseLookup := by
    decide +kernel
  have hcost : ∀ (i : Fin lineTopology.size) (p : lineTopology.Port), distanceToNeighbor
      (lineTopology.config i) (lineTables i) (lineTopology.name (lineTopology.owner p))
        (lineTopology.name (lineTopology.owner (peer p))) = some 1 := by decide +kernel
  refine ⟨fun he => owner_peer_ne p (name_inj.mp he).symm, List.mem_map.mp (hlists i p), 1,
    hcost i p, rfl⟩

theorem line_sameDatabase : SameDatabase lineTopology lineTables := by
  have hkeys : ∀ i, (lineTables i).lsTable.keys = ["0", "1", "2"] := by decide +kernel
  have hmem : ∀ i (K : String), K ∈ (lineTables i).lsTable ↔ K ∈ ["0", "1", "2"] := by
    intro i K
    rw [← Std.ExtTreeMap.mem_keys, hkeys]
  have hlisted : ∀ i, ∀ K ∈ ["0", "1", "2"],
      ∀ L ∈ (getNeighbors (lineTables i) K).map (lineTopology.config i).reverseLookup,
        L ∈ (lineTables i).lsTable := by decide +kernel
  refine ⟨fun _ _ => rfl, ?_, ?_, ?_, ?_, by decide +kernel, ?_⟩
  · intro i K
    rw [hmem]
    have hnames : (List.finRange lineTopology.size).map lineTopology.name = ["0", "1", "2"] := by
      decide +kernel
    rw [← hnames, List.mem_map]
    exact ⟨fun ⟨j, _, hj⟩ => ⟨j, hj.symm⟩, fun ⟨j, hj⟩ => ⟨j, List.mem_finRange _, hj.symm⟩⟩
  · intro i K L hlists
    exact hlisted i K ((hmem i K).mp hlists.mem) L (List.mem_map.mpr hlists)
  · intro i j
    obtain ⟨w⟩ := line_connected.preconnected i j
    have hroute : ∀ (k : Fin lineTopology.size) (u v : Fin lineTopology.size)
        (w : lineTopology.graph.Walk u v),
        ∃ c, Route (Link (lineTopology.config k) (lineTables k)) (lineTopology.name u)
          (lineTopology.name v) c := by
      intro k u v w
      induction w with
      | nil => exact ⟨0, .refl⟩
      | cons hadj _ ih =>
        obtain ⟨p, rfl, rfl⟩ := hadj
        obtain ⟨c, hc⟩ := ih
        exact ⟨_, hc.head (line_link k p)⟩
    exact hroute i i j w
  · have hcosts : ∀ i, ∀ x ∈ (lineTables i).lsTable.toList, x.2.neighborCosts.all (1 ≤ ·.2) := by
      decide +kernel
    intro i K entry hK y hy
    simpa using List.all_eq_true.mp (hcosts i (K, entry) (mem_toList.mpr hK)) y hy
  · have hports : ∀ i, ∀ L ∈ (getNeighbors (lineTables i) (lineTopology.name i)).map
        (lineTopology.config i).reverseLookup,
        ∃ p, lineTopology.owner p = i ∧ L = lineTopology.name (lineTopology.owner (peer p)) ∧
          ((lineTables i).neighborTable[L]?).map (·.interfaceAddr) =
            some (lineTopology.address p) := by decide +kernel
    intro i L hL
    obtain ⟨p, hp, hname, hif⟩ := hports i L (List.mem_map.mpr hL)
    obtain ⟨hop, hhop, hif⟩ := Option.map_eq_some_iff.mp hif
    exact ⟨hop, p, hhop, hp, hname, hif⟩

/-- A packet from one end of the line to the other. -/
theorem forwarding_delivers_line :
    ∃ node' e ps, (∀ i, runDijkstra dijkstra (lineTopology.config i) (lineTables i) =
        some (node' i)) ∧
      (node' (lineNode 0)).routingTable["2"]? = some e ∧
      Sends lineTopology node' (fun i a _ => decide (∃ p, lineTopology.owner p = i ∧
        lineTopology.address p = a)) 30 (lineNode 0) ps (lineNode 2) ∧
      (lineNode 0 :: ps.map fun p => lineTopology.owner (peer p)).Nodup ∧
      (ps.map (crossingCost lineTopology node')).sum = e.cost.toNat := by
  obtain ⟨node', hran, hall⟩ := forwarding_delivers lineTopology lineTables
    (fun i a _ => decide (∃ p, lineTopology.owner p = i ∧ lineTopology.address p = a))
    (fun _ _ _ => decide_eq_true_iff) line_sameDatabase
  obtain ⟨e, ps, he, hsends, hnd, hsum⟩ := hall (lineNode 0) (linePort 1 true) (by decide)
  exact ⟨node', e, ps, hran, he, (hsends ps (lineNode 2)).mpr ⟨rfl, rfl⟩, hnd, hsum⟩

end Ns3Routing.Ls
