import Ns3Routing.Routes

/-! # The IP layer

`Ipv4ListRouting` asks the routing protocols of a node in the order of their
priorities, and `Ipv4L3Protocol` sends a packet on, keeps it or drops it as
they decide. `Conveyed` is what becomes of a packet in a network of such nodes:
the link ends it crosses and where it ends. When the routes of all nodes lead
closer to a destination, it takes a shortest way there, if its TTL lets it. -/

namespace Ns3Routing

open Lib Ns3Routing.Topology
open Ls (Ipv4Route Routed)

namespace Ipv4Address

def getBroadcast : Ipv4Address := 0xffffffff

def isBroadcast (a : Ipv4Address) : Bool := a == getBroadcast

def isMulticast (a : Ipv4Address) : Bool := 0xe0000000 ≤ a && a ≤ 0xefffffff

def isLocalMulticast (a : Ipv4Address) : Bool := a &&& 0xffffff00 == 0xe0000000

end Ipv4Address

abbrev Ipv4Mask := UInt32

structure Ipv4InterfaceAddress where
  getLocal : Ipv4Address
  mask : Ipv4Mask

def Ipv4InterfaceAddress.broadcast (i : Ipv4InterfaceAddress) : Ipv4Address :=
  i.getLocal ||| ~~~i.mask

/-- The callbacks `RouteInput` is given, with what it calls them with. -/
inductive Callback where
  | ucb (route : Ipv4Route)
  | lcb
  | ecb
  deriving DecidableEq

/-- `Ipv4RoutingProtocol`. `RouteInput` yields the callbacks it calls and what
it returns; interfaces are given by their local address. -/
structure RoutingProtocol where
  routeOutput : Ipv4Address → Option Ipv4Route
  routeInput : (lcbIsNull : Bool) → (inputInterface sourceAddress destinationAddress : Ipv4Address) →
    List Callback × Bool

/-! ## `Ipv4ListRouting` -/

def addRoutingProtocol (protocols : List (ℤ × RoutingProtocol)) (routingProtocol : RoutingProtocol)
    (priority : ℤ) : List (ℤ × RoutingProtocol) :=
  (protocols ++ [(priority, routingProtocol)]).mergeSort fun a b => !(b.1 > a.1)

/-- The IP stack of a node. Every interface has one address. -/
structure IpNode where
  interfaces : List Ipv4InterfaceAddress
  weakEsModel : Bool
  isForwarding : Ipv4Address → Bool
  protocols : List (ℤ × RoutingProtocol)

namespace IpNode

variable (node : IpNode)

/-- The address is that of the interface, or its broadcast address. -/
def isAddressOf (address : Ipv4Address) (i : Ipv4InterfaceAddress) : Bool :=
  address == i.getLocal || address == i.broadcast

def isDestinationAddress (address interface : Ipv4Address) : Bool :=
  (node.interfaces.filter (·.getLocal == interface)).any (isAddressOf address) ||
    address.isMulticast || address.isBroadcast ||
    node.weakEsModel && (node.interfaces.filter (·.getLocal != interface)).any (isAddressOf address)

/-- `RouteOutput` of the list. -/
def routeOutput (destination : Ipv4Address) : Option Ipv4Route :=
  node.protocols.findSome? fun i => i.2.routeOutput destination

/-- The loop of `RouteInput` over the protocols. -/
def tryProtocols (lcbIsNull : Bool) (inputInterface sourceAddress destinationAddress : Ipv4Address) :
    List (ℤ × RoutingProtocol) → List Callback × Bool
  | [] => ([], false)
  | i :: protocols =>
    let found := i.2.routeInput lcbIsNull inputInterface sourceAddress destinationAddress
    if found.2 then found
    else
      let rest := tryProtocols lcbIsNull inputInterface sourceAddress destinationAddress protocols
      (found.1 ++ rest.1, rest.2)

/-- `RouteInput` of the list. -/
def routeInput (inputInterface sourceAddress destinationAddress : Ipv4Address) :
    List Callback × Bool :=
  if node.isDestinationAddress destinationAddress inputInterface then
    if destinationAddress.isMulticast then
      -- the packet is delivered and goes on, with a null callback for local delivery
      if node.isForwarding inputInterface then
        let rest := tryProtocols true inputInterface sourceAddress destinationAddress node.protocols
        (.lcb :: rest.1, true)
      else ([.lcb, .ecb], false)
    else ([.lcb], true)
  else if node.isForwarding inputInterface then
    tryProtocols false inputInterface sourceAddress destinationAddress node.protocols
  else ([.ecb], false)

end IpNode

/-! ## `Ipv4L3Protocol` -/

/-- The TTL of the packet that `IpForward` sends on; it drops the packet when
there is none left. -/
def ipForward (ttl : UInt8) : Option UInt8 := if ttl - 1 = 0 then none else some (ttl - 1)

/-- What `Send` does with a packet. -/
inductive SendCase where
  | limitedBroadcast
  | subnetBroadcast
  | realOut (route : Ipv4Route)
  | fatal
  | noRoute
  deriving DecidableEq

def isSubnetDirectedBroadcast (a : Ipv4Address) (mask : Ipv4Mask) : Bool :=
  mask != 0xffffffff && a ||| ~~~mask == a

/-- The broadcast address of the network of the interface. -/
def isSubnetBroadcast (destination : Ipv4Address) (i : Ipv4InterfaceAddress) : Bool :=
  isSubnetDirectedBroadcast destination i.mask &&
    destination &&& i.mask == i.getLocal &&& i.mask

/-- `Send`, with the route the caller has found; without one it asks for it. The
packet fits the MTU of the interface, which `SendRealOut` asserts. -/
def IpNode.send (node : IpNode) (destination : Ipv4Address) (route : Option Ipv4Route) : SendCase :=
  if destination.isBroadcast || destination.isLocalMulticast then .limitedBroadcast
  else if node.interfaces.any (isSubnetBroadcast destination) then .subnetBroadcast
  else
    match route with
    | some route => if route.gateway = Ipv4Address.unassigned then .fatal else .realOut route
    | none =>
      match node.routeOutput destination with
      | some route => .realOut route
      | none => .noRoute

/-! ## The protocols of a node -/

/-- `RouteInput` of an `Ipv4StaticRouting`. -/
abbrev StaticInput := Bool → Ipv4Address → Ipv4Address → Ipv4Address → List Callback × Bool

/-- What `RouteInput` of `LSRoutingProtocol` and `DVRoutingProtocol` calls and
returns; `staticInput` is what that of their `m_staticRouting` does. -/
def callbacks (staticInput : List Callback × Bool) : Routed → List Callback × Bool
  | .own => ([], true)
  | .localDelivery => ([.lcb], true)
  | .undeliverable => ([], false)
  | .forward route => ([.ucb route], true)
  | .staticRouting => staticInput

section Protocols
variable (cfg : NodeConfig) (isDestinationAddress : Ipv4Address → Ipv4Address → Bool)
  (staticInput : StaticInput)

def lsRoutingProtocol (n : Ls.Node) : RoutingProtocol where
  routeOutput := Ls.routeOutput cfg n
  routeInput lcbIsNull inputInterface sourceAddress destinationAddress :=
    callbacks (staticInput lcbIsNull inputInterface sourceAddress destinationAddress)
      (Ls.routeInput cfg n isDestinationAddress lcbIsNull inputInterface sourceAddress
        destinationAddress)

def dvRoutingProtocol (n : Dv.Node) : RoutingProtocol where
  routeOutput := Dv.routeOutput cfg n
  routeInput lcbIsNull inputInterface sourceAddress destinationAddress :=
    callbacks (staticInput lcbIsNull inputInterface sourceAddress destinationAddress)
      (Dv.routeInput cfg n isDestinationAddress lcbIsNull inputInterface sourceAddress
        destinationAddress)

end Protocols

/-- The routing protocols `main` installs. -/
inductive Routing where
  | ls
  | dv
  | any
  deriving DecidableEq

def Routing.protocols (ls dv : RoutingProtocol) : Routing → List (ℤ × RoutingProtocol)
  | .ls => addRoutingProtocol [] ls 0
  | .dv => addRoutingProtocol [] dv 0
  | .any => addRoutingProtocol (addRoutingProtocol [] dv 0) ls 10

theorem Routing.protocols_ls (ls dv : RoutingProtocol) : protocols ls dv .ls = [(0, ls)] := by
  simp [protocols, addRoutingProtocol]

theorem Routing.protocols_dv (ls dv : RoutingProtocol) : protocols ls dv .dv = [(0, dv)] := by
  simp [protocols, addRoutingProtocol]

/-- Link states are asked first. -/
theorem Routing.protocols_any (ls dv : RoutingProtocol) :
    protocols ls dv .any = [(10, ls), (0, dv)] := by
  simp [protocols, addRoutingProtocol, List.mergeSort, List.MergeSort.Internal.splitInTwo]

/-- The mask of every network `main` sets up. -/
def subnetMask : Ipv4Mask := 0xffffff00

def loopbackMask : Ipv4Mask := 0xff000000

/-- The IP stack of node `i`. -/
def ipNode (T : Topology) (i : Fin T.size) (protocols : List (ℤ × RoutingProtocol)) : IpNode where
  interfaces := ⟨Ipv4Address.getLoopback, loopbackMask⟩ ::
    (T.config i).socketAddresses.map fun x => ⟨x.2, subnetMask⟩
  weakEsModel := true
  isForwarding _ := true
  protocols := protocols

/-- Node `i` with the routing protocols of `main`; each class has its own
`m_staticRouting`. -/
def routingNode (T : Topology) (routing : Routing) (lsStatic dvStatic : StaticInput)
    (i : Fin T.size) (ls : Ls.Node) (dv : Dv.Node) : IpNode :=
  -- which protocols there are does not change what the node's addresses are
  let isDestinationAddress := (ipNode T i []).isDestinationAddress
  ipNode T i (routing.protocols (lsRoutingProtocol (T.config i) isDestinationAddress lsStatic ls)
    (dvRoutingProtocol (T.config i) isDestinationAddress dvStatic dv))

/-! ## The way of a packet -/

/-- Where a packet ends. -/
inductive Fate (T : Topology) where
  | delivered (i : Fin T.size) (ttl : UInt8)
  /-- `DROP_TTL_EXPIRED` -/
  | ttlExpired (i : Fin T.size)
  /-- `DROP_NO_ROUTE` -/
  | noRoute (i : Fin T.size)
  /-- It is back at the node it came from, which does nothing with it. -/
  | own (i : Fin T.size)
  deriving DecidableEq

section Packets
variable (T : Topology) (node : Fin T.size → IpNode) (sourceAddress destinationAddress : Ipv4Address)

/-- A packet that comes in at the link end `q` crosses the link ends `ps` and
ends as `fate` says. -/
inductive Journey : T.Port → UInt8 → List T.Port → Fate T → Prop where
  | deliver {q : T.Port} {ttl : UInt8}
      (here : (node (T.owner q)).routeInput (T.address q) sourceAddress destinationAddress =
        ([.lcb], true)) : Journey q ttl [] (.delivered (T.owner q) ttl)
  | own {q : T.Port} {ttl : UInt8}
      (here : (node (T.owner q)).routeInput (T.address q) sourceAddress destinationAddress =
        ([], true)) : Journey q ttl [] (.own (T.owner q))
  | noRoute {q : T.Port} {ttl : UInt8} {calls : List Callback}
      (here : (node (T.owner q)).routeInput (T.address q) sourceAddress destinationAddress =
        (calls, false)) : Journey q ttl [] (.noRoute (T.owner q))
  | expire {q : T.Port} {ttl : UInt8} {route : Ipv4Route}
      (here : (node (T.owner q)).routeInput (T.address q) sourceAddress destinationAddress =
        ([.ucb route], true))
      (expired : ipForward ttl = none) : Journey q ttl [] (.ttlExpired (T.owner q))
  | forward {q p : T.Port} {ttl ttl' : UInt8} {route : Ipv4Route} {ps : List T.Port} {fate : Fate T}
      (here : (node (T.owner q)).routeInput (T.address q) sourceAddress destinationAddress =
        ([.ucb route], true))
      (alive : ipForward ttl = some ttl') (owner : T.owner p = T.owner q)
      (device : route.outputDevice = T.address p) (rest : Journey (peer p) ttl' ps fate) :
      Journey q ttl (p :: ps) fate

/-- What becomes of a packet of node `s` with the given TTL, if the packet fits
the MTU of every device and none of them drops it. -/
inductive Conveyed (s : Fin T.size) (ttl : UInt8) : List T.Port → Fate T → Prop where
  | noRoute (here : (node s).routeOutput destinationAddress = none) : Conveyed s ttl [] (.noRoute s)
  | send {route : Ipv4Route} {p : T.Port} {ps : List T.Port} {fate : Fate T}
      (here : (node s).routeOutput destinationAddress = some route)
      (realOut : (node s).send destinationAddress (some route) = .realOut route)
      (owner : T.owner p = s) (device : route.outputDevice = T.address p)
      (rest : Journey T node route.source destinationAddress (peer p) ttl ps fate) :
      Conveyed s ttl (p :: ps) fate

end Packets

/-- The link ends `ps` lead from node `s` to node `t`. -/
def Crosses (T : Topology) : Fin T.size → List T.Port → Fin T.size → Prop
  | s, [], t => s = t
  | s, p :: ps, t => T.owner p = s ∧ Crosses T (T.owner (peer p)) ps t

section Crosses
variable {T : Topology} {s t : Fin T.size} {ps : List T.Port}

/-- The nodes on the way. -/
def nodesOf (s : Fin T.size) (ps : List T.Port) : List (Fin T.size) :=
  s :: ps.map fun p => T.owner (peer p)

theorem Crosses.walk (h : Crosses T s ps t) :
    ∃ w : T.graph.Walk s t, w.length = ps.length ∧ w.support = nodesOf s ps := by
  induction ps generalizing s with
  | nil =>
    obtain rfl : s = t := h
    exact ⟨.nil, rfl, rfl⟩
  | cons p ps ih =>
    obtain ⟨rfl, hrest⟩ := h
    obtain ⟨w, hlen, hsupport⟩ := ih hrest
    exact ⟨.cons (adj_owner p) w, by rw [SimpleGraph.Walk.length_cons, hlen, List.length_cons],
      by rw [SimpleGraph.Walk.support_cons, hsupport, nodesOf, nodesOf, List.map_cons]⟩

/-- A shortest way visits no node twice. -/
theorem Crosses.nodup (h : Crosses T s ps t) (hd : T.graph.edist s t = ps.length) :
    (nodesOf s ps).Nodup := by
  obtain ⟨w, hlen, hsupport⟩ := h.walk
  rw [← hsupport]
  refine (w.isPath_of_length_eq_dist ?_).support_nodup
  rw [hlen, SimpleGraph.dist, hd, ENat.toNat_natCast]

/-- Where the way ends. -/
def lastNode (s : Fin T.size) (ps : List T.Port) : Fin T.size :=
  ps.foldl (fun _ p => T.owner (peer p)) s

end Crosses

/-! ### Routes that lead closer -/

/-- The number of links a packet can cross. The sender does not count down,
and a TTL of 0 wraps at the next node. -/
def linksAllowed (ttl : UInt8) : ℕ := (ttl - 1).toNat + 1

/-- What becomes of a packet whose way to node `d` is `ps`. -/
def fateAlong {T : Topology} (s : Fin T.size) (ps : List T.Port) (d : Fin T.size) (ttl : UInt8) :
    List T.Port × Fate T :=
  if ps.length ≤ linksAllowed ttl then (ps, .delivered d (ttl - UInt8.ofNat (ps.length - 1)))
  else (ps.take (linksAllowed ttl), .ttlExpired (lastNode s (ps.take (linksAllowed ttl))))

/-- The node sends and forwards what is for the address of `q` on a link to a
node that is closer to the owner of `q`. -/
structure Closer (T : Topology) (node : Fin T.size → IpNode) (q : T.Port) (i : Fin T.size)
    (route : Ipv4Route) (p : T.Port) : Prop where
  owner : T.owner p = i
  device : route.outputDevice = T.address p
  source : route.source = (T.config i).mainAddress
  closer : T.graph.edist (T.owner (peer p)) (T.owner q) + 1 = T.graph.edist i (T.owner q)
  output : (node i).routeOutput (T.address q) = some route
  realOut : (node i).send (T.address q) (some route) = .realOut route
  input : ∀ s, s ≠ i → ∀ r, T.owner r = i →
    (node i).routeInput (T.address r) (T.config s).mainAddress (T.address q) = ([.ucb route], true)

/-- The nodes less than `b` hops away from the owner of `q` lead there, and
the others do not know it. -/
structure LeadsTo (T : Topology) (node : Fin T.size → IpNode) (q : T.Port) (b : ℕ∞) : Prop where
  near : ∀ i, i ≠ T.owner q → T.graph.edist i (T.owner q) < b → ∃ route p, Closer T node q i route p
  far : ∀ i, i ≠ T.owner q → b ≤ T.graph.edist i (T.owner q) →
    (node i).routeOutput (T.address q) = none
  here : ∀ s, s ≠ T.owner q → ∀ r, T.owner r = T.owner q →
    (node (T.owner q)).routeInput (T.address r) (T.config s).mainAddress (T.address q) =
      ([.lcb], true)

section Ways
variable {T : Topology} {node : Fin T.size → IpNode} {q : T.Port} {b : ℕ∞} {s : Fin T.size}

theorem Closer.edist {i : Fin T.size} {route : Ipv4Route} {p : T.Port} {c : ℕ}
    (h : Closer T node q i route p) (hc : T.graph.edist i (T.owner q) = ((c + 1 : ℕ) : ℕ∞)) :
    T.graph.edist (T.owner (peer p)) (T.owner q) = c := by
  have hcloser := h.closer
  rw [hc, Nat.cast_add, Nat.cast_one] at hcloser
  exact ENat.add_left_injective_of_ne_top ENat.one_ne_top hcloser

theorem toNat_pred {x : UInt8} (h : x ≠ 0) : (x - 1).toNat + 1 = x.toNat := by
  have hpos : x.toNat ≠ 0 := fun hz => h (UInt8.toNat_inj.mp hz)
  rw [UInt8.toNat_sub_of_le x 1 (UInt8.le_iff_toNat_le.mpr (Nat.one_le_iff_ne_zero.mpr hpos)),
    UInt8.toNat_one]
  omega

/-- A packet from node `s` at a node closer to the destination than `s`. -/
theorem LeadsTo.journey (h : LeadsTo T node q b) (hs : s ≠ T.owner q) {c : ℕ}
    (hc : c < T.graph.edist s (T.owner q)) (hb : c < b) (r : T.Port)
    (hr : T.graph.edist (T.owner r) (T.owner q) = c) (ttl : UInt8) :
    ∃ ps, Crosses T (T.owner r) ps (T.owner q) ∧ ps.length = c ∧
      (c ≤ (ttl - 1).toNat → Journey T node (T.config s).mainAddress (T.address q) r ttl ps
        (.delivered (T.owner q) (ttl - UInt8.ofNat c))) ∧
      ((ttl - 1).toNat < c → Journey T node (T.config s).mainAddress (T.address q) r ttl
        (ps.take (ttl - 1).toNat) (.ttlExpired (lastNode (T.owner r) (ps.take (ttl - 1).toNat)))) := by
  induction c generalizing r ttl with
  | zero =>
    have hrq : T.owner r = T.owner q := SimpleGraph.edist_eq_zero_iff.mp hr
    refine ⟨[], hrq, rfl, fun _ => ?_, fun hlt => absurd hlt (Nat.not_lt_zero _)⟩
    rw [show ttl - UInt8.ofNat 0 = ttl from by simp, ← hrq]
    exact .deliver (hrq ▸ h.here s hs r hrq)
  | succ c ih =>
    have hrq : T.owner r ≠ T.owner q := by
      intro he
      rw [he, SimpleGraph.edist_self] at hr
      exact absurd hr.symm (Nat.cast_ne_zero.mpr (Nat.succ_ne_zero c))
    have hrs : s ≠ T.owner r := by
      intro he
      rw [he, hr] at hc
      exact lt_irrefl _ hc
    obtain ⟨route, p, hp⟩ := h.near (T.owner r) hrq (hr ▸ hb)
    have hless : (c : ℕ∞) < ((c + 1 : ℕ) : ℕ∞) := Nat.cast_lt.mpr (Nat.lt_succ_self c)
    obtain ⟨ps, hcross, hlen, hdelivered, hexpired⟩ :=
      ih (hless.trans hc) (hless.trans hb) (peer p) (hp.edist hr) (ttl - 1)
    have hinput := hp.input s hrs r rfl
    refine ⟨p :: ps, ⟨hp.owner, hcross⟩, by rw [List.length_cons, hlen], fun hle => ?_, fun hlt => ?_⟩
    · -- the packet goes on and arrives
      have hne : ttl - 1 ≠ 0 := by
        intro hz
        rw [hz] at hle
        exact absurd hle (by simp)
      have hleft := toNat_pred hne
      have hrest := hdelivered (by omega)
      have hsub : ttl - 1 - UInt8.ofNat c = ttl - UInt8.ofNat (c + 1) := by
        rw [UInt8.ofNat_add]
        grind
      rw [hsub] at hrest
      exact .forward hinput (by rw [ipForward, if_neg hne]) hp.owner hp.device hrest
    · by_cases hz : ttl - 1 = 0
      · rw [hz]
        exact .expire hinput (by rw [ipForward, if_pos hz])
      · have hleft : (ttl - 1).toNat = (ttl - 1 - 1).toNat + 1 := (toNat_pred hz).symm
        have hrest := hexpired (by omega)
        rw [hleft, List.take_succ_cons]
        exact .forward hinput (by rw [ipForward, if_neg hz]) hp.owner hp.device hrest

/-- The decisions leave no choice. -/
theorem Journey.unique {sourceAddress destinationAddress : Ipv4Address} {r : T.Port} {ttl : UInt8}
    {ps ps' : List T.Port} {fate fate' : Fate T}
    (h : Journey T node sourceAddress destinationAddress r ttl ps fate)
    (h' : Journey T node sourceAddress destinationAddress r ttl ps' fate') :
    (ps', fate') = (ps, fate) := by
  induction h generalizing ps' with
  | deliver here =>
    cases h' with
    | deliver _ => rfl
    | own here' => rw [here] at here'; cases here'
    | noRoute here' => rw [here] at here'; cases here'
    | expire here' _ => rw [here] at here'; cases here'
    | forward here' _ _ _ _ => rw [here] at here'; cases here'
  | own here =>
    cases h' with
    | deliver here' => rw [here] at here'; cases here'
    | own _ => rfl
    | noRoute here' => rw [here] at here'; cases here'
    | expire here' _ => rw [here] at here'; cases here'
    | forward here' _ _ _ _ => rw [here] at here'; cases here'
  | noRoute here =>
    cases h' with
    | deliver here' => rw [here] at here'; cases here'
    | own here' => rw [here] at here'; cases here'
    | noRoute _ => rfl
    | expire here' _ => rw [here] at here'; cases here'
    | forward here' _ _ _ _ => rw [here] at here'; cases here'
  | expire here expired =>
    cases h' with
    | deliver here' => rw [here] at here'; cases here'
    | own here' => rw [here] at here'; cases here'
    | noRoute here' => rw [here] at here'; cases here'
    | expire _ _ => rfl
    | forward _ alive' _ _ _ => rw [expired] at alive'; cases alive'
  | forward here alive owner device rest ih =>
    cases h' with
    | deliver here' => rw [here] at here'; cases here'
    | own here' => rw [here] at here'; cases here'
    | noRoute here' => rw [here] at here'; cases here'
    | expire _ expired' => rw [alive] at expired'; cases expired'
    | forward here' alive' owner' device' rest' =>
      rw [here] at here'
      obtain ⟨hcalls, _⟩ := Prod.mk.inj here'
      obtain rfl := Callback.ucb.inj (List.cons.inj hcalls).1
      rw [alive] at alive'
      obtain rfl := Option.some.inj alive'
      obtain rfl := T.address_inj _ _ (owner.trans owner'.symm) (device.symm.trans device')
      obtain ⟨rfl, rfl⟩ := Prod.mk.inj (ih rest')
      rfl

theorem Conveyed.unique {destinationAddress : Ipv4Address} {ttl : UInt8} {ps ps' : List T.Port}
    {fate fate' : Fate T} (h : Conveyed T node destinationAddress s ttl ps fate)
    (h' : Conveyed T node destinationAddress s ttl ps' fate') : (ps', fate') = (ps, fate) := by
  cases h with
  | noRoute here =>
    cases h' with
    | noRoute _ => rfl
    | send here' _ _ _ _ => rw [here] at here'; cases here'
  | send here _ owner device rest =>
    cases h' with
    | noRoute here' => rw [here] at here'; cases here'
    | send here' _ owner' device' rest' =>
      rw [here] at here'
      obtain rfl := Option.some.inj here'
      obtain rfl := T.address_inj _ _ (owner.trans owner'.symm) (device.symm.trans device')
      obtain ⟨rfl, rfl⟩ := Prod.mk.inj (rest.unique rest')
      rfl

/-- What becomes of a packet of node `s` for the address of `q`: it takes a
shortest way, as far as its TTL lets it, or has no route. -/
structure GoesTo (T : Topology) (node : Fin T.size → IpNode) (q : T.Port) (b : ℕ∞) (s : Fin T.size)
    (ttl : UInt8) : Prop where
  near : T.graph.edist s (T.owner q) < b → ∃ ps, Crosses T s ps (T.owner q) ∧
    T.graph.edist s (T.owner q) = ps.length ∧ (nodesOf s ps).Nodup ∧
    ∀ ps' fate, Conveyed T node (T.address q) s ttl ps' fate ↔
      (ps', fate) = fateAlong s ps (T.owner q) ttl
  far : b ≤ T.graph.edist s (T.owner q) → ∀ ps fate, Conveyed T node (T.address q) s ttl ps fate ↔
    ps = [] ∧ fate = .noRoute s

theorem LeadsTo.goesTo (h : LeadsTo T node q b) (hs : s ≠ T.owner q) (ttl : UInt8) :
    GoesTo T node q b s ttl := by
  constructor
  · intro hlt
    obtain ⟨route, p, hp⟩ := h.near s hs hlt
    obtain ⟨d, hd⟩ := ENat.ne_top_iff_exists.mp hlt.ne_top
    obtain ⟨c, rfl⟩ : ∃ c, d = c + 1 := by
      cases d with
      | zero => exact absurd (SimpleGraph.edist_eq_zero_iff.mp hd.symm) hs
      | succ c => exact ⟨c, rfl⟩
    have hless : (c : ℕ∞) < T.graph.edist s (T.owner q) := by
      rw [← hd]
      exact Nat.cast_lt.mpr (Nat.lt_succ_self c)
    obtain ⟨ps, hcross, hlen, hdelivered, hexpired⟩ :=
      h.journey hs hless (hless.trans hlt) (peer p) (hp.edist hd.symm) ttl
    have hlength : T.graph.edist s (T.owner q) = (p :: ps).length := by
      rw [← hd, List.length_cons, hlen]
    have hway : Crosses T s (p :: ps) (T.owner q) := ⟨hp.owner, hcross⟩
    refine ⟨p :: ps, hway, hlength, hway.nodup hlength, ?_⟩
    have hsent : Conveyed T node (T.address q) s ttl (fateAlong s (p :: ps) (T.owner q) ttl).1
        (fateAlong s (p :: ps) (T.owner q) ttl).2 := by
      unfold fateAlong linksAllowed
      rw [List.length_cons, hlen, Nat.add_sub_cancel]
      split
      · rename_i hle
        exact .send hp.output hp.realOut hp.owner hp.device (hp.source ▸ hdelivered (by omega))
      · rename_i hnot
        exact .send hp.output hp.realOut hp.owner hp.device (hp.source ▸ hexpired (by omega))
    intro ps' fate
    constructor
    · intro hx
      exact hsent.unique hx
    · intro he
      obtain ⟨rfl, rfl⟩ := Prod.mk.inj he
      exact hsent
  · intro hle ps fate
    have hsent : Conveyed T node (T.address q) s ttl [] (.noRoute s) := .noRoute (h.far s hs hle)
    constructor
    · intro hx
      exact Prod.mk.inj (hsent.unique hx)
    · intro hx
      obtain ⟨rfl, rfl⟩ := hx
      exact hsent

/-- A packet whose TTL lets it is delivered. -/
theorem GoesTo.delivered {ttl : UInt8} (h : GoesTo T node q b s ttl)
    (hlt : T.graph.edist s (T.owner q) < b)
    (hle : T.graph.edist s (T.owner q) ≤ linksAllowed ttl) :
    ∃ ps ttl', Crosses T s ps (T.owner q) ∧
      Conveyed T node (T.address q) s ttl ps (.delivered (T.owner q) ttl') := by
  obtain ⟨ps, hway, hlen, _, hconveyed⟩ := h.near hlt
  rw [hlen, Nat.cast_le] at hle
  exact ⟨ps, _, hway, (hconveyed _ _).mpr (by rw [fateAlong, if_pos hle])⟩

end Ways

/-! ## Nodes with addresses of their own -/

/-- Addresses of hosts: the address of an interface is no broadcast address,
no multicast address and not the loopback address, and every main address has
been assigned. -/
structure Addressed (T : Topology) : Prop where
  host : ∀ p, T.address p ||| ~~~subnetMask ≠ T.address p
  multicast : ∀ p, (T.address p).isMulticast = false
  loopback : ∀ p, T.address p ≠ Ipv4Address.getLoopback
  main : ∀ i, (T.config i).mainAddress ≠ Ipv4Address.unassigned

section Interfaces
variable {T : Topology} (h : Addressed T) (q : T.Port) (i : Fin T.size)
  (protocols : List (ℤ × RoutingProtocol))

/-- The interface a packet comes in on does not matter. -/
theorem isDestinationAddress_iff {node : IpNode} (hweak : node.weakEsModel = true)
    {address interface : Ipv4Address} : node.isDestinationAddress address interface = true ↔
      (∃ x ∈ node.interfaces, address = x.getLocal ∨ address = x.broadcast) ∨
        address.isMulticast = true ∨ address.isBroadcast = true := by
  simp only [IpNode.isDestinationAddress, hweak, Bool.true_and, Bool.or_eq_true, List.any_eq_true,
    List.mem_filter, IpNode.isAddressOf, beq_iff_eq, bne_iff_ne]
  constructor
  · rintro (((⟨x, ⟨hx, _⟩, ha⟩ | hm) | hb) | ⟨x, ⟨hx, _⟩, ha⟩)
    · exact Or.inl ⟨x, hx, ha⟩
    · exact Or.inr (Or.inl hm)
    · exact Or.inr (Or.inr hb)
    · exact Or.inl ⟨x, hx, ha⟩
  · rintro (⟨x, hx, ha⟩ | hm | hb)
    · by_cases hi : x.getLocal = interface
      · exact Or.inl (Or.inl (Or.inl ⟨x, ⟨hx, hi⟩, ha⟩))
      · exact Or.inr ⟨x, ⟨hx, hi⟩, ha⟩
    · exact Or.inl (Or.inl (Or.inr hm))
    · exact Or.inl (Or.inr hb)

theorem isMulticast_of_isLocalMulticast {a : Ipv4Address} (h : a &&& 0xffffff00 = 0xe0000000) :
    a.isMulticast = true := by
  have hnat : (a.toNat &&& (2 ^ 24 - 1) <<< 8) >>> 8 = 0xe00000 :=
    congrArg (fun x : UInt32 => x.toNat >>> 8) h
  rw [Nat.shiftRight_and_distrib, Nat.shiftLeft_shiftRight, Nat.and_two_pow_sub_one_eq_mod,
    Nat.shiftRight_eq_div_pow] at hnat
  have hlt := a.toNat_lt
  simp only [Ipv4Address.isMulticast, Bool.and_eq_true, decide_eq_true_eq, UInt32.le_iff_toNat_le]
  constructor
  · show 0xe0000000 ≤ a.toNat
    omega
  · show a.toNat ≤ 0xefffffff
    omega

theorem or_hostMask (a : Ipv4Address) :
    a ||| ~~~subnetMask ||| ~~~subnetMask = a ||| ~~~subnetMask := by
  rw [UInt32.or_assoc, UInt32.or_self]

include h

theorem Addressed.not_broadcast (x : Ipv4InterfaceAddress)
    (hx : x ∈ (ipNode T i protocols).interfaces) :
    T.address q ||| ~~~x.mask ≠ T.address q ∧ T.address q ≠ x.broadcast := by
  have hloop : ~~~loopbackMask ||| ~~~subnetMask = ~~~loopbackMask := by decide
  rcases List.mem_cons.mp hx with rfl | hx
  · refine ⟨fun he => h.host q ?_, fun he => h.host q ?_⟩
    · rw [← he, UInt32.or_assoc, hloop]
    · rw [he, Ipv4InterfaceAddress.broadcast, UInt32.or_assoc, hloop]
  · obtain ⟨y, _, rfl⟩ := List.mem_map.mp hx
    refine ⟨h.host q, fun he => h.host q ?_⟩
    rw [he, Ipv4InterfaceAddress.broadcast, or_hostMask]

theorem Addressed.not_isBroadcast : (T.address q).isBroadcast = false := by
  rw [Ipv4Address.isBroadcast, beq_eq_false_iff_ne]
  intro he
  refine h.host q ?_
  rw [he]
  decide

/-- A node is the destination of what is for its own interfaces. -/
theorem Addressed.isDestinationAddress_iff {interface : Ipv4Address} :
    (ipNode T i protocols).isDestinationAddress (T.address q) interface = true ↔ T.owner q = i := by
  rw [Ns3Routing.isDestinationAddress_iff rfl]
  constructor
  · rintro (⟨x, hx, ha | ha⟩ | hm | hb)
    · rcases List.mem_cons.mp hx with rfl | hx
      · exact absurd ha (h.loopback q)
      · obtain ⟨y, hy, rfl⟩ := List.mem_map.mp hx
        obtain ⟨p, rfl, rfl⟩ := T.of_mem_sockets i y hy
        exact Ls.owner_of_address ha
    · exact absurd ha (h.not_broadcast q i protocols x hx).2
    · rw [h.multicast q] at hm
      cases hm
    · rw [h.not_isBroadcast q] at hb
      cases hb
  · intro hq
    subst hq
    refine Or.inl ⟨⟨T.address q, subnetMask⟩, List.mem_cons_of_mem _ ?_, Or.inl rfl⟩
    exact List.mem_map.mpr ⟨_, T.mem_sockets q, rfl⟩

theorem Addressed.send {route : Ipv4Route} (hgateway : route.gateway ≠ Ipv4Address.unassigned) :
    (ipNode T i protocols).send (T.address q) (some route) = .realOut route := by
  have hlocal : (T.address q).isLocalMulticast = false := by
    rw [Ipv4Address.isLocalMulticast, beq_eq_false_iff_ne]
    intro he
    have hmulticast := isMulticast_of_isLocalMulticast he
    rw [h.multicast q] at hmulticast
    cases hmulticast
  have hsubnet : (ipNode T i protocols).interfaces.any (isSubnetBroadcast (T.address q)) = false := by
    rw [List.any_eq_false]
    intro x hx
    have hne := (h.not_broadcast q i protocols x hx).1
    simp [isSubnetBroadcast, isSubnetDirectedBroadcast, hne]
  simp [IpNode.send, h.not_isBroadcast q, hlocal, hsubnet, hgateway]

end Interfaces

/-! ## Nodes that route by a table -/

/-- The protocol routes by a table, in which `search` looks up. -/
structure RoutesByTable (cfg : NodeConfig) (isDestinationAddress : Ipv4Address → Ipv4Address → Bool)
    (search : Ipv4Address → Option Ipv4Route) (P : RoutingProtocol) : Prop where
  output : P.routeOutput = outputRoute cfg search
  input : ∀ lcbIsNull inputInterface sourceAddress destinationAddress, ∃ staticInput,
    P.routeInput lcbIsNull inputInterface sourceAddress destinationAddress =
      callbacks staticInput (inputRoute cfg search isDestinationAddress lcbIsNull inputInterface
        sourceAddress destinationAddress)

section Tables
variable {cfg : NodeConfig} {isDestinationAddress : Ipv4Address → Ipv4Address → Bool}
  {staticInput : StaticInput}

theorem routesByTable_ls (n : Ls.Node) : RoutesByTable cfg isDestinationAddress (Ls.foundRoute cfg n)
    (lsRoutingProtocol cfg isDestinationAddress staticInput n) :=
  ⟨Ls.routeOutput_eq cfg n, fun _ _ _ _ => ⟨_, by rw [lsRoutingProtocol, Ls.routeInput_eq]⟩⟩

theorem routesByTable_dv (n : Dv.Node) : RoutesByTable cfg isDestinationAddress (Dv.foundRoute cfg n)
    (dvRoutingProtocol cfg isDestinationAddress staticInput n) :=
  ⟨rfl, fun _ _ _ _ => ⟨_, rfl⟩⟩

end Tables

theorem address_ne_main {T : Topology} {q : T.Port} {i : Fin T.size} (hi : i ≠ T.owner q) :
    T.address q ≠ (T.config i).mainAddress := by
  intro ha
  refine hi (name_inj.mp ?_)
  rw [← reverseLookup_main i i, ← ha, reverseLookup_address]

section Stack
variable {T : Topology} (h : Addressed T) {q : T.Port} {i : Fin T.size} {priority : ℤ}
  {P : RoutingProtocol} {rest protocols : List (ℤ × RoutingProtocol)}
  {search : Ipv4Address → Option Ipv4Route}
include h

theorem Addressed.delivers {interface sourceAddress : Ipv4Address} :
    (ipNode T (T.owner q) protocols).routeInput interface sourceAddress (T.address q) =
      ([.lcb], true) := by
  simp [IpNode.routeInput, (h.isDestinationAddress_iff q (T.owner q) protocols).mpr rfl,
    h.multicast q]

/-- The first protocol sends a packet of another node on. -/
theorem Addressed.forwards (hP : RoutesByTable (T.config i)
      (ipNode T i ((priority, P) :: rest)).isDestinationAddress search P)
    {route : Ipv4Route} (hfound : search (T.address q) = some route) (hi : i ≠ T.owner q)
    {s : Fin T.size} (hs : s ≠ i) (interface : Ipv4Address) :
    (ipNode T i ((priority, P) :: rest)).routeInput interface (T.config s).mainAddress
      (T.address q) = ([.ucb route], true) := by
  have haway : ∀ iif, (ipNode T i ((priority, P) :: rest)).isDestinationAddress (T.address q) iif =
      false := by
    intro iif
    rw [← Bool.not_eq_true, h.isDestinationAddress_iff q i]
    exact fun he => hi he.symm
  obtain ⟨staticInput, hinput⟩ := hP.input false interface (T.config s).mainAddress (T.address q)
  rw [inputRoute, Ls.isOwnAddress_main hs.symm, haway, hfound] at hinput
  rw [IpNode.routeInput, haway]
  simp [ipNode, IpNode.tryProtocols, hinput, callbacks]

theorem Addressed.closer {node : Fin T.size → IpNode}
    (hnode : node i = ipNode T i ((priority, P) :: rest))
    (hP : RoutesByTable (T.config i) (ipNode T i ((priority, P) :: rest)).isDestinationAddress
      search P)
    {route : Ipv4Route} (hfound : search (T.address q) = some route) (hi : i ≠ T.owner q)
    (hsource : route.source = (T.config i).mainAddress) {k : Fin T.size}
    (hgateway : route.gateway = (T.config k).mainAddress)
    {p : T.Port} (hp : T.owner p = i) (hdevice : route.outputDevice = T.address p)
    (hcloser : T.graph.edist (T.owner (peer p)) (T.owner q) + 1 = T.graph.edist i (T.owner q)) :
    Closer T node q i route p where
  owner := hp
  device := hdevice
  source := hsource
  closer := hcloser
  output := by
    rw [hnode]
    simp [ipNode, IpNode.routeOutput, hP.output, outputRoute, address_ne_main hi, hfound]
  realOut := by
    rw [hnode]
    exact h.send q i _ (hgateway ▸ h.main k)
  input s hs r hr := by
    rw [hnode]
    exact h.forwards hP hfound hi hs _

end Stack

/-! ## The line -/

theorem line_addressed : Addressed lineTopology := by
  refine ⟨?_, ?_, ?_, ?_⟩ <;> decide +kernel

theorem line_middle (i : Fin lineTopology.size) : lineTopology.graph.edist i (lineNode 1) ≤ 1 := by
  have h0 : lineTopology.graph.Adj (lineNode 0) (lineNode 1) := adj_owner (linePort 0 false)
  have h2 : lineTopology.graph.Adj (lineNode 2) (lineNode 1) := adj_owner (linePort 1 true)
  match i with
  | ⟨0, _⟩ => exact (SimpleGraph.edist_eq_one_iff_adj.mpr h0).le
  | ⟨1, _⟩ => exact SimpleGraph.edist_self.trans_le zero_le
  | ⟨2, _⟩ => exact (SimpleGraph.edist_eq_one_iff_adj.mpr h2).le

theorem line_far (i j : Fin lineTopology.size) : lineTopology.graph.edist i j ≤ 2 := by
  have hj := line_middle j
  rw [SimpleGraph.edist_comm] at hj
  calc lineTopology.graph.edist i j
      ≤ lineTopology.graph.edist i (lineNode 1) + lineTopology.graph.edist (lineNode 1) j :=
        SimpleGraph.edist_triangle
    _ ≤ 1 + 1 := add_le_add (line_middle i) hj
    _ = 2 := one_add_one_eq_two

theorem line_near : lineTopology.graph.edist (lineNode 0) (lineNode 2) ≤ 2 := line_far _ _

/-- No static routes. -/
def noStatic : StaticInput := fun _ _ _ _ => ([], false)

end Ns3Routing
