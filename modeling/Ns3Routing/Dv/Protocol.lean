import Ns3Routing.NodeConfig

/-! # The distance-vector protocol of one node

`DVRoutingProtocol` as a state machine: the tables a node keeps, and the
handlers that HELLO_REQ and DV_TABLE_MSG messages and the hello timer run. A
handler returns the new state and the packets it sends, each with the local
address of the interface it leaves by. The result is `none` where the source
dereferences or erases `end ()`, which is undefined behaviour.

The two ping messages share the header and the sequence numbers and touch
none of these tables. -/

namespace Ns3Routing.Dv

/-- `M_INF`, the largest `int`, after its conversion to `uint32_t`. -/
def mInf : UInt32 := 2147483647

abbrev DistanceVector := NameMap UInt32

structure RoutingTableEntry where
  destAddr : Ipv4Address
  nextHopNum : UInt32
  nextHopAddr : Ipv4Address
  interfaceAddr : Ipv4Address
  cost : UInt32
  deriving DecidableEq

structure NeighborTableEntry where
  neighborAddr : Ipv4Address
  interfaceAddr : Ipv4Address
  lastUpdated : Nat
  dv : DistanceVector
  deriving DecidableEq

inductive Payload where
  | helloReq (destinationAddress : Ipv4Address) (helloMessage : String)
  | dvTableMsg (neighborCosts : List (Ipv4Address × UInt32))
  deriving DecidableEq

structure DVMessage where
  sequenceNumber : UInt32
  ttl : UInt8
  originatorAddress : Ipv4Address
  payload : Payload
  deriving DecidableEq

/-- `GetDVTableMsg ().neighborCosts`; the member is empty in a message of
another type. -/
def DVMessage.neighborCosts (dvMessage : DVMessage) : List (Ipv4Address × UInt32) :=
  match dvMessage.payload with
  | .dvTableMsg neighborCosts => neighborCosts
  | .helloReq _ _ => []

abbrev Packets := List (Ipv4Address × DVMessage)

structure Node where
  currentSequenceNumber : UInt32
  dv : DistanceVector
  costs : DistanceVector
  neighborTable : NameMap NeighborTableEntry
  routingTable : NameMap RoutingTableEntry
  deriving DecidableEq

/-- The state `DoStart` leaves behind; the counter was drawn at random. -/
def doStart (cfg : NodeConfig) (sequenceNumber : UInt32) : Node where
  currentSequenceNumber := sequenceNumber
  dv := (∅ : DistanceVector).insertIfNew cfg.thisNode 0
  costs := ∅
  neighborTable := ∅
  routingTable := ∅

def sendHello (cfg : NodeConfig) (n : Node) : Node × Packets :=
  let dvMessage : DVMessage :=
    { sequenceNumber := n.currentSequenceNumber
      ttl := 1
      originatorAddress := cfg.mainAddress
      payload := .helloReq (cfg.resolveNodeIpAddress 0) "hello" }
  ({ n with currentSequenceNumber := n.currentSequenceNumber + 1 }, cfg.broadcastPacket dvMessage)

/-- The vector for the neighbour with table entry `entry`. Only the entry for
the neighbour itself is poisoned, and only when it is routed directly. -/
def vectorFor (cfg : NodeConfig) (n : Node) (entry : NeighborTableEntry) :
    List (Ipv4Address × UInt32) :=
  n.dv.toList.map fun j =>
    let destAddr := cfg.resolveName j.1
    let direct := match n.routingTable[j.1]? with
      | some rte => rte.nextHopAddr == destAddr
      | none => false
    (destAddr, if destAddr == entry.neighborAddr && direct then mInf else j.2)

def sendDVTableMessage (cfg : NodeConfig) (n : Node) : Option (Node × Packets) := do
  let packets ← n.costs.toList.mapM fun i => do
    let entry ← n.neighborTable[i.1]?
    let dvMessage : DVMessage :=
      { sequenceNumber := n.currentSequenceNumber
        ttl := 1
        originatorAddress := cfg.mainAddress
        payload := .dvTableMsg (vectorFor cfg n entry) }
    return cfg.sendPacket dvMessage entry.interfaceAddr
  return ({ n with currentSequenceNumber := n.currentSequenceNumber + 1 }, packets.flatten)

/-! ## `BellmanFord` -/

/-- The locals of the loop over the neighbours. -/
structure MinCost where
  minCost : UInt32
  updatedValue : Bool
  nextHop : String
  deriving DecidableEq

/-- `cost_to_neighbor + neighbor_to_dest` where that stays below infinity. -/
def throughNeighbor (costToNeighbor neighborToDest : UInt32) : UInt32 :=
  if neighborToDest < mInf - costToNeighbor then costToNeighbor + neighborToDest
  else neighborToDest

/-- One pass of the loop over `m_costs`. -/
def considerNeighbor (n : Node) (dest : String) (acc : MinCost) (j : String × UInt32) :
    Option MinCost := do
  let entry ← n.neighborTable[j.1]?
  if entry.dv.isEmpty then
    return acc
  match entry.dv[dest]? with
  | none => return acc
  | some neighborToDest =>
    let current := throughNeighbor j.2 neighborToDest
    if current < acc.minCost then
      return { minCost := current, updatedValue := true, nextHop := j.1 }
    else
      return { acc with updatedValue := true }

/-- The least cost to `dest` over the neighbours in `m_costs`. -/
def findMinCost (n : Node) (dest : String) : Option MinCost :=
  n.costs.toList.foldlM (considerNeighbor n dest)
    { minCost := mInf, updatedValue := false, nextHop := "" }

/-- The new minimum replaces `old` in `m_dv`, and the vector is sent. -/
def MinCost.differs (r : MinCost) (old : UInt32) : Bool :=
  r.updatedValue && r.minCost != old && decide (r.minCost ≤ 16)

/-- The routing table entry for this node itself. -/
def selfEntry (cfg : NodeConfig) : RoutingTableEntry where
  destAddr := cfg.mainAddress
  nextHopNum := cfg.mainAddress
  nextHopAddr := cfg.mainAddress
  interfaceAddr := Ipv4Address.getLoopback
  cost := 0

/-- The routing table entry for `dest` through the neighbour with table entry
`hop`. -/
def routeEntry (cfg : NodeConfig) (dest : String) (r : MinCost) (hop : NeighborTableEntry) :
    RoutingTableEntry where
  destAddr := cfg.resolveName dest
  nextHopNum := cfg.resolveName r.nextHop
  nextHopAddr := cfg.resolveName r.nextHop
  interfaceAddr := hop.interfaceAddr
  cost := r.minCost

/-- What the loop over the known nodes writes. -/
structure Sweep where
  dv : DistanceVector
  routingTable : NameMap RoutingTableEntry
  sendDV : Bool

/-- One pass of the loop over `m_dv`. -/
def updateDest (cfg : NodeConfig) (n : Node) (st : Sweep) (i : String × UInt32) :
    Option Sweep := do
  let dest := i.1
  if dest = cfg.thisNode then
    return { st with routingTable := st.routingTable.insertIfNew cfg.thisNode (selfEntry cfg) }
  let r ← findMinCost n dest
  let st := if r.differs i.2 then { st with dv := st.dv.insert dest r.minCost, sendDV := true }
    else st
  if r.minCost < mInf ∧ r.minCost < 16 then
    let nha := cfg.resolveName r.nextHop
    let hop ← n.neighborTable[cfg.reverseLookup nha]?
    return { st with routingTable := st.routingTable.insertIfNew dest (routeEntry cfg dest r hop) }
  else
    return st

/-- The names of `ndv` that `m_dv` does not have yet are added at infinity. -/
def addUnknown (dv ndv : DistanceVector) : DistanceVector :=
  ndv.toList.foldl (fun dv j => if dv[j.1]? = none then dv.insert j.1 mInf else dv) dv

def bellmanFord (cfg : NodeConfig) (ndv : DistanceVector) (n : Node) : Option (Node × Packets) := do
  let known := addUnknown n.dv ndv
  let sweep ← known.toList.foldlM (updateDest cfg n)
    { dv := known, routingTable := ∅, sendDV := false }
  let n := { n with dv := sweep.dv, routingTable := sweep.routingTable }
  if sweep.sendDV then sendDVTableMessage cfg n else return (n, [])

/-! ## Message handlers and the hello timer -/

/-- The table edits for a neighbour heard of for the first time. -/
def addNeighbor (cfg : NodeConfig) (now : Nat) (socket : Nat) (neighAddr : Ipv4Address)
    (n : Node) : Node :=
  let fromNode := cfg.reverseLookup neighAddr
  let entry : NeighborTableEntry :=
    { neighborAddr := neighAddr
      interfaceAddr := cfg.interfaceAddr socket
      lastUpdated := now
      dv := ∅ }
  { n with
    neighborTable := n.neighborTable.insertIfNew fromNode entry
    dv := n.dv.insertIfNew fromNode 1
    costs := n.costs.insertIfNew fromNode 1 }

def processHelloReq (cfg : NodeConfig) (now : Nat) (socket : Nat) (dvMessage : DVMessage)
    (n : Node) : Option (Node × Packets) :=
  let neighAddr := dvMessage.originatorAddress
  let fromNode := cfg.reverseLookup neighAddr
  match n.neighborTable[fromNode]? with
  | some e =>
    some ({ n with neighborTable := n.neighborTable.insert fromNode { e with lastUpdated := now } },
      [])
  | none => do
    let (n, sent) ← bellmanFord cfg ∅ (addNeighbor cfg now socket neighAddr n)
    let (n, resent) ← sendDVTableMessage cfg n
    return (n, sent ++ resent)

/-- The received vector, keyed by node name; a name listed twice keeps its
last cost. -/
def receivedVector (cfg : NodeConfig) (neighborAddrs : List (Ipv4Address × UInt32)) :
    DistanceVector :=
  neighborAddrs.foldl (fun newdv i => newdv.insert (cfg.reverseLookup i.1) i.2) ∅

/-- The table edit for a received vector. Without an entry for the sender,
which the source expects only when its hello message was lost, one is added
to `m_neighborTable`, and to no other table. -/
def storeVector (cfg : NodeConfig) (now : Nat) (socket : Nat) (fromAddr : Ipv4Address)
    (newdv : DistanceVector) (n : Node) : Node :=
  let fromNode := cfg.reverseLookup fromAddr
  let entry : NeighborTableEntry := match n.neighborTable[fromNode]? with
    | none =>
      { neighborAddr := fromAddr
        interfaceAddr := cfg.interfaceAddr socket
        lastUpdated := now
        dv := newdv }
    | some entry => { entry with dv := newdv }
  { n with neighborTable := n.neighborTable.insert fromNode entry }

def processDVTableMessage (cfg : NodeConfig) (now : Nat) (socket : Nat) (dvMessage : DVMessage)
    (n : Node) : Option (Node × Packets) :=
  let newdv := receivedVector cfg dvMessage.neighborCosts
  bellmanFord cfg newdv (storeVector cfg now socket dvMessage.originatorAddress newdv n)

def recvDVMessage (cfg : NodeConfig) (now : Nat) (socket : Nat) (dvMessage : DVMessage)
    (n : Node) : Option (Node × Packets) :=
  match dvMessage.payload with
  | .helloReq _ _ => processHelloReq cfg now socket dvMessage n
  | .dvTableMsg _ => processDVTableMessage cfg now socket dvMessage n

/-- `entry.lastUpdated + m_helloTimeout <= Simulator::Now ()`. -/
def NeighborTableEntry.expired (cfg : NodeConfig) (now : Nat) (entry : NeighborTableEntry) : Bool :=
  entry.lastUpdated + cfg.helloTimeout ≤ now

/-- One pass of the loop over `m_neighborTable`, with the flag `sendMsg`. The
name is erased from `m_costs` through the iterator `find` returned. -/
def auditEntry (cfg : NodeConfig) (now : Nat) (st : Node × Bool)
    (i : String × NeighborTableEntry) : Option (Node × Bool) :=
  if i.2.expired cfg now then
    let nodeName := cfg.reverseLookup i.2.neighborAddr
    if nodeName ∈ st.1.costs then
      some ({ st.1 with
        dv := st.1.dv.insert nodeName mInf
        costs := st.1.costs.erase nodeName
        neighborTable := st.1.neighborTable.erase i.1 }, true)
    else none
  else some st

def auditHellos (cfg : NodeConfig) (now : Nat) (n : Node) : Option (Node × Packets) := do
  let (n, hello) := sendHello cfg n
  let (n, sendMsg) ← n.neighborTable.toList.foldlM (auditEntry cfg now) (n, false)
  if sendMsg then
    let (n, sent) ← bellmanFord cfg n.dv n
    return (n, hello ++ sent)
  else
    return (n, hello)

/-- What can happen to a node: a control message on one of its sockets, or
the hello timer. -/
inductive Event where
  | recv (now : Nat) (socket : Nat) (dvMessage : DVMessage)
  | auditHellos (now : Nat)

def handle (cfg : NodeConfig) (n : Node) : Event → Option (Node × Packets)
  | .recv now socket dvMessage => recvDVMessage cfg now socket dvMessage n
  | .auditHellos now => auditHellos cfg now n

/-- The state after an event. -/
def step (cfg : NodeConfig) (n : Node) (e : Event) : Option Node := (handle cfg n e).map Prod.fst

end Ns3Routing.Dv
