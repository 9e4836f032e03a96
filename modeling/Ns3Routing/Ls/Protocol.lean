import Ns3Routing.NodeConfig

/-! # The link-state protocol of one node

`LSRoutingProtocol` as a state machine, in the form of `Dv.Protocol`: the
tables of a node, the handlers of HELLO_REQ and LS_TABLE_MSG messages and of
the hello timer, and `Dijkstra`. The result is `none` where the source
dereferences `end ()`.

The handlers take `Dijkstra` as a parameter. It computes the routing table
from the other two tables and changes nothing else, so what holds of those
two for every parameter holds whatever `Dijkstra` runs into. -/

namespace Ns3Routing.Ls

/-- `std::numeric_limits<int>::max ()`, converted to `uint32_t`. -/
def intMax : UInt32 := 2147483647

abbrev NbrCostsVec := List (Ipv4Address × UInt32)

structure RoutingTableEntry where
  destAddr : Ipv4Address
  nextHopNum : UInt32
  nextHopAddr : Ipv4Address
  interfaceAddr : Ipv4Address
  cost : UInt32
  deriving DecidableEq

structure NeighborTableEntry where
  neighborAddr : Ipv4Address
  interfaceAddr : Ipv4Address
  lastUpdated : Nat
  deriving DecidableEq

structure LSTableEntry where
  neighborCosts : NbrCostsVec
  sequenceNumber : UInt32
  deriving DecidableEq

inductive Payload where
  | helloReq (destinationAddress : Ipv4Address) (helloMessage : String)
  | lsTableMsg (neighborCosts : NbrCostsVec)
  deriving DecidableEq

structure LSMessage where
  sequenceNumber : UInt32
  ttl : UInt8
  originatorAddress : Ipv4Address
  payload : Payload
  deriving DecidableEq

abbrev Packets := List (Ipv4Address × LSMessage)

abbrev RoutingTable := NameMap RoutingTableEntry

structure Node where
  currentSequenceNumber : UInt32
  neighborTable : NameMap NeighborTableEntry
  lsTable : NameMap LSTableEntry
  routingTable : RoutingTable
  deriving DecidableEq

/-- The state `DoStart` leaves behind; the counter was drawn at random. -/
def doStart (sequenceNumber : UInt32) : Node where
  currentSequenceNumber := sequenceNumber
  neighborTable := ∅
  lsTable := ∅
  routingTable := ∅

def sendHello (cfg : NodeConfig) (n : Node) : Node × Packets :=
  let lsMessage : LSMessage :=
    { sequenceNumber := n.currentSequenceNumber
      ttl := 1
      originatorAddress := cfg.mainAddress
      payload := .helloReq (cfg.resolveNodeIpAddress 0) "hello" }
  ({ n with currentSequenceNumber := n.currentSequenceNumber + 1 }, cfg.broadcastPacket lsMessage)

/-- The neighbours of a node as it announces them, all at cost 1. -/
def neighborAddrs (n : Node) : NbrCostsVec :=
  n.neighborTable.toList.map fun i => (i.2.neighborAddr, 1)

def sendLSTableMessage (cfg : NodeConfig) (n : Node) : Node × Packets :=
  let lsMessage : LSMessage :=
    { sequenceNumber := n.currentSequenceNumber
      ttl := cfg.maxTTL
      originatorAddress := cfg.mainAddress
      payload := .lsTableMsg (neighborAddrs n) }
  ({ n with currentSequenceNumber := n.currentSequenceNumber + 1 }, cfg.broadcastPacket lsMessage)

/-! ## Message handlers and the hello timer -/

section Handlers
variable (dijkstra : NodeConfig → Node → Option RoutingTable) (cfg : NodeConfig)

/-- The own entry with a new neighbour. When there is none yet, the new one
takes the sequence number of the neighbour's hello. -/
def ownEntryWith (lsMessage : LSMessage) (n : Node) : LSTableEntry :=
  match n.lsTable[cfg.thisNode]? with
  | some lste =>
    { lste with neighborCosts := lste.neighborCosts ++ [(lsMessage.originatorAddress, 1)] }
  | none =>
    { neighborCosts := [(lsMessage.originatorAddress, 1)]
      sequenceNumber := lsMessage.sequenceNumber }

/-- The table edits for a neighbour heard of for the first time. -/
def addNeighbor (now : Nat) (socket : Nat) (lsMessage : LSMessage) (n : Node) : Node :=
  let neighAddr := lsMessage.originatorAddress
  let entry : NeighborTableEntry :=
    { neighborAddr := neighAddr
      interfaceAddr := cfg.interfaceAddr socket
      lastUpdated := now }
  { n with
    neighborTable := n.neighborTable.insertIfNew (cfg.reverseLookup neighAddr) entry
    lsTable := n.lsTable.insert cfg.thisNode (ownEntryWith cfg lsMessage n) }

/-- The time of the last hello of a known neighbour is set. -/
def touch (now : Nat) (fromNode : String) (e : NeighborTableEntry) (n : Node) : Node :=
  { n with neighborTable := n.neighborTable.insert fromNode { e with lastUpdated := now } }

/-- `Dijkstra ()`: the routing table is recomputed. -/
def runDijkstra (n : Node) : Option Node :=
  (dijkstra cfg n).map fun routingTable => { n with routingTable }

def processHelloReq (now : Nat) (socket : Nat) (lsMessage : LSMessage) (n : Node) :
    Option (Node × Packets) :=
  let fromNode := cfg.reverseLookup lsMessage.originatorAddress
  match n.neighborTable[fromNode]? with
  | some e => some (touch now fromNode e n, [])
  | none => do
    let n ← runDijkstra dijkstra cfg (addNeighbor cfg now socket lsMessage n)
    return sendLSTableMessage cfg n

/-- `entry == m_lsTable.end () || seqNum > entry->second.sequenceNumber`. -/
def isNew (n : Node) (fromNode : String) (seqNum : UInt32) : Bool :=
  match n.lsTable[fromNode]? with
  | none => true
  | some entry => seqNum > entry.sequenceNumber

/-- The table edit for an announcement that is new. -/
def storeEntry (fromNode : String) (neighborCosts : NbrCostsVec) (seqNum : UInt32) (n : Node) :
    Node :=
  { n with lsTable := n.lsTable.insert fromNode ⟨neighborCosts, seqNum⟩ }

def processLSTableMessage (lsMessage : LSMessage) (neighborCosts : NbrCostsVec) (n : Node) :
    Option (Node × Packets) :=
  let seqNum := lsMessage.sequenceNumber
  let fromNode := cfg.reverseLookup lsMessage.originatorAddress
  if isNew n fromNode seqNum then do
    let n ← runDijkstra dijkstra cfg (storeEntry fromNode neighborCosts seqNum n)
    return (n, cfg.broadcastPacket { lsMessage with ttl := lsMessage.ttl - 1 })
  else
    some (n, [])

def recvLSMessage (now : Nat) (socket : Nat) (lsMessage : LSMessage) (n : Node) :
    Option (Node × Packets) :=
  match lsMessage.payload with
  | .helloReq _ _ => processHelloReq dijkstra cfg now socket lsMessage n
  | .lsTableMsg neighborCosts => processLSTableMessage dijkstra cfg lsMessage neighborCosts n

/-- The first pair with the address goes. -/
def removeLSTableLink (nodeToRemove : Ipv4Address) (vectorToChange : NbrCostsVec) : NbrCostsVec :=
  vectorToChange.eraseP fun i => i.1 == nodeToRemove

/-- `removeLSTableLink` in the entry of `node`, found with `find`. -/
def removeLink (node : String) (nodeToRemove : Ipv4Address) (lsTable : NameMap LSTableEntry) :
    Option (NameMap LSTableEntry) := do
  let entry ← lsTable[node]?
  return lsTable.insert node
    { entry with neighborCosts := removeLSTableLink nodeToRemove entry.neighborCosts }

/-- `entry.lastUpdated + m_helloTimeout <= Simulator::Now ()`. -/
def NeighborTableEntry.expired (now : Nat) (entry : NeighborTableEntry) : Bool :=
  entry.lastUpdated + cfg.helloTimeout ≤ now

/-- One pass of the loop over `m_neighborTable`, with the flag `sendMsg`. -/
def auditEntry (now : Nat) (st : Node × Bool) (i : String × NeighborTableEntry) :
    Option (Node × Bool) :=
  if i.2.expired cfg now then do
    let lsTable ← removeLink cfg.thisNode i.2.neighborAddr st.1.lsTable
    let lsTable ← removeLink (cfg.reverseLookup i.2.neighborAddr) cfg.mainAddress lsTable
    return ({ st.1 with lsTable, neighborTable := st.1.neighborTable.erase i.1 }, true)
  else some st

def auditHellos (now : Nat) (n : Node) : Option (Node × Packets) := do
  let (n, hello) := sendHello cfg n
  let (n, sendMsg) ← n.neighborTable.toList.foldlM (auditEntry cfg now) (n, false)
  if sendMsg then
    let n ← runDijkstra dijkstra cfg n
    let (n, sent) := sendLSTableMessage cfg n
    return (n, hello ++ sent)
  else
    return (n, hello)

/-- What can happen to a node: a control message on one of its sockets, or
the hello timer. -/
inductive Event where
  | recv (now : Nat) (socket : Nat) (lsMessage : LSMessage)
  | auditHellos (now : Nat)

def handle (n : Node) : Event → Option (Node × Packets)
  | .recv now socket lsMessage => recvLSMessage dijkstra cfg now socket lsMessage n
  | .auditHellos now => auditHellos dijkstra cfg now n

/-- The state after an event. -/
def step (n : Node) (e : Event) : Option Node := (handle dijkstra cfg n e).map Prod.fst

end Handlers

/-! ## `Dijkstra` -/

section Dijkstra
variable (cfg : NodeConfig) (n : Node)

def getNeighbors (node : String) : List Ipv4Address :=
  match n.lsTable[node]? with
  | none => []
  | some entry => entry.neighborCosts.map Prod.fst

def distanceToNeighbor (node1 node2 : String) : Option UInt32 :=
  if node1 = node2 then some 0
  else do
    let entry ← n.lsTable[node1]?
    match entry.neighborCosts.find? fun i => cfg.reverseLookup i.1 == node2 with
    | some i => return i.2
    | none => return intMax

/-- The locals of the loop of `GetMinCostNode`. -/
structure Closest where
  min : UInt32
  closest : String

/-- One pass of the loop of `GetMinCostNode`. -/
def considerNode (leastCostFound : NameMap Bool) (acc : Closest) (i : String × RoutingTableEntry) :
    Option Closest := do
  let found ← leastCostFound[i.1]?
  if found = false ∧ i.2.cost < acc.min then
    return { min := i.2.cost, closest := i.1 }
  else
    return acc

/-- The unfinished node with the least cost, the first in the order of names;
the empty string when there is none. -/
def getMinCostNode (routingTable : RoutingTable) (leastCostFound : NameMap Bool) : Option String :=
  (routingTable.toList.foldlM (considerNode leastCostFound)
    { min := intMax, closest := "" }).map (·.closest)

/-- The entry of this node for itself. -/
def selfEntry : RoutingTableEntry where
  destAddr := cfg.mainAddress
  nextHopNum := cfg.mainAddress
  nextHopAddr := cfg.mainAddress
  interfaceAddr := cfg.mainAddress
  cost := 0

/-- A neighbour of this node enters the routing table. -/
def initNeighbor (routingTable : RoutingTable) (nbr : Ipv4Address) : Option RoutingTable := do
  let neighbor ← n.neighborTable[cfg.reverseLookup nbr]?
  let cost ← distanceToNeighbor cfg n cfg.thisNode (cfg.reverseLookup nbr)
  return routingTable.insertIfNew (cfg.reverseLookup nbr)
    { destAddr := nbr
      nextHopNum := nbr
      nextHopAddr := nbr
      interfaceAddr := neighbor.interfaceAddr
      cost := cost }

/-- One pass of the inner loop: the way to `nbr` through `current`. -/
def relax (current : String) (routingTable : RoutingTable) (nbr : Ipv4Address) :
    Option RoutingTable := do
  let nbrName := cfg.reverseLookup nbr
  let oldCost := match routingTable[nbrName]? with
    | some e => e.cost
    | none => intMax
  let here ← routingTable[current]?
  let newCost := here.cost + (← distanceToNeighbor cfg n current nbrName)
  if newCost < oldCost then
    let nextHopAddr := here.nextHopAddr
    let hop ← n.neighborTable[cfg.reverseLookup nextHopAddr]?
    match routingTable[nbrName]? with
    | some e =>
      return routingTable.insert nbrName
        { e with
          nextHopAddr := nextHopAddr
          nextHopNum := nextHopAddr
          interfaceAddr := hop.interfaceAddr
          cost := newCost }
    | none =>
      return routingTable.insertIfNew nbrName
        { destAddr := nbr
          nextHopNum := nextHopAddr
          nextHopAddr := nextHopAddr
          interfaceAddr := hop.interfaceAddr
          cost := newCost }
  else
    return routingTable

/-- The routing table with the nodes finished so far. -/
structure Search where
  routingTable : RoutingTable
  leastCostFound : NameMap Bool

/-- One pass of the main loop: the closest unfinished node is finished. -/
def finishNode (st : Search) : Option Search := do
  let current ← getMinCostNode st.routingTable st.leastCostFound
  let _ ← st.leastCostFound[current]?
  let routingTable ← (getNeighbors n current).foldlM (relax cfg n current) st.routingTable
  return { routingTable, leastCostFound := st.leastCostFound.insert current true }

/-- The main loop, `k` times. -/
def finishNodes : ℕ → Search → Option Search
  | 0, st => some st
  | k + 1, st => do finishNodes k (← finishNode cfg n st)

/-- The search before the main loop. -/
def initSearch : Option Search := do
  let leastCostFound : NameMap Bool :=
    n.lsTable.toList.foldl (fun m i => m.insertIfNew i.1 false) ∅
  let routingTable ← (getNeighbors n cfg.thisNode).foldlM (initNeighbor cfg n)
    ((∅ : RoutingTable).insertIfNew cfg.thisNode (selfEntry cfg))
  let _ ← leastCostFound[cfg.thisNode]?
  return { routingTable, leastCostFound := leastCostFound.insert cfg.thisNode true }

def dijkstra : Option RoutingTable := do
  let st ← finishNodes cfg n (n.lsTable.size - 1) (← initSearch cfg n)
  return st.routingTable

end Dijkstra

end Ns3Routing.Ls
