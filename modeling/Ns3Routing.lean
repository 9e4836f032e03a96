import Ns3Routing.Lib.OptionFold
import Ns3Routing.Lib.OrdMap
import Ns3Routing.Lib.Run
import Ns3Routing.Lib.HopDistance
import Ns3Routing.Lib.Route
import Ns3Routing.Lib.Settling
import Ns3Routing.Lib.Lease
import Ns3Routing.Lib.Log
import Ns3Routing.Lib.Newest
import Ns3Routing.Lib.Bytes
import Ns3Routing.Lib.Cursor
import Ns3Routing.Lib.Words
import Ns3Routing.Lib.Istream
import Ns3Routing.Lib.Assign
import Ns3Routing.Lib.Tally
import Ns3Routing.Lib.Heap
import Ns3Routing.NodeConfig
import Ns3Routing.Codec
import Ns3Routing.Buffer
import Ns3Routing.Decoding
import Ns3Routing.Network
import Ns3Routing.FaultyNetwork
import Ns3Routing.Host
import Ns3Routing.Dv.Protocol
import Ns3Routing.Dv.BellmanFord
import Ns3Routing.Dv.Handlers
import Ns3Routing.Dv.Invariants
import Ns3Routing.Dv.RoutingTable
import Ns3Routing.Dv.Domain
import Ns3Routing.Dv.Reordering
import Ns3Routing.Dv.Consistency
import Ns3Routing.Dv.Messages
import Ns3Routing.Dv.Network
import Ns3Routing.Dv.Convergence
import Ns3Routing.Dv.Entries
import Ns3Routing.Dv.Resync
import Ns3Routing.Dv.Host
import Ns3Routing.Dv.Poison
import Ns3Routing.Dv.Settling
import Ns3Routing.Ls.Protocol
import Ns3Routing.Ls.Handlers
import Ns3Routing.Ls.OwnEntry
import Ns3Routing.Ls.Dijkstra
import Ns3Routing.Ls.ShortestPaths
import Ns3Routing.Ls.Lookups
import Ns3Routing.Ls.Forwarding
import Ns3Routing.Ls.Messages
import Ns3Routing.Ls.Network
import Ns3Routing.Ls.Overflow
import Ns3Routing.Ls.Reordering
import Ns3Routing.Ls.Flooding
import Ns3Routing.Ls.Adjacency
import Ns3Routing.Ls.Host
import Ns3Routing.Ls.Freshness
import Ns3Routing.Ls.Relay
import Ns3Routing.Routes
import Ns3Routing.Ip
import Ns3Routing.Dv.Forwarding
import Ns3Routing.Ls.Current
import Ns3Routing.Ls.Delivery
import Ns3Routing.Hellos
import Ns3Routing.Timed
import Ns3Routing.Dv.Timed
import Ns3Routing.Ls.Timed
import Ns3Routing.Pings
import Ns3Routing.TestApp
import Ns3Routing.Traffic
import Ns3Routing.Tokenize
import Ns3Routing.Scenario
import Ns3Routing.Links
import Ns3Routing.TestResult
import Ns3Routing.Verdicts
import Ns3Routing.AddressMaps
import Ns3Routing.Addresses
import Ns3Routing.Setup
import Ns3Routing.TopologyFile
import Ns3Routing.TopologyText
import Ns3Routing.Medium
import Ns3Routing.Ls.Entries
import Ns3Routing.Ls.Informed
import Ns3Routing.DumpedRoutes
import Ns3Routing.Names
import Ns3Routing.Schedulers
import Ns3Routing.Simulator
import Ns3Routing.PointToPoint
import Ns3Routing.Simulated
import Ns3Routing.Mirrors
import Ns3Routing.Dv.Simulated
import Ns3Routing.Ls.Simulated
