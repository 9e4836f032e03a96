import Ns3Routing.Codec
import Ns3Routing.Ls.Timed
import Ns3Routing.Mirrors

/-! # Link states in the simulator

What holds of link states in time holds of the program the simulator runs. -/

namespace Ns3Routing.Ls

open Lib Ns3Routing.Topology Ns3Routing.Sim

/-- The message as it is put into a packet. -/
def LSMessage.header (lsMessage : LSMessage) : Codec.RoutingMessage where
  sequenceNumber := lsMessage.sequenceNumber
  ttl := lsMessage.ttl
  originatorAddress := lsMessage.originatorAddress
  payload := match lsMessage.payload with
    | .helloReq destinationAddress helloMessage =>
      .helloReq destinationAddress helloMessage.toUTF8.data.toList
    | .lsTableMsg neighborCosts => .tableMsg neighborCosts

end Ns3Routing.Ls
