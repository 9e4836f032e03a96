import Ns3Routing.Codec
import Ns3Routing.Dv.Timed
import Ns3Routing.Mirrors

/-! # Distance vectors in the simulator

What holds of distance vectors in time holds of the program the simulator runs:
with any event list, devices that queue what they cannot transmit, and timers
that are rescheduled. -/

namespace Ns3Routing.Dv

open Lib Ns3Routing.Topology Ns3Routing.Sim

/-- The message as it is put into a packet. -/
def DVMessage.header (dvMessage : DVMessage) : Codec.RoutingMessage where
  sequenceNumber := dvMessage.sequenceNumber
  ttl := dvMessage.ttl
  originatorAddress := dvMessage.originatorAddress
  payload := match dvMessage.payload with
    | .helloReq destinationAddress helloMessage =>
      .helloReq destinationAddress helloMessage.toUTF8.data.toList
    | .dvTableMsg neighborCosts => .tableMsg neighborCosts

end Ns3Routing.Dv
