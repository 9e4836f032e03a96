import Ns3Routing.Dv.Host
import Ns3Routing.Ls.Forwarding
import Ns3Routing.Ls.Host
import Ns3Routing.Ls.Overflow

/-! # The routes of both protocols

`RouteOutput` and `RouteInput` are written alike in `LSRoutingProtocol` and
`DVRoutingProtocol`: `outputRoute` and `inputRoute` are the two functions over
whatever `SearchTable` finds. The two classes differ in the entry a node has
for itself, which is what decides where a packet to an address of its own
goes. -/

namespace Ns3Routing

open Lib Ns3Routing.Topology
open Ls (Ipv4Route Routed)

section Decisions
variable (cfg : NodeConfig) (search : Ipv4Address → Option Ipv4Route)

/-- `RouteOutput`; `search` is the route of the entry that `SearchTable`
finds. -/
def outputRoute (destination : Ipv4Address) : Option Ipv4Route :=
  if destination = cfg.mainAddress then
    some
      { destination := destination
        source := cfg.mainAddress
        gateway := Ipv4Address.getLoopback
        outputDevice := Ipv4Address.getLoopback }
  else
    match search destination with
    | some route => some route
    -- the static route goes to a variable of the same name in an inner scope
    | none => none

/-- `RouteInput`. -/
def inputRoute (isDestinationAddress : Ipv4Address → Ipv4Address → Bool) (lcbIsNull : Bool)
    (inputInterface sourceAddress destinationAddress : Ipv4Address) : Routed :=
  if cfg.isOwnAddress sourceAddress then .own
  else if isDestinationAddress destinationAddress inputInterface then
    if lcbIsNull then .undeliverable else .localDelivery
  else
    match search destinationAddress with
    | some route => .forward route
    | none => .staticRouting

end Decisions

namespace Ls

variable (cfg : NodeConfig) (n : Node)

/-- The route of the entry that `SearchTable` finds. -/
def foundRoute (destination : Ipv4Address) : Option Ipv4Route :=
  (searchTable cfg n destination).map (tableRoute cfg destination)

theorem routeOutput_eq : routeOutput cfg n = outputRoute cfg (foundRoute cfg n) := by
  funext destination
  unfold routeOutput outputRoute foundRoute
  cases searchTable cfg n destination <;> rfl

theorem routeInput_eq : routeInput cfg n = inputRoute cfg (foundRoute cfg n) := by
  funext isDestinationAddress lcbIsNull inputInterface sourceAddress destinationAddress
  unfold routeInput inputRoute foundRoute
  cases searchTable cfg n destinationAddress <;> rfl

end Ls

namespace Dv

variable (cfg : NodeConfig) (n : Node)

def searchTable (dest : Ipv4Address) : Option RoutingTableEntry :=
  n.routingTable[cfg.reverseLookup dest]?

/-- The route of a routing table entry. -/
def tableRoute (destination : Ipv4Address) (entry : RoutingTableEntry) : Ipv4Route where
  destination := destination
  source := cfg.mainAddress
  gateway := entry.nextHopAddr
  outputDevice := entry.interfaceAddr

/-- The route of the entry that `SearchTable` finds. -/
def foundRoute (destination : Ipv4Address) : Option Ipv4Route :=
  (searchTable cfg n destination).map (tableRoute cfg destination)

def routeOutput (destination : Ipv4Address) : Option Ipv4Route :=
  outputRoute cfg (foundRoute cfg n) destination

def routeInput (isDestinationAddress : Ipv4Address → Ipv4Address → Bool) (lcbIsNull : Bool)
    (inputInterface sourceAddress destinationAddress : Ipv4Address) : Routed :=
  inputRoute cfg (foundRoute cfg n) isDestinationAddress lcbIsNull inputInterface sourceAddress
    destinationAddress

end Dv

/-! ## The same decision -/

section SameDecision
variable {cfg : NodeConfig} {search staticRoute : Ipv4Address → Option Ipv4Route}
  {isDestinationAddress : Ipv4Address → Ipv4Address → Bool} {lcbIsNull : Bool}
  {inputInterface sourceAddress destination : Ipv4Address}

/-- The route a packet is sent on after `RouteInput`; `staticRoute` is what
the static routing table yields, for packets in and for packets out. -/
def transitRoute (staticRoute : Ipv4Address → Option Ipv4Route) (destination : Ipv4Address) :
    Routed → Option Ipv4Route
  | .forward route => some route
  | .staticRouting => staticRoute destination
  | .own | .localDelivery | .undeliverable => none

/-- A packet of this node leaves as one in transit does: by the routing table,
else by static routing. -/
structure SameDecision (search staticRoute : Ipv4Address → Option Ipv4Route)
    (destination : Ipv4Address) (output : Option Ipv4Route) (input : Routed) : Prop where
  transit : transitRoute staticRoute destination input =
    (search destination).or (staticRoute destination)
  same : output = transitRoute staticRoute destination input

theorem sameDecision_iff (main : destination ≠ cfg.mainAddress)
    (source : cfg.isOwnAddress sourceAddress = false)
    (away : isDestinationAddress destination inputInterface = false) :
    SameDecision search staticRoute destination (outputRoute cfg search destination)
        (inputRoute cfg search isDestinationAddress lcbIsNull inputInterface sourceAddress
          destination) ↔
      (search destination).isSome = true ∨ staticRoute destination = none := by
  have hin : transitRoute staticRoute destination (inputRoute cfg search isDestinationAddress
      lcbIsNull inputInterface sourceAddress destination) =
      (search destination).or (staticRoute destination) := by
    unfold inputRoute
    rw [source, away]
    cases search destination <;> rfl
  have hout : outputRoute cfg search destination = search destination := by
    unfold outputRoute
    rw [if_neg main]
    cases search destination <;> rfl
  constructor
  · intro h
    have hsame := h.same
    rw [hout, hin] at hsame
    cases hfound : search destination with
    | some route => exact Or.inl rfl
    | none =>
      rw [hfound, Option.none_or] at hsame
      exact Or.inr hsame.symm
  · intro h
    refine ⟨hin, ?_⟩
    rw [hout, hin]
    cases hfound : search destination with
    | some route => rfl
    | none =>
      rw [hfound] at h
      rcases h with hsome | hstatic
      · cases hsome
      · rw [hstatic, Option.or_none]

end SameDecision

theorem isSome_foundRoute_ls {cfg : NodeConfig} {n : Ls.Node} {destination : Ipv4Address} :
    (Ls.foundRoute cfg n destination).isSome = true ↔
      cfg.reverseLookup destination ∈ n.routingTable := by
  rw [Ls.foundRoute, Ls.searchTable, isSome_map_getElem?]

theorem isSome_foundRoute_dv {cfg : NodeConfig} {n : Dv.Node} {destination : Ipv4Address} :
    (Dv.foundRoute cfg n destination).isSome = true ↔
      cfg.reverseLookup destination ∈ n.routingTable := by
  rw [Dv.foundRoute, Dv.searchTable, isSome_map_getElem?]

/-- **When `RouteOutput` decides as `RouteInput` does**, in either class: the
routing table knows the destination, or static routing has nothing to add. -/
theorem route_decisions_agree_iff (cfg : NodeConfig) (ls : Ls.Node) (dv : Dv.Node)
    (staticRoute : Ipv4Address → Option Ipv4Route)
    (isDestinationAddress : Ipv4Address → Ipv4Address → Bool) (lcbIsNull : Bool)
    (inputInterface sourceAddress destination : Ipv4Address)
    (main : destination ≠ cfg.mainAddress) (source : cfg.isOwnAddress sourceAddress = false)
    (away : isDestinationAddress destination inputInterface = false) :
    (SameDecision (Ls.foundRoute cfg ls) staticRoute destination (Ls.routeOutput cfg ls destination)
        (Ls.routeInput cfg ls isDestinationAddress lcbIsNull inputInterface sourceAddress
          destination) ↔
      cfg.reverseLookup destination ∈ ls.routingTable ∨ staticRoute destination = none) ∧
    (SameDecision (Dv.foundRoute cfg dv) staticRoute destination (Dv.routeOutput cfg dv destination)
        (Dv.routeInput cfg dv isDestinationAddress lcbIsNull inputInterface sourceAddress
          destination) ↔
      cfg.reverseLookup destination ∈ dv.routingTable ∨ staticRoute destination = none) := by
  rw [Ls.routeOutput_eq, Ls.routeInput_eq, ← isSome_foundRoute_ls, ← isSome_foundRoute_dv]
  exact ⟨sameDecision_iff main source away, sameDecision_iff main source away⟩

/-- A static default route through interface 10. -/
def defaultRoute (destination : Ipv4Address) : Option Ipv4Route := some ⟨destination, 10, 12, 10⟩

/-- Of a node that has computed nothing yet, a packet to an outside address
has no route, and one in transit takes the default route. -/
theorem static_route_lost :
    ¬ SameDecision (Ls.foundRoute sampleConfig (Ls.doStart 7)) defaultRoute 99
        (Ls.routeOutput sampleConfig (Ls.doStart 7) 99)
        (Ls.routeInput sampleConfig (Ls.doStart 7) (fun _ _ => false) false 10 20 99) ∧
      ¬ SameDecision (Dv.foundRoute sampleConfig (Dv.doStart sampleConfig 7)) defaultRoute 99
        (Dv.routeOutput sampleConfig (Dv.doStart sampleConfig 7) 99)
        (Dv.routeInput sampleConfig (Dv.doStart sampleConfig 7) (fun _ _ => false) false 10 20
          99) := by
  refine ⟨fun h => ?_, fun h => ?_⟩
  · have hsame := h.same.trans h.transit
    revert hsame
    decide +kernel
  · have hsame := h.same.trans h.transit
    revert hsame
    decide +kernel

theorem route_decisions_agree_iff_default :
    ¬ SameDecision (Ls.foundRoute sampleConfig (Ls.doStart 7)) defaultRoute 99
      (Ls.routeOutput sampleConfig (Ls.doStart 7) 99)
      (Ls.routeInput sampleConfig (Ls.doStart 7) (fun _ _ => false) false 10 20 99) := by
  intro h
  have hcond := (route_decisions_agree_iff sampleConfig (Ls.doStart 7) (Dv.doStart sampleConfig 7)
    defaultRoute (fun _ _ => false) false 10 20 99 (by decide) (by decide) rfl).1.mp h
  rcases hcond with hmem | hnone
  · revert hmem
    decide +kernel
  · cases hnone

/-! ## When the routing table is computed -/

namespace Ls

/-- The event runs `Dijkstra`. -/
def RunsDijkstra (cfg : NodeConfig) (n : Node) : Event → Prop
  | .recv _ _ lsMessage => match lsMessage.payload with
    | .helloReq _ _ => n.neighborTable[cfg.reverseLookup lsMessage.originatorAddress]? = none
    | .lsTableMsg _ =>
      isNew n (cfg.reverseLookup lsMessage.originatorAddress) lsMessage.sequenceNumber = true
  | .auditHellos now => ∃ K, Expires cfg now n K

/-- The event of the routing protocol, if it is not a command. -/
def tableEvent : NodeEvent LSMessage Action → Option Event
  | .recv now socket lsMessage => some (.recv now socket lsMessage)
  | .act (.auditHellos now) => some (.auditHellos now)
  | .act .hello => none
  | .act .lsTableMsg => none

/-- The event computes the routing table of the node. -/
def Computes (cfg : NodeConfig) (n : Host Node)
    (e : NodeEvent (HostMessage LSMessage) (HostAct Action)) : Prop :=
  ∃ e₀, e.control?.bind tableEvent = some e₀ ∧ RunsDijkstra cfg n.control e₀

section Computed
variable {cfg : NodeConfig} {n n' : Node} {e : Event} {out : Packets}

theorem runDijkstra_routes (h : runDijkstra dijkstra cfg n = some n') :
    ∃ m, dijkstra cfg m = some n'.routingTable ∧ m.lsTable = n'.lsTable := by
  obtain ⟨routingTable, hrt, rfl⟩ := Option.map_eq_some_iff.mp h
  exact ⟨n, hrt, rfl⟩

/-- The routing table after an event. -/
theorem handle_routes (h : handle dijkstra cfg n e = some (n', out)) :
    (RunsDijkstra cfg n e ∧ ∃ m, dijkstra cfg m = some n'.routingTable ∧ m.lsTable = n'.lsTable) ∨
      ¬ RunsDijkstra cfg n e ∧ n'.routingTable = n.routingTable := by
  cases e with
  | recv now socket lsMessage =>
    simp only [handle, recvLSMessage] at h
    cases hp : lsMessage.payload with
    | helloReq destinationAddress helloMessage =>
      rw [hp] at h
      simp only [processHelloReq] at h
      cases hentry : n.neighborTable[cfg.reverseLookup lsMessage.originatorAddress]? with
      | some e =>
        rw [hentry] at h
        obtain ⟨rfl, rfl⟩ := Prod.mk.inj (Option.some.inj h)
        refine Or.inr ⟨?_, rfl⟩
        simp [RunsDijkstra, hp, hentry]
      | none =>
        rw [hentry] at h
        obtain ⟨n₁, hrun, h⟩ := Option.bind_eq_some_iff.mp h
        obtain ⟨rfl, rfl⟩ := Prod.mk.inj (Option.some.inj h)
        obtain ⟨m, hm⟩ := runDijkstra_routes hrun
        refine Or.inl ⟨?_, m, hm⟩
        simp [RunsDijkstra, hp, hentry]
    | lsTableMsg neighborCosts =>
      rw [hp] at h
      simp only [processLSTableMessage] at h
      split at h
      · rename_i hnew
        obtain ⟨n₁, hrun, h⟩ := Option.bind_eq_some_iff.mp h
        obtain ⟨rfl, rfl⟩ := Prod.mk.inj (Option.some.inj h)
        refine Or.inl ⟨?_, runDijkstra_routes hrun⟩
        simpa [RunsDijkstra, hp] using hnew
      · rename_i hold
        obtain ⟨rfl, rfl⟩ := Prod.mk.inj (Option.some.inj h)
        refine Or.inr ⟨?_, rfl⟩
        simpa [RunsDijkstra, hp] using hold
  | auditHellos now =>
    simp only [handle, auditHellos] at h
    obtain ⟨⟨m, sendMsg⟩, hloop, h⟩ := Option.bind_eq_some_iff.mp h
    obtain ⟨hflag, hquiet⟩ := auditLoop_flag_iff rfl hloop
    cases sendMsg with
    | true =>
      obtain ⟨n₁, hrun, h⟩ := Option.bind_eq_some_iff.mp h
      obtain ⟨rfl, rfl⟩ := Prod.mk.inj (Option.some.inj h)
      obtain ⟨m', hm'⟩ := runDijkstra_routes hrun
      exact Or.inl ⟨hflag.mp rfl, m', hm'⟩
    | false =>
      obtain ⟨rfl, rfl⟩ := Prod.mk.inj (Option.some.inj h)
      have hno : ¬ ∃ K, Expires cfg now n K := by
        intro hx
        have hup := hflag.mpr hx
        cases hup
      have hsame := hquiet fun K hK => hno ⟨K, hK⟩
      exact Or.inr ⟨hno, congrArg (fun st : Node × Bool => st.1.routingTable) hsame⟩

end Computed

/-- The node has its entry for itself. -/
def SelfRouted (cfg : NodeConfig) (n : Host Node) : Prop :=
  n.control.routingTable[cfg.thisNode]? = some (selfEntry cfg)

/-- What an event does to the routing table of the node. -/
theorem host_routes {cfg : NodeConfig} {n n' : Host Node}
    {e : NodeEvent (HostMessage LSMessage) (HostAct Action)}
    (h : (lsHost dijkstra).step cfg n e = some n') :
    SelfRouted cfg n' ∨
      ¬ Computes cfg n e ∧ n'.control.routingTable = n.control.routingTable := by
  obtain ⟨⟨n₁, out⟩, hh, rfl⟩ := Option.map_eq_some_iff.mp h
  rcases host_cases hh with ⟨e₁, out₁, he₁, hc, _, _⟩ | ⟨hnone, hsame, _⟩
  · have hcomputes : Computes cfg n e ↔ ∃ e₀, tableEvent e₁ = some e₀ ∧
        RunsDijkstra cfg n.control e₀ := by
      rw [Computes, he₁, Option.bind_some]
    have hevent : ∀ e₀, tableEvent e₁ = some e₀ →
        handle dijkstra cfg n.control e₀ = some (n₁.control, out₁) →
        SelfRouted cfg n₁ ∨
          ¬ Computes cfg n e ∧ n₁.control.routingTable = n.control.routingTable := by
      intro e₀ he₀ hh₀
      rcases handle_routes hh₀ with ⟨_, m, hm, _⟩ | ⟨hno, hsame⟩
      · exact Or.inl (dijkstra_self hm)
      · refine Or.inr ⟨fun hx => ?_, hsame⟩
        obtain ⟨e₂, he₂, hruns⟩ := hcomputes.mp hx
        rw [he₀] at he₂
        obtain rfl := Option.some.inj he₂
        exact hno hruns
    have hcommand : tableEvent e₁ = none →
        n₁.control.routingTable = n.control.routingTable →
        SelfRouted cfg n₁ ∨
          ¬ Computes cfg n e ∧ n₁.control.routingTable = n.control.routingTable := by
      intro he₀ hsame
      refine Or.inr ⟨fun hx => ?_, hsame⟩
      obtain ⟨e₂, he₂, _⟩ := hcomputes.mp hx
      rw [he₀] at he₂
      cases he₂
    cases e₁ with
    | recv now socket lsMessage => exact hevent _ rfl hc
    | act a =>
      cases a with
      | auditHellos now => exact hevent _ rfl hc
      | hello =>
        obtain ⟨hn, _⟩ := Prod.mk.inj (Option.some.inj hc)
        exact hcommand rfl (hn ▸ rfl)
      | lsTableMsg =>
        obtain ⟨hn, _⟩ := Prod.mk.inj (Option.some.inj hc)
        exact hcommand rfl (hn ▸ rfl)
  · refine Or.inr ⟨fun hx => ?_, ?_⟩
    · obtain ⟨_, he₀, _⟩ := hx
      rw [hnone] at he₀
      cases he₀
    · rcases hsame with hsame | ⟨q, hsame⟩
      · rw [hsame]
      · rw [hsame]; rfl

/-- After the first `Dijkstra`, a node has its entry for itself. -/
theorem selfRouted_run {cfg : NodeConfig} {n n' : Host Node}
    {es : List (NodeEvent (HostMessage LSMessage) (HostAct Action))}
    (hv : Visits ((lsHost dijkstra).step cfg) (Computes cfg) n es)
    (h : run ((lsHost dijkstra).step cfg) n es = some n') : SelfRouted cfg n' := by
  refine run_of_visits (I := fun _ => True) trivial (fun _ _ _ _ _ => trivial) ?_ ?_ hv h
  · intro t e t' _ hst hC
    rcases host_routes hst with hself | ⟨hno, _⟩
    · exact hself
    · exact absurd hC hno
  · intro t e t' _ hself hst
    rcases host_routes hst with hself' | ⟨_, hsame⟩
    · exact hself'
    · exact (congrArg (·[cfg.thisNode]?) hsame).trans hself

end Ls

namespace Dv

/-- The event of the routing protocol. -/
def tableEvent : NodeEvent DVMessage Action → Event
  | .recv now socket dvMessage => .recv now socket dvMessage
  | .act (.auditHellos now) => .auditHellos now

/-- The event computes the routing table of the node. -/
def Computes (cfg : NodeConfig) (n : Host Node)
    (e : NodeEvent (HostMessage DVMessage) (HostAct Action)) : Prop :=
  ∃ e₁, e.control? = some e₁ ∧ ¬ Quiet cfg n.control (tableEvent e₁)

/-- A node that is known to itself, with its tables in order. -/
def SelfKnown (cfg : NodeConfig) (n : Host Node) : Prop :=
  Inv cfg n.control ∧ cfg.thisNode ∈ n.control.dv

/-- The node has its entry for itself. -/
def SelfRouted (cfg : NodeConfig) (n : Host Node) : Prop :=
  n.control.routingTable[cfg.thisNode]? = some (selfEntry cfg)

theorem BeforeBF.mem_dv {cfg : NodeConfig} {n m : Node} {e : Event} {ndv : DistanceVector}
    (h : BeforeBF cfg n e m ndv) {D : String} (hD : D ∈ n.dv) : D ∈ m.dv := by
  cases h with
  | hello _ _ =>
    simp only [addNeighbor, Std.ExtTreeMap.mem_insertIfNew]
    exact Or.inr hD
  | dvTable _ => exact hD
  | audit audited _ => exact audited.mem_dv (n := (sendHello cfg n).1) hD

/-- What an event does to the entry of a node for itself. -/
theorem host_routes {cfg : NodeConfig} {n n' : Host Node}
    {e : NodeEvent (HostMessage DVMessage) (HostAct Action)} (hn : SelfKnown cfg n)
    (h : dvHost.step cfg n e = some n') :
    SelfKnown cfg n' ∧ (SelfRouted cfg n' ∨
      ¬ Computes cfg n e ∧ n'.control.routingTable = n.control.routingTable) := by
  obtain ⟨hI, hself⟩ := hn
  obtain ⟨⟨n₁, out⟩, hh, rfl⟩ := Option.map_eq_some_iff.mp h
  rcases host_cases hh with ⟨e₁, out₁, he₁, hc, _, _⟩ | ⟨hnone, hsame, _⟩
  · have hstep : step cfg n.control (tableEvent e₁) = some n₁.control := by
      rw [step, show handle cfg n.control (tableEvent e₁) = some (n₁.control, out₁) from by
        cases e₁ with
        | recv now socket dvMessage => exact hc
        | act a =>
          cases a with
          | auditHellos now => exact hc]
      rfl
    rcases step_cases hI.tables.keyed hstep with ⟨hs, hq⟩ | ⟨m, ndv, hb, hr⟩
    · refine ⟨⟨hI.same hs, ?_⟩, Or.inr ⟨fun hx => ?_, hs.routingTable⟩⟩
      · rw [hs.dv]
        exact hself
      · obtain ⟨e₂, he₂, hloud⟩ := hx
        rw [he₁] at he₂
        obtain rfl := Option.some.inj he₂
        exact hloud hq
    · have hknown : cfg.thisNode ∈ addUnknown m.dv ndv :=
        mem_addUnknown.mpr (Or.inl (hb.mem_dv hself))
      obtain ⟨v, hv⟩ := mem_iff_getElem?.mp hknown
      exact ⟨⟨inv_step hI hstep, hr.mem_dv.mpr hknown⟩, Or.inl (hr.self v hv).2⟩
  · have htables : SameTables n.control n₁.control := by
      rcases hsame with hsame | ⟨q, hsame⟩
      · rw [hsame]
        exact ⟨rfl, rfl, rfl, fun _ => rfl⟩
      · rw [hsame]
        exact ⟨rfl, rfl, rfl, fun _ => rfl⟩
    refine ⟨⟨hI.same htables, ?_⟩, Or.inr ⟨fun hx => ?_, htables.routingTable⟩⟩
    · rw [htables.dv]
      exact hself
    · obtain ⟨_, he₀, _⟩ := hx
      rw [hnone] at he₀
      cases he₀

/-- After the first `BellmanFord`, a node has its entry for itself. -/
theorem selfRouted_run {cfg : NodeConfig} {n n' : Host Node}
    {es : List (NodeEvent (HostMessage DVMessage) (HostAct Action))} (hn : SelfKnown cfg n)
    (hv : Visits (dvHost.step cfg) (Computes cfg) n es)
    (h : run (dvHost.step cfg) n es = some n') : SelfRouted cfg n' := by
  refine run_of_visits hn (fun _ _ _ hI hst => (host_routes hI hst).1) ?_ ?_ hv h
  · intro t e t' hI hst hC
    rcases (host_routes hI hst).2 with hself | ⟨hno, _⟩
    · exact hself
    · exact absurd hC hno
  · intro t e t' hI hself hst
    rcases (host_routes hI hst).2 with hself' | ⟨_, hsame⟩
    · exact hself'
    · exact (congrArg (·[cfg.thisNode]?) hsame).trans hself

theorem selfKnown_doStart (cfg : NodeConfig) (sequenceNumber : UInt32) (pings : Pinger) :
    SelfKnown cfg ⟨doStart cfg sequenceNumber, pings⟩ := by
  refine ⟨inv_doStart cfg sequenceNumber, ?_⟩
  show cfg.thisNode ∈ (∅ : DistanceVector).insertIfNew cfg.thisNode 0
  rw [Std.ExtTreeMap.mem_insertIfNew]
  exact Or.inl Std.ReflCmp.compare_self

end Dv

/-! ## A node's own addresses -/

/-- The node has an interface with the address. -/
def OwnAddress (T : Topology) (i : Fin T.size) (a : Ipv4Address) : Prop :=
  a = (T.config i).mainAddress ∨ ∃ p, T.owner p = i ∧ T.address p = a

/-- The packet goes to the loopback interface. -/
def StaysInside (output : Option Ipv4Route) : Prop :=
  ∃ route, output = some route ∧ route.outputDevice = Ipv4Address.getLoopback

section Own
variable {T : Topology} {i : Fin T.size} {a : Ipv4Address}

theorem OwnAddress.reverseLookup (own : OwnAddress T i a) :
    (T.config i).reverseLookup a = (T.config i).thisNode := by
  rcases own with rfl | ⟨p, rfl, rfl⟩
  · rfl
  · rw [reverseLookup_address, thisNode_eq]

theorem outputRoute_main (cfg : NodeConfig) (search : Ipv4Address → Option Ipv4Route) :
    StaysInside (outputRoute cfg search cfg.mainAddress) := by
  rw [outputRoute, if_pos rfl]
  exact ⟨_, rfl, rfl⟩

/-- Any other own address is looked up in the routing table. -/
theorem outputRoute_found {cfg : NodeConfig} {search : Ipv4Address → Option Ipv4Route}
    {route : Ipv4Route} (main : a ≠ cfg.mainAddress) (found : search a = some route) :
    StaysInside (outputRoute cfg search a) ↔ route.outputDevice = Ipv4Address.getLoopback := by
  have hout : outputRoute cfg search a = some route := by
    rw [outputRoute, if_neg main, found]
  rw [hout]
  constructor
  · intro h
    obtain ⟨route', hroute, hdevice⟩ := h
    rw [Option.some.inj hroute]
    exact hdevice
  · intro hdevice
    exact ⟨route, rfl, hdevice⟩

/-- `Dijkstra` gives the entry of the node for itself its main interface. -/
theorem Ls.SelfRouted.stays_iff {n : Host Ls.Node} (h : Ls.SelfRouted (T.config i) n)
    (own : OwnAddress T i a) :
    StaysInside (Ls.routeOutput (T.config i) n.control a) ↔
      a = (T.config i).mainAddress ∨ (T.config i).mainAddress = Ipv4Address.getLoopback := by
  rw [Ls.routeOutput_eq]
  by_cases main : a = (T.config i).mainAddress
  · subst main
    exact iff_of_true (outputRoute_main _ _) (Or.inl rfl)
  · have found : Ls.foundRoute (T.config i) n.control a =
        some (Ls.tableRoute (T.config i) a (Ls.selfEntry (T.config i))) := by
      rw [Ls.foundRoute, Ls.searchTable, own.reverseLookup, h, Option.map_some]
    rw [outputRoute_found main found]
    constructor
    · intro hdevice
      exact Or.inr hdevice
    · intro hx
      exact hx.resolve_left main

/-- `BellmanFord` gives it the loopback interface. -/
theorem Dv.SelfRouted.stays {n : Host Dv.Node} (h : Dv.SelfRouted (T.config i) n)
    (own : OwnAddress T i a) : StaysInside (Dv.routeOutput (T.config i) n.control a) := by
  show StaysInside (outputRoute _ _ _)
  by_cases main : a = (T.config i).mainAddress
  · subst main
    exact outputRoute_main _ _
  · have found : Dv.foundRoute (T.config i) n.control a =
        some (Dv.tableRoute (T.config i) a (Dv.selfEntry (T.config i))) := by
      rw [Dv.foundRoute, Dv.searchTable, own.reverseLookup, h, Option.map_some]
    exact (outputRoute_found main found).mpr rfl

end Own

/-- **When a packet to an own address stays inside the node**, once its
routing table has been computed: always with distance vectors; with link
states when it is for the main address. -/
theorem own_traffic_stays_iff (T : Topology) (i : Fin T.size) (a : Ipv4Address)
    (own : OwnAddress T i a) :
    (∀ sequenceNumber pingTimeout es n,
      run ((Ls.lsHost Ls.dijkstra).step (T.config i))
        ⟨Ls.doStart sequenceNumber, Pinger.start pingTimeout⟩ es = some n →
      Visits ((Ls.lsHost Ls.dijkstra).step (T.config i)) (Ls.Computes (T.config i))
        ⟨Ls.doStart sequenceNumber, Pinger.start pingTimeout⟩ es →
      (StaysInside (Ls.routeOutput (T.config i) n.control a) ↔
        a = (T.config i).mainAddress ∨ (T.config i).mainAddress = Ipv4Address.getLoopback)) ∧
    (∀ sequenceNumber pingTimeout es n,
      run (Dv.dvHost.step (T.config i))
        ⟨Dv.doStart (T.config i) sequenceNumber, Pinger.start pingTimeout⟩ es = some n →
      Visits (Dv.dvHost.step (T.config i)) (Dv.Computes (T.config i))
        ⟨Dv.doStart (T.config i) sequenceNumber, Pinger.start pingTimeout⟩ es →
      StaysInside (Dv.routeOutput (T.config i) n.control a)) := by
  constructor
  · intro sequenceNumber pingTimeout es n hrun hv
    exact (Ls.selfRouted_run hv hrun).stays_iff own
  · intro sequenceNumber pingTimeout es n hrun hv
    exact (Dv.selfRouted_run (Dv.selfKnown_doStart _ _ _) hv hrun).stays own

/-! ### Node 1 of the line -/

/-- A hello of node 0 comes to node 1. -/
def lineHello : NodeEvent (HostMessage Ls.LSMessage) (HostAct Ls.Action) :=
  .recv 0 0 (.control ⟨7, 1, 10, .helloReq 10 "hello"⟩)

/-- Node 1 as `DoStart` leaves it. -/
def lineStart : Host Ls.Node := ⟨Ls.doStart 7, Pinger.start 2000⟩

theorem lineHello_computes :
    Visits ((Ls.lsHost Ls.dijkstra).step (lineTopology.config (lineNode 1)))
      (Ls.Computes (lineTopology.config (lineNode 1))) lineStart [lineHello] := by
  refine ⟨[], lineHello, lineStart, List.prefix_refl _, rfl, _, rfl, ?_⟩
  simp [Ls.RunsDijkstra, lineStart, Ls.doStart]

theorem lineHello_defined :
    ∃ n, run ((Ls.lsHost Ls.dijkstra).step (lineTopology.config (lineNode 1))) lineStart
      [lineHello] = some n := by
  have hsome : (run ((Ls.lsHost Ls.dijkstra).step (lineTopology.config (lineNode 1))) lineStart
      [lineHello]).isSome = true := by decide +kernel
  exact Option.isSome_iff_exists.mp hsome

theorem line_own : OwnAddress lineTopology (lineNode 1) 21 :=
  Or.inr ⟨linePort 1 false, rfl, rfl⟩

theorem line_not_main : ¬ ((21 : Ipv4Address) = (lineTopology.config (lineNode 1)).mainAddress ∨
    (lineTopology.config (lineNode 1)).mainAddress = Ipv4Address.getLoopback) := by
  decide +kernel

/-- What node 1 sends to its own address 21, after a hello of node 0, leaves
by its main interface. -/
theorem own_traffic_leaves :
    ¬ ∀ (T : Topology) (i : Fin T.size) (a : Ipv4Address), OwnAddress T i a →
      ∀ sequenceNumber pingTimeout es n,
        run ((Ls.lsHost Ls.dijkstra).step (T.config i))
          ⟨Ls.doStart sequenceNumber, Pinger.start pingTimeout⟩ es = some n →
        Visits ((Ls.lsHost Ls.dijkstra).step (T.config i)) (Ls.Computes (T.config i))
          ⟨Ls.doStart sequenceNumber, Pinger.start pingTimeout⟩ es →
        StaysInside (Ls.routeOutput (T.config i) n.control a) := by
  intro h
  obtain ⟨n, hn⟩ := lineHello_defined
  have hstays := h lineTopology (lineNode 1) 21 line_own 7 2000 _ n hn lineHello_computes
  exact line_not_main (((Ls.selfRouted_run lineHello_computes hn).stays_iff line_own).mp hstays)

theorem own_traffic_stays_iff_line :
    ∃ n, run ((Ls.lsHost Ls.dijkstra).step (lineTopology.config (lineNode 1))) lineStart
      [lineHello] = some n ∧
      ¬ StaysInside (Ls.routeOutput (lineTopology.config (lineNode 1)) n.control 21) := by
  obtain ⟨n, hn⟩ := lineHello_defined
  refine ⟨n, hn, fun hstays => line_not_main ?_⟩
  exact ((own_traffic_stays_iff lineTopology (lineNode 1) 21 line_own).1 7 2000 _ n hn
    lineHello_computes).mp hstays

end Ns3Routing
