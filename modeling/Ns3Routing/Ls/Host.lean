import Ns3Routing.Host
import Ns3Routing.Ls.Messages

/-! # A link-state node with its pings and commands

`lsHost` is everything an `LSRoutingProtocol` object does: the handlers of
`Ls.Protocol`, the commands `HELLO` and `LSTABLEMSG`, and the pings. -/

namespace Ns3Routing.Ls

open Lib

/-- The hello timer and the commands that send a message. -/
inductive Action where
  | auditHellos (now : Nat)
  | hello
  | lsTableMsg
  deriving DecidableEq

section Machine
variable (dijkstra : NodeConfig → Node → Option RoutingTable)

def lsControl : Control Node LSMessage Action where
  recv := recvLSMessage dijkstra
  act cfg
    | .auditHellos now, n => auditHellos dijkstra cfg now n
    | .hello, n => some (sendHello cfg n)
    | .lsTableMsg, n => some (sendLSTableMessage cfg n)
  currentSequenceNumber n := n.currentSequenceNumber
  setSequenceNumber n q := { n with currentSequenceNumber := q }
  current_set _ _ := rfl

def lsHost : Machine (Host Node) (HostMessage LSMessage) (HostAct Action) := host (lsControl dijkstra)

end Machine

/-- Nodes as `DoStart` leaves them, with any counters and ping timeouts, and
nothing in flight. -/
def hostsStart (T : Topology) (sequenceNumber : Fin T.size → UInt32) (pingTimeout : Fin T.size → ℕ) :
    FaultyNet T (Host Node) (HostMessage LSMessage) :=
  .start fun i => ⟨doStart (sequenceNumber i), Pinger.start (pingTimeout i)⟩

/-- A message only this node's commands send. -/
def Sent (cfg : NodeConfig) (n : Node) (out : Packets) : Prop :=
  out = cfg.broadcastPacket (helloMessage cfg n) ∨ out = cfg.broadcastPacket (announcement cfg n)

section Cases
variable {dijkstra : NodeConfig → Node → Option RoutingTable} {cfg : NodeConfig}

theorem lsControl_cases {n n' : Node} {e : NodeEvent LSMessage Action} {out : Packets}
    (h : (lsControl dijkstra).handle cfg n e = some (n', out)) :
    (∃ e₀, (∀ now socket m, e = .recv now socket m ↔ e₀ = .recv now socket m) ∧
      handle dijkstra cfg n e₀ = some (n', out)) ∨
    (∀ now socket m, e ≠ .recv now socket m) ∧ Sent cfg n out ∧
      n' = { n with currentSequenceNumber := n.currentSequenceNumber + 1 } := by
  cases e with
  | recv now socket m => exact Or.inl ⟨.recv now socket m, by simp, h⟩
  | act a =>
    cases a with
    | auditHellos now => exact Or.inl ⟨.auditHellos now, by simp, h⟩
    | hello =>
      obtain ⟨rfl, rfl⟩ := Prod.mk.inj (Option.some.inj h)
      exact Or.inr ⟨by simp, Or.inl rfl, rfl⟩
    | lsTableMsg =>
      obtain ⟨rfl, rfl⟩ := Prod.mk.inj (Option.some.inj h)
      exact Or.inr ⟨by simp, Or.inr rfl, rfl⟩

/-- What an event of the node does to its tables: one of the events of
`Ls.Protocol`, or nothing. -/
theorem lsHost_cases {n n' : Host Node} {e : NodeEvent (HostMessage LSMessage) (HostAct Action)}
    {out : List (Ipv4Address × HostMessage LSMessage)}
    (h : (lsHost dijkstra).handle cfg n e = some (n', out)) :
    (∃ e₀ out₀, (∀ now socket m, e = .recv now socket (.control m) ↔ e₀ = .recv now socket m) ∧
      handle dijkstra cfg n.control e₀ = some (n'.control, out₀) ∧ out = controlPackets out₀) ∨
    (∀ now socket m, e ≠ .recv now socket (.control m)) ∧
      (∃ q, n'.control = { n.control with currentSequenceNumber := q }) ∧
      ∀ x ∈ out, ∀ m, x.2 = .control m →
        m = helloMessage cfg n.control ∨ m = announcement cfg n.control := by
  rcases host_cases h with ⟨e₁, out₁, he₁, hc, rfl, _⟩ | ⟨hnone, hsame, hout⟩
  · have hrecv : ∀ now socket m, e = .recv now socket (.control m) ↔ e₁ = .recv now socket m := by
      intro now socket m
      constructor
      · intro he
        rw [he] at he₁
        exact (Option.some.inj he₁).symm
      · intro he
        subst he
        cases e with
        | recv _ _ m' =>
          cases m' with
          | control _ => cases he₁; rfl
          | pingReq _ => cases he₁
          | pingRsp _ => cases he₁
        | act a =>
          cases a with
          | control _ => cases he₁
          | ping _ _ _ => cases he₁
          | auditPings _ => cases he₁
    rcases lsControl_cases hc with ⟨e₀, he₀, hh⟩ | ⟨hno, hsent, hn'⟩
    · exact Or.inl ⟨e₀, out₁, fun now socket m => (hrecv now socket m).trans (he₀ now socket m),
        hh, rfl⟩
    · refine Or.inr ⟨fun now socket m he => hno now socket m ((hrecv now socket m).mp he),
        ⟨_, hn'⟩, ?_⟩
      intro x hx m hm
      obtain ⟨m', hm', hxm⟩ := of_mem_controlPackets hx
      rw [hxm] at hm
      obtain rfl := HostMessage.control.inj hm
      rcases hsent with rfl | rfl
      · exact Or.inl (of_mem_broadcastPacket hm')
      · exact Or.inr (of_mem_broadcastPacket hm')
  · refine Or.inr ⟨?_, ?_, fun x hx m hm => absurd hm (hout x hx m)⟩
    · intro now socket m he
      rw [he] at hnone
      cases hnone
    · rcases hsame with hsame | ⟨q, hsame⟩
      · exact ⟨n.control.currentSequenceNumber, by rw [hsame]⟩
      · exact ⟨q, hsame⟩

theorem keyed_lsHost {n n' : Host Node} {e : NodeEvent (HostMessage LSMessage) (HostAct Action)}
    {out : List (Ipv4Address × HostMessage LSMessage)} (hk : Keyed cfg n.control)
    (h : (lsHost dijkstra).handle cfg n e = some (n', out)) : Keyed cfg n'.control := by
  rcases lsHost_cases h with ⟨e₀, out₀, _, hh, _⟩ | ⟨_, ⟨q, hq⟩, _⟩
  · exact keyed_step (e := e₀) hk (by rw [step, hh]; rfl)
  · rw [hq]; exact hk

/-- **Stored sequence numbers never go down**, and entries stay. -/
theorem held_mono_lsHost {n n' : Host Node}
    {e : NodeEvent (HostMessage LSMessage) (HostAct Action)}
    {out : List (Ipv4Address × HostMessage LSMessage)} (hk : Keyed cfg n.control)
    (h : (lsHost dijkstra).handle cfg n e = some (n', out)) {K : String} {q : UInt32}
    (hq : heldSeq n.control K = some q) : ∃ q', heldSeq n'.control K = some q' ∧ q ≤ q' := by
  rcases lsHost_cases h with ⟨e₀, out₀, _, hh, _⟩ | ⟨_, ⟨q', hq'⟩, _⟩
  · exact (handle_cases hh).held_mono hk hq
  · rw [hq']
    exact ⟨q, hq, UInt32.le_refl q⟩

/-- The arrival of an announcement: it is dropped, or new and sent on. -/
theorem lsHost_recv_announcement {n n' : Host Node} {now socket : ℕ}
    {m : LSMessage} {neighborCosts : NbrCostsVec} {out : List (Ipv4Address × HostMessage LSMessage)}
    (payload : m.payload = .lsTableMsg neighborCosts)
    (h : (lsHost dijkstra).handle cfg n (.recv now socket (.control m)) = some (n', out)) :
    (isNew n.control (cfg.reverseLookup m.originatorAddress) m.sequenceNumber = false ∧ n' = n ∧
      out = []) ∨
    isNew n.control (cfg.reverseLookup m.originatorAddress) m.sequenceNumber = true ∧
      n'.control.lsTable[cfg.reverseLookup m.originatorAddress]? =
        some ⟨neighborCosts, m.sequenceNumber⟩ ∧
      out = controlPackets (cfg.broadcastPacket { m with ttl := m.ttl - 1 }) := by
  obtain ⟨⟨c, out₀⟩, hc, hres⟩ := Option.map_eq_some_iff.mp h
  obtain ⟨rfl, rfl⟩ := Prod.mk.inj hres
  have hh : handle dijkstra cfg n.control (.recv now socket m) = some (c, out₀) := hc
  cases handle_cases hh with
  | refresh hello _ => rw [payload] at hello; cases hello
  | discover hello _ _ => rw [payload] at hello; cases hello
  | stale _ old => exact Or.inl ⟨old, rfl, rfl⟩
  | accept payload' new _ =>
    rw [payload] at payload'
    obtain rfl := Payload.lsTableMsg.inj payload'
    refine Or.inr ⟨new, ?_, rfl⟩
    dsimp only [storeEntry]
    rw [getElem?_insert_eq, if_pos rfl]

end Cases

end Ns3Routing.Ls
