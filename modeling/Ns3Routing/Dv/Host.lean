import Ns3Routing.Host
import Ns3Routing.Dv.Network

/-! # A distance-vector node with its pings

`dvHost` is everything a `DVRoutingProtocol` object does. In a network that
loses, duplicates and reorders, tables and messages still speak about nodes
of the topology (`Reachable.named`). -/

namespace Ns3Routing.Dv

open Lib Ns3Routing.Topology

/-- The hello timer. -/
inductive Action where
  | auditHellos (now : Nat)
  deriving DecidableEq

def dvControl : Control Node DVMessage Action where
  recv := recvDVMessage
  act cfg
    | .auditHellos now, n => auditHellos cfg now n
  currentSequenceNumber n := n.currentSequenceNumber
  setSequenceNumber n q := { n with currentSequenceNumber := q }
  current_set _ _ := rfl

def dvHost : Machine (Host Node) (HostMessage DVMessage) (HostAct Action) := host dvControl

abbrev HostNet (T : Topology) := FaultyNet T (Host Node) (HostMessage DVMessage)

abbrev HostLabel (T : Topology) := FaultyLabel T (HostAct Action)

/-- Nodes as `DoStart` leaves them, with any counters and ping timeouts, and
nothing in flight. -/
def hostsStart (T : Topology) (sequenceNumber : Fin T.size → UInt32) (pingTimeout : Fin T.size → ℕ) :
    HostNet T :=
  .start fun i => ⟨doStart (T.config i) (sequenceNumber i), Pinger.start (pingTimeout i)⟩

/-- The states of the runs of a network of hosts. -/
def Reachable (T : Topology) (s : HostNet T) : Prop :=
  ∃ sequenceNumber pingTimeout labs,
    run (faultyStep dvHost) (hostsStart T sequenceNumber pingTimeout) labs = some s

section Names
variable {T : Topology} {i : Fin T.size} {n n' : Node}

theorem NodeNamed.draw (h : NodeNamed T i n) (q : UInt32) :
    NodeNamed T i { n with currentSequenceNumber := q } :=
  ⟨Inv.same (n := n) ⟨rfl, rfl, rfl, fun _ => rfl⟩ h.inv, h.self, h.dvKeys, h.entry⟩

theorem dvControl_handle {cfg : NodeConfig} {e : NodeEvent DVMessage Action} {out : Packets}
    (h : dvControl.handle cfg n e = some (n', out)) :
    ∃ e₀, handle cfg n e₀ = some (n', out) ∧
      ∀ now socket m, e = .recv now socket m ↔ e₀ = .recv now socket m := by
  cases e with
  | recv now socket m => exact ⟨.recv now socket m, h, by simp⟩
  | act a =>
    cases a with
    | auditHellos now => exact ⟨.auditHellos now, h, by simp⟩

theorem NodeNamed.dvControl {e : NodeEvent DVMessage Action} {out : Packets} (h : NodeNamed T i n)
    (he : Arrives T (MsgFrom T) i e) (hh : dvControl.handle (T.config i) n e = some (n', out)) :
    NodeNamed T i n' ∧ ∀ x ∈ out, MsgFrom T i x.2 := by
  obtain ⟨e₀, hh₀, he₀⟩ := dvControl_handle hh
  have hv : ValidEvent T i e₀ := by
    cases e₀ with
    | recv now socket m =>
      rw [(he₀ now socket m).mpr rfl] at he
      exact he
    | auditHellos now => trivial
  exact ⟨h.handle hv hh₀, h.sends hv hh₀⟩

/-- Tables and messages of a network of hosts speak about nodes of the
topology. -/
abbrev HostsNamed (T : Topology) : HostNet T → Prop :=
  Faulty (fun i n => NodeNamed T i n.control) (OnControl (MsgFrom T))

theorem HostsNamed.step {s s' : HostNet T} {lab : HostLabel T} (h : HostsNamed T s)
    (hst : faultyStep dvHost s lab = some s') : HostsNamed T s' :=
  Faulty.step (host_keeps (fun _ _ _ _ _ => NodeNamed.dvControl) fun _ _ q h => h.draw q) h hst

theorem Reachable.named {s : HostNet T} (h : Reachable T s) : HostsNamed T s := by
  obtain ⟨sequenceNumber, pingTimeout, labs, hrun⟩ := h
  refine run_invariant (I := HostsNamed T) (Faulty.start fun i => ?_) (fun _ _ _ h hst => h.step hst)
    hrun
  exact (NodeNamed.start T i (sequenceNumber i)).draw (sequenceNumber i)

end Names

end Ns3Routing.Dv
