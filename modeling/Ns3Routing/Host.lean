import Ns3Routing.FaultyNetwork

/-! # Pings and the node around a routing protocol

`LSRoutingProtocol`, `DVRoutingProtocol` and `TestApp` keep track of their
pings with the same code: a `PingRequest` for each number, erased when the
response comes in or when it is too old. `Pinger` is that part of them.

The two routing protocols also share the rest of the ping code and the
counter that numbers all their messages. `Control` is what differs, the
handlers of the routing messages; `host` puts the pings around it. -/

namespace Ns3Routing

open Lib

/-- `PingRequest`; the time is in milliseconds. -/
structure PingRequest where
  sequenceNumber : UInt32
  timestamp : ℕ
  destinationAddress : Ipv4Address
  pingMessage : List UInt8
  deriving DecidableEq

/-- `m_pingTimeout` and `m_pingTracker`. -/
structure Pinger where
  pingTimeout : ℕ
  pingTracker : Std.ExtTreeMap UInt32 PingRequest compare

namespace Pinger

def start (pingTimeout : ℕ) : Pinger := ⟨pingTimeout, ∅⟩

def track (pingRequest : PingRequest) (P : Pinger) : Pinger :=
  { P with pingTracker := P.pingTracker.insertIfNew pingRequest.sequenceNumber pingRequest }

/-- A response with this number is accepted. -/
def accepts (P : Pinger) (sequenceNumber : UInt32) : Bool := P.pingTracker.contains sequenceNumber

def settle (sequenceNumber : UInt32) (P : Pinger) : Pinger :=
  if P.accepts sequenceNumber then
    { P with pingTracker := P.pingTracker.erase sequenceNumber }
  else P

/-- `GetTimestamp () + m_pingTimeout <= Simulator::Now ()`. -/
def expired (now : ℕ) (P : Pinger) (pingRequest : PingRequest) : Bool :=
  pingRequest.timestamp + P.pingTimeout ≤ now

def auditPings (now : ℕ) (P : Pinger) : Pinger :=
  { P with pingTracker := P.pingTracker.filter fun _ pingRequest => !P.expired now pingRequest }

end Pinger

/-- A PING_REQ or PING_RSP of a routing protocol. -/
structure PingMessage where
  sequenceNumber : UInt32
  ttl : UInt8
  originatorAddress : Ipv4Address
  destinationAddress : Ipv4Address
  pingMessage : List UInt8
  deriving DecidableEq

inductive HostMessage (M : Type) where
  | control (m : M)
  | pingReq (m : PingMessage)
  | pingRsp (m : PingMessage)
  deriving DecidableEq

/-- The handlers of a routing protocol's own messages, timers and commands,
and its `m_currentSequenceNumber`. -/
structure Control (σ M A : Type) extends Machine σ M A where
  currentSequenceNumber : σ → UInt32
  setSequenceNumber : σ → UInt32 → σ
  current_set : ∀ n q, currentSequenceNumber (setSequenceNumber n q) = q

structure Host (σ : Type) where
  control : σ
  pings : Pinger

inductive HostAct (A : Type) where
  | control (a : A)
  | ping (now : ℕ) (nodeNumber : UInt32) (pingMessage : List UInt8)
  | auditPings (now : ℕ)
  deriving DecidableEq

section Handlers
variable {σ M A : Type} (C : Control σ M A) (cfg : NodeConfig)

/-- Packets of the routing protocol. -/
def controlPackets (out : List (Ipv4Address × M)) : List (Ipv4Address × HostMessage M) :=
  out.map fun x => (x.1, .control x.2)

/-- The command `PING`. -/
def sendPing (now : ℕ) (nodeNumber : UInt32) (pingMessage : List UInt8) (n : Host σ) :
    Host σ × List (Ipv4Address × HostMessage M) :=
  let destAddress := cfg.resolveNodeIpAddress nodeNumber
  if destAddress = Ipv4Address.getAny then (n, [])
  else
    let sequenceNumber := C.currentSequenceNumber n.control
    ({ control := C.setSequenceNumber n.control (sequenceNumber + 1)
       pings := n.pings.track ⟨sequenceNumber, now, destAddress, pingMessage⟩ },
      cfg.broadcastPacket
        (.pingReq ⟨sequenceNumber, cfg.maxTTL, cfg.mainAddress, destAddress, pingMessage⟩))

/-- The response to a request. -/
def pingResponse (m : PingMessage) : PingMessage where
  sequenceNumber := m.sequenceNumber
  ttl := cfg.maxTTL
  originatorAddress := cfg.mainAddress
  destinationAddress := m.originatorAddress
  pingMessage := m.pingMessage

def processPingReq (m : PingMessage) : List (Ipv4Address × HostMessage M) :=
  if cfg.isOwnAddress m.destinationAddress then
    cfg.broadcastPacket (.pingRsp (pingResponse cfg m))
  else []

def processPingRsp (m : PingMessage) (P : Pinger) : Pinger :=
  if cfg.isOwnAddress m.destinationAddress then P.settle m.sequenceNumber else P

/-- The whole node. -/
def host : Machine (Host σ) (HostMessage M) (HostAct A) where
  recv cfg now socket
    | .control m, n => (C.recv cfg now socket m n.control).map fun res =>
        ({ n with control := res.1 }, controlPackets res.2)
    | .pingReq m, n => some (n, processPingReq cfg m)
    | .pingRsp m, n => some ({ n with pings := processPingRsp cfg m n.pings }, [])
  act cfg
    | .control a, n => (C.act cfg a n.control).map fun res =>
        ({ n with control := res.1 }, controlPackets res.2)
    | .ping now nodeNumber pingMessage, n => some (sendPing C cfg now nodeNumber pingMessage n)
    | .auditPings now, n => some ({ n with pings := n.pings.auditPings now }, [])

end Handlers

/-- The part of an event that is for the routing protocol. -/
def NodeEvent.control? {M A : Type} : NodeEvent (HostMessage M) (HostAct A) → Option (NodeEvent M A)
  | .recv now socket (.control m) => some (.recv now socket m)
  | .act (.control a) => some (.act a)
  | _ => none

section Cases
variable {σ M A : Type} {C : Control σ M A} {cfg : NodeConfig} {n n' : Host σ}
  {e : NodeEvent (HostMessage M) (HostAct A)} {out : List (Ipv4Address × HostMessage M)}

/-- What an event does to the routing protocol: one of its own events, or at
most a number is drawn. -/
theorem host_cases (h : (host C).handle cfg n e = some (n', out)) :
    (∃ e₀ out₀, e.control? = some e₀ ∧ C.handle cfg n.control e₀ = some (n'.control, out₀) ∧
      out = controlPackets out₀ ∧ n'.pings = n.pings) ∨
    e.control? = none ∧
      (n'.control = n.control ∨ ∃ q, n'.control = C.setSequenceNumber n.control q) ∧
      ∀ x ∈ out, ∀ m, x.2 ≠ .control m := by
  have broadcasts : ∀ (m : HostMessage M), (∀ m', m ≠ .control m') →
      ∀ x ∈ cfg.broadcastPacket m, ∀ m', x.2 ≠ .control m' := by
    intro m hm x hx m'
    rw [of_mem_broadcastPacket hx]
    exact hm m'
  cases e with
  | recv now socket m =>
    cases m with
    | control m =>
      obtain ⟨⟨c, out₀⟩, hc, hres⟩ := Option.map_eq_some_iff.mp h
      obtain ⟨rfl, rfl⟩ := Prod.mk.inj hres
      exact Or.inl ⟨.recv now socket m, out₀, rfl, hc, rfl, rfl⟩
    | pingReq m =>
      obtain ⟨rfl, rfl⟩ := Prod.mk.inj (Option.some.inj h)
      refine Or.inr ⟨rfl, Or.inl rfl, ?_⟩
      unfold processPingReq
      split
      · exact broadcasts _ fun m' he => by cases he
      · intro x hx; cases hx
    | pingRsp m =>
      obtain ⟨rfl, rfl⟩ := Prod.mk.inj (Option.some.inj h)
      exact Or.inr ⟨rfl, Or.inl rfl, fun x hx => by cases hx⟩
  | act a =>
    cases a with
    | control a =>
      obtain ⟨⟨c, out₀⟩, hc, hres⟩ := Option.map_eq_some_iff.mp h
      obtain ⟨rfl, rfl⟩ := Prod.mk.inj hres
      exact Or.inl ⟨.act a, out₀, rfl, hc, rfl, rfl⟩
    | ping now nodeNumber pingMessage =>
      have h := Option.some.inj h
      unfold sendPing at h
      dsimp only at h
      split at h
      · obtain ⟨rfl, rfl⟩ := Prod.mk.inj h
        exact Or.inr ⟨rfl, Or.inl rfl, fun x hx => by cases hx⟩
      · obtain ⟨rfl, rfl⟩ := Prod.mk.inj h
        exact Or.inr ⟨rfl, Or.inr ⟨_, rfl⟩, broadcasts _ fun m' he => by cases he⟩
    | auditPings now =>
      obtain ⟨rfl, rfl⟩ := Prod.mk.inj (Option.some.inj h)
      exact Or.inr ⟨rfl, Or.inl rfl, fun x hx => by cases hx⟩

theorem of_mem_controlPackets {out₀ : List (Ipv4Address × M)} {x : Ipv4Address × HostMessage M}
    (hx : x ∈ controlPackets out₀) : ∃ m, (x.1, m) ∈ out₀ ∧ x.2 = .control m := by
  obtain ⟨y, hy, rfl⟩ := List.mem_map.mp hx
  exact ⟨y.2, hy, rfl⟩

end Cases

/-- What the routing protocol of one node keeps on events that satisfy `E`. -/
theorem host_keeps_one {M A σ : Type} {C : Control σ M A} {cfg : NodeConfig} {n n' : Host σ}
    {e : NodeEvent (HostMessage M) (HostAct A)} {out : List (Ipv4Address × HostMessage M)}
    {N : σ → Prop} {E : NodeEvent M A → Prop} {P : M → Prop}
    (keep : ∀ n e n' out, N n → E e → C.handle cfg n e = some (n', out) → N n' ∧ ∀ x ∈ out, P x.2)
    (draw : ∀ n q, N n → N (C.setSequenceNumber n q)) (hn : N n.control)
    (he : ∀ e₀, e.control? = some e₀ → E e₀) (h : (host C).handle cfg n e = some (n', out)) :
    N n'.control ∧ ∀ x ∈ out, ∀ m, x.2 = .control m → P m := by
  rcases host_cases h with ⟨e₀, out₀, he₀, hc, rfl, _⟩ | ⟨_, hsame, hout⟩
  · obtain ⟨hn', hP⟩ := keep _ e₀ _ out₀ hn (he e₀ he₀) hc
    refine ⟨hn', fun x hx m hm => ?_⟩
    obtain ⟨m', hm', hxm⟩ := of_mem_controlPackets hx
    rw [hxm] at hm
    obtain rfl := HostMessage.control.inj hm
    exact hP _ hm'
  · refine ⟨?_, fun x hx m hm => absurd hm (hout x hx m)⟩
    rcases hsame with hsame | ⟨q, hsame⟩
    · rw [hsame]; exact hn
    · rw [hsame]; exact draw _ q hn

/-! ## Counting the numbers drawn -/

section Drawn
variable {σ M A : Type} (C : Control σ M A) (cfg : NodeConfig)

/-- How many numbers were drawn between two states, as far as the counter
tells: less than 2^32. -/
def drawn (n n' : Host σ) : ℕ :=
  (C.currentSequenceNumber n'.control - C.currentSequenceNumber n.control).toNat

/-- A step of the node that adds up the numbers drawn. -/
def countedStep (s : Host σ × ℕ) (e : NodeEvent (HostMessage M) (HostAct A)) : Option (Host σ × ℕ) :=
  ((host C).step cfg s.1 e).map fun n' => (n', s.2 + drawn C s.1 n')

variable {C cfg}

theorem current_add_drawn (n n' : Host σ) :
    C.currentSequenceNumber n.control + UInt32.ofNat (drawn C n n') =
      C.currentSequenceNumber n'.control := by
  rw [drawn, UInt32.ofNat_toNat, UInt32.add_comm, UInt32.sub_add_cancel]

/-- The counter is what it started with and the numbers drawn, modulo
2^32. -/
theorem counted_run {n n' : Host σ} {k : ℕ} {es : List (NodeEvent (HostMessage M) (HostAct A))}
    (h : run (countedStep C cfg) (n, 0) es = some (n', k)) :
    C.currentSequenceNumber n'.control = C.currentSequenceNumber n.control + UInt32.ofNat k := by
  refine run_invariant (I := fun s : Host σ × ℕ => C.currentSequenceNumber s.1.control =
    C.currentSequenceNumber n.control + UInt32.ofNat s.2) (by simp) ?_ h
  intro s e s' hs hst
  obtain ⟨n₁, _, rfl⟩ := Option.map_eq_some_iff.mp hst
  rw [← current_add_drawn s.1 n₁, hs, UInt32.add_assoc, ← UInt32.ofNat_add]

end Drawn

/-! ## Invariants of the routing protocol -/

section Invariants
variable {T : Topology} {σ M A : Type} {C : Control σ M A} {N : Fin T.size → σ → Prop}
  {P : Fin T.size → M → Prop}

/-- Messages of the routing protocol satisfy `P`. -/
def OnControl (P : Fin T.size → M → Prop) (i : Fin T.size) : HostMessage M → Prop
  | .control m => P i m
  | .pingReq _ | .pingRsp _ => True

/-- The part of an event that can come to a node can come to its routing
protocol. -/
theorem Arrives.control {i : Fin T.size} {e : NodeEvent (HostMessage M) (HostAct A)}
    {e₀ : NodeEvent M A} (h : Arrives T (OnControl P) i e) (he : e.control? = some e₀) :
    Arrives T P i e₀ := by
  cases e with
  | recv now socket m =>
    cases m with
    | control m =>
      obtain rfl := Option.some.inj he
      exact h
    | pingReq m => cases he
    | pingRsp m => cases he
  | act a =>
    cases a with
    | control a =>
      obtain rfl := Option.some.inj he
      trivial
    | ping _ _ _ => cases he
    | auditPings _ => cases he

/-- What the routing protocols keep and drawing a number keeps, the nodes
keep. -/
theorem host_keeps
    (keep : ∀ i n e n' out, N i n → Arrives T P i e → C.handle (T.config i) n e = some (n', out) →
      N i n' ∧ ∀ x ∈ out, P i x.2)
    (draw : ∀ i n q, N i n → N i (C.setSequenceNumber n q)) (i : Fin T.size) (n : Host σ)
    (e : NodeEvent (HostMessage M) (HostAct A)) (n' : Host σ)
    (out : List (Ipv4Address × HostMessage M)) (hn : N i n.control)
    (ha : Arrives T (OnControl P) i e) (h : (host C).handle (T.config i) n e = some (n', out)) :
    N i n'.control ∧ ∀ x ∈ out, OnControl P i x.2 := by
  obtain ⟨hn', hP⟩ := host_keeps_one (keep i) (draw i) hn (fun e₀ he₀ => ha.control he₀) h
  refine ⟨hn', fun x hx => ?_⟩
  cases hm : x.2 with
  | control m => exact hP x hx m hm
  | pingReq m => trivial
  | pingRsp m => trivial

end Invariants

end Ns3Routing
