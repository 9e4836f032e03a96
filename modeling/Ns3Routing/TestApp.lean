import Ns3Routing.Codec
import Ns3Routing.Dv.Host
import Ns3Routing.Ls.Host
import Ns3Routing.Pings

/-! # The test application

`TestApp` pings over UDP: its datagrams go to addresses, whichever way the
routing protocols send them, and a response goes to the address the request
came from. Datagrams get lost, duplicated and reordered.

The pings of its networks are matched end to end, like those of the two
routing protocols: `pings_matched` is about all three. Messages come out of
packets as they went in: a text that is too long for its length field is too
long for a datagram, and is not sent. -/

namespace Ns3Routing.TestApp

open Lib Codec

/-- The state of a `TestApp` that was started. -/
structure App where
  currentTransactionId : UInt32
  pings : Pinger
  trafficSet : Std.ExtTreeSet UInt32 compare
  trafficRunning : Bool

/-- Messages with the addresses they are sent to. -/
abbrev Packets := List (Ipv4Address × TestAppMessage)

/-- The state after the constructor; the first id was drawn at random. -/
def start (transactionId : UInt32) (pingTimeout : ℕ) : App where
  currentTransactionId := transactionId
  pings := Pinger.start pingTimeout
  trafficSet := ∅
  trafficRunning := false

/-- `PING` and `TRAFFIC`, each for one node or for `*`. A command with too few
tokens is only logged. -/
inductive Command where
  | ping (nodeNumber : UInt32) (pingMessage : Text)
  | pingAll (pingMessage : Text)
  | startTraffic (nodeNumber : UInt32)
  | startTrafficAll
  | stopTraffic (nodeNumber : UInt32)
  | stopTrafficAll
  deriving DecidableEq

section Handlers
variable (cfg : NodeConfig)

def sendPing (now : ℕ) (pingMessage : Text) (nodeNumber : UInt32) (a : App) : App × Packets :=
  let destAddress := cfg.resolveNodeIpAddress nodeNumber
  if destAddress = Ipv4Address.getAny then (a, [])
  else
    let transactionId := a.currentTransactionId
    ({ a with
       currentTransactionId := transactionId + 1
       pings := a.pings.track ⟨transactionId, now, destAddress, pingMessage⟩ },
      [(destAddress, ⟨transactionId, .pingReq pingMessage⟩)])

/-- `SendPing` in a loop. -/
def sendPings (now : ℕ) (pingMessage : Text) : List UInt32 → App → App × Packets
  | [], a => (a, [])
  | nodeNumber :: rest, a =>
    let (a, sent) := sendPing cfg now pingMessage nodeNumber a
    let (a, more) := sendPings now pingMessage rest a
    (a, sent ++ more)

def startTraffic (nodeNumber : UInt32) (a : App) : App :=
  if cfg.resolveNodeIpAddress nodeNumber = Ipv4Address.getAny then a
  else { a with trafficSet := a.trafficSet.insert nodeNumber, trafficRunning := true }

/-- `m_trafficRunning` is cleared when there is still traffic. -/
def stopTraffic (nodeNumber : UInt32) (a : App) : App :=
  if nodeNumber ∈ a.trafficSet then
    let trafficSet := a.trafficSet.erase nodeNumber
    { a with
      trafficSet
      trafficRunning := if trafficSet.size ≠ 0 then false else a.trafficRunning }
  else a

def trafficMsg : Text := "****TRAFFIC_MSG****".toList.map fun c => UInt8.ofNat c.toNat

/-- The nodes `SendTraffic` pings. -/
def trafficNodes (a : App) : List UInt32 := if a.trafficRunning then a.trafficSet.toList else []

/-- The nodes a command pings, and with what text. -/
def pingedNodes : Command → List UInt32 × Text
  | .ping nodeNumber pingMessage => ([nodeNumber], pingMessage)
  | .pingAll pingMessage => (cfg.nodeAddressMap.keys, pingMessage)
  | .startTraffic _ | .startTrafficAll | .stopTraffic _ | .stopTrafficAll => ([], [])

def processCommand (now : ℕ) (c : Command) (a : App) : App × Packets :=
  match c with
  | .ping _ _ | .pingAll _ =>
    let (nodes, pingMessage) := pingedNodes cfg c
    sendPings cfg now pingMessage nodes a
  | .startTraffic nodeNumber => (startTraffic cfg nodeNumber a, [])
  | .startTrafficAll => (cfg.nodeAddressMap.keys.foldl (fun a k => startTraffic cfg k a) a, [])
  | .stopTraffic nodeNumber => (stopTraffic nodeNumber a, [])
  | .stopTrafficAll => (cfg.nodeAddressMap.keys.foldl (fun a k => stopTraffic k a) a, [])

def sendTraffic (now : ℕ) (a : App) : App × Packets :=
  sendPings cfg now trafficMsg (trafficNodes a) a

end Handlers

/-- `RecvMessage`, with `ProcessPingReq` and `ProcessPingRsp`. -/
def recvMessage (message : TestAppMessage) (sourceAddress : Ipv4Address) (a : App) :
    App × Packets :=
  match message.payload with
  | .pingReq pingMessage => (a, [(sourceAddress, ⟨message.transactionId, .pingRsp pingMessage⟩)])
  | .pingRsp _ => ({ a with pings := a.pings.settle message.transactionId }, [])

def auditPings (now : ℕ) (a : App) : App := { a with pings := a.pings.auditPings now }

/-! ## Networks -/

/-- A datagram in flight. -/
structure Datagram (T : Topology) where
  sender : Fin T.size
  destinationAddress : Ipv4Address
  message : TestAppMessage

structure AppNet (T : Topology) where
  app : Fin T.size → App
  flight : List (Datagram T)

/-- What can happen: the `k`-th datagram arrives, gets lost or is duplicated,
or a node gets a command or one of its timers fires. -/
inductive AppLabel (T : Topology) where
  | deliver (k : ℕ) (sourceAddress : Ipv4Address)
  | lose (k : ℕ)
  | duplicate (k : ℕ)
  | command (i : Fin T.size) (now : ℕ) (c : Command)
  | sendTraffic (i : Fin T.size) (now : ℕ)
  | auditPings (i : Fin T.size) (now : ℕ)

variable {T : Topology}

/-- The node a datagram of node `i` to an address arrives at: the owner of the
address, or node `i` itself when it is the loopback address. -/
def receiver (T : Topology) (i : Fin T.size) (a : Ipv4Address) : Option (Fin T.size) :=
  if a = Ipv4Address.getLoopback then some i
  else (List.finRange T.size).find? fun k => (T.config k).isOwnAddress a

/-- A datagram of node `i` can come to node `k` with this source address: one
of an interface of node `i`, or the loopback address within a node. -/
def sourceOf (T : Topology) (i k : Fin T.size) (a : Ipv4Address) : Bool :=
  if a = Ipv4Address.getLoopback then i = k else (T.config i).isOwnAddress a

def AppNet.apply (s : AppNet T) (i : Fin T.size) (res : App × Packets) : AppNet T where
  app := Function.update s.app i res.1
  flight := s.flight ++ res.2.map fun x => ⟨i, x.1, x.2⟩

/-- The datagram a label delivers, with the node it arrives at. -/
def delivered (s : AppNet T) (k : ℕ) (sourceAddress : Ipv4Address) :
    Option (Datagram T × Fin T.size) :=
  match s.flight[k]? with
  | some d =>
    match receiver T d.sender d.destinationAddress with
    | some j => if sourceOf T d.sender j sourceAddress then some (d, j) else none
    | none => none
  | none => none

/-- A label that does not apply changes nothing. -/
def appStep (s : AppNet T) : AppLabel T → Option (AppNet T)
  | .deliver k sourceAddress =>
    match delivered s k sourceAddress with
    | some (d, j) =>
      some ({ s with flight := s.flight.eraseIdx k }.apply j
        (recvMessage d.message sourceAddress (s.app j)))
    | none => some s
  | .lose k => some { s with flight := s.flight.eraseIdx k }
  | .duplicate k => some { s with flight := s.flight ++ s.flight[k]?.toList }
  | .command i now c => some (s.apply i (processCommand (T.config i) now c (s.app i)))
  | .sendTraffic i now => some (s.apply i (sendTraffic (T.config i) now (s.app i)))
  | .auditPings i now =>
    some { s with app := Function.update s.app i (auditPings now (s.app i)) }

/-- Every node has started its application. -/
def appsStart (T : Topology) (transactionId : Fin T.size → UInt32) (pingTimeout : Fin T.size → ℕ) :
    AppNet T where
  app i := start (transactionId i) (pingTimeout i)
  flight := []

/-! ## Datagrams as pings -/

/-- The pings of a network. A datagram goes from node to node, as far as there
is a node it can arrive at. -/
def appSystem (T : Topology) (transactionId : Fin T.size → UInt32) (pingTimeout : Fin T.size → ℕ) :
    PingSystem (Fin T.size) (Option (Fin T.size)) where
  owns k e := e = some k
  owns_unique hi hj := Option.some.inj (hi.symm.trans hj)
  reaches i a e := e = receiver T i a
  start := transactionId
  pingTimeout := pingTimeout

abbrev AppEvent (T : Topology) := PingEvent (Fin T.size) (Option (Fin T.size))

def Datagram.ping (d : Datagram T) : Ping (Option (Fin T.size)) where
  sequenceNumber := d.message.transactionId
  source := some d.sender
  destination := receiver T d.sender d.destinationAddress
  pingMessage := d.message.payload.pingMessage

/-- Node `i` sends these requests. -/
def issueEvents (i : Fin T.size) (now : ℕ) (sent : Packets) : List (AppEvent T) :=
  sent.map fun x => .issue i ⟨x.2.transactionId, now, x.1, x.2.payload.pingMessage⟩
    (Datagram.ping ⟨i, x.1, x.2⟩)

/-- What node `j` does with a datagram. -/
def recvEvents (d : Datagram T) (j : Fin T.size) (sourceAddress : Ipv4Address) (a : App) :
    List (AppEvent T) :=
  match d.message.payload with
  | .pingReq _ => (recvMessage d.message sourceAddress a).2.map fun x =>
      .answer j d.ping (Datagram.ping ⟨j, x.1, x.2⟩)
  | .pingRsp _ => if a.pings.accepts d.message.transactionId then [.accept j d.ping] else []

def appEvents (s : AppNet T) : AppLabel T → List (AppEvent T)
  | .deliver k sourceAddress =>
    match delivered s k sourceAddress with
    | some (d, j) => recvEvents d j sourceAddress (s.app j)
    | none => []
  | .command i now c => issueEvents i now (processCommand (T.config i) now c (s.app i)).2
  | .sendTraffic i now => issueEvents i now (sendTraffic (T.config i) now (s.app i)).2
  | .auditPings i now => [.audit i now]
  | .lose _ | .duplicate _ => []

/-! ## Addresses -/

theorem receiver_self (i : Fin T.size) : receiver T i Ipv4Address.getLoopback = some i := if_pos rfl

theorem receiver_eq_some {i k : Fin T.size} {a : Ipv4Address} (ha : a ≠ Ipv4Address.getLoopback) :
    receiver T i a = some k ↔ (T.config k).isOwnAddress a = true := by
  unfold receiver
  rw [if_neg ha]
  constructor
  · exact List.find?_some
  · intro hk
    cases hfind : (List.finRange T.size).find? fun k => (T.config k).isOwnAddress a with
    | none =>
      have := List.find?_eq_none.mp hfind k (List.mem_finRange k)
      exact absurd hk this
    | some k' =>
      have hown := List.find?_some hfind
      have hk' : T.Owns k' a := Or.inr hown
      rw [hk'.unique (Or.inr hk)]

/-- A response to where a request came from arrives at the node that has sent
the request. -/
theorem receiver_source {i k : Fin T.size} {a : Ipv4Address} (h : sourceOf T i k a = true) :
    receiver T k a = some i := by
  unfold sourceOf at h
  split at h
  · rename_i ha
    rw [ha, receiver_self, of_decide_eq_true h]
  · rename_i ha
    exact (receiver_eq_some ha).mpr h

theorem delivered_eq_some {s : AppNet T} {k : ℕ} {sourceAddress : Ipv4Address} {d : Datagram T}
    {j : Fin T.size} (h : delivered s k sourceAddress = some (d, j)) :
    d ∈ s.flight ∧ receiver T d.sender d.destinationAddress = some j ∧
      receiver T j sourceAddress = some d.sender := by
  unfold delivered at h
  split at h
  · rename_i d' hd
    split at h
    · rename_i j' hj
      split at h
      · rename_i hsource
        obtain ⟨rfl, rfl⟩ := Prod.mk.inj (Option.some.inj h)
        exact ⟨List.mem_of_getElem? hd, hj, receiver_source hsource⟩
      · cases h
    · cases h
  · cases h

/-! ## Books -/

section Books
variable {transactionId : Fin T.size → UInt32} {pingTimeout : Fin T.size → ℕ}
  {app : Fin T.size → App} {i : Fin T.size} {log : List (AppEvent T)}

/-- The log is about these applications. -/
abbrev AppsBooks (T : Topology) (transactionId : Fin T.size → UInt32) (pingTimeout : Fin T.size → ℕ)
    (app : Fin T.size → App) (log : List (AppEvent T)) : Prop :=
  (appSystem T transactionId pingTimeout).Books (fun j => (app j).pings)
    (fun j => (app j).currentTransactionId) log

theorem pings_update (a : App) (j : Fin T.size) (hj : j ≠ i) :
    (Function.update app i a j).pings = (app j).pings := by
  rw [Function.update_of_ne hj]

theorem transactionId_update (a : App) (j : Fin T.size) (hj : j ≠ i) :
    (Function.update app i a j).currentTransactionId = (app j).currentTransactionId := by
  rw [Function.update_of_ne hj]

/-- An application that keeps its tracker and its counter. -/
theorem AppsBooks.quiet (h : AppsBooks T transactionId pingTimeout app log) {a : App}
    (hp : a.pings = (app i).pings) (hc : a.currentTransactionId = (app i).currentTransactionId) :
    AppsBooks T transactionId pingTimeout (Function.update app i a) log := by
  refine h.congr (fun j => ?_) fun j => ?_
  · by_cases hj : j = i
    · rw [hj, Function.update_self, hp]
    · exact pings_update a j hj
  · by_cases hj : j = i
    · rw [hj, Function.update_self, hc]
    · exact transactionId_update a j hj

theorem AppsBooks.sendPing (h : AppsBooks T transactionId pingTimeout app log) {now : ℕ}
    {pingMessage : Text} {nodeNumber : UInt32} {res : App × Packets}
    (hres : TestApp.sendPing (T.config i) now pingMessage nodeNumber (app i) = res)
    (hdraws : PingSystem.drawsOf i (log ++ issueEvents i now res.2) ≤ 2 ^ 32) :
    AppsBooks T transactionId pingTimeout (Function.update app i res.1)
      (log ++ issueEvents i now res.2) := by
  unfold TestApp.sendPing at hres
  dsimp only at hres
  split at hres
  · subst hres
    simpa [issueEvents] using h
  · subst hres
    have hlt : PingSystem.drawsOf i log < 2 ^ 32 := by
      simp only [issueEvents, List.map_cons, List.map_nil, PingSystem.drawsOf_append,
        PingSystem.drawsOf_singleton, PingEvent.draws, if_true] at hdraws
      omega
    refine h.issue (pings_update _) (transactionId_update _) hlt ?_ ?_ rfl rfl rfl rfl rfl
    · simp only [Function.update_self, TestAppPayload.pingMessage]
    · simp only [Function.update_self]

/-- **A loop over `SendPing` keeps the books.** -/
theorem AppsBooks.sendPings (h : AppsBooks T transactionId pingTimeout app log) {now : ℕ}
    {pingMessage : Text} {nodes : List UInt32} {res : App × Packets}
    (hres : TestApp.sendPings (T.config i) now pingMessage nodes (app i) = res)
    (hdraws : PingSystem.drawsOf i (log ++ issueEvents i now res.2) ≤ 2 ^ 32) :
    AppsBooks T transactionId pingTimeout (Function.update app i res.1)
      (log ++ issueEvents i now res.2) := by
  induction nodes generalizing app log res with
  | nil =>
    subst hres
    simpa [TestApp.sendPings, issueEvents] using h
  | cons nodeNumber nodes ih =>
    subst hres
    -- the first ping, then the others from the state it leaves
    generalize hone : TestApp.sendPing (T.config i) now pingMessage nodeNumber (app i) = one at *
    generalize hmore : TestApp.sendPings (T.config i) now pingMessage nodes one.1 = more at *
    simp only [TestApp.sendPings, hone, hmore, issueEvents, List.map_append] at hdraws ⊢
    rw [← List.append_assoc] at hdraws ⊢
    have hfirst : PingSystem.drawsOf i (log ++ issueEvents i now one.2) ≤ 2 ^ 32 := by
      rw [PingSystem.drawsOf_append] at hdraws
      exact le_trans (Nat.le_add_right _ _) hdraws
    have hloop : TestApp.sendPings (T.config i) now pingMessage nodes
        (Function.update app i one.1 i) = more := by
      rw [Function.update_self, hmore]
    have hrest := ih (h.sendPing hone hfirst) hloop hdraws
    rwa [Function.update_idem] at hrest

end Books

/-! ## What applications send -/

theorem sendPings_sent {cfg : NodeConfig} {now : ℕ} {pingMessage : Text} {nodes : List UInt32}
    {a : App} :
    ∀ x ∈ (sendPings cfg now pingMessage nodes a).2, x.2.payload = .pingReq pingMessage := by
  induction nodes generalizing a with
  | nil => simp [sendPings]
  | cons nodeNumber nodes ih =>
    intro x hx
    simp only [sendPings, List.mem_append] at hx
    rcases hx with hx | hx
    · unfold sendPing at hx
      dsimp only at hx
      split at hx
      · cases hx
      · rw [List.mem_singleton.mp hx]
    · exact ih x hx

theorem startTraffic_quiet (cfg : NodeConfig) (nodeNumber : UInt32) (a : App) :
    (startTraffic cfg nodeNumber a).pings = a.pings ∧
      (startTraffic cfg nodeNumber a).currentTransactionId = a.currentTransactionId := by
  unfold startTraffic
  split
  · exact ⟨rfl, rfl⟩
  · exact ⟨rfl, rfl⟩

theorem stopTraffic_quiet (nodeNumber : UInt32) (a : App) :
    (stopTraffic nodeNumber a).pings = a.pings ∧
      (stopTraffic nodeNumber a).currentTransactionId = a.currentTransactionId := by
  unfold stopTraffic
  split
  · exact ⟨rfl, rfl⟩
  · exact ⟨rfl, rfl⟩

theorem foldl_quiet {f : App → UInt32 → App}
    (hf : ∀ a k, (f a k).pings = a.pings ∧ (f a k).currentTransactionId = a.currentTransactionId)
    (nodes : List UInt32) (a : App) : (nodes.foldl f a).pings = a.pings ∧
      (nodes.foldl f a).currentTransactionId = a.currentTransactionId := by
  induction nodes generalizing a with
  | nil => exact ⟨rfl, rfl⟩
  | cons k nodes ih =>
    obtain ⟨hp, hc⟩ := ih (f a k)
    rw [List.foldl_cons, hp, hc]
    exact hf a k

/-- A command pings some nodes, or leaves the pings alone. -/
theorem processCommand_cases (cfg : NodeConfig) (now : ℕ) (c : Command) (a : App) :
    (∃ nodes pingMessage, processCommand cfg now c a = sendPings cfg now pingMessage nodes a) ∨
      (processCommand cfg now c a).2 = [] ∧ (processCommand cfg now c a).1.pings = a.pings ∧
        (processCommand cfg now c a).1.currentTransactionId = a.currentTransactionId := by
  cases c with
  | ping nodeNumber pingMessage => exact Or.inl ⟨_, _, rfl⟩
  | pingAll pingMessage => exact Or.inl ⟨_, _, rfl⟩
  | startTraffic nodeNumber => exact Or.inr ⟨rfl, startTraffic_quiet cfg nodeNumber a⟩
  | startTrafficAll => exact Or.inr ⟨rfl, foldl_quiet (fun a k => startTraffic_quiet cfg k a) _ a⟩
  | stopTraffic nodeNumber => exact Or.inr ⟨rfl, stopTraffic_quiet nodeNumber a⟩
  | stopTrafficAll => exact Or.inr ⟨rfl, foldl_quiet (fun a k => stopTraffic_quiet k a) _ a⟩

/-! ## The whole network -/

/-- What a datagram in flight is in the log. -/
def Datagram.Logged (d : Datagram T) (log : List (AppEvent T)) : Prop :=
  match d.message.payload with
  | .pingReq _ => ∃ r, .issue d.sender r d.ping ∈ log
  | .pingRsp _ => ∃ req, .answer d.sender req d.ping ∈ log

theorem Datagram.Logged.mono {d : Datagram T} {log log' : List (AppEvent T)} (h : d.Logged log)
    (hsub : ∀ e ∈ log, e ∈ log') : d.Logged log' := by
  unfold Datagram.Logged at h ⊢
  split at h
  · exact h.imp fun _ he => hsub _ he
  · exact h.imp fun _ he => hsub _ he

theorem logged_of_sendPings {i : Fin T.size} {now : ℕ} {pingMessage : Text} {nodes : List UInt32}
    {a : App} {x : Ipv4Address × TestAppMessage}
    (hx : x ∈ (sendPings (T.config i) now pingMessage nodes a).2) :
    Datagram.Logged ⟨i, x.1, x.2⟩
      (issueEvents i now (sendPings (T.config i) now pingMessage nodes a).2) := by
  unfold Datagram.Logged
  rw [sendPings_sent x hx]
  exact ⟨_, List.mem_map_of_mem hx⟩

/-- The books of a network: the log is also about everything in flight. -/
structure NetBooks (T : Topology) (transactionId : Fin T.size → UInt32) (pingTimeout : Fin T.size → ℕ)
    (s : AppNet T) (log : List (AppEvent T)) : Prop where
  books : AppsBooks T transactionId pingTimeout s.app log
  flight : ∀ d ∈ s.flight, d.Logged log

section Network
variable {transactionId : Fin T.size → UInt32} {pingTimeout : Fin T.size → ℕ} {s s' : AppNet T}
  {log : List (AppEvent T)}

/-- Node `i` goes on to a new state with new events, and its packets are among
them. -/
theorem NetBooks.apply (h : NetBooks T transactionId pingTimeout s log) {i : Fin T.size}
    {res : App × Packets} {events : List (AppEvent T)}
    (hbooks : AppsBooks T transactionId pingTimeout (Function.update s.app i res.1) (log ++ events))
    (hsent : ∀ x ∈ res.2, Datagram.Logged ⟨i, x.1, x.2⟩ (log ++ events)) :
    NetBooks T transactionId pingTimeout (s.apply i res) (log ++ events) := by
  refine ⟨hbooks, fun d hd => ?_⟩
  rcases List.mem_append.mp hd with hd | hd
  · exact (h.flight d hd).mono fun _ => List.mem_append_left _
  · obtain ⟨x, hx, rfl⟩ := List.mem_map.mp hd
    exact hsent x hx

theorem NetBooks.sendPings (h : NetBooks T transactionId pingTimeout s log) {i : Fin T.size} {now : ℕ}
    {pingMessage : Text} {nodes : List UInt32} {res : App × Packets}
    (hres : TestApp.sendPings (T.config i) now pingMessage nodes (s.app i) = res)
    (hdraws : PingSystem.drawsOf i (log ++ issueEvents i now res.2) ≤ 2 ^ 32) :
    NetBooks T transactionId pingTimeout (s.apply i res) (log ++ issueEvents i now res.2) := by
  refine h.apply (h.books.sendPings hres hdraws) fun x hx => ?_
  subst hres
  exact (logged_of_sendPings hx).mono fun _ => List.mem_append_right _

/-- A datagram arrives. -/
theorem NetBooks.recv (h : NetBooks T transactionId pingTimeout s log) {d : Datagram T}
    {j : Fin T.size} {sourceAddress : Ipv4Address} (hd : d.Logged log)
    (hj : receiver T d.sender d.destinationAddress = some j)
    (hsource : receiver T j sourceAddress = some d.sender) :
    NetBooks T transactionId pingTimeout (s.apply j (recvMessage d.message sourceAddress (s.app j)))
      (log ++ recvEvents d j sourceAddress (s.app j)) := by
  obtain ⟨sender, destinationAddress, ⟨number, payload⟩⟩ := d
  cases payload with
  | pingReq pingMessage =>
    obtain ⟨r, hr⟩ := hd
    refine h.apply ?_ fun x hx => ?_
    · refine h.books.answer (pings_update _) (transactionId_update _) ?_ ?_ ⟨sender, r, hr⟩ hj
        ⟨rfl, hsource, rfl⟩
      · rw [Function.update_self]; rfl
      · rw [Function.update_self]; rfl
    · obtain rfl := List.mem_singleton.mp hx
      exact ⟨_, List.mem_append_right _ (List.mem_singleton.mpr rfl)⟩
  | pingRsp pingMessage =>
    obtain ⟨req, hreq⟩ := hd
    refine h.apply ?_ fun x hx => by cases hx
    show AppsBooks T transactionId pingTimeout _
      (log ++ if (s.app j).pings.accepts number then _ else _)
    by_cases hacc : (s.app j).pings.accepts number = true
    · rw [if_pos hacc]
      refine h.books.accept (pings_update _) (transactionId_update _) ?_ ?_ ⟨sender, req, hreq⟩ hj hacc
      · rw [Function.update_self]; rfl
      · rw [Function.update_self]; rfl
    · rw [if_neg hacc, List.append_nil]
      refine h.books.quiet ?_ rfl
      exact if_neg hacc

/-- **Every step of the network keeps the books.** -/
theorem NetBooks.step {lab : AppLabel T} (h : NetBooks T transactionId pingTimeout s log)
    (hst : appStep s lab = some s')
    (hdraws : ∀ i, PingSystem.drawsOf i (log ++ appEvents s lab) ≤ 2 ^ 32) :
    NetBooks T transactionId pingTimeout s' (log ++ appEvents s lab) := by
  cases lab with
  | deliver k sourceAddress =>
    simp only [appStep, appEvents] at hst ⊢
    split at hst
    · rename_i d j hd
      obtain rfl := Option.some.inj hst
      obtain ⟨hmem, hj, hsource⟩ := delivered_eq_some hd
      refine NetBooks.recv (s := { s with flight := s.flight.eraseIdx k }) ⟨h.books, fun d' hd' => ?_⟩
        (h.flight d hmem) hj hsource
      exact h.flight d' (List.mem_of_mem_eraseIdx hd')
    · obtain rfl := Option.some.inj hst
      rw [List.append_nil]
      exact h
  | lose k =>
    obtain rfl := Option.some.inj hst
    rw [appEvents, List.append_nil]
    exact ⟨h.books, fun d hd => h.flight d (List.mem_of_mem_eraseIdx hd)⟩
  | duplicate k =>
    obtain rfl := Option.some.inj hst
    rw [appEvents, List.append_nil]
    refine ⟨h.books, fun d hd => ?_⟩
    rcases List.mem_append.mp hd with hd | hd
    · exact h.flight d hd
    · exact h.flight d (List.mem_of_getElem? (Option.mem_toList.mp hd))
  | command i now c =>
    obtain rfl := Option.some.inj hst
    simp only [appEvents] at hdraws ⊢
    rcases processCommand_cases (T.config i) now c (s.app i) with ⟨nodes, pingMessage, hc⟩ |
      ⟨hsent, hp, hc⟩
    · exact h.sendPings hc.symm (hdraws i)
    · refine h.apply ?_ fun x hx => ?_
      · rw [hsent, issueEvents, List.map_nil, List.append_nil]
        exact h.books.quiet hp hc
      · rw [hsent] at hx
        cases hx
  | sendTraffic i now =>
    obtain rfl := Option.some.inj hst
    exact h.sendPings rfl (hdraws i)
  | auditPings i now =>
    obtain rfl := Option.some.inj hst
    refine ⟨?_, fun d hd => (h.flight d hd).mono fun _ => List.mem_append_left _⟩
    refine h.books.audit (pings_update _) (transactionId_update _) ?_ ?_
    · rw [Function.update_self]; rfl
    · rw [Function.update_self]; rfl

/-- **In every run, pings are matched end to end**, as long as no node draws
more than 2^32 ids. -/
theorem apps_endToEnd {labs : List (AppLabel T)}
    (h : run (logged appEvents appStep) (appsStart T transactionId pingTimeout, []) labs =
      some (s, log))
    (hdraws : ∀ i, PingSystem.drawsOf i log ≤ 2 ^ 32) :
    (appSystem T transactionId pingTimeout).EndToEnd (fun i => (s.app i).pings) log := by
  have hbooks : NetBooks T transactionId pingTimeout s log := by
    refine PingSystem.run_keeps (I := NetBooks T transactionId pingTimeout) ?_
      (fun _ _ _ _ hI => hI.step) h hdraws
    refine ⟨PingSystem.Books.start (fun _ => rfl) fun _ => rfl, fun d hd => ?_⟩
    cases hd
  exact hbooks.books.endToEnd hdraws

end Network

/-- **Pings are matched end to end** in networks of link-state nodes, of
distance-vector nodes and of applications. -/
theorem pings_matched (T : Topology) (number : Fin T.size → UInt32) (pingTimeout : Fin T.size → ℕ) :
    (∀ dijkstra labs s log,
      run (logged (pingEvents (Ls.lsControl dijkstra)) (faultyStep (Ls.lsHost dijkstra)))
        (Ls.hostsStart T number pingTimeout, []) labs = some (s, log) →
      (∀ i, PingSystem.drawsOf i log ≤ 2 ^ 32) →
      (hostSystem T number pingTimeout).EndToEnd (fun i => (s.node i).pings) log) ∧
    (∀ labs s log,
      run (logged (pingEvents Dv.dvControl) (faultyStep Dv.dvHost))
        (Dv.hostsStart T number pingTimeout, []) labs = some (s, log) →
      (∀ i, PingSystem.drawsOf i log ≤ 2 ^ 32) →
      (hostSystem T number pingTimeout).EndToEnd (fun i => (s.node i).pings) log) ∧
    ∀ labs s log,
      run (logged appEvents appStep) (appsStart T number pingTimeout, []) labs = some (s, log) →
      (∀ i, PingSystem.drawsOf i log ≤ 2 ^ 32) →
      (appSystem T number pingTimeout).EndToEnd (fun i => (s.app i).pings) log := by
  refine ⟨?_, ?_, ?_⟩
  · intro dijkstra labs s log h hdraws
    exact hosts_endToEnd (fun i => ⟨rfl, rfl⟩) h hdraws
  · intro labs s log h hdraws
    exact hosts_endToEnd (fun i => ⟨rfl, rfl⟩) h hdraws
  · intro labs s log h hdraws
    exact apps_endToEnd h hdraws

/-- Node 0 of the line pings node 1, and the response is duplicated. -/
def linePing (A : Type) : List (FaultyLabel lineTopology (HostAct A)) :=
  [.act (lineNode 0) (.ping 5 1 [104, 105]), .deliver (linePort 0 false) 0 6,
    .duplicate (linePort 0 true) 0, .deliver (linePort 0 true) 0 7, .deliver (linePort 0 true) 0 8,
    .act (lineNode 0) (.auditPings 5000)]

def linePingLog : List (PingEvent (Fin lineTopology.size) Ipv4Address) :=
  [.issue (lineNode 0) ⟨7, 5, 20, [104, 105]⟩ ⟨7, 10, 20, [104, 105]⟩,
    .answer (lineNode 1) ⟨7, 10, 20, [104, 105]⟩ ⟨7, 20, 10, [104, 105]⟩,
    .accept (lineNode 0) ⟨7, 20, 10, [104, 105]⟩, .audit (lineNode 0) 5000]

/-- The same with datagrams. -/
def lineDatagrams : List (AppLabel lineTopology) :=
  [.command (lineNode 0) 5 (.ping 1 [104, 105]), .deliver 0 10, .duplicate 0, .deliver 0 21,
    .deliver 0 20, .auditPings (lineNode 0) 5000]

def lineDatagramLog : List (AppEvent lineTopology) :=
  [.issue (lineNode 0) ⟨7, 5, 20, [104, 105]⟩
      ⟨7, some (lineNode 0), some (lineNode 1), [104, 105]⟩,
    .answer (lineNode 1) ⟨7, some (lineNode 0), some (lineNode 1), [104, 105]⟩
      ⟨7, some (lineNode 1), some (lineNode 0), [104, 105]⟩,
    .accept (lineNode 0) ⟨7, some (lineNode 1), some (lineNode 0), [104, 105]⟩,
    .audit (lineNode 0) 5000]

theorem pings_matched_line :
    (∃ s, run (logged (pingEvents (Ls.lsControl Ls.dijkstra)) (faultyStep (Ls.lsHost Ls.dijkstra)))
        (Ls.hostsStart lineTopology (fun _ => 7) (fun _ => 2000), []) (linePing _) =
          some (s, linePingLog) ∧
      (hostSystem lineTopology (fun _ => 7) fun _ => 2000).EndToEnd (fun i => (s.node i).pings)
        linePingLog) ∧
    (∃ s, run (logged (pingEvents Dv.dvControl) (faultyStep Dv.dvHost))
        (Dv.hostsStart lineTopology (fun _ => 7) (fun _ => 2000), []) (linePing _) =
          some (s, linePingLog) ∧
      (hostSystem lineTopology (fun _ => 7) fun _ => 2000).EndToEnd (fun i => (s.node i).pings)
        linePingLog) ∧
    ∃ s, run (logged appEvents appStep) (appsStart lineTopology (fun _ => 7) (fun _ => 2000), [])
        lineDatagrams = some (s, lineDatagramLog) ∧
      (appSystem lineTopology (fun _ => 7) fun _ => 2000).EndToEnd (fun i => (s.app i).pings)
        lineDatagramLog := by
  obtain ⟨hls, hdv, happ⟩ := pings_matched lineTopology (fun _ => 7) fun _ => 2000
  refine ⟨?_, ?_, ?_⟩
  · have hlog : (run (logged (pingEvents (Ls.lsControl Ls.dijkstra))
        (faultyStep (Ls.lsHost Ls.dijkstra)))
        (Ls.hostsStart lineTopology (fun _ => 7) (fun _ => 2000), []) (linePing _)).map Prod.snd =
          some linePingLog := by decide +kernel
    obtain ⟨⟨s, _⟩, hrun, rfl⟩ := Option.map_eq_some_iff.mp hlog
    exact ⟨s, hrun, hls _ _ s _ hrun (by decide +kernel)⟩
  · have hlog : (run (logged (pingEvents Dv.dvControl) (faultyStep Dv.dvHost))
        (Dv.hostsStart lineTopology (fun _ => 7) (fun _ => 2000), []) (linePing _)).map Prod.snd =
          some linePingLog := by decide +kernel
    obtain ⟨⟨s, _⟩, hrun, rfl⟩ := Option.map_eq_some_iff.mp hlog
    exact ⟨s, hrun, hdv _ s _ hrun (by decide +kernel)⟩
  · have hlog : (run (logged appEvents appStep)
        (appsStart lineTopology (fun _ => 7) (fun _ => 2000), []) lineDatagrams).map Prod.snd =
          some lineDatagramLog := by decide +kernel
    obtain ⟨⟨s, _⟩, hrun, rfl⟩ := Option.map_eq_some_iff.mp hlog
    exact ⟨s, hrun, happ _ s _ hrun (by decide +kernel)⟩

end Ns3Routing.TestApp
