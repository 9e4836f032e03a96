import Ns3Routing.Ls.Host

/-! # When a newer announcement replaces an older one

Numbers are drawn from a 32-bit counter that starts anywhere, and
`ProcessLSTableMessage` compares them as they are. An `Exchange` is the run of
an originator, the run of another node that has processed some of its
announcements, and the arrival of a later one there.
`newer_replaces_iff` says when the later one is taken: when its number is
greater than those of the earlier ones after the counter has wrapped. -/

namespace Ns3Routing.Ls

open Lib

abbrev HostEvent := NodeEvent (HostMessage LSMessage) (HostAct Action)

/-- The node as `DoStart` leaves it. -/
def hostStart (sequenceNumber : UInt32) (pingTimeout : ℕ) : Host Node :=
  ⟨doStart sequenceNumber, Pinger.start pingTimeout⟩

section Exchange
variable (dijkstra : NodeConfig → Node → Option RoutingTable)

/-- In its run, the node sends the announcement `m` under the `k`-th number it
draws, counting from 0. -/
def Originated (cfg : NodeConfig) (start : Host Node) (es : List HostEvent) (k : ℕ) (m : LSMessage) :
    Prop :=
  ∃ pre e n drawnBefore n' out j, pre ++ [e] <+: es ∧
    run (countedStep (lsControl dijkstra) cfg) (start, 0) pre = some (n, drawnBefore) ∧
    (lsHost dijkstra).handle cfg n e = some (n', out) ∧ (∃ x ∈ out, x.2 = .control m) ∧
    m.originatorAddress = cfg.mainAddress ∧ (∃ neighborCosts, m.payload = .lsTableMsg neighborCosts) ∧
    j < drawn (lsControl dijkstra) n n' ∧
    m.sequenceNumber = n.control.currentSequenceNumber + UInt32.ofNat j ∧ k = drawnBefore + j

/-- The announcement `m` is among the events. -/
def Processed (es : List HostEvent) (m : LSMessage) : Prop :=
  (∃ neighborCosts, m.payload = .lsTableMsg neighborCosts) ∧
    ∃ now socket, NodeEvent.recv now socket (.control m) ∈ es

/-- `m'` is a copy of `m`, up to the TTL. -/
def Copies (m m' : LSMessage) : Prop := m' = { m with ttl := m'.ttl }

structure Exchange where
  originator : NodeConfig
  receiver : NodeConfig
  other : receiver.reverseLookup originator.mainAddress ≠ receiver.thisNode
  /-- The counter of the originator at the start, and its ping timeout. -/
  sequenceNumber : UInt32
  pingTimeout : ℕ
  /-- The run of the originator, and the later announcement in it. -/
  originating : List HostEvent
  index : ℕ
  announcement : LSMessage
  originated : Originated dijkstra originator (hostStart sequenceNumber pingTimeout) originating index
    announcement
  /-- The run of the receiver so far. Of the originator's announcements it has
  processed earlier ones, and at least one. -/
  receiverStart : UInt32
  receiverTimeout : ℕ
  receiving : List HostEvent
  node : Host Node
  reached : run ((lsHost dijkstra).step receiver) (hostStart receiverStart receiverTimeout) receiving =
    some node
  earlier : ∀ m, Processed receiving m →
    receiver.reverseLookup m.originatorAddress = receiver.reverseLookup originator.mainAddress →
    ∃ k m', k < index ∧ Copies m' m ∧
      Originated dijkstra originator (hostStart sequenceNumber pingTimeout) originating k m'
  some_earlier : ∃ m, Processed receiving m ∧ m.originatorAddress = originator.mainAddress
  /-- The later announcement comes in on a socket. -/
  now : ℕ
  socket : ℕ
  bound : socket ∈ receiver.socketAddresses.map Prod.fst
  copy : LSMessage
  copies : Copies announcement copy
  after : Host Node
  out : List (Ipv4Address × HostMessage LSMessage)
  handled : (lsHost dijkstra).handle receiver node (.recv now socket (.control copy)) =
    some (after, out)

variable {dijkstra}

namespace Exchange

variable (X : Exchange dijkstra)

/-- The entry of the originator becomes the list of the later announcement,
which is sent on. -/
def Replaces : Prop :=
  (∃ entry, X.after.control.lsTable[X.receiver.reverseLookup X.originator.mainAddress]? =
      some entry ∧ X.announcement.payload = .lsTableMsg entry.neighborCosts) ∧
    X.out = controlPackets (X.receiver.broadcastPacket { X.copy with ttl := X.copy.ttl - 1 })

/-- Of the numbers the originator has drawn, those of the announcements the
receiver has processed are still below the later one's after wrapping. -/
def InOrder : Prop :=
  ∀ k m m', Originated dijkstra X.originator (hostStart X.sequenceNumber X.pingTimeout) X.originating
      k m → Processed X.receiving m' → Copies m m' → k < X.index →
    (X.sequenceNumber.toNat + k) % 2 ^ 32 < (X.sequenceNumber.toNat + X.index) % 2 ^ 32

end Exchange

end Exchange

section Originator
variable {dijkstra : NodeConfig → Node → Option RoutingTable} {cfg : NodeConfig}
  {sequenceNumber : UInt32} {pingTimeout k : ℕ} {es : List HostEvent} {m : LSMessage}

/-- The `k`-th number. -/
theorem Originated.number
    (h : Originated dijkstra cfg (hostStart sequenceNumber pingTimeout) es k m) :
    m.sequenceNumber.toNat = (sequenceNumber.toNat + k) % 2 ^ 32 := by
  obtain ⟨pre, e, n, drawnBefore, n', out, j, _, hrun, _, _, _, _, _, hnum, rfl⟩ := h
  have hcounter : n.control.currentSequenceNumber = sequenceNumber + UInt32.ofNat drawnBefore :=
    counted_run hrun
  rw [hnum, hcounter, UInt32.add_assoc, ← UInt32.ofNat_add]
  simp

end Originator

section Receiver
variable {dijkstra : NodeConfig → Node → Option RoutingTable} {cfg : NodeConfig}

/-- What the node holds of another node `K` after the events `es`: the
greatest of the numbers it has processed. -/
structure HoldsGreatest (cfg : NodeConfig) (K : String) (es : List HostEvent) (n : Host Node) :
    Prop where
  keyed : Keyed cfg n.control
  held : ∀ q, heldSeq n.control K = some q → ∃ m, Processed es m ∧
    cfg.reverseLookup m.originatorAddress = K ∧ m.sequenceNumber = q
  greatest : ∀ m, Processed es m → cfg.reverseLookup m.originatorAddress = K →
    ∃ q, heldSeq n.control K = some q ∧ m.sequenceNumber ≤ q

theorem Processed.snoc {es : List HostEvent} {e : HostEvent} {m : LSMessage} (h : Processed es m) :
    Processed (es ++ [e]) m := by
  obtain ⟨payload, now, socket, hm⟩ := h
  exact ⟨payload, now, socket, List.mem_append_left _ hm⟩

theorem processed_snoc {es : List HostEvent} {e : HostEvent} {m : LSMessage}
    (h : Processed (es ++ [e]) m) : Processed es m ∨
      (∃ neighborCosts, m.payload = .lsTableMsg neighborCosts) ∧
        ∃ now socket, e = .recv now socket (.control m) := by
  obtain ⟨payload, now, socket, hm⟩ := h
  rcases List.mem_append.mp hm with hm | hm
  · exact Or.inl ⟨payload, now, socket, hm⟩
  · exact Or.inr ⟨payload, now, socket, (List.mem_singleton.mp hm).symm⟩

theorem HoldsGreatest.step {K : String} (hK : K ≠ cfg.thisNode) {es : List HostEvent}
    {n n' : Host Node} {e : HostEvent} {out : List (Ipv4Address × HostMessage LSMessage)}
    (h : HoldsGreatest cfg K es n) (hh : (lsHost dijkstra).handle cfg n e = some (n', out)) :
    HoldsGreatest cfg K (es ++ [e]) n' := by
  refine ⟨keyed_lsHost h.keyed hh, ?_, ?_⟩
  · intro q hq
    have old : heldSeq n.control K = some q → ∃ m, Processed (es ++ [e]) m ∧
        cfg.reverseLookup m.originatorAddress = K ∧ m.sequenceNumber = q := by
      intro hq
      obtain ⟨m, hm, hname⟩ := h.held q hq
      exact ⟨m, hm.snoc, hname⟩
    rcases lsHost_cases hh with ⟨e₀, out₀, he₀, hh₀, _⟩ | ⟨_, ⟨q', hq'⟩, _⟩
    · rcases (handle_cases hh₀).entry h.keyed hK with
        hsame | ⟨now, socket, m, costs, rfl, payload, hname, _, hentry, _⟩ | ⟨_, _, _, hsame⟩
      · exact old ((heldSeq_congr hsame).symm.trans hq)
      · rw [heldSeq, hentry] at hq
        refine ⟨m, ⟨⟨costs, payload⟩, now, socket, ?_⟩, hname, Option.some.inj hq⟩
        rw [(he₀ now socket m).mpr rfl]
        exact List.mem_append_right _ (List.mem_singleton.mpr rfl)
      · exact old (hsame.symm.trans hq)
    · rw [hq'] at hq
      exact old hq
  · intro m hm hname
    rcases processed_snoc hm with hm | ⟨⟨costs, payload⟩, now, socket, rfl⟩
    · obtain ⟨q, hq, hle⟩ := h.greatest m hm hname
      obtain ⟨q', hq', hle'⟩ := held_mono_lsHost h.keyed hh hq
      exact ⟨q', hq', UInt32.le_trans hle hle'⟩
    · obtain ⟨⟨c, out₀⟩, hc, hres⟩ := Option.map_eq_some_iff.mp hh
      obtain ⟨rfl, rfl⟩ := Prod.mk.inj hres
      have hh₀ : handle dijkstra cfg n.control (.recv now socket m) = some (c, out₀) := hc
      rw [← hname]
      exact (handle_cases hh₀).held_recv payload

theorem holdsGreatest_run {K : String} (hK : K ≠ cfg.thisNode) {sequenceNumber : UInt32}
    {pingTimeout : ℕ} {es : List HostEvent} {n : Host Node}
    (h : run ((lsHost dijkstra).step cfg) (hostStart sequenceNumber pingTimeout) es = some n) :
    HoldsGreatest cfg K es n := by
  induction es using List.reverseRecOn generalizing n with
  | nil =>
    obtain rfl := Option.some.inj h
    refine ⟨?_, ?_, ?_⟩
    · intro K' e he; simp [hostStart, doStart] at he
    · intro q hq; simp [hostStart, doStart, heldSeq] at hq
    · intro m hm _
      obtain ⟨_, _, _, hm⟩ := hm
      cases hm
  | append_singleton es e ih =>
    obtain ⟨t, ht, hst⟩ := run_snoc.mp h
    obtain ⟨⟨n', out⟩, hh, rfl⟩ := Option.map_eq_some_iff.mp hst
    exact (ih ht).step hK hh

end Receiver

/-- **A newer announcement replaces an older one** exactly when the numbers
are still in order after wrapping. -/
theorem newer_replaces_iff (dijkstra : NodeConfig → Node → Option RoutingTable)
    (X : Exchange dijkstra) : X.Replaces ↔ X.InOrder := by
  have hg := holdsGreatest_run X.other X.reached
  obtain ⟨_, _, _, _, _, _, _, _, _, _, _, horigin, ⟨costs, payload⟩, _⟩ := X.originated
  have hcopy := X.copies
  have horigin' : X.copy.originatorAddress = X.originator.mainAddress := by
    rw [hcopy]; exact horigin
  have hnumber : X.copy.sequenceNumber.toNat =
      (X.sequenceNumber.toNat + X.index) % 2 ^ 32 := by
    rw [hcopy]; exact X.originated.number
  have payload' : X.copy.payload = .lsTableMsg costs := by rw [hcopy]; exact payload
  -- what was processed of the originator, by number
  have processed : ∀ k m m', Originated dijkstra X.originator
      (hostStart X.sequenceNumber X.pingTimeout) X.originating k m → Copies m m' →
      m'.sequenceNumber.toNat = (X.sequenceNumber.toNat + k) % 2 ^ 32 := by
    intro k m m' ho hc
    rw [hc]; exact ho.number
  rcases lsHost_recv_announcement payload' X.handled with ⟨old, hsame, hout⟩ | ⟨new, hentry, hout⟩
  · -- dropped: the number held is that of an earlier announcement
    refine iff_of_false ?_ ?_
    · intro ⟨_, hrelay⟩
      rw [hout, controlPackets, NodeConfig.broadcastPacket] at hrelay
      have hnil : X.receiver.socketAddresses = [] := by simpa using hrelay.symm
      have hbound := X.bound
      rw [hnil] at hbound
      cases hbound
    · intro hord
      rw [horigin', ← Bool.not_eq_true, isNew_iff] at old
      push Not at old
      obtain ⟨q, hq, hle⟩ := old
      obtain ⟨m, hm, hname, rfl⟩ := hg.held q hq
      obtain ⟨k, m', hk, hc, ho⟩ := X.earlier m hm hname
      have hlt := hord k m' m ho hm hc hk
      rw [← processed k m' m ho hc, ← hnumber] at hlt
      exact hle (UInt32.lt_iff_toNat_lt.mpr hlt)
  · refine iff_of_true ⟨⟨_, horigin' ▸ hentry, payload⟩, hout⟩ ?_
    intro k m m' ho hm hc _
    rw [← processed k m m' ho hc, ← hnumber, ← UInt32.lt_iff_toNat_lt]
    have hname : m'.originatorAddress = X.originator.mainAddress := by
      obtain ⟨_, _, _, _, _, _, _, _, _, _, _, h, _⟩ := ho
      rw [hc]; exact h
    obtain ⟨q, hq, hle⟩ := hg.greatest m' hm (by rw [hname])
    rw [horigin'] at new
    exact UInt32.lt_of_le_of_lt hle (isNew_iff.mp new q hq)

/-! ## A counter that wraps -/

/-- Node 1 of the sample network. -/
def originatorConfig : NodeConfig :=
  { sampleConfig with
    mainAddress := 20
    socketAddresses := [(0, 20)] }

/-- Node 1 announces twice; between the announcements it hears node 0. -/
def announcesTwice : List HostEvent :=
  [.act (.control .lsTableMsg), .recv 1 0 (.control ⟨5, 1, 10, .helloReq 10 "hello"⟩)]

def announcement₁ : LSMessage := ⟨0xFFFFFFFF, 16, 20, .lsTableMsg []⟩

def announcement₂ : LSMessage := ⟨0, 16, 20, .lsTableMsg [(10, 1)]⟩

/-- Node 0 hears node 1 and gets its first announcement. -/
def getsFirst : List HostEvent :=
  [.recv 1 0 (.control ⟨0xFFFFFFFE, 1, 20, .helloReq 10 "hello"⟩), .recv 2 0 (.control announcement₁)]

/-- An announcement in the output of an event of a given run. -/
theorem originated_of_run {dijkstra : NodeConfig → Node → Option RoutingTable} {cfg : NodeConfig}
    {start : Host Node} {pre es : List HostEvent} {e : HostEvent} {m : LSMessage}
    {drawnBefore drawnNow j : ℕ} {counter : UInt32} {msgs : List (HostMessage LSMessage)}
    (hpre : pre ++ [e] <+: es)
    (hrun : ((run (countedStep (lsControl dijkstra) cfg) (start, 0) pre).bind fun s =>
      ((lsHost dijkstra).handle cfg s.1 e).map fun res =>
        (s.2, drawn (lsControl dijkstra) s.1 res.1, s.1.control.currentSequenceNumber,
          res.2.map Prod.snd)) = some (drawnBefore, drawnNow, counter, msgs))
    (hm : .control m ∈ msgs) (horigin : m.originatorAddress = cfg.mainAddress)
    (payload : ∃ neighborCosts, m.payload = .lsTableMsg neighborCosts) (hj : j < drawnNow)
    (hnum : m.sequenceNumber = counter + UInt32.ofNat j) :
    Originated dijkstra cfg start es (drawnBefore + j) m := by
  obtain ⟨⟨n, d⟩, hn, hrun⟩ := Option.bind_eq_some_iff.mp hrun
  obtain ⟨⟨n', out⟩, hh, hres⟩ := Option.map_eq_some_iff.mp hrun
  simp only [Prod.mk.injEq] at hres
  obtain ⟨rfl, rfl, rfl, rfl⟩ := hres
  exact ⟨pre, e, n, d, n', out, j, hpre, hn, hh, List.mem_map.mp hm, horigin, payload, hj, hnum, rfl⟩

theorem announcement₁_originated : Originated dijkstra originatorConfig (hostStart 0xFFFFFFFF 2000)
    announcesTwice 0 announcement₁ := by
  have hrun : ((run (countedStep (lsControl dijkstra) originatorConfig)
      (hostStart 0xFFFFFFFF 2000, 0) []).bind fun s =>
      ((lsHost dijkstra).handle originatorConfig s.1 (.act (.control .lsTableMsg))).map fun res =>
        (s.2, drawn (lsControl dijkstra) s.1 res.1, s.1.control.currentSequenceNumber,
          res.2.map Prod.snd)) = some (0, 1, 0xFFFFFFFF, [.control announcement₁]) := by
    decide +kernel
  exact originated_of_run (j := 0) (List.prefix_append _ _) hrun (by simp) rfl ⟨_, rfl⟩ Nat.one_pos
    rfl

theorem announcement₂_originated : Originated dijkstra originatorConfig (hostStart 0xFFFFFFFF 2000)
    announcesTwice 1 announcement₂ := by
  have hrun : ((run (countedStep (lsControl dijkstra) originatorConfig)
      (hostStart 0xFFFFFFFF 2000, 0) [.act (.control .lsTableMsg)]).bind fun s =>
      ((lsHost dijkstra).handle originatorConfig s.1
        (.recv 1 0 (.control ⟨5, 1, 10, .helloReq 10 "hello"⟩))).map fun res =>
        (s.2, drawn (lsControl dijkstra) s.1 res.1, s.1.control.currentSequenceNumber,
          res.2.map Prod.snd)) = some (1, 1, 0, [.control announcement₂]) := by
    decide +kernel
  exact originated_of_run (j := 0) (List.prefix_refl _) hrun (by simp) rfl ⟨_, rfl⟩ Nat.one_pos rfl

/-- Node 1 starts with the last number there is: node 0 drops its second
announcement. -/
theorem wrapped_not_replaced : ¬ ∀ X : Exchange dijkstra, X.Replaces := by
  intro h
  have hrun : ((run ((lsHost dijkstra).step sampleConfig) (hostStart 100 2000) getsFirst).bind
      fun n => ((lsHost dijkstra).handle sampleConfig n (.recv 3 0 (.control announcement₂))).map
        fun res => res.2.length) = some 0 := by decide +kernel
  obtain ⟨n, hn, hrun⟩ := Option.bind_eq_some_iff.mp hrun
  obtain ⟨⟨n', out⟩, hh, hlen⟩ := Option.map_eq_some_iff.mp hrun
  have hX := h
    { originator := originatorConfig
      receiver := sampleConfig
      other := by decide +kernel
      sequenceNumber := 0xFFFFFFFF
      pingTimeout := 2000
      originating := announcesTwice
      index := 1
      announcement := announcement₂
      originated := announcement₂_originated
      receiverStart := 100
      receiverTimeout := 2000
      receiving := getsFirst
      node := n
      reached := hn
      earlier := by
        intro m ⟨⟨costs, payload⟩, now, socket, hm⟩ _
        refine ⟨0, announcement₁, Nat.one_pos, ?_, announcement₁_originated⟩
        simp only [getsFirst, List.mem_cons, List.not_mem_nil, or_false, NodeEvent.recv.injEq,
          HostMessage.control.injEq] at hm
        rcases hm with ⟨_, _, rfl⟩ | ⟨_, _, rfl⟩
        · cases payload
        · rfl
      some_earlier := ⟨announcement₁, ⟨⟨_, rfl⟩, 2, 0, by simp [getsFirst]⟩, rfl⟩
      now := 3
      socket := 0
      bound := by decide
      copy := announcement₂
      copies := rfl
      after := n'
      out := out
      handled := hh }
  have hout : out = controlPackets (sampleConfig.broadcastPacket _) := hX.2
  rw [hout] at hlen
  cases hlen

end Ns3Routing.Ls
