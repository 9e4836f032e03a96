import Ns3Routing.PointToPoint
import Ns3Routing.Timed

/-! # The network in the simulator

The nodes, their devices and their timers, driven by the events of the
simulator. It does what the network with a clock does (`Mirrors`): what a
device carries is the queue of a link end, and what is scheduled for a timer is
when it fires. Between a socket and its device there is only the greatest size
of a datagram: the messages go to the broadcast address of a subnet, for which
`Send` of `Ipv4L3Protocol` asserts nothing about the MTU. -/

namespace Ns3Routing.Sim

open Lib Ns3Routing.Topology

/-! ## Events of one kind -/

section Select
variable {S α β : Type}

def bodyOf (s : DefaultSimulatorImpl S α) (e : Event) : Option α := s.impls[e.impl]?.map (·.notify)

/-- The events of `l` of one kind, in their order. -/
def select (s : DefaultSimulatorImpl S α) (l : List Event) (kind : α → Option β) : List (Event × β) :=
  l.filterMap fun e => (bodyOf s e).bind fun a => (kind a).map (e, ·)

/-- A simulator in which nothing has been cancelled. -/
structure Live (Lists : ℕ → S → List Event → Prop) (s : DefaultSimulatorImpl S α) (l : List Event) :
    Prop where
  simulates : ∃ log, Simulates Lists s l log
  uncancelled : ∀ i ∈ s.impls, i.cancel = false

theorem filterMap_insert_none {f : Event → Option β} {l : List Event} {ev : Event} (h : f ev = none) :
    (ListScheduler.insert l ev).filterMap f = l.filterMap f := by
  induction l with
  | nil => simp [ListScheduler.insert, h]
  | cons i l ih =>
    rw [ListScheduler.insert]
    split
    · simp [h]
    · rw [List.filterMap_cons, List.filterMap_cons, ih]

/-- An event behind all that are selected. -/
theorem filterMap_insert_last {f : Event → Option β} {l : List Event} {ev : Event} {b : β}
    (sorted : l.Pairwise fun x y => x.rank < y.rank) (h : f ev = some b)
    (behind : ∀ e ∈ l, ∀ b, f e = some b → e.rank < ev.rank) :
    (ListScheduler.insert l ev).filterMap f = l.filterMap f ++ [b] := by
  induction l with
  | nil => simp [ListScheduler.insert, h]
  | cons i l ih =>
    obtain ⟨hfirst, hrest⟩ := List.pairwise_cons.mp sorted
    rw [ListScheduler.insert]
    split
    · rename_i hless
      have hlt := less_iff.mp hless
      have hnone : (i :: l).filterMap f = [] := by
        rw [List.filterMap_eq_nil_iff]
        intro e he
        cases hf : f e with
        | none => rfl
        | some b' =>
          have hbefore := behind e he b' hf
          rcases List.mem_cons.mp he with rfl | he
          · exact absurd hbefore (not_lt.mpr hlt.le)
          · exact absurd hbefore (not_lt.mpr (hlt.le.trans (hfirst e he).le))
      rw [List.filterMap_cons, h, hnone]
      rfl
    · rw [List.filterMap_cons, List.filterMap_cons,
        ih hrest fun e he => behind e (List.mem_cons_of_mem _ he)]
      cases f i <;> rfl

variable {K : Scheduler S} {Lists : ℕ → S → List Event → Prop} {s s' : DefaultSimulatorImpl S α}
  {l l' : List Event} {kind : α → Option β}

theorem mem_select {e : Event} {b : β} (h : (e, b) ∈ select s l kind) :
    e ∈ l ∧ ∃ a, bodyOf s e = some a ∧ kind a = some b := by
  obtain ⟨e', he', hb⟩ := List.mem_filterMap.mp h
  obtain ⟨a, ha, hk⟩ := Option.bind_eq_some_iff.mp hb
  obtain ⟨b', hb', heq⟩ := Option.map_eq_some_iff.mp hk
  obtain ⟨rfl, rfl⟩ := Prod.mk.inj heq
  exact ⟨he', a, ha, hb'⟩

theorem select_cons {e : Event} {a : α} (h : bodyOf s e = some a) (kind : α → Option β) :
    select s (e :: l) kind = ((kind a).map (e, ·)).toList ++ select s l kind := by
  rw [select, List.filterMap_cons, h, Option.bind_some]
  cases kind a <;> rfl

/-- After one event more has been scheduled. -/
structure Scheduled (s : DefaultSimulatorImpl S α) (l : List Event) (ts : UInt64) (context : UInt32)
    (a : α) (s' : DefaultSimulatorImpl S α) (l' : List Event) : Prop where
  impls : s'.impls = s.impls ++ [⟨a, false⟩]
  stop : s'.stop = s.stop
  currentTs : s'.currentTs = s.currentTs
  currentUid : s'.currentUid = s.currentUid
  other : ∀ {β : Type} (kind : α → Option β), kind a = none → select s' l' kind = select s l kind
  behind : ∀ {β : Type} (kind : α → Option β) (b : β), kind a = some b →
    (∀ x ∈ select s l kind, x.1.key.ts ≤ ts) →
    select s' l' kind = select s l kind ++ [(nextEvent s ts context, b)]

theorem Live.insert (serves : K.Serves Lists) (h : Live Lists s l) (room : s.impls.length + 5 < 2 ^ 32)
    {ts : UInt64} (hts : s.currentTs ≤ ts) (hbound : ts.toNat < 2 ^ 63) (context : UInt32) (a : α) :
    ∃ s' l', insertEvent K ts context a s = some s' ∧ Live Lists s' l' ∧
      Scheduled s l ts context a s' l' := by
  obtain ⟨log, hsim⟩ := h.simulates
  obtain ⟨s', hs', _, hsim'⟩ := hsim.insert serves room hts hbound context a
  have himpls : s'.impls = s.impls ++ [⟨a, false⟩] ∧ s'.stop = s.stop ∧ s'.currentTs = s.currentTs ∧
      s'.currentUid = s.currentUid := by
    rw [insertEvent] at hs'
    obtain ⟨events, _, hs'⟩ := Option.bind_eq_some_iff.mp hs'
    obtain rfl := Option.some.inj hs'
    exact ⟨rfl, rfl, rfl, rfl⟩
  obtain ⟨himpls, hstop, hnow, huid⟩ := himpls
  have hbody : ∀ e ∈ l, bodyOf s' e = bodyOf s e := fun e he => by
    obtain ⟨event, hs⟩ := ((hsim.consistent.pending e).mp he).scheduled
    rw [bodyOf, bodyOf, himpls, List.getElem?_append_left (hsim.consistent.impl_lt hs)]
  have hnew : bodyOf s' (nextEvent s ts context) = some a := by
    rw [bodyOf, himpls]
    simp [nextEvent]
  have hselect : ∀ {β : Type} (kind : α → Option β), l.filterMap (fun e =>
      (bodyOf s' e).bind fun a => (kind a).map (e, ·)) = select s l kind := fun kind =>
    List.filterMap_congr fun e he => by rw [hbody e he]
  refine ⟨s', _, hs', ⟨⟨_, hsim'⟩, fun i hi => ?_⟩, himpls, hstop, hnow, huid, fun kind hkind => ?_,
    fun kind b hkind hlast => ?_⟩
  · rw [himpls] at hi
    rcases List.mem_append.mp hi with hi | hi
    · exact h.uncancelled i hi
    · rw [List.mem_singleton.mp hi]
  · rw [select, filterMap_insert_none (by rw [hnew, Option.bind_some, hkind]; rfl)]
    exact hselect kind
  · rw [select, filterMap_insert_last hsim.consistent.agenda.sorted
      (by rw [hnew, Option.bind_some, hkind]; rfl) fun e he b' hb' => ?_]
    · rw [hselect kind]
    · rw [hbody e he] at hb'
      have hmem : b' ∈ select s l kind := List.mem_filterMap.mpr ⟨e, he, hb'⟩
      have hfst : b'.1 = e := by
        obtain ⟨a', _, hk⟩ := Option.bind_eq_some_iff.mp hb'
        obtain ⟨_, _, rfl⟩ := Option.map_eq_some_iff.mp hk
        rfl
      have hle := hlast b' hmem
      obtain ⟨event, hs⟩ := ((hsim.consistent.pending e).mp he).scheduled
      have huid := (hsim.consistent.fresh hs ts context).1
      rw [hfst] at hle
      rw [Event.rank, Event.rank, Prod.Lex.toLex_lt_toLex]
      rcases Nat.lt_or_eq_of_le (UInt64.le_iff_toNat_le.mp hle) with hlt | heq
      · exact Or.inl hlt
      · exact Or.inr ⟨heq, UInt32.lt_iff_toNat_lt.mp huid⟩

end Select

/-! ## The program -/

inductive TimerKind where
  | auditPings
  | auditHellos
deriving DecidableEq

/-- What is scheduled. -/
inductive NetEvent (T : Topology) (M : Type) where
  | start (i : Fin T.size)
  | timer (i : Fin T.size) (kind : TimerKind)
  | transmitComplete (p : T.Port)
  | receive (p : T.Port) (m : M)

/-- A routing protocol on devices. -/
structure Program (T : Topology) (σ M A : Type) where
  control : Control σ M A
  auditHellos : ℕ → A
  link : Link M
  pingTimeout : Fin T.size → ℕ

/-- The nodes, their devices, and the `m_event` of their timers. -/
structure World (T : Topology) (σ M : Type) where
  node : Fin T.size → σ
  device : T.Port → NetDevice M
  timer : Fin T.size → TimerKind → EventId

/-- What an event does: to the world, what it schedules, the timers it
schedules in the end, and the messages it hands to sockets. -/
structure Effect (T : Topology) (σ M : Type) where
  world : World T σ M
  calls : List (Call (NetEvent T M))
  timers : List (Fin T.size × TimerKind)
  handed : List M

/-- The device that sends for the address. -/
def portAt (T : Topology) (i : Fin T.size) (a : Ipv4Address) : Option T.Port :=
  ((List.finRange T.links).flatMap fun l => [(l, false), (l, true)]).find? fun p =>
    decide (T.owner p = i ∧ T.address p = a)

section Program
variable {T : Topology} {σ M A : Type} (P : Program T σ M A)

/-- The events of one device. -/
def Program.send (p : T.Port) (m : M) (d : NetDevice M) :
    Option (NetDevice M × List (Call (NetEvent T M))) :=
  Sim.send P.link (.transmitComplete p) (.receive p) (UInt32.ofNat (T.owner (peer p))) m d

def Program.transmitComplete (p : T.Port) (d : NetDevice M) :
    Option (NetDevice M × List (Call (NetEvent T M))) :=
  Sim.transmitComplete P.link (.transmitComplete p) (.receive p) (UInt32.ofNat (T.owner (peer p))) d

/-- What becomes of the packets that a node sends. -/
structure Sent (T : Topology) (M : Type) where
  device : T.Port → NetDevice M
  calls : List (Call (NetEvent T M))
  handed : List M

/-- The packets that node `i` sends, one after the other, each through the
socket of a link end. -/
def Program.sendPackets (i : Fin T.size) : List (Ipv4Address × M) → (T.Port → NetDevice M) →
    Option (Sent T M)
  | [], device => some ⟨device, [], []⟩
  | x :: out, device =>
    match portAt T i x.1 with
    | none => sendPackets i out device
    | some p =>
      if maxIpv4UdpDatagramSize < P.link.size x.2 then
        -- `DoSendTo` returns with ERROR_MSGSIZE
        (sendPackets i out device).map fun sent => { sent with handed := x.2 :: sent.handed }
      else do
        let (d, calls) ← P.send p x.2 (device p)
        let sent ← sendPackets i out (Function.update device p d)
        some { sent with calls := calls ++ sent.calls, handed := x.2 :: sent.handed }

/-- The node goes to a new state, and its packets to its devices. -/
def Program.react (i : Fin T.size) (res : σ × List (Ipv4Address × M))
    (timers : List (Fin T.size × TimerKind))
    (w : World T σ M) : Option (Effect T σ M) :=
  (P.sendPackets i res.2 w.device).map fun sent =>
    ⟨{ w with node := Function.update w.node i res.1, device := sent.device }, sent.calls, timers,
      sent.handed⟩

/-- The body of an event. `AuditPings` does nothing to the routing protocol. -/
def Program.effect (now : ℕ) (w : World T σ M) : NetEvent T M → Option (Effect T σ M)
  | .start i => some ⟨w, [], [(i, .auditPings), (i, .auditHellos)], []⟩
  | .timer i .auditPings => some ⟨w, [], [(i, .auditPings)], []⟩
  | .timer i .auditHellos => do
    let res ← P.control.act (T.config i) (P.auditHellos (getMilliSeconds now)) (w.node i)
    P.react i res [(i, .auditHellos)] w
  | .transmitComplete p =>
    (P.transmitComplete p (w.device p)).map fun res =>
      ⟨{ w with device := Function.update w.device p res.1 }, res.2, [], []⟩
  | .receive p m => do
    let res ← P.control.recv (T.config (T.owner (peer p))) (getMilliSeconds now) (T.socket (peer p)) m
      (w.node (T.owner (peer p)))
    P.react (T.owner (peer p)) res [] w

/-- What a timer is scheduled for. -/
def Program.timerDelay (i : Fin T.size) : TimerKind → ℕ
  | .auditPings => P.pingTimeout i
  | .auditHellos => milliSeconds (T.config i).helloTimeout

def World.setTimer (w : World T σ M) (i : Fin T.size) (kind : TimerKind) (id : EventId) : World T σ M :=
  { w with timer := Function.update w.timer i (Function.update (w.timer i) kind id) }

variable {S : Type} (K : Scheduler S)

/-- `Timer::Schedule`; a timer that still runs is a fatal error. -/
def timerSchedule {α : Type} (delay : ℕ) (event : α) (id : EventId) (s : DefaultSimulatorImpl S α) :
    Option (EventId × DefaultSimulatorImpl S α) := do
  if ← isExpired id s then
    let ts ← absolute delay s
    let s' ← insertEvent K ts s.currentContext event s
    some ((nextEvent s ts s.currentContext).id, s')
  else none

abbrev Running (S : Type) (T : Topology) (σ M : Type) :=
    DefaultSimulatorImpl S (NetEvent T M) × World T σ M

def Program.rearm (st : Running S T σ M) (x : Fin T.size × TimerKind) : Option (Running S T σ M) :=
  (timerSchedule K (P.timerDelay x.1 x.2) (.timer x.1 x.2) (st.2.timer x.1 x.2) st.1).map fun res =>
    (res.2, st.2.setTimer x.1 x.2 res.1)

def Program.perform (s : DefaultSimulatorImpl S (NetEvent T M)) (eff : Effect T σ M) :
    Option (Running S T σ M) := do
  let s ← eff.calls.foldlM (callStep K) s
  eff.timers.foldlM (P.rearm K) (s, eff.world)

/-- One round of the loop of `Run`. -/
def Program.eventStep (st : Running S T σ M) (_ : Unit) : Option (Running S T σ M) :=
  if running K st.1 then do
    let (next, s) ← processOneEvent K st.1
    match invoke next.impl st.1 with
    | none => some (s, st.2)
    | some a => P.perform K s (← P.effect s.currentTs.toNat st.2 a)
  else none

/-- `NodeList::Add` schedules the start of every node. -/
def startEvents (T : Topology) (M : Type) : List (Call (NetEvent T M)) :=
  (List.finRange T.size).map fun i : Fin T.size => .scheduleWithContext (UInt32.ofNat i) 0 (.start i)

def worldStart (node : Fin T.size → σ) : World T σ M where
  node := node
  device _ := NetDevice.attached M
  timer _ _ := ⟨none, 0, 0, 0⟩

/-- Before `Run`. -/
def runningStart (node : Fin T.size → σ) : Option (Running S T σ M) :=
  ((startEvents T M).foldlM (callStep K) (create K (NetEvent T M))).map (·, worldStart node)

end Program

/-! ## What the network with a clock sees of it -/

section Kinds
variable {T : Topology} {M S : Type}

def startKind (i : Fin T.size) : NetEvent T M → Option Unit
  | .start j => if j = i then some () else none
  | _ => none

def timerKind (i : Fin T.size) (kind : TimerKind) : NetEvent T M → Option Unit
  | .timer j kind' => if j = i ∧ kind' = kind then some () else none
  | _ => none

def completeKind (p : T.Port) : NetEvent T M → Option Unit
  | .transmitComplete q => if q = p then some () else none
  | _ => none

def receiveKind (p : T.Port) : NetEvent T M → Option M
  | .receive q m => if q = p then some m else none
  | _ => none

variable (s : DefaultSimulatorImpl S (NetEvent T M)) (l : List Event)

/-- What is to arrive from a device, and when. -/
def arrivals (p : T.Port) : List (ℕ × M) :=
  (select s l (receiveKind p)).map fun x => (x.1.key.ts.toNat, x.2)

/-- When a device completes its transmission. -/
def completions (p : T.Port) : List ℕ :=
  (select s l (completeKind p)).map fun x => x.1.key.ts.toNat

/-- A timer that waits for the start of its node, or is scheduled. -/
inductive TimerSet (i : Fin T.size) (kind : TimerKind) (id : EventId) (due : ℕ) : Prop where
  | start {e : Event} (starts : select s l (startKind i) = [(e, ())]) (ts : e.key.ts = 0)
      (timers : select s l (timerKind i kind) = []) (fresh : id.eventImpl = none)
      (hello : kind = .auditHellos → due = milliSeconds (T.config i).helloTimeout)
  | scheduled {e : Event} (starts : select s l (startKind i) = [])
      (timers : select s l (timerKind i kind) = [(e, ())]) (here : id = e.id)
      (hello : kind = .auditHellos → due = e.key.ts.toNat)

/-- A timer that has expired, and is to be scheduled again. -/
structure TimerIdle (i : Fin T.size) (kind : TimerKind) (id : EventId) : Prop where
  starts : select s l (startKind i) = []
  timers : select s l (timerKind i kind) = []
  expired : id.eventImpl = none ∨ (id.ts = s.currentTs ∧ id.uid = s.currentUid)

end Kinds

/-- The network with a clock that a running simulator is, but for the devices
that are `off` and the timers that are `idle`. -/
structure Mirrors {S σ M : Type} {T : Topology} (L : Link M) (limit W : ℕ) (off : T.Port → Prop)
    (idle : List (Fin T.size × TimerKind)) (s : DefaultSimulatorImpl S (NetEvent T M)) (w : World T σ M)
    (l : List Event) (timed : TimedNet T σ M) : Prop where
  now : timed.now = s.currentTs.toNat
  node : timed.node = w.node
  stop : s.stop = false
  carries : ∀ p, ¬ off p →
    Carries L limit W timed.now (arrivals s l p) (completions s l p) (w.device p) (timed.chan p)
  timers : ∀ i kind, (i, kind) ∉ idle → TimerSet s l i kind (w.timer i kind) (timed.nextAudit i)
  idles : ∀ i kind, (i, kind) ∈ idle → TimerIdle s l i kind (w.timer i kind)

end Ns3Routing.Sim
