import Ns3Routing.Simulator

/-! # Point-to-point devices

A device transmits one packet at a time and keeps the others in a
`DropTailQueue`; the channel delivers what was transmitted a fixed delay later.
`Carries` says of a device that it is a queue of messages with the times they
were sent: they arrive in that order, after the delay of the channel and within
`greatest` of it, however many wait, as long as none is dropped and none has
more than `limit` bytes. -/

namespace Ns3Routing.Sim

/-- `MAX_IPV4_UDP_DATAGRAM_SIZE`: a socket refuses what is longer. -/
def maxIpv4UdpDatagramSize : ℕ := 65507

/-- The attributes of the devices and the channel. `CalculateTxTime` computes
with floating-point numbers, and is any function of the number of bytes
here. -/
structure Attributes where
  calculateTxTime : ℕ → ℕ
  interframeGap : ℕ
  delay : ℕ
  maxPackets : ℕ

/-- Devices for messages of which `size` is what the socket is handed. -/
structure Link (M : Type) extends Attributes where
  size : M → ℕ

/-- The packet has the headers of UDP, IP and PPP in front of the message. -/
def Link.txTime {M : Type} (L : Link M) (m : M) : ℕ := L.calculateTxTime (L.size m + 8 + 20 + 2)

/-- `PointToPointNetDevice`: `m_txMachineState`, `m_currentPkt`, and the queue
with `m_nTotalDroppedPackets`. -/
structure NetDevice (M : Type) where
  busy : Bool
  currentPkt : Option M
  packets : List M
  totalDroppedPackets : ℕ

/-- The device after `Attach`. -/
def NetDevice.attached (M : Type) : NetDevice M := ⟨false, none, [], 0⟩

section Functions
variable {M α : Type} (L : Link M) (completed : α) (receive : M → α) (context : UInt32)

/-- `DropTailQueue::DoEnqueue`, by packets. -/
def enqueue (p : M) (d : NetDevice M) : Bool × NetDevice M :=
  if L.maxPackets ≤ d.packets.length then
    (false, { d with totalDroppedPackets := d.totalDroppedPackets + 1 })
  else (true, { d with packets := d.packets ++ [p] })

/-- What `TransmitStart` schedules, on the device and on the channel. -/
def transmitCalls (p : M) : List (Call α) :=
  [.schedule (L.txTime p + L.interframeGap : ℕ) completed,
    .scheduleWithContext context (L.txTime p + L.delay : ℕ) (receive p)]

/-- `TransmitStart`, which must find the device ready. -/
def transmitStart (p : M) (d : NetDevice M) : Option (NetDevice M × List (Call α)) :=
  if d.busy then none
  else some ({ d with busy := true, currentPkt := some p }, transmitCalls L completed receive context p)

/-- `Dequeue` and, if there is a packet, `TransmitStart`. -/
def transmitNext (d : NetDevice M) : Option (NetDevice M × List (Call α)) :=
  match d.packets with
  | [] => some (d, [])
  | p :: packets => transmitStart L completed receive context p { d with packets }

/-- `TransmitComplete`, with its two assertions. -/
def transmitComplete (d : NetDevice M) : Option (NetDevice M × List (Call α)) :=
  if d.busy && d.currentPkt.isSome then
    transmitNext L completed receive context { d with busy := false, currentPkt := none }
  else none

def send (p : M) (d : NetDevice M) : Option (NetDevice M × List (Call α)) :=
  if d.busy then some ((enqueue L p d).2, [])
  else
    match enqueue L p d with
    | (true, d) => transmitNext L completed receive context d
    | (false, d) => some (d, [])

end Functions

/-! ## What a device carries -/

/-- Messages of up to `limit` bytes, which sockets take, and a bound on how long
one of them keeps the device busy. -/
structure Attributes.Bounded (L : Attributes) (limit W : ℕ) : Prop where
  datagram : limit ≤ maxIpv4UdpDatagramSize
  tx : ∀ bytes, bytes ≤ limit + 30 → L.calculateTxTime bytes + L.interframeGap ≤ W
  room : 0 < L.maxPackets

theorem Attributes.Bounded.txTime {M : Type} {L : Link M} {limit W : ℕ} (h : L.Bounded limit W) {m : M}
    (fits : L.size m ≤ limit) : L.txTime m + L.interframeGap ≤ W :=
  h.tx _ (Nat.add_le_add_right fits 30)

/-- The bound on how long a message takes. -/
def Attributes.greatest (L : Attributes) (W : ℕ) : ℕ := L.delay + (L.maxPackets + 1) * W

section Carries
variable {M : Type} (L : Link M) (limit W : ℕ)

/-- Messages with the times they were sent, and when they arrive. -/
inductive Flying : List (ℕ × M) → List (ℕ × M) → Prop
  | nil : Flying [] []
  | cons {sent arrival : ℕ} {m : M} {flying arrivals : List (ℕ × M)} (least : sent + L.delay ≤ arrival)
      (greatest : arrival ≤ sent + L.greatest W) (rest : Flying flying arrivals) :
      Flying ((sent, m) :: flying) ((arrival, m) :: arrivals)

/-- Messages in the queue of a device that is busy until `c`. -/
def Waiting (c : ℕ) (waiting : List (ℕ × M)) : Prop :=
  ∀ k x, waiting[k]? = some x → c + (k + 1) * W + L.delay ≤ x.1 + L.greatest W

/-- The device, with the arrivals and the completion that are scheduled,
carries the messages of `chan`. -/
inductive Carries (now : ℕ) : List (ℕ × M) → List ℕ → NetDevice M → List (ℕ × M) → Prop
  | ready {flying arrivals : List (ℕ × M)} (sent : ∀ x ∈ flying, x.1 ≤ now)
      (flight : Flying L W flying arrivals) (last : ∀ a ∈ arrivals, a.1 ≤ now + L.delay) :
      Carries now arrivals [] (NetDevice.attached M) flying
  | busy {flying arrivals waiting : List (ℕ × M)} {c : ℕ} {p : M}
      (sent : ∀ x ∈ flying ++ waiting, x.1 ≤ now) (flight : Flying L W flying arrivals)
      (last : ∀ a ∈ arrivals, a.1 ≤ c + L.delay) (soon : c ≤ now + W)
      (wait : Waiting L W c waiting) (room : waiting.length ≤ L.maxPackets)
      (fits : ∀ x ∈ waiting, L.size x.2 ≤ limit) :
      Carries now arrivals [c] ⟨true, some p, waiting.map Prod.snd, 0⟩ (flying ++ waiting)

end Carries

section Carries
variable {M : Type} {L : Link M} {limit W : ℕ} {now : ℕ} {arrivals chan : List (ℕ × M)}
  {completion : List ℕ} {d : NetDevice M}

theorem Flying.due {flying : List (ℕ × M)} (h : Flying L W flying arrivals) {t : ℕ}
    (first : ∀ a ∈ arrivals, t ≤ a.1) : ∀ x ∈ flying, t ≤ x.1 + L.greatest W := by
  induction h with
  | nil => intro x hx; cases hx
  | cons least greatest rest ih =>
    intro x hx
    rcases List.mem_cons.mp hx with rfl | hx
    · exact (first _ List.mem_cons_self).trans greatest
    · exact ih (fun a ha => first a (List.mem_cons_of_mem _ ha)) x hx

theorem Flying.snoc {flying : List (ℕ × M)} (h : Flying L W flying arrivals) {sent arrival : ℕ} {m : M}
    (least : sent + L.delay ≤ arrival) (greatest : arrival ≤ sent + L.greatest W) :
    Flying L W (flying ++ [(sent, m)]) (arrivals ++ [(arrival, m)]) := by
  induction h with
  | nil => exact .cons least greatest .nil
  | cons least' greatest' rest ih => exact .cons least' greatest' ih

/-- Time that passes. -/
theorem Carries.later (h : Carries L limit W now arrivals completion d chan) {now' : ℕ}
    (hle : now ≤ now') :
    Carries L limit W now' arrivals completion d chan := by
  cases h with
  | ready sent flight last =>
    refine .ready (fun x hx => (sent x hx).trans hle) flight fun a ha => ?_
    exact (last a ha).trans (Nat.add_le_add_right hle _)
  | busy sent flight last soon wait room fits =>
    exact .busy (fun x hx => (sent x hx).trans hle) flight last
      (soon.trans (Nat.add_le_add_right hle _)) wait room fits

/-- Time may pass up to the first event. -/
theorem Carries.due (h : Carries L limit W now arrivals completion d chan) {t : ℕ}
    (arrive : ∀ a ∈ arrivals, t ≤ a.1) (done : ∀ c ∈ completion, t ≤ c) :
    ∀ x ∈ chan, t ≤ x.1 + L.greatest W := by
  cases h with
  | ready _ flight _ => exact flight.due arrive
  | @busy flying _ waiting c _ _ flight _ _ wait _ _ =>
    intro x hx
    rcases List.mem_append.mp hx with hx | hx
    · exact flight.due arrive x hx
    · obtain ⟨k, hk⟩ := List.mem_iff_getElem?.mp hx
      have hc := done c (List.mem_singleton_self c)
      have := wait k x hk
      omega

/-- A message arrives: it is the first of those carried. -/
theorem Carries.arrive {t : ℕ} {m : M}
    (h : Carries L limit W now ((t, m) :: arrivals) completion d chan) :
    ∃ sent rest, chan = (sent, m) :: rest ∧ sent + L.delay ≤ t ∧
      Carries L limit W now arrivals completion d rest := by
  cases h with
  | ready sent flight last =>
    cases flight with
    | cons least _ rest =>
      refine ⟨_, _, rfl, least, .ready (fun x hx => sent x (List.mem_cons_of_mem _ hx)) rest ?_⟩
      exact fun a ha => last a (List.mem_cons_of_mem _ ha)
  | busy sent flight last soon wait room fits =>
    cases flight with
    | cons least _ rest =>
      refine ⟨_, _, rfl, least,
        .busy (fun x hx => sent x (List.mem_cons_of_mem _ hx)) rest ?_ soon wait room fits⟩
      exact fun a ha => last a (List.mem_cons_of_mem _ ha)

/-- Only one completion is scheduled for a device. -/
theorem Carries.one {c : ℕ} {rest : List ℕ} (h : Carries L limit W now arrivals (c :: rest) d chan) :
    rest = [] := by
  cases h
  rfl

section Functions
variable {α : Type} (completed : α) (receive : M → α) (context : UInt32)

/-- After `TransmitStart` at `now`, with what it schedules. -/
structure Transmits (L : Link M) (limit W now : ℕ) (arrivals chan : List (ℕ × M)) (d' : NetDevice M)
    (p : M) : Prop where
  fits : L.size p ≤ limit
  last : ∀ a ∈ arrivals, a.1 ≤ now + (L.txTime p + L.delay)
  carries : Carries L limit W now (arrivals ++ [(now + (L.txTime p + L.delay), p)])
    [now + (L.txTime p + L.interframeGap)] d' chan

/-- The device begins with `p`, sent at `t`, and the others wait. -/
theorem Transmits.start {flying waiting : List (ℕ × M)} {t : ℕ} {p : M}
    (bounded : L.Bounded limit W) (hp : L.size p ≤ limit)
    (sent : ∀ x ∈ flying ++ [(t, p)] ++ waiting, x.1 ≤ now) (flight : Flying L W flying arrivals)
    (last : ∀ a ∈ arrivals, a.1 ≤ now + L.delay) (soon : now + W + L.delay ≤ t + L.greatest W)
    (wait : Waiting L W (now + W) waiting) (room : waiting.length ≤ L.maxPackets)
    (fits : ∀ x ∈ waiting, L.size x.2 ≤ limit) :
    Transmits L limit W now arrivals (flying ++ [(t, p)] ++ waiting)
      ⟨true, some p, waiting.map Prod.snd, 0⟩ p := by
  have htx := bounded.txTime hp
  have ht : t ≤ now := sent (t, p) (by simp)
  have hlast : ∀ a ∈ arrivals, a.1 ≤ now + (L.txTime p + L.delay) := fun a ha => by
    have := last a ha
    omega
  refine ⟨hp, hlast, ?_⟩
  have hflight : Flying L W (flying ++ [(t, p)])
      (arrivals ++ [(now + (L.txTime p + L.delay), p)]) := flight.snoc (by omega) (by omega)
  refine .busy sent hflight (fun a ha => ?_) (by omega) (fun k x hx => ?_) room fits
  · rcases List.mem_append.mp ha with ha | ha
    · have := last a ha
      omega
    · rw [List.mem_singleton.mp ha]
      show now + (L.txTime p + L.delay) ≤ _
      omega
  · have := wait k x hx
    omega

/-- `Send`, with no packet dropped. -/
theorem Carries.send (h : Carries L limit W now arrivals completion d chan)
    (bounded : L.Bounded limit W) {p : M} (hp : L.size p ≤ limit) {d' : NetDevice M}
    {calls : List (Call α)}
    (hsend : Sim.send L completed receive context p d = some (d', calls))
    (kept : d'.totalDroppedPackets = 0) :
    (completion = [] ∧ calls = transmitCalls L completed receive context p ∧
      Transmits L limit W now arrivals (chan ++ [(now, p)]) d' p) ∨
    (calls = [] ∧ Carries L limit W now arrivals completion d' (chan ++ [(now, p)])) := by
  cases h with
  | ready sent flight last =>
    have henqueue : enqueue L p (⟨false, none, [], 0⟩ : NetDevice M) = (true, ⟨false, none, [p], 0⟩) :=
      if_neg (Nat.not_le.mpr bounded.room)
    simp only [Sim.send, NetDevice.attached, henqueue, Bool.false_eq_true, if_false, transmitNext,
      transmitStart, Option.some.injEq, Prod.mk.injEq] at hsend
    obtain ⟨rfl, rfl⟩ := hsend
    have hwait : Waiting L W (now + W) [] := fun k x hx => by simp at hx
    have hstart : Transmits L limit W now arrivals (chan ++ [(now, p)] ++ [])
        ⟨true, some p, [], 0⟩ p := by
      refine .start bounded hp (fun x hx => ?_) flight last ?_ hwait (Nat.zero_le _) (by simp)
      · rw [List.append_nil] at hx
        rcases List.mem_append.mp hx with hx | hx
        · exact sent x hx
        · rw [List.mem_singleton.mp hx]
      · have hW : W ≤ (L.maxPackets + 1) * W := Nat.le_mul_of_pos_left _ (Nat.succ_pos _)
        rw [Attributes.greatest]
        omega
    rw [List.append_nil] at hstart
    exact Or.inl ⟨rfl, rfl, hstart⟩
  | @busy flying _ waiting c q sent flight last soon wait _ fits =>
    refine Or.inr ?_
    by_cases hfull : L.maxPackets ≤ (waiting.map Prod.snd).length
    · have henqueue : enqueue L p (⟨true, some q, waiting.map Prod.snd, 0⟩ : NetDevice M) =
          (false, ⟨true, some q, waiting.map Prod.snd, 1⟩) := if_pos hfull
      simp only [Sim.send, henqueue, if_true, Option.some.injEq, Prod.mk.injEq] at hsend
      obtain ⟨rfl, _⟩ := hsend
      cases kept
    · have henqueue : enqueue L p (⟨true, some q, waiting.map Prod.snd, 0⟩ : NetDevice M) =
          (true, ⟨true, some q, waiting.map Prod.snd ++ [p], 0⟩) := if_neg hfull
      simp only [Sim.send, henqueue, if_true, Option.some.injEq, Prod.mk.injEq] at hsend
      obtain ⟨rfl, rfl⟩ := hsend
      rw [List.length_map, not_le] at hfull
      have hpackets : waiting.map Prod.snd ++ [p] = (waiting ++ [(now, p)]).map Prod.snd := by simp
      refine ⟨rfl, ?_⟩
      rw [hpackets, List.append_assoc]
      refine .busy (fun x hx => ?_) flight last soon (fun k x hx => ?_) (by simp; omega) fun x hx => ?_
      · rw [← List.append_assoc] at hx
        rcases List.mem_append.mp hx with hx | hx
        · exact sent x hx
        · rw [List.mem_singleton.mp hx]
      · rcases (Lib.getElem?_snoc _ _ _ _).mp hx with hx | ⟨rfl, rfl⟩
        · exact wait k x hx
        · show c + (waiting.length + 1) * W + L.delay ≤ now + (L.delay + (L.maxPackets + 1) * W)
          have hmul : (waiting.length + 1) * W ≤ L.maxPackets * W := Nat.mul_le_mul_right W hfull
          have hsucc : (L.maxPackets + 1) * W = L.maxPackets * W + W := Nat.succ_mul _ _
          omega
      · rcases List.mem_append.mp hx with hx | hx
        · exact fits x hx
        · rw [List.mem_singleton.mp hx]
          exact hp

/-- `TransmitComplete`, when it is scheduled. -/
theorem Carries.transmitComplete (h : Carries L limit W now arrivals [now] d chan)
    (bounded : L.Bounded limit W) :
    ∃ d' calls, Sim.transmitComplete L completed receive context d = some (d', calls) ∧
      d'.totalDroppedPackets = 0 ∧
      ((calls = [] ∧ Carries L limit W now arrivals [] d' chan) ∨
        ∃ p, calls = transmitCalls L completed receive context p ∧
          Transmits L limit W now arrivals chan d' p) := by
  cases h with
  | @busy flying _ waiting _ q sent flight last soon wait room fits =>
    cases waiting with
    | nil =>
      refine ⟨_, _, rfl, rfl, Or.inl ⟨rfl, ?_⟩⟩
      rw [List.append_nil] at sent ⊢
      exact .ready sent flight last
    | cons x waiting =>
      obtain ⟨t, p⟩ := x
      have hfirst := wait 0 (t, p) rfl
      rw [Nat.zero_add, Nat.one_mul] at hfirst
      have happend : flying ++ (t, p) :: waiting = flying ++ [(t, p)] ++ waiting := by simp
      rw [happend] at sent ⊢
      refine ⟨_, _, rfl, rfl, Or.inr ⟨p, rfl, .start bounded (fits (t, p) List.mem_cons_self) sent
        flight last hfirst (fun k y hy => ?_) (Nat.le_of_succ_le room)
        fun y hy => fits y (List.mem_cons_of_mem _ hy)⟩⟩
      have hnext := wait (k + 1) y hy
      have hmul : (k + 1 + 1) * W = (k + 1) * W + W := Nat.succ_mul _ _
      omega

end Functions

end Carries

end Ns3Routing.Sim
