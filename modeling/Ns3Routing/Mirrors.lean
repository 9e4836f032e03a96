import Ns3Routing.Simulated

/-! # What the simulator runs is the network with a clock

Every round of the loop of `Run` lets time pass and then does one step of the
network with a clock, or none (`Mirrors.step`), as long as no device drops a
packet and no message is too long. So everything that holds of the network at
every time holds of what the simulator runs (`mirrors_run`). -/

namespace Ns3Routing.Sim

open Lib Ns3Routing.Topology

section Mirrors
variable {S σ M A : Type} {T : Topology} {K : Scheduler S} {Lists : ℕ → S → List Event → Prop}
  {P : Program T σ M A} {limit W : ℕ} {off : T.Port → Prop} {idle : List (Fin T.size × TimerKind)}
  {s s' : DefaultSimulatorImpl S (NetEvent T M)} {w : World T σ M} {l l' : List Event}
  {timed : TimedNet T σ M}

/-- Nothing is seen of the events of other kinds. -/
def Unseen (s : DefaultSimulatorImpl S (NetEvent T M)) (l : List Event)
    (s' : DefaultSimulatorImpl S (NetEvent T M)) (l' : List Event) (seen : NetEvent T M → Prop) :
      Prop :=
  ∀ {β : Type} (kind : NetEvent T M → Option β), (∀ a, seen a → kind a = none) →
    select s' l' kind = select s l kind

/-- The simulator goes on at the same time. -/
structure Same (s s' : DefaultSimulatorImpl S (NetEvent T M)) : Prop where
  stop : s'.stop = s.stop
  currentTs : s'.currentTs = s.currentTs
  currentUid : s'.currentUid = s.currentUid

theorem Same.refl (s : DefaultSimulatorImpl S (NetEvent T M)) : Same s s := ⟨rfl, rfl, rfl⟩

theorem Same.trans {s'' : DefaultSimulatorImpl S (NetEvent T M)} (h : Same s s') (h' : Same s' s'') :
    Same s s'' :=
  ⟨h'.stop.trans h.stop, h'.currentTs.trans h.currentTs, h'.currentUid.trans h.currentUid⟩

/-- A call that schedules. -/
theorem Live.schedule (serves : K.Serves Lists) (h : Live Lists s l)
    (room : s.impls.length + 5 < 2 ^ 32)
    (time : ℕ) (hbound : s.currentTs.toNat + time < 2 ^ 63) (context : UInt32) (a : NetEvent T M) :
    ∃ ts s' l', insertEvent K ts context a s = some s' ∧ absolute time s = some ts ∧
      s.currentTs + UInt64.ofInt time = ts ∧ ts.toNat = s.currentTs.toNat + time ∧ Live Lists s' l' ∧
      Scheduled s l ts context a s' l' := by
  have htime : (0 : ℤ) ≤ (time : ℤ) := Int.natCast_nonneg _
  have hroom : (time : ℤ) + s.currentTs.toNat < 2 ^ 63 := by omega
  obtain ⟨ts, habs, hts, hlt, hsum, hnat⟩ := absolute_eq htime hroom
  obtain ⟨s', l', hs', hlive, hscheduled⟩ := h.insert serves room hts hlt context a
  exact ⟨ts, s', l', hs', habs, hsum, by omega, hlive, hscheduled⟩

theorem Scheduled.same {ts : UInt64} {context : UInt32} {a : NetEvent T M}
    (h : Scheduled s l ts context a s' l') : Same s s' := ⟨h.stop, h.currentTs, h.currentUid⟩

theorem Scheduled.length {ts : UInt64} {context : UInt32} {a : NetEvent T M}
    (h : Scheduled s l ts context a s' l') : s'.impls.length = s.impls.length + 1 := by
  rw [h.impls, List.length_append, List.length_singleton]

/-- `TransmitStart`: the completion and the arrival. -/
theorem Live.transmit (serves : K.Serves Lists) (h : Live Lists s l) (p : T.Port) (m : M)
    (context : UInt32)
    (room : s.impls.length + 2 + 5 < 2 ^ 32)
    (hbound : s.currentTs.toNat + (P.link.txTime m + P.link.interframeGap) < 2 ^ 63)
    (hbound' : s.currentTs.toNat + (P.link.txTime m + P.link.delay) < 2 ^ 63)
    (free : completions s l p = [])
    (last : ∀ a ∈ arrivals s l p, a.1 ≤ s.currentTs.toNat + (P.link.txTime m + P.link.delay)) :
    ∃ s' l', (transmitCalls P.link (.transmitComplete p) (.receive p) context m).foldlM (callStep K) s =
        some s' ∧ Live Lists s' l' ∧ s'.impls.length = s.impls.length + 2 ∧ Same s s' ∧
      completions s' l' p = [s.currentTs.toNat + (P.link.txTime m + P.link.interframeGap)] ∧
      arrivals s' l' p = arrivals s l p ++ [(s.currentTs.toNat + (P.link.txTime m + P.link.delay), m)] ∧
      Unseen s l s' l' fun a => a = .transmitComplete p ∨ ∃ m, a = .receive p m := by
  obtain ⟨ts₁, s₁, l₁, hs₁, habs, _, hnat₁, hlive₁, hsched₁⟩ :=
    h.schedule serves (by omega) _ hbound s.currentContext (.transmitComplete p)
  have hsame₁ := hsched₁.same
  have hlen₁ := hsched₁.length
  obtain ⟨ts₂, s₂, l₂, hs₂, _, hsum, hnat₂, hlive₂, hsched₂⟩ :=
    hlive₁.schedule serves (by omega) (P.link.txTime m + P.link.delay)
      (by rw [hsame₁.currentTs]; exact hbound') context (.receive p m)
  have hlen₂ := hsched₂.length
  rw [hsame₁.currentTs] at hnat₂
  have hcomplete₁ : select s₁ l₁ (completeKind p) =
      select s l (completeKind p) ++ [(nextEvent s ts₁ s.currentContext, ())] :=
    hsched₁.behind _ () (if_pos rfl) fun x hx => by
      rw [completions, List.map_eq_nil_iff] at free
      rw [free] at hx
      cases hx
  have hreceive₁ : select s₁ l₁ (receiveKind p) = select s l (receiveKind p) := hsched₁.other _ rfl
  have hreceive₂ : select s₂ l₂ (receiveKind p) =
      select s₁ l₁ (receiveKind p) ++ [(nextEvent s₁ ts₂ context, m)] :=
    hsched₂.behind _ m (if_pos rfl) fun x hx => by
      rw [hreceive₁] at hx
      have hle := last _ (List.mem_map_of_mem hx)
      rw [UInt64.le_iff_toNat_le, hnat₂]
      exact hle
  have hcomplete₂ : select s₂ l₂ (completeKind p) = select s₁ l₁ (completeKind p) := hsched₂.other _ rfl
  refine ⟨s₂, l₂, ?_, hlive₂, by omega, hsame₁.trans hsched₂.same, ?_, ?_, fun kind hkind => ?_⟩
  · have hfirst : callStep K s (.schedule (P.link.txTime m + P.link.interframeGap : ℕ)
        (.transmitComplete p)) = some s₁ := by
      rw [callStep, Sim.schedule, habs]
      exact hs₁
    have hsecond : callStep K s₁ (.scheduleWithContext context (P.link.txTime m + P.link.delay : ℕ)
        (.receive p m)) = some s₂ := by
      rw [callStep, scheduleWithContext, hsum]
      exact hs₂
    rw [transmitCalls, List.foldlM_cons, hfirst]
    show List.foldlM _ s₁ _ = _
    rw [List.foldlM_cons, hsecond]
    rfl
  · rw [completions, hcomplete₂, hcomplete₁, List.map_append]
    rw [completions] at free
    rw [free, ← hnat₁]
    rfl
  · rw [arrivals, hreceive₂, hreceive₁, List.map_append, ← hnat₂]
    rfl
  · rw [hsched₂.other kind (hkind _ (Or.inr ⟨m, rfl⟩)), hsched₁.other kind (hkind _ (Or.inl rfl))]

/-! ## Timers and devices -/

theorem TimerSet.congr {i : Fin T.size} {kind : TimerKind} {id : EventId} {due : ℕ}
    (h : TimerSet s l i kind id due) (starts : select s' l' (startKind i) = select s l (startKind i))
    (timers : select s' l' (timerKind i kind) = select s l (timerKind i kind)) :
    TimerSet s' l' i kind id due := by
  cases h with
  | start hstarts ts htimers fresh hello =>
    exact .start (starts.trans hstarts) ts (timers.trans htimers) fresh hello
  | scheduled hstarts htimers here hello =>
    exact .scheduled (starts.trans hstarts) (timers.trans htimers) here hello

theorem TimerIdle.congr {i : Fin T.size} {kind : TimerKind} {id : EventId} (h : TimerIdle s l i kind id)
    (same : Same s s') (starts : select s' l' (startKind i) = select s l (startKind i))
    (timers : select s' l' (timerKind i kind) = select s l (timerKind i kind)) :
    TimerIdle s' l' i kind id :=
  ⟨starts.trans h.starts, timers.trans h.timers, by
    rw [same.currentTs, same.currentUid]
    exact h.expired⟩

theorem TimerIdle.isExpired {i : Fin T.size} {kind : TimerKind} {id : EventId}
    (h : TimerIdle s l i kind id) : Sim.isExpired id s = some true := by
  rw [Sim.isExpired]
  rcases h.expired with hnone | ⟨hts, huid⟩
  · rw [hnone]
  · cases id.eventImpl with
    | none => rfl
    | some impl => simp [hts, huid]

theorem arrivals_congr {p : T.Port} (h : select s' l' (receiveKind p) = select s l (receiveKind p)) :
    arrivals s' l' p = arrivals s l p := by rw [arrivals, h, arrivals]

theorem completions_congr {p : T.Port}
    (h : select s' l' (completeKind p) = select s l (completeKind p)) :
    completions s' l' p = completions s l p := by rw [completions, h, completions]

/-- The events of a device. -/
def OfPort (p : T.Port) (a : NetEvent T M) : Prop := a = .transmitComplete p ∨ ∃ m, a = .receive p m

theorem OfPort.unseen {p : T.Port} {a : NetEvent T M} (h : OfPort p a) :
    (∀ i, startKind i a = none) ∧ (∀ i kind, timerKind i kind a = none) ∧
      ∀ q, q ≠ p → completeKind q a = none ∧ receiveKind q a = none := by
  rcases h with rfl | ⟨m, rfl⟩
  · exact ⟨fun _ => rfl, fun _ _ => rfl, fun q hq => ⟨if_neg (Ne.symm hq), rfl⟩⟩
  · exact ⟨fun _ => rfl, fun _ _ => rfl, fun q hq => ⟨rfl, if_neg (Ne.symm hq)⟩⟩

/-- Something happens at one device. -/
theorem Mirrors.port (h : Mirrors P.link limit W off idle s w l timed) {p : T.Port}
    (hoff : ∀ q, off q → q = p)
    (same : Same s s') (unseen : Unseen s l s' l' (OfPort p)) {d' : NetDevice M} {chan' : List (ℕ × M)}
    (carries : Carries P.link limit W timed.now (arrivals s' l' p) (completions s' l' p) d' chan') :
    Mirrors P.link limit W (fun _ => False) idle s'
      { w with device := Function.update w.device p d' } l'
      (timed.setChan p chan') := by
  refine ⟨h.now.trans (congrArg _ same.currentTs.symm), h.node, same.stop.trans h.stop, fun q _ => ?_,
    fun i kind hidle => ?_, fun i kind hidle => ?_⟩
  · by_cases hq : q = p
    · subst hq
      show Carries _ _ _ _ _ _ (Function.update w.device q d' q) (Function.update timed.chan q chan' q)
      rw [Function.update_self, Function.update_self]
      exact carries
    · show Carries _ _ _ _ _ _ (Function.update w.device p d' q) (Function.update timed.chan p chan' q)
      rw [Function.update_of_ne hq, Function.update_of_ne hq,
        arrivals_congr (unseen _ fun a ha => (ha.unseen.2.2 q hq).2),
        completions_congr (unseen _ fun a ha => (ha.unseen.2.2 q hq).1)]
      exact h.carries q fun hqoff => hq (hoff q hqoff)
  · exact (h.timers i kind hidle).congr (unseen _ fun a ha => ha.unseen.1 i)
      (unseen _ fun a ha => ha.unseen.2.1 i kind)
  · exact (h.idles i kind hidle).congr same (unseen _ fun a ha => ha.unseen.1 i)
      (unseen _ fun a ha => ha.unseen.2.1 i kind)

/-- The bounds under which times stay in the range of a `Time`. -/
structure Horizon (P : Program T σ M A) (limit W horizon : ℕ) : Prop where
  bounded : P.link.Bounded limit W
  link : P.link.delay + W ≤ horizon
  timer : ∀ i kind, P.timerDelay i kind ≤ horizon

/-- What calls leave behind. -/
structure Called (K : Scheduler S) (Lists : ℕ → S → List Event → Prop)
    (s : DefaultSimulatorImpl S (NetEvent T M)) (calls : List (Call (NetEvent T M)))
    (s' : DefaultSimulatorImpl S (NetEvent T M)) (l' : List Event) : Prop where
  runs : calls.foldlM (callStep K) s = some s'
  live : Live Lists s' l'
  length : s'.impls.length = s.impls.length + calls.length
  same : Same s s'

theorem Called.append {s'' : DefaultSimulatorImpl S (NetEvent T M)} {l'' : List Event}
    {calls calls' : List (Call (NetEvent T M))} (h : Called K Lists s calls s' l')
    (h' : Called K Lists s' calls' s'' l'') : Called K Lists s (calls ++ calls') s'' l'' := by
  refine ⟨?_, h'.live, ?_, h.same.trans h'.same⟩
  · rw [List.foldlM_append, h.runs]
    exact h'.runs
  · rw [h'.length, h.length, List.length_append, Nat.add_assoc]

variable {horizon : ℕ}

/-- A device that starts to transmit. -/
theorem Mirrors.transmits (serves : K.Serves Lists) (live : Live Lists s l)
    (hz : Horizon P limit W horizon)
    (h : Mirrors P.link limit W off idle s w l timed) {p : T.Port} (hoff : ∀ q, off q → q = p) {m : M}
    {d' : NetDevice M} {chan' : List (ℕ × M)} (context : UInt32)
      (room : s.impls.length + 2 + 5 < 2 ^ 32)
    (hbound : s.currentTs.toNat + horizon < 2 ^ 63) (free : completions s l p = [])
    (transmits : Transmits P.link limit W timed.now (arrivals s l p) chan' d' m) :
    ∃ s' l',
      Called K Lists s (transmitCalls P.link (.transmitComplete p) (.receive p) context m) s' l' ∧
      Mirrors P.link limit W (fun _ => False) idle s'
        { w with device := Function.update w.device p d' } l'
        (timed.setChan p chan') := by
  have htx := hz.bounded.txTime transmits.fits
  have hlink := hz.link
  have hlast := transmits.last
  rw [h.now] at hlast
  obtain ⟨s', l', hrun, hlive, hlen, hsame, hcompletions, harrivals, hunseen⟩ :=
    live.transmit (P := P) serves p m context room (by omega) (by omega) free hlast
  refine ⟨s', l', ⟨hrun, hlive, hlen, hsame⟩, h.port hoff hsame hunseen ?_⟩
  rw [harrivals, hcompletions, ← h.now]
  exact transmits.carries

/-- One packet. -/
theorem Mirrors.send (serves : K.Serves Lists) (live : Live Lists s l) (hz : Horizon P limit W horizon)
    (h : Mirrors P.link limit W (fun _ => False) idle s w l timed) {p : T.Port} {m : M}
      {d' : NetDevice M}
    {calls : List (Call (NetEvent T M))} (hsend : P.send p m (w.device p) = some (d', calls))
    (fits : P.link.size m ≤ limit) (kept : d'.totalDroppedPackets = 0)
    (room : s.impls.length + calls.length + 5 < 2 ^ 32)
    (hbound : s.currentTs.toNat + horizon < 2 ^ 63) :
    ∃ s' l', Called K Lists s calls s' l' ∧
      Mirrors P.link limit W (fun _ => False) idle s'
        { w with device := Function.update w.device p d' } l'
        (timed.setChan p (timed.chan p ++ [(timed.now, m)])) := by
  rcases (h.carries p id).send _ _ _ hz.bounded fits hsend kept with
    ⟨hfree, rfl, htransmits⟩ | ⟨rfl, hcarries⟩
  · exact h.transmits serves live hz (fun _ hq => hq.elim) _ room hbound hfree htransmits
  · exact ⟨s, l, ⟨rfl, live, rfl, .refl s⟩,
      h.port (fun _ hq => hq.elim) (.refl s) (fun _ _ => rfl) hcarries⟩

/-- `TransmitComplete`, which was scheduled for now. -/
theorem Mirrors.transmitComplete (serves : K.Serves Lists) (live : Live Lists s l)
    (hz : Horizon P limit W horizon) {p : T.Port} (h : Mirrors P.link limit W (· = p) idle s w l timed)
    (free : completions s l p = [])
    (carries : Carries P.link limit W timed.now (arrivals s l p) [timed.now] (w.device p)
      (timed.chan p)) :
    ∃ d' calls, P.transmitComplete p (w.device p) = some (d', calls) ∧ d'.totalDroppedPackets = 0 ∧
      (s.impls.length + calls.length + 5 < 2 ^ 32 → s.currentTs.toNat + horizon < 2 ^ 63 →
        ∃ s' l', Called K Lists s calls s' l' ∧ Mirrors P.link limit W (fun _ => False) idle s'
          { w with device := Function.update w.device p d' } l' timed) := by
  obtain ⟨d', calls, hcomplete, hkept, hcalls⟩ := carries.transmitComplete
    (NetEvent.transmitComplete p : NetEvent T M) (NetEvent.receive p) (UInt32.ofNat (T.owner (peer p)))
    hz.bounded
  have hchan : timed.setChan p (timed.chan p) = timed := by simp [TimedNet.setChan]
  refine ⟨d', calls, hcomplete, hkept, fun room hbound => ?_⟩
  rcases hcalls with ⟨rfl, hcarries⟩ | ⟨m, rfl, htransmits⟩
  · refine ⟨s, l, ⟨rfl, live, rfl, .refl s⟩, ?_⟩
    rw [← free] at hcarries
    have hport := h.port (fun _ hq => hq) (.refl s) (fun _ _ => rfl) hcarries
    rwa [hchan] at hport
  · have htransmit := h.transmits serves live hz (fun _ hq => hq) (UInt32.ofNat (T.owner (peer p))) room
      hbound free htransmits
    rwa [hchan] at htransmit

/-! ## Packets and timers of an event -/

section Ports

theorem mem_ports (p : T.Port) :
    p ∈ (List.finRange T.links).flatMap fun l => [(l, false), (l, true)] := by
  obtain ⟨l, b⟩ := p
  refine List.mem_flatMap.mpr ⟨l, List.mem_finRange l, ?_⟩
  cases b <;> simp

variable {i : Fin T.size} {x : Ipv4Address × M}

theorem portAt_some {a : Ipv4Address} {p : T.Port} (h : portAt T i a = some p) :
    T.owner p = i ∧ T.address p = a := by
  have hfound := List.find?_some h
  exact of_decide_eq_true hfound

theorem portAt_none {a : Ipv4Address} (h : portAt T i a = none) (p : T.Port) (hp : T.owner p = i) :
    a ≠ T.address p := by
  intro ha
  rw [portAt, List.find?_eq_none] at h
  exact h p (mem_ports p) (decide_eq_true ⟨hp, ha.symm⟩)

/-- No link end has the address. -/
theorem onPort_none (h : portAt T i x.1 = none) (out : List (Ipv4Address × M)) (q : T.Port) :
    Net.onPort T i (x :: out) q = Net.onPort T i out q := by
  rw [Net.onPort, Net.onPort]
  split
  · rename_i hq
    rw [List.filterMap_cons, if_neg (portAt_none h q hq)]
  · rfl

/-- The packet goes to the link end with the address, and to no other. -/
theorem onPort_some {p : T.Port} (h : portAt T i x.1 = some p) (out : List (Ipv4Address × M))
    (q : T.Port) : Net.onPort T i (x :: out) q =
      (if q = p then [x.2] else []) ++ Net.onPort T i out q := by
  obtain ⟨howner, haddress⟩ := portAt_some h
  rw [Net.onPort, Net.onPort]
  by_cases hq : q = p
  · subst hq
    rw [if_pos howner, if_pos howner, if_pos rfl, List.filterMap_cons, if_pos haddress.symm]
    rfl
  · rw [if_neg hq, List.nil_append]
    split
    · rename_i hqi
      have hne : x.1 ≠ T.address q := fun ha =>
        hq (T.address_inj q p (hqi.trans howner.symm) (ha.symm.trans haddress.symm))
      rw [List.filterMap_cons, if_neg hne]
    · rfl

end Ports

/-- `Send` has a result; a packet that was dropped stays counted. -/
theorem Program.send_some (P : Program T σ M A) (p : T.Port) (m : M) (d : NetDevice M) :
    ∃ d' calls, P.send p m d = some (d', calls) ∧ d.totalDroppedPackets ≤ d'.totalDroppedPackets := by
  rw [Program.send, Sim.send, enqueue]
  by_cases hbusy : d.busy
  · rw [if_pos hbusy]
    split
    · exact ⟨_, _, rfl, Nat.le_succ _⟩
    · exact ⟨_, _, rfl, le_rfl⟩
  · rw [if_neg hbusy]
    split
    · rename_i heq
      split at heq
      · cases heq
      · obtain rfl := (Prod.mk.inj heq).2
        cases hp : d.packets with
        | nil => simp [transmitNext, transmitStart, hbusy]
        | cons q packets => simp [transmitNext, transmitStart, hbusy]
    · rename_i heq
      split at heq
      · obtain rfl := (Prod.mk.inj heq).2
        exact ⟨_, _, rfl, Nat.le_succ _⟩
      · cases heq

theorem Program.sendPackets_some (P : Program T σ M A) (i : Fin T.size) :
    ∀ (out : List (Ipv4Address × M)) (device : T.Port → NetDevice M), ∃ sent,
      P.sendPackets i out device = some sent ∧
        ∀ p, (device p).totalDroppedPackets ≤ (sent.device p).totalDroppedPackets
  | [], device => ⟨⟨device, [], []⟩, rfl, fun _ => le_rfl⟩
  | x :: out, device => by
    rw [Program.sendPackets]
    split
    · exact sendPackets_some P i out device
    · rename_i p _
      split
      · obtain ⟨sent, hrest, hle⟩ := sendPackets_some P i out device
        exact ⟨{ sent with handed := x.2 :: sent.handed }, by rw [hrest, Option.map_some], hle⟩
      · obtain ⟨d', calls, hsend, hle⟩ := P.send_some p x.2 (device p)
        obtain ⟨sent, hrest, hle'⟩ := sendPackets_some P i out (Function.update device p d')
        refine ⟨{ sent with calls := calls ++ sent.calls, handed := x.2 :: sent.handed },
          by simp [hsend, hrest], fun q => le_trans ?_ (hle' q)⟩
        by_cases hq : q = p
        · subst hq
          rwa [Function.update_self]
        · rw [Function.update_of_ne hq]

/-- All packets that a node sends. -/
theorem Mirrors.sendPackets (serves : K.Serves Lists) (hz : Horizon P limit W horizon) (i : Fin T.size)
    (out : List (Ipv4Address × M)) (live : Live Lists s l)
    (h : Mirrors P.link limit W (fun _ => False) idle s w l timed) {sent : Sent T M}
    (hsend : P.sendPackets i out w.device = some sent) (fits : ∀ m ∈ sent.handed, P.link.size m ≤ limit)
    (kept : ∀ p, (sent.device p).totalDroppedPackets = 0)
    (room : s.impls.length + sent.calls.length + 5 < 2 ^ 32)
    (hbound : s.currentTs.toNat + horizon < 2 ^ 63) :
    ∃ s' l', Called K Lists s sent.calls s' l' ∧
      Mirrors P.link limit W (fun _ => False) idle s' { w with device := sent.device } l'
        { timed with chan := fun p => timed.chan p ++ (Net.onPort T i out p).map (timed.now, ·) } := by
  induction out generalizing s w l timed sent with
  | nil =>
    rw [Program.sendPackets] at hsend
    obtain rfl := Option.some.inj hsend
    refine ⟨s, l, ⟨rfl, live, rfl, .refl s⟩, ?_⟩
    simpa using h
  | cons x out ih =>
    rw [Program.sendPackets] at hsend
    split at hsend
    · rename_i hport
      obtain ⟨s', l', hcalled, hmirrors⟩ := ih live h hsend fits kept room hbound
      refine ⟨s', l', hcalled, ?_⟩
      simpa only [onPort_none hport] using hmirrors
    · rename_i p hport
      split at hsend
      · -- a message that is refused is longer than `limit`
        rename_i hlong
        obtain ⟨_, _, rfl⟩ := Option.map_eq_some_iff.mp hsend
        have hle := (fits x.2 List.mem_cons_self).trans hz.bounded.datagram
        exact absurd hlong (not_lt.mpr hle)
      obtain ⟨⟨d', calls⟩, hfirst, hsend⟩ := Option.bind_eq_some_iff.mp hsend
      obtain ⟨rest, hrest, hsend⟩ := Option.bind_eq_some_iff.mp hsend
      obtain rfl := Option.some.inj hsend
      obtain ⟨hfits, hrestfits⟩ := List.forall_mem_cons.mp fits
      dsimp only at kept room
      rw [List.length_append] at room
      have hkept : d'.totalDroppedPackets = 0 := by
        obtain ⟨_, heq, hle⟩ := P.sendPackets_some i out (Function.update w.device p d')
        obtain rfl := Option.some.inj (hrest.symm.trans heq)
        have hp := hle p
        rw [Function.update_self, kept p] at hp
        exact Nat.le_zero.mp hp
      obtain ⟨s₁, l₁, hcalled₁, hmirrors₁⟩ :=
        h.send serves live hz hfirst hfits hkept (by omega) hbound
      obtain ⟨s₂, l₂, hcalled₂, hmirrors₂⟩ := ih hcalled₁.live hmirrors₁ hrest hrestfits kept
        (by rw [hcalled₁.length]; omega) (by rw [hcalled₁.same.currentTs]; exact hbound)
      have hchan : (fun q => timed.chan q ++ (Net.onPort T i (x :: out) q).map (timed.now, ·)) =
          fun q => (timed.setChan p (timed.chan p ++ [(timed.now, x.2)])).chan q ++
            (Net.onPort T i out q).map (timed.now, ·) := by
        funext q
        rw [onPort_some hport]
        by_cases hq : q = p
        · subst hq
          rw [TimedNet.setChan_self, if_pos rfl]
          simp
        · rw [TimedNet.setChan_ne _ _ hq, if_neg hq, List.nil_append]
      refine ⟨s₂, l₂, hcalled₁.append hcalled₂, ?_⟩
      rw [hchan]
      exact hmirrors₂

/-- The hello timer of a node is scheduled again. -/
def rearmed (timed : TimedNet T σ M) : Fin T.size × TimerKind → TimedNet T σ M
  | (_, .auditPings) => timed
  | (i, .auditHellos) => timed.schedule i

section Rearm
variable {x : Fin T.size × TimerKind} {i : Fin T.size} {kind : TimerKind}

@[simp] theorem rearmed_now : (rearmed timed x).now = timed.now := by
  obtain ⟨i, kind⟩ := x
  cases kind <;> rfl

@[simp] theorem rearmed_node : (rearmed timed x).node = timed.node := by
  obtain ⟨i, kind⟩ := x
  cases kind <;> rfl

@[simp] theorem rearmed_chan : (rearmed timed x).chan = timed.chan := by
  obtain ⟨i, kind⟩ := x
  cases kind <;> rfl

theorem rearmed_nextAudit_ne (h : (i, TimerKind.auditHellos) ≠ x) :
    (rearmed timed x).nextAudit i = timed.nextAudit i := by
  obtain ⟨j, kind⟩ := x
  cases kind with
  | auditPings => rfl
  | auditHellos => exact Function.update_of_ne (fun hij => h (by rw [hij])) _ _

theorem setTimer_self (id : EventId) : (w.setTimer i kind id).timer i kind = id := by
  show Function.update w.timer i (Function.update (w.timer i) kind id) i kind = id
  rw [Function.update_self, Function.update_self]

theorem setTimer_ne {j : Fin T.size} {k : TimerKind} (id : EventId) (h : (j, k) ≠ (i, kind)) :
    (w.setTimer i kind id).timer j k = w.timer j k := by
  show Function.update w.timer i (Function.update (w.timer i) kind id) j k = _
  by_cases hj : j = i
  · subst hj
    rw [Function.update_self, Function.update_of_ne fun hk => h (by rw [hk])]
  · rw [Function.update_of_ne hj]

theorem TimerSet.due {id : EventId} {due due' : ℕ} (h : TimerSet s l i kind id due)
    (hdue : kind = .auditHellos → due' = due) : TimerSet s l i kind id due' := by
  cases h with
  | start hstarts ts htimers fresh hello =>
    exact .start hstarts ts htimers fresh fun hk => (hdue hk).trans (hello hk)
  | scheduled hstarts htimers here hello =>
    exact .scheduled hstarts htimers here fun hk => (hdue hk).trans (hello hk)

theorem timerKind_ne {j : Fin T.size} {k : TimerKind} (h : (j, k) ≠ (i, kind)) :
    timerKind j k (.timer i kind : NetEvent T M) = none := by
  refine if_neg ?_
  rintro ⟨rfl, rfl⟩
  exact h rfl

end Rearm

/-- A timer that has expired is scheduled. -/
theorem Mirrors.rearm (serves : K.Serves Lists) (hz : Horizon P limit W horizon) (live : Live Lists s l)
    {x : Fin T.size × TimerKind} (hx : x ∉ idle)
    (h : Mirrors P.link limit W (fun _ => False) (x :: idle) s w l timed)
    (room : s.impls.length + 5 < 2 ^ 32)
    (hbound : s.currentTs.toNat + horizon < 2 ^ 63) :
    ∃ s' w' l', P.rearm K (s, w) x = some (s', w') ∧ Live Lists s' l' ∧
      s'.impls.length = s.impls.length + 1 ∧ Same s s' ∧
      Mirrors P.link limit W (fun _ => False) idle s' w' l' (rearmed timed x) := by
  obtain ⟨i, kind⟩ := x
  have hidle := h.idles i kind List.mem_cons_self
  have hdelay := hz.timer i kind
  obtain ⟨ts, s', l', hs', habs, _, hnat, hlive, hsched⟩ :=
    live.schedule serves room (P.timerDelay i kind) (by omega) s.currentContext
      (NetEvent.timer i kind)
  have hstarts : ∀ j, select s' l' (startKind j) = select s l (startKind j) :=
    fun j => hsched.other _ rfl
  have htimer : select s' l' (timerKind i kind) = [(nextEvent s ts s.currentContext, ())] := by
    rw [hsched.behind (timerKind i kind) () (if_pos ⟨rfl, rfl⟩), hidle.timers]
    · rfl
    · rw [hidle.timers]
      intro x hx
      cases hx
  have hother : ∀ j k, (j, k) ≠ (i, kind) →
      select s' l' (timerKind j k) = select s l (timerKind j k) :=
    fun j k hne => hsched.other _ (timerKind_ne hne)
  refine ⟨s', w.setTimer i kind (nextEvent s ts s.currentContext).id, l', ?_, hlive, hsched.length,
    hsched.same, ?_⟩
  · rw [Program.rearm, timerSchedule, hidle.isExpired]
    simp [habs, hs']
  · refine ⟨?_, ?_, hsched.stop.trans h.stop, fun p _ => ?_, fun j k hjk => ?_, fun j k hjk => ?_⟩
    · rw [rearmed_now, hsched.currentTs]
      exact h.now
    · rw [rearmed_node]
      exact h.node
    · rw [rearmed_now, rearmed_chan, arrivals_congr (hsched.other _ rfl),
        completions_congr (hsched.other _ rfl)]
      exact h.carries p id
    · by_cases hself : (j, k) = (i, kind)
      · obtain ⟨rfl, rfl⟩ := Prod.mk.inj hself
        rw [setTimer_self]
        refine .scheduled ((hstarts j).trans hidle.starts) htimer rfl fun hk => ?_
        subst hk
        show Function.update timed.nextAudit j _ j = ts.toNat
        rw [Function.update_self, hnat, h.now]
        rfl
      · have hmem : (j, k) ∉ (i, kind) :: idle := fun hm => (List.mem_cons.mp hm).elim hself hjk
        rw [setTimer_ne _ hself]
        refine ((h.timers j k hmem).congr (hstarts j) (hother j k hself)).due fun hk => ?_
        subst hk
        exact rearmed_nextAudit_ne hself
    · have hself : (j, k) ≠ (i, kind) := fun hjk' => hx (hjk' ▸ hjk)
      rw [setTimer_ne _ hself]
      exact (h.idles j k (List.mem_cons_of_mem _ hjk)).congr hsched.same (hstarts j) (hother j k hself)

theorem Mirrors.rearms (serves : K.Serves Lists) (hz : Horizon P limit W horizon)
    {timers : List (Fin T.size × TimerKind)} (distinct : timers.Nodup) (live : Live Lists s l)
    (h : Mirrors P.link limit W (fun _ => False) timers s w l timed)
    (room : s.impls.length + timers.length + 5 < 2 ^ 32)
    (hbound : s.currentTs.toNat + horizon < 2 ^ 63) :
    ∃ s' w' l', timers.foldlM (P.rearm K) (s, w) = some (s', w') ∧ Live Lists s' l' ∧ Same s s' ∧
      Mirrors P.link limit W (fun _ => False) [] s' w' l' (timers.foldl rearmed timed) := by
  induction timers generalizing s w l timed with
  | nil => exact ⟨s, w, l, rfl, live, .refl s, h⟩
  | cons x timers ih =>
    obtain ⟨hx, hdistinct⟩ := List.nodup_cons.mp distinct
    rw [List.length_cons] at room
    obtain ⟨s₁, w₁, l₁, hrearm, hlive₁, hlen, hsame₁, hmirrors₁⟩ :=
      h.rearm serves hz live hx (by omega) hbound
    obtain ⟨s₂, w₂, l₂, hfold, hlive₂, hsame₂, hmirrors₂⟩ := ih hdistinct hlive₁ hmirrors₁
      (by omega) (by rw [hsame₁.currentTs]; exact hbound)
    refine ⟨s₂, w₂, l₂, ?_, hlive₂, hsame₁.trans hsame₂, hmirrors₂⟩
    rw [List.foldlM_cons, hrearm]
    exact hfold

/-- All that an event does, once its calls have been made. -/
theorem Mirrors.perform (serves : K.Serves Lists) (hz : Horizon P limit W horizon) (eff : Effect T σ M)
    (distinct : eff.timers.Nodup) (called : Called K Lists s eff.calls s' l')
    (h : Mirrors P.link limit W (fun _ => False) eff.timers s' eff.world l' timed)
    (room : s.impls.length + eff.calls.length + eff.timers.length + 5 < 2 ^ 32)
    (hbound : s.currentTs.toNat + horizon < 2 ^ 63) :
    ∃ st l, P.perform K s eff = some st ∧ Live Lists st.1 l ∧
      Mirrors P.link limit W (fun _ => False) [] st.1 st.2 l (eff.timers.foldl rearmed timed) := by
  obtain ⟨s'', w'', l'', hfold, hlive, _, hmirrors⟩ := h.rearms serves hz distinct called.live
    (by rw [called.length]; omega) (by rw [called.same.currentTs]; exact hbound)
  refine ⟨(s'', w''), l'', ?_, hlive, hmirrors⟩
  rw [Program.perform, called.runs]
  exact hfold


/-! ## The next event -/

section Take
variable {e : Event} {a : NetEvent T M} {events : S}

/-- The simulator has taken the event `e`, with the body `a`. -/
structure Taken (K : Scheduler S) (Lists : ℕ → S → List Event → Prop)
    (s : DefaultSimulatorImpl S (NetEvent T M)) (l : List Event) (e : Event) (a : NetEvent T M)
    (s₁ : DefaultSimulatorImpl S (NetEvent T M)) : Prop where
  processed : processOneEvent K s = some (e, s₁)
  invoked : invoke e.impl s = some a
  live : Live Lists s₁ l
  impls : s₁.impls = s.impls
  stop : s₁.stop = s.stop
  currentTs : s₁.currentTs = e.key.ts
  currentUid : s₁.currentUid = e.key.uid
  other : ∀ {β : Type} (kind : NetEvent T M → Option β), kind a = none →
    select s (e :: l) kind = select s₁ l kind
  head : ∀ {β : Type} (kind : NetEvent T M → Option β) (b : β), kind a = some b →
    select s (e :: l) kind = (e, b) :: select s₁ l kind
  /-- It is the first. -/
  past : s.currentTs ≤ e.key.ts
  first : ∀ x ∈ e :: l, e.key.ts.toNat ≤ x.key.ts.toNat

theorem Live.take (serves : K.Serves Lists) (live : Live Lists s (e :: l)) :
    ∃ a s₁, running K s = !s.stop ∧ Taken K Lists s l e a s₁ := by
  obtain ⟨log, hsim⟩ := live.simulates
  obtain ⟨events, hremove, hprocess, hsim'⟩ := hsim.process serves
  obtain ⟨_, _, hlists⟩ := hsim.lists
  obtain ⟨event, hscheduled⟩ := ((hsim.consistent.pending e).mp List.mem_cons_self).scheduled
  have hlt := hsim.consistent.impl_lt hscheduled
  have hget := List.getElem?_eq_getElem hlt
  have hcancel := live.uncancelled _ (List.getElem_mem hlt)
  have hbody : bodyOf s e = some s.impls[e.impl].notify := by rw [bodyOf, hget, Option.map_some]
  refine ⟨s.impls[e.impl].notify, s.started e events, ?_, hprocess, ?_, ⟨⟨_, hsim'⟩, live.uncancelled⟩,
    rfl, rfl, rfl, rfl, fun kind hkind => ?_, fun kind b hkind => ?_, ?_, fun x hx => ?_⟩
  · rw [running, serves.isEmpty hlists]
    rfl
  · rw [invoke, hget, Option.bind_some, hcancel]
    rfl
  · rw [select_cons hbody, hkind]
    rfl
  · rw [select_cons hbody, hkind]
    rfl
  · exact UInt64.not_lt.mp hsim.not_before
  · rcases List.mem_cons.mp hx with rfl | hx
    · exact le_rfl
    · have hrank := (List.pairwise_cons.mp hsim.consistent.agenda.sorted).1 x hx
      rw [Event.rank, Event.rank, Prod.Lex.toLex_lt_toLex] at hrank
      rcases hrank with hlt | ⟨heq, _⟩
      · exact hlt.le
      · exact heq.le

variable {s₁ : DefaultSimulatorImpl S (NetEvent T M)}

/-- The bounds on what the devices make a message wait. -/
def Program.delays (P : Program T σ M A) (W : ℕ) : Delays := ⟨P.link.delay, P.link.greatest W⟩

/-- Time may pass up to the next event. -/
theorem Mirrors.mayElapse (h : Mirrors P.link limit W (fun _ => False) [] s w (e :: l) timed)
    (taken : Taken K Lists s l e a s₁) :
    timed.MayElapse (P.delays W) (e.key.ts.toNat - timed.now) ∧
      timed.now + (e.key.ts.toNat - timed.now) = e.key.ts.toNat := by
  have hpast := UInt64.le_iff_toNat_le.mp taken.past
  have hnow : timed.now + (e.key.ts.toNat - timed.now) = e.key.ts.toNat := by
    rw [h.now]
    omega
  have hselected : ∀ {β : Type} (kind : NetEvent T M → Option β), ∀ x ∈ select s (e :: l) kind,
      e.key.ts.toNat ≤ x.1.key.ts.toNat := fun kind x hx => taken.first x.1 (mem_select hx).1
  refine ⟨⟨fun p => ?_, fun i => ?_⟩, hnow⟩
  · rw [hnow]
    refine (h.carries p id).due (fun x hx => ?_) fun c hc => ?_
    · obtain ⟨y, hy, rfl⟩ := List.mem_map.mp hx
      exact hselected _ y hy
    · obtain ⟨y, hy, rfl⟩ := List.mem_map.mp hc
      exact hselected _ y hy
  · rw [hnow]
    cases h.timers i .auditHellos List.not_mem_nil with
    | @start e' hstarts ts _ _ _ =>
      have hle := hselected (startKind i) (e', ()) (hstarts ▸ List.mem_cons_self)
      rw [ts] at hle
      exact hle.trans (Nat.zero_le _)
    | @scheduled e' _ htimers _ hello =>
      rw [hello rfl]
      exact hselected (timerKind i .auditHellos) (e', ()) (htimers ▸ List.mem_cons_self)

/-- What the next event is not about goes on. -/
theorem Mirrors.taken (h : Mirrors P.link limit W (fun _ => False) [] s w (e :: l) timed)
    (taken : Taken K Lists s l e a s₁)
    (ports : ∀ p, ¬ off p → completeKind p a = none ∧ receiveKind p a = none)
    (timers : ∀ i kind, (i, kind) ∉ idle → startKind i a = none ∧ timerKind i kind a = none)
    (idles : ∀ i kind, (i, kind) ∈ idle → TimerIdle s₁ l i kind (w.timer i kind)) :
    Mirrors P.link limit W off idle s₁ w l { timed with now := e.key.ts.toNat } := by
  have hle : timed.now ≤ e.key.ts.toNat := h.now ▸ UInt64.le_iff_toNat_le.mp taken.past
  refine ⟨?_, h.node, taken.stop.trans h.stop, fun p hp => ?_, fun i kind hik => ?_, idles⟩
  · rw [taken.currentTs]
  · obtain ⟨hcomplete, hreceive⟩ := ports p hp
    rw [arrivals_congr (taken.other _ hreceive).symm, completions_congr (taken.other _ hcomplete).symm]
    exact (h.carries p id).later hle
  · obtain ⟨hstart, htimer⟩ := timers i kind hik
    exact (h.timers i kind List.not_mem_nil).congr (taken.other _ hstart).symm
      (taken.other _ htimer).symm

/-- A timer that is started. -/
theorem TimerSet.started {i : Fin T.size} {kind : TimerKind} {id : EventId} {due : ℕ}
    (h : TimerSet s (e :: l) i kind id due) (taken : Taken K Lists s l e (.start i) s₁) :
    e.key.ts = 0 ∧ (kind = .auditHellos → due = milliSeconds (T.config i).helloTimeout) ∧
      TimerIdle s₁ l i kind id := by
  have hhead := taken.head (startKind i) () (if_pos rfl)
  cases h with
  | start hstarts ts htimers fresh hello =>
    rw [hstarts, List.cons.injEq, Prod.mk.injEq] at hhead
    obtain ⟨⟨rfl, _⟩, hrest⟩ := hhead
    exact ⟨ts, hello, hrest.symm, (taken.other _ rfl).symm.trans htimers, Or.inl fresh⟩
  | scheduled hstarts _ _ _ =>
    rw [hstarts] at hhead
    cases hhead

/-- A timer that fires. -/
theorem TimerSet.fired {i : Fin T.size} {kind : TimerKind} {id : EventId} {due : ℕ}
    (h : TimerSet s (e :: l) i kind id due) (taken : Taken K Lists s l e (.timer i kind) s₁) :
    (kind = .auditHellos → due = e.key.ts.toNat) ∧ TimerIdle s₁ l i kind id := by
  have hhead := taken.head (timerKind i kind) () (if_pos ⟨rfl, rfl⟩)
  cases h with
  | start _ _ htimers _ _ =>
    rw [htimers] at hhead
    cases hhead
  | scheduled hstarts htimers here hello =>
    rw [htimers, List.cons.injEq, Prod.mk.injEq] at hhead
    obtain ⟨⟨rfl, _⟩, hrest⟩ := hhead
    refine ⟨hello, (taken.other _ rfl).symm.trans hstarts, hrest.symm, Or.inr ⟨?_, ?_⟩⟩
    · rw [here, taken.currentTs]
      rfl
    · rw [here, taken.currentUid]
      rfl

end Take

/-! ## The bodies of the events -/

/-- The effect of an event, if it fits, leads to the network `timed`. -/
def LeadsTo (P : Program T σ M A) (K : Scheduler S) (Lists : ℕ → S → List Event → Prop)
    (limit W horizon : ℕ) (s : DefaultSimulatorImpl S (NetEvent T M)) (eff : Effect T σ M)
    (timed : TimedNet T σ M) : Prop :=
  (∀ p, (eff.world.device p).totalDroppedPackets = 0) → (∀ m ∈ eff.handed, P.link.size m ≤ limit) →
    s.impls.length + eff.calls.length + eff.timers.length + 5 < 2 ^ 32 →
    s.currentTs.toNat + horizon < 2 ^ 63 →
    ∃ st l, P.perform K s eff = some st ∧ Live Lists st.1 l ∧
      Mirrors P.link limit W (fun _ => False) [] st.1 st.2 l timed

/-- A node goes to a new state and posts its packets. -/
theorem Mirrors.react (serves : K.Serves Lists) (hz : Horizon P limit W horizon) (live : Live Lists s l)
    {timers : List (Fin T.size × TimerKind)} (distinct : timers.Nodup)
    (h : Mirrors P.link limit W (fun _ => False) timers s w l timed) (i : Fin T.size)
    (res : σ × List (Ipv4Address × M)) :
    ∃ eff, P.react i res timers w = some eff ∧
      LeadsTo P K Lists limit W horizon s eff (timers.foldl rearmed (timed.apply i res)) := by
  obtain ⟨sent, hsend, _⟩ := P.sendPackets_some i res.2 w.device
  refine ⟨_, congrArg (Option.map _) hsend, fun kept fits room hbound => ?_⟩
  obtain ⟨s', l', hcalled, hmirrors⟩ :=
    h.sendPackets serves hz i res.2 live hsend fits kept (by dsimp only at room; omega) hbound
  have hnode : Mirrors P.link limit W (fun _ => False) timers s'
      { w with node := Function.update w.node i res.1, device := sent.device } l' (timed.apply i res) :=
    ⟨hmirrors.now, congrArg (fun node : Fin T.size → σ => Function.update node i res.1) hmirrors.node,
      hmirrors.stop, hmirrors.carries, hmirrors.timers, hmirrors.idles⟩
  exact Mirrors.perform serves hz ⟨_, sent.calls, timers, _⟩ distinct hcalled hnode room hbound

section Bodies
variable {e : Event} {s₁ : DefaultSimulatorImpl S (NetEvent T M)}

/-- `DoStart` schedules the timers. -/
theorem Mirrors.start (serves : K.Serves Lists) (hz : Horizon P limit W horizon)
    (h : Mirrors P.link limit W (fun _ => False) [] s w (e :: l) timed) {i : Fin T.size}
    (taken : Taken K Lists s l e (.start i) s₁) :
    ∃ eff, P.effect e.key.ts.toNat w (.start i) = some eff ∧
      LeadsTo P K Lists limit W horizon s₁ eff { timed with now := e.key.ts.toNat } := by
  have htimer := fun kind => (h.timers i kind List.not_mem_nil).started taken
  have hmirrors : Mirrors P.link limit W (fun _ => False) [(i, .auditPings), (i, .auditHellos)] s₁ w l
      { timed with now := e.key.ts.toNat } := by
    refine h.taken taken (fun p _ => ⟨rfl, rfl⟩) (fun j kind hj => ⟨if_neg ?_, rfl⟩) fun j kind hj => ?_
    · rintro rfl
      cases kind <;> simp at hj
    · have hji : j = i := by
        rcases List.mem_cons.mp hj with hj | hj
        · exact (Prod.mk.inj hj).1
        · exact (Prod.mk.inj (List.mem_singleton.mp hj)).1
      subst hji
      exact (htimer kind).2.2
  refine ⟨_, rfl, fun _ _ room hbound => ?_⟩
  obtain ⟨st, l', hperform, hlive, hfinal⟩ := Mirrors.perform serves hz
    ⟨w, [], [(i, .auditPings), (i, .auditHellos)], []⟩ (by simp) ⟨rfl, taken.live, rfl, .refl s₁⟩
    hmirrors room hbound
  obtain ⟨hts, hhello, _⟩ := htimer .auditHellos
  -- the timers start at time 0, with what `timed` says already
  have hsame : TimedNet.schedule { timed with now := e.key.ts.toNat } i =
      { timed with now := e.key.ts.toNat } := by
    have hupdate : Function.update timed.nextAudit i
        (e.key.ts.toNat + milliSeconds (T.config i).helloTimeout) = timed.nextAudit := by
      rw [hts, ← hhello rfl]
      show Function.update timed.nextAudit i (0 + timed.nextAudit i) = _
      rw [Nat.zero_add, Function.update_eq_self]
    rw [TimedNet.schedule]
    dsimp only
    rw [hupdate]
  refine ⟨st, l', hperform, hlive, ?_⟩
  have hfold : [(i, TimerKind.auditPings), (i, .auditHellos)].foldl rearmed
      { timed with now := e.key.ts.toNat } = { timed with now := e.key.ts.toNat } := hsame
  rw [← hfold]
  exact hfinal

theorem exists_of_defined {α β γ : Type} {x : Option α} {f : α → β} {g : α → Option γ}
    (h : (x.map f).isSome ∨ (x >>= g).isSome) : ∃ a, x = some a := by
  rw [Option.isSome_map] at h
  exact Option.isSome_iff_exists.mp (h.elim id Option.isSome_of_isSome_bind)

theorem Mirrors.fired (h : Mirrors P.link limit W (fun _ => False) [] s w (e :: l) timed)
    {i : Fin T.size}
    {kind : TimerKind} (taken : Taken K Lists s l e (.timer i kind) s₁) :
    Mirrors P.link limit W (fun _ => False) [(i, kind)] s₁ w l
      { timed with now := e.key.ts.toNat } := by
  refine h.taken taken (fun p _ => ⟨rfl, rfl⟩) (fun j k hj => ⟨rfl, timerKind_ne fun hjk => ?_⟩)
    fun j k hj => ?_
  · exact hj (hjk ▸ List.mem_singleton_self _)
  · obtain ⟨rfl, rfl⟩ := Prod.mk.inj (List.mem_singleton.mp hj)
    exact ((h.timers j k List.not_mem_nil).fired taken).2

/-- `AuditPings`. -/
theorem Mirrors.auditPings (serves : K.Serves Lists) (hz : Horizon P limit W horizon)
    (h : Mirrors P.link limit W (fun _ => False) [] s w (e :: l) timed) {i : Fin T.size}
    (taken : Taken K Lists s l e (.timer i .auditPings) s₁) :
    ∃ eff, P.effect e.key.ts.toNat w (.timer i .auditPings) = some eff ∧
      LeadsTo P K Lists limit W horizon s₁ eff { timed with now := e.key.ts.toNat } :=
  ⟨_, rfl, fun _ _ room hbound => Mirrors.perform serves hz ⟨w, [], [(i, .auditPings)], []⟩ (by simp)
    ⟨rfl, taken.live, rfl, .refl s₁⟩ (h.fired taken) room hbound⟩

/-- `AuditHellos`, where it has a result in one of the two. -/
theorem Mirrors.auditHellos (serves : K.Serves Lists) (hz : Horizon P limit W horizon)
    (h : Mirrors P.link limit W (fun _ => False) [] s w (e :: l) timed) {i : Fin T.size}
    (taken : Taken K Lists s l e (.timer i .auditHellos) s₁)
    (defined : (timedStep P.control P.auditHellos (P.delays W) { timed with now := e.key.ts.toNat }
      (.auditHellos i)).isSome ∨ (P.effect e.key.ts.toNat w (.timer i .auditHellos)).isSome) :
    ∃ eff timed', P.effect e.key.ts.toNat w (.timer i .auditHellos) = some eff ∧
      timedStep P.control P.auditHellos (P.delays W) { timed with now := e.key.ts.toNat }
        (.auditHellos i) = some timed' ∧ LeadsTo P K Lists limit W horizon s₁ eff timed' := by
  have hdue := ((h.timers i .auditHellos List.not_mem_nil).fired taken).1 rfl
  have hstep : timedStep P.control P.auditHellos (P.delays W) { timed with now := e.key.ts.toNat }
      (.auditHellos i) = (P.control.act (T.config i) (P.auditHellos (getMilliSeconds e.key.ts.toNat))
        (w.node i)).map fun res =>
          (TimedNet.apply { timed with now := e.key.ts.toNat } i res).schedule i := by
    rw [timedStep, if_pos (show timed.nextAudit i = e.key.ts.toNat from hdue), h.node]
  rw [hstep, Program.effect] at defined
  obtain ⟨res, hact⟩ := exists_of_defined defined
  obtain ⟨eff, hreact, hleads⟩ :=
    (h.fired taken).react serves hz taken.live (List.nodup_singleton _) i res
  exact ⟨eff, _, Option.bind_eq_some_iff.mpr ⟨res, hact, hreact⟩, by rw [hstep, hact]; rfl, hleads⟩

theorem Mirrors.completed (serves : K.Serves Lists) (hz : Horizon P limit W horizon)
    (h : Mirrors P.link limit W (fun _ => False) [] s w (e :: l) timed) {p : T.Port}
    (taken : Taken K Lists s l e (.transmitComplete p) s₁) :
    ∃ eff, P.effect e.key.ts.toNat w (.transmitComplete p) = some eff ∧
      LeadsTo P K Lists limit W horizon s₁ eff { timed with now := e.key.ts.toNat } := by
  have hmirrors : Mirrors P.link limit W (· = p) [] s₁ w l { timed with now := e.key.ts.toNat } :=
    h.taken taken (fun q hq => ⟨if_neg (Ne.symm hq), rfl⟩) (fun _ _ _ => ⟨rfl, rfl⟩)
      fun _ _ hi => by cases hi
  have hcarries := (h.carries p id).later (h.now ▸ UInt64.le_iff_toNat_le.mp taken.past)
  have hcompletions : completions s (e :: l) p = e.key.ts.toNat :: completions s₁ l p := by
    rw [completions, taken.head (completeKind p) () (if_pos rfl), List.map_cons]
    rfl
  rw [arrivals_congr (taken.other (receiveKind p) rfl), hcompletions] at hcarries
  have hfree : completions s₁ l p = [] := hcarries.one
  rw [hfree] at hcarries
  obtain ⟨d', calls, hcomplete, _, hnext⟩ := hmirrors.transmitComplete serves taken.live hz hfree
    hcarries
  refine ⟨_, congrArg (Option.map _) hcomplete, fun _ _ room hbound => ?_⟩
  obtain ⟨s', l', hcalled, hmirrors'⟩ := hnext (by dsimp only at room; omega) hbound
  exact Mirrors.perform serves hz ⟨_, calls, [], []⟩ List.nodup_nil hcalled hmirrors' room hbound

/-- A message arrives, no sooner than it may. -/
theorem Mirrors.received (serves : K.Serves Lists) (hz : Horizon P limit W horizon)
    (h : Mirrors P.link limit W (fun _ => False) [] s w (e :: l) timed) {p : T.Port} {m : M}
    (taken : Taken K Lists s l e (.receive p m) s₁)
    (defined : (timedStep P.control P.auditHellos (P.delays W) { timed with now := e.key.ts.toNat }
      (.deliver p)).isSome ∨ (P.effect e.key.ts.toNat w (.receive p m)).isSome) :
    ∃ eff timed', P.effect e.key.ts.toNat w (.receive p m) = some eff ∧
      timedStep P.control P.auditHellos (P.delays W) { timed with now := e.key.ts.toNat }
        (.deliver p) = some timed' ∧ LeadsTo P K Lists limit W horizon s₁ eff timed' := by
  have hmirrors : Mirrors P.link limit W (· = p) [] s₁ w l { timed with now := e.key.ts.toNat } :=
    h.taken taken (fun q hq => ⟨rfl, if_neg (Ne.symm hq)⟩) (fun _ _ _ => ⟨rfl, rfl⟩)
      fun _ _ hi => by cases hi
  have hcarries := (h.carries p id).later (h.now ▸ UInt64.le_iff_toNat_le.mp taken.past)
  have harrivals : arrivals s (e :: l) p = (e.key.ts.toNat, m) :: arrivals s₁ l p := by
    rw [arrivals, taken.head (receiveKind p) m (if_pos rfl), List.map_cons]
    rfl
  rw [harrivals, completions_congr (taken.other (completeKind p) rfl)] at hcarries
  obtain ⟨sent, rest, hchan, hleast, hrest⟩ := hcarries.arrive
  have hport := hmirrors.port (fun _ hq => hq) (.refl s₁) (fun _ _ => rfl) hrest
  rw [Function.update_eq_self] at hport
  have hstep : timedStep P.control P.auditHellos (P.delays W) { timed with now := e.key.ts.toNat }
      (.deliver p) = (P.control.recv (T.config (T.owner (peer p))) (getMilliSeconds e.key.ts.toNat)
        (T.socket (peer p)) m (w.node (T.owner (peer p)))).map
          ((TimedNet.setChan { timed with now := e.key.ts.toNat } p rest).apply (T.owner (peer p))) := by
    rw [timedStep, hchan]
    dsimp only
    rw [if_pos (show sent + (P.delays W).least ≤ e.key.ts.toNat from hleast), h.node]
  rw [hstep, Program.effect] at defined
  obtain ⟨res, hrecv⟩ := exists_of_defined defined
  obtain ⟨eff, hreact, hleads⟩ :=
    hport.react serves hz taken.live List.nodup_nil (T.owner (peer p)) res
  exact ⟨eff, _, Option.bind_eq_some_iff.mpr ⟨res, hrecv, hreact⟩, by rw [hstep, hrecv]; rfl, hleads⟩

/-- The step of the network with a clock that the event is. -/
def stepsOf : NetEvent T M → List (TimedLabel T)
  | .timer i .auditHellos => [.auditHellos i]
  | .receive p _ => [.deliver p]
  | _ => []

/-- **The body of every event.** Where it has a result in one of the two, it has
one in both. -/
theorem Mirrors.body (serves : K.Serves Lists) (hz : Horizon P limit W horizon)
    (h : Mirrors P.link limit W (fun _ => False) [] s w (e :: l) timed) {a : NetEvent T M}
    (taken : Taken K Lists s l e a s₁)
    (defined : (run (timedStep P.control P.auditHellos (P.delays W))
      { timed with now := e.key.ts.toNat } (stepsOf a)).isSome ∨
        (P.effect e.key.ts.toNat w a).isSome) :
    ∃ eff timed', P.effect e.key.ts.toNat w a = some eff ∧
      run (timedStep P.control P.auditHellos (P.delays W)) { timed with now := e.key.ts.toNat }
        (stepsOf a) = some timed' ∧ LeadsTo P K Lists limit W horizon s₁ eff timed' := by
  cases a with
  | start i =>
    obtain ⟨eff, heff, hleads⟩ := h.start serves hz taken
    exact ⟨eff, _, heff, rfl, hleads⟩
  | timer i kind =>
    cases kind with
    | auditPings =>
      obtain ⟨eff, heff, hleads⟩ := h.auditPings serves hz taken
      exact ⟨eff, _, heff, rfl, hleads⟩
    | auditHellos =>
      rw [stepsOf, run_one] at defined ⊢
      exact h.auditHellos serves hz taken defined
  | transmitComplete p =>
    obtain ⟨eff, heff, hleads⟩ := h.completed serves hz taken
    exact ⟨eff, _, heff, rfl, hleads⟩
  | receive p m =>
    rw [stepsOf, run_one] at defined ⊢
    exact h.received serves hz taken defined

end Bodies


/-! ## Rounds of the loop -/

/-- In the next event no device drops a packet, no message has more than `limit`
bytes, and there is room for what it schedules. -/
def Program.Spare (P : Program T σ M A) (K : Scheduler S) (limit horizon : ℕ) (st : Running S T σ M) :
    Prop :=
  ∀ e s₁ a eff, processOneEvent K st.1 = some (e, s₁) → invoke e.impl st.1 = some a →
    P.effect e.key.ts.toNat st.2 a = some eff →
    (∀ p, (eff.world.device p).totalDroppedPackets = 0) ∧ (∀ m ∈ eff.handed, P.link.size m ≤ limit) ∧
      st.1.impls.length + eff.calls.length + eff.timers.length + 5 < 2 ^ 32 ∧
      e.key.ts.toNat + horizon < 2 ^ 63

/-- There is always an event: the timers of the nodes. -/
theorem Mirrors.exists_event (h : Mirrors P.link limit W (fun _ => False) [] s w l timed)
    (nodes : 0 < T.size) :
    ∃ e rest, l = e :: rest := by
  cases l with
  | cons e rest => exact ⟨e, rest, rfl⟩
  | nil =>
    cases h.timers ⟨0, nodes⟩ .auditHellos List.not_mem_nil with
    | start starts _ _ _ _ => cases starts
    | scheduled _ timers _ _ => cases timers

/-- **One round of the loop of `Run`**: time passes up to the next event, and
then a node handles a message or its timer, or nothing happens that the network
with a clock sees. -/
theorem Mirrors.step (serves : K.Serves Lists) (hz : Horizon P limit W horizon) (nodes : 0 < T.size)
    (live : Live Lists s l) (h : Mirrors P.link limit W (fun _ => False) [] s w l timed)
    (defined : (∀ labs, (run (timedStep P.control P.auditHellos (P.delays W)) timed labs).isSome) ∨
      (P.eventStep K (s, w) ()).isSome) (spare : P.Spare K limit horizon (s, w)) :
    ∃ st l' labs timed', P.eventStep K (s, w) () = some st ∧
      run (timedStep P.control P.auditHellos (P.delays W)) timed labs = some timed' ∧
      Live Lists st.1 l' ∧ Mirrors P.link limit W (fun _ => False) [] st.1 st.2 l' timed' := by
  obtain ⟨e, l, rfl⟩ := h.exists_event nodes
  obtain ⟨a, s₁, hrunning, taken⟩ := live.take serves
  obtain ⟨may, hnow⟩ := h.mayElapse taken
  have hcons : ∀ labs, run (timedStep P.control P.auditHellos (P.delays W)) timed
      (.elapse (e.key.ts.toNat - timed.now) :: labs) =
        run (timedStep P.control P.auditHellos (P.delays W)) { timed with now := e.key.ts.toNat }
          labs := by
    intro labs
    rw [run, List.foldlM_cons, timedStep, if_pos may, hnow]
    rfl
  have hround : P.eventStep K (s, w) () = P.effect e.key.ts.toNat w a >>= P.perform K s₁ := by
    simp [Program.eventStep, hrunning, h.stop, taken.processed, taken.invoked, taken.currentTs]
  obtain ⟨eff, timed', heff, hrun, hleads⟩ := h.body serves hz taken <| by
    rcases defined with hdefined | hdefined
    · exact Or.inl (hcons _ ▸ hdefined (.elapse (e.key.ts.toNat - timed.now) :: stepsOf a))
    · rw [hround] at hdefined
      exact Or.inr (Option.isSome_of_isSome_bind hdefined)
  obtain ⟨kept, fits, room, hbound⟩ := spare e s₁ a eff taken.processed taken.invoked heff
  obtain ⟨st, l', hperform, hlive, hmirrors⟩ :=
    hleads kept fits (by rw [taken.impls]; exact room) (by rw [taken.currentTs]; exact hbound)
  refine ⟨st, l', .elapse (e.key.ts.toNat - timed.now) :: stepsOf a, timed', ?_,
    (hcons _).trans hrun, hlive, hmirrors⟩
  rw [hround, heff]
  exact hperform

/-! ## The start -/

/-- The starts of these nodes, and nothing else, are scheduled. -/
structure Starting (Lists : ℕ → S → List Event → Prop) (s : DefaultSimulatorImpl S (NetEvent T M))
    (l : List Event) (nodes : List (Fin T.size)) : Prop where
  live : Live Lists s l
  stop : s.stop = false
  currentTs : s.currentTs = 0
  length : s.impls.length = nodes.length
  waiting : ∀ i, i ∉ nodes → select s l (startKind i) = []
  starts : ∀ i, i ∈ nodes → ∃ e : Event, select s l (startKind i) = [(e, ())] ∧ e.key.ts = 0
  other : ∀ {β : Type} (kind : NetEvent T M → Option β), (∀ i, kind (.start i) = none) →
    select s l kind = []

theorem Starting.create (serves : K.Serves Lists) :
    Starting Lists (create K (NetEvent T M)) [] ([] : List (Fin T.size)) where
  live := ⟨⟨[], ⟨0, Nat.zero_le _, serves.create⟩, Consistent.create K⟩, fun _ hi => by cases hi⟩
  stop := rfl
  currentTs := rfl
  length := rfl
  waiting _ _ := rfl
  starts _ hi := by cases hi
  other _ _ := rfl

theorem Starting.snoc (serves : K.Serves Lists) {nodes : List (Fin T.size)}
    (h : Starting Lists s l nodes)
    {i : Fin T.size} (hi : i ∉ nodes) (room : nodes.length + 5 < 2 ^ 32) :
    ∃ s' l', callStep K s (.scheduleWithContext (UInt32.ofNat i) 0 (.start i)) = some s' ∧
      Starting Lists s' l' (nodes ++ [i]) := by
  obtain ⟨ts, s', l', hs', _, hsum, hnat, hlive, hsched⟩ := h.live.schedule serves
    (by rw [h.length]; exact room) 0 (by rw [h.currentTs]; simp) (UInt32.ofNat i) (NetEvent.start i)
  have hts : ts = 0 := by
    rw [h.currentTs] at hnat
    exact UInt64.toNat_inj.mp hnat
  refine ⟨s', l', ?_, hlive, hsched.stop.trans h.stop, hsched.currentTs.trans h.currentTs, ?_,
    fun j hj => ?_, fun j hj => ?_, fun kind hkind => ?_⟩
  · rw [callStep, scheduleWithContext]
    exact hsum ▸ hs'
  · rw [hsched.length, h.length, List.length_append, List.length_singleton]
  · rw [List.mem_append, List.mem_singleton, not_or] at hj
    rw [hsched.other (startKind j) (if_neg (Ne.symm hj.2))]
    exact h.waiting j hj.1
  · by_cases hji : j = i
    · subst hji
      refine ⟨nextEvent s ts (UInt32.ofNat j), ?_, hts⟩
      rw [hsched.behind (startKind j) () (if_pos rfl), h.waiting j hi]
      · rfl
      · rw [h.waiting j hi]
        intro x hx
        cases hx
    · obtain ⟨e, he, hzero⟩ := h.starts j ((List.mem_append.mp hj).resolve_right (by simpa using hji))
      exact ⟨e, (hsched.other (startKind j) (if_neg (Ne.symm hji))).trans he, hzero⟩
  · rw [hsched.other kind (hkind i)]
    exact h.other kind hkind

theorem Starting.all (serves : K.Serves Lists) (rest : List (Fin T.size)) {nodes : List (Fin T.size)}
    (h : Starting Lists s l nodes) (distinct : (nodes ++ rest).Nodup)
    (room : (nodes ++ rest).length + 5 < 2 ^ 32) :
    ∃ s' l', (rest.map fun i : Fin T.size =>
        Call.scheduleWithContext (UInt32.ofNat i) 0 (NetEvent.start (M := M) i)).foldlM (callStep K) s =
          some s' ∧ Starting Lists s' l' (nodes ++ rest) := by
  induction rest generalizing s l nodes with
  | nil => exact ⟨s, l, rfl, by simpa using h⟩
  | cons i rest ih =>
    rw [List.append_cons] at distinct room ⊢
    have hi : i ∉ nodes := by
      have hfront := List.Nodup.of_append_left distinct
      exact fun hmem => (List.nodup_append.mp hfront).2.2 i hmem i (List.mem_singleton_self i) rfl
    obtain ⟨s₁, l₁, hs₁, hstarting⟩ := h.snoc serves hi (by simp at room; omega)
    obtain ⟨s₂, l₂, hs₂, hall⟩ := ih hstarting distinct room
    refine ⟨s₂, l₂, ?_, hall⟩
    rw [List.map_cons, List.foldlM_cons, hs₁]
    exact hs₂

/-- Before the first round. -/
theorem Mirrors.starts (serves : K.Serves Lists) (node : Fin T.size → σ) :
    ∃ st l, runningStart (M := M) K node = some st ∧ Live Lists st.1 l ∧
      Mirrors P.link limit W (fun _ => False) [] st.1 st.2 l (.start T node) := by
  obtain ⟨s, l, hs, hstarting⟩ := (Starting.create (T := T) (M := M) serves).all serves
    (List.finRange T.size) (by simpa using List.nodup_finRange T.size)
    (by have := T.size_lt; simp only [List.nil_append, List.length_finRange]; omega)
  refine ⟨(s, worldStart node), l, ?_, hstarting.live, ?_, rfl, hstarting.stop, fun p _ => ?_,
    fun i kind _ => ?_, fun _ _ hi => by cases hi⟩
  · rw [runningStart, startEvents, hs]
    rfl
  · rw [hstarting.currentTs]
    rfl
  · have harrivals : arrivals s l p = [] := by rw [arrivals, hstarting.other _ fun _ => rfl]; rfl
    have hcompletions : completions s l p = [] :=
      by rw [completions, hstarting.other _ fun _ => rfl]; rfl
    rw [harrivals, hcompletions]
    exact .ready (fun _ hx => by cases hx) .nil fun _ ha => by cases ha
  · obtain ⟨e, he, hts⟩ := hstarting.starts i (by simp)
    exact .start he hts (hstarting.other _ fun _ => rfl) rfl fun _ => rfl

/-- The network with a clock that the simulator has run is in this state. -/
def Mirrored (P : Program T σ M A) (Lists : ℕ → S → List Event → Prop) (limit W : ℕ)
    (node : Fin T.size → σ) (st : Running S T σ M) : Prop :=
  ∃ l labs timed,
    run (timedStep P.control P.auditHellos (P.delays W)) (.start T node) labs = some timed ∧
      Live Lists st.1 l ∧ Mirrors P.link limit W (fun _ => False) [] st.1 st.2 l timed

section Runs
variable {node : Fin T.size → σ} {st₀ : Running S T σ M}

theorem Mirrored.start (serves : K.Serves Lists) (limit W : ℕ) (node : Fin T.size → σ) :
    ∃ st₀, runningStart K node = some st₀ ∧ Mirrored P Lists limit W node st₀ := by
  obtain ⟨st₀, l, hst₀, hlive, hmirrors⟩ := Mirrors.starts (P := P) (W := W) serves node
  exact ⟨st₀, hst₀, l, [], _, rfl, hlive, hmirrors⟩

/-- What is seen of it. -/
theorem Mirrored.network {st : Running S T σ M} (h : Mirrored P Lists limit W node st) : ∃ labs timed,
    run (timedStep P.control P.auditHellos (P.delays W)) (.start T node) labs = some timed ∧
      timed.now = st.1.currentTs.toNat ∧ timed.node = st.2.node := by
  obtain ⟨_, labs, timed, hlabs, _, hmirrors⟩ := h
  exact ⟨labs, timed, hlabs, hmirrors.now, hmirrors.node⟩

theorem Mirrored.step (serves : K.Serves Lists) (hz : Horizon P limit W horizon) (nodes : 0 < T.size)
    {st : Running S T σ M} (h : Mirrored P Lists limit W node st)
    (defined :
      (∀ labs, (run (timedStep P.control P.auditHellos (P.delays W)) (.start T node) labs).isSome) ∨
      (P.eventStep K st ()).isSome) (spare : P.Spare K limit horizon st) :
    ∃ st', P.eventStep K st () = some st' ∧ Mirrored P Lists limit W node st' := by
  obtain ⟨l, labs, timed, hlabs, hlive, hmirrors⟩ := h
  have hdefined : (∀ more, (run (timedStep P.control P.auditHellos (P.delays W)) timed more).isSome) ∨
      (P.eventStep K st ()).isSome := by
    refine defined.imp_left fun hall more => ?_
    obtain ⟨t, ht⟩ := Option.isSome_iff_exists.mp (hall (labs ++ more))
    obtain ⟨t', ht', hmore⟩ := run_append.mp ht
    obtain rfl := Option.some.inj (hlabs.symm.trans ht')
    rw [hmore, Option.isSome_some]
  obtain ⟨st', l', more, timed', hst', hmore, hlive', hmirrors'⟩ :=
    hmirrors.step serves hz nodes hlive hdefined spare
  exact ⟨st', hst', l', labs ++ more, timed', run_append.mpr ⟨timed, hlabs, hmore⟩, hlive', hmirrors'⟩

end Runs

/-! ## Checking a given run -/

def Program.spare (P : Program T σ M A) (K : Scheduler S) (limit horizon : ℕ) (st : Running S T σ M) :
    Bool :=
  (processOneEvent K st.1).all fun x => (invoke x.1.impl st.1).all fun a =>
    (P.effect x.1.key.ts.toNat st.2 a).all fun eff =>
      (List.finRange T.links).all (fun l => (eff.world.device (l, false)).totalDroppedPackets == 0 &&
        (eff.world.device (l, true)).totalDroppedPackets == 0) &&
      decide ((∀ m ∈ eff.handed, P.link.size m ≤ limit) ∧
        st.1.impls.length + eff.calls.length + eff.timers.length + 5 < 2 ^ 32 ∧
        x.1.key.ts.toNat + horizon < 2 ^ 63)

end Mirrors

end Ns3Routing.Sim
