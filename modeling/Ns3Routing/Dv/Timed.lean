import Ns3Routing.Timed
import Ns3Routing.Dv.Forwarding

/-! # Distance vectors in time

The nodes start together, and every message takes at least a millisecond and
less than `m_helloTimeout`. Then no neighbour times out, so that the network is
a static one (`Timely`); and what a node knows of a destination travels one hop
in the time a message takes at most (`Relayed`). -/

namespace Ns3Routing.Dv

open Lib Ns3Routing.Topology

abbrev TimedDvNet (T : Topology) := TimedNet T Node DVMessage

/-! ## The hello timer -/

section Beat
variable {T : Topology} {i : Fin T.size} {n n' : Node} {out : Packets}

theorem hears_originator {m : DVMessage} (h : m.originatorAddress = (T.config i).mainAddress) :
    dvHearing.OnlyOf T i m := by
  intro j n K hK
  simp only [dvHearing, hearsNeighbor, h, reverseLookup_main] at hK
  split at hK
  · exact (Option.some.inj hK).symm
  · split at hK
    · cases hK
    · exact (Option.some.inj hK).symm

/-- Every message names the node that sends it. -/
theorem originator_of_handle {e : Event} (hI : Inv (T.config i) n)
    (h : handle (T.config i) n e = some (n', out)) :
    ∀ x ∈ out, x.2.originatorAddress = (T.config i).mainAddress := by
  intro x hx
  rcases handle_cases hI.tables.keyed h with ⟨_, _, rfl⟩ | ⟨_, _, _, _, rounds, rfl, _⟩
  · exact (helloPackets_from hx).1
  · rcases List.mem_append.mp hx with hx | hx
    · exact (helloPackets_from hx).1
    · obtain ⟨_, _, hx⟩ := List.mem_flatMap.mp hx
      exact (of_mem_dvRound hx).1

theorem hello_on_port {now : ℕ} (hI : Inv (T.config i) n)
    (h : auditHellos (T.config i) now n = some (n', out)) {p : T.Port} (hp : T.owner p = i) :
    ∃ m ∈ Net.onPort T i out p, dvHearing.HelloOf T i m := by
  subst hp
  have hhello : ∃ m, m ∈ Net.onPort T (T.owner p) (helloPackets (T.config (T.owner p)) n
      (.auditHellos now)) p ∧ dvHearing.HelloOf T (T.owner p) m := by
    rw [helloPackets, sendHello, Net.onPort_broadcastPacket]
    refine ⟨_, List.mem_singleton_self _, ?_⟩
    intro j n'
    simp [dvHearing, hearsNeighbor]
  obtain ⟨m, hm, hof⟩ := hhello
  have hevent : handle (T.config (T.owner p)) n (.auditHellos now) = some (n', out) := h
  rcases handle_cases hI.tables.keyed hevent with ⟨_, _, rfl⟩ | ⟨_, _, _, _, rounds, rfl, _⟩
  · exact ⟨m, hm, hof⟩
  · refine ⟨m, ?_, hof⟩
    rw [Net.onPort_append]
    exact List.mem_append_left _ hm

def dvBeat : Beat dvHearing where
  auditHellos := .auditHellos
  audit_eq _ := rfl
  hello hI h _ hp := hello_on_port hI h hp
  only hI h x hx := by
    obtain ⟨e₀, hh, _⟩ := dvControl_handle h
    exact hears_originator (originator_of_handle hI hh x hx)

end Beat

/-! ## A static network -/

abbrev dvTimedStep (T : Topology) (D : Delays) (s : TimedDvNet T) (lab : TimedLabel T) :
    Option (TimedDvNet T) := timedStep dvControl dvBeat.auditHellos D s lab

/-- The nodes as `DoStart` leaves them. -/
def timedStart (T : Topology) (sequenceNumber : Fin T.size → UInt32) : TimedDvNet T :=
  .start T fun i => doStart (T.config i) (sequenceNumber i)

/-- What holds when all nodes have sent their first hello. -/
structure Running (T : Topology) (s : DvNet T) : Prop where
  synced : Synced T s
  sound : Sound T s
  own : ∀ i, HasOwn (T.config i) (s.node i)

structure Timely (T : Topology) (ms : ℕ) (D : Delays) (sequenceNumber : Fin T.size → UInt32)
    (s : TimedDvNet T) : Prop where
  punctual : Punctual dvHearing T (milliSeconds ms) D s
  phase : Waking T (milliSeconds ms) (fun i => doStart (T.config i) (sequenceNumber i))
    (netStart T sequenceNumber).node (netStart T sequenceNumber).chan s ∨ Running T s.net

section Timely
variable {T : Topology} {ms : ℕ} {D : Delays} {sequenceNumber : Fin T.size → UInt32}
  {s s' : TimedDvNet T}

theorem Running.start (T : Topology) (sequenceNumber : Fin T.size → UInt32) :
    Running T (netStart T sequenceNumber) :=
  ⟨Synced.start T _, Sound.start T _, fun _ => Or.inl rfl⟩

theorem Running.step {s s' : DvNet T} {l : Label T} (h : Running T s) (hl : Static T s l)
    (hst : netStep T s l = some s') : Running T s' := by
  refine ⟨h.synced.step hl hst, ?_, h.synced.named.hasOwn_step h.own (netStep_cases hst)⟩
  rcases h.synced.named.acts hl hst with rfl | ⟨i, ev, s₁, n', out, ha, rfl, _⟩
  · exact h.sound
  · exact ha.sound h.synced.named h.sound

/-- A step is one of the network without its times, which loses nothing, or
time elapses. -/
theorem netStep_of_timed (hst : TimedStep dvControl dvBeat.auditHellos D s s') :
    s'.net = s.net ∨ ∃ l, netStep T s.net l = some s'.net ∧ (∀ p, l ≠ .lose p) ∧
      ∀ i now, l = .auditHellos i now → s.nextAudit i = s.now ∧ now = getMilliSeconds s.now := by
  cases hst with
  | idle => exact Or.inl rfl
  | elapse _ => exact Or.inl rfl
  | @deliver p sent m rest n' out head due handled =>
    refine Or.inr
      ⟨.deliver p (getMilliSeconds s.now), ?_, (by intro _ h; cases h), by intro _ _ h; cases h⟩
    have hhandle : handle (T.config (T.owner (peer p))) (s.net.node (T.owner (peer p)))
        (.recv (getMilliSeconds s.now) (T.socket (peer p)) m) = some (n', out) := handled
    have hhead : s.net.chan p = m :: rest.map Prod.snd := by
      rw [TimedNet.net_chan, head, List.map_cons]
    rw [netStep, hhead]
    dsimp only
    rw [hhandle, TimedNet.net_apply, TimedNet.net_setChan]
    rfl
  | @audit i n' out due handled =>
    refine Or.inr ⟨.auditHellos i (getMilliSeconds s.now), ?_, (by intro _ h; cases h), ?_⟩
    · have hhandle : handle (T.config i) (s.net.node i) (.auditHellos (getMilliSeconds s.now)) =
          some (n', out) := handled
      rw [netStep, hhandle, TimedNet.net_schedule, TimedNet.net_apply]
      rfl
    · rintro _ _ ⟨⟩
      exact ⟨due, rfl⟩

/-- No neighbour times out. -/
theorem Timely.none_expires (h : Timely T ms D sequenceNumber s)
    (period : ∀ i, (T.config i).helloTimeout = ms) (least : milliSeconds 1 ≤ D.least)
    (greatest : D.greatest < milliSeconds ms) {i : Fin T.size} (due : s.nextAudit i = s.now)
    (K : String) : ¬ Expires (T.config i) (getMilliSeconds s.now) (s.node i) K := by
  intro hx
  obtain ⟨e, he, hexpired⟩ := hx
  have hlease : dvHearing.neighbors (s.node i) K = some (e.interfaceAddr, e.lastUpdated) := by
    simp [dvHearing, neighborLease, he]
  have := h.punctual.keeps least greatest due hlease
  simp only [NeighborTableEntry.expired, decide_eq_true_eq, period i] at hexpired
  omega

/-- A step is one of the static network, or time elapses. -/
theorem Timely.static_step (h : Timely T ms D sequenceNumber s)
    (period : ∀ i, (T.config i).helloTimeout = ms) (least : milliSeconds 1 ≤ D.least)
    (greatest : D.greatest < milliSeconds ms)
    (hst : TimedStep dvControl dvBeat.auditHellos D s s') :
    s'.net = s.net ∨ ∃ l, Static T s.net l ∧ netStep T s.net l = some s'.net := by
  refine (netStep_of_timed hst).imp_right fun hx => ?_
  obtain ⟨l, hnet, hlose, haudit⟩ := hx
  refine ⟨l, ?_, hnet⟩
  cases l with
  | deliver p now => trivial
  | lose p => exact hlose p rfl
  | auditHellos i now =>
    obtain ⟨due, rfl⟩ := haudit i now rfl
    exact h.none_expires period least greatest due

theorem Timely.start (T : Topology) (ms : ℕ) (D : Delays) (sequenceNumber : Fin T.size → UInt32)
    (period : ∀ i, (T.config i).helloTimeout = ms) :
    Timely T ms D sequenceNumber (timedStart T sequenceNumber) where
  punctual := Punctual.start period (fun i => inv_doStart _ _)
    fun i K => by simp [dvHearing, neighborLease, doStart]
  phase := Or.inl (Waking.start period)

theorem audit_doStart (i : Fin T.size) (q : UInt32) (now : ℕ) :
    auditHellos (T.config i) now (doStart (T.config i) q) =
      some (sendHello (T.config i) (doStart (T.config i) q)) := by
  have hnone : (doStart (T.config i) q).neighborTable.toList = [] :=
    List.eq_nil_iff_forall_not_mem.mpr fun x hx => by
      have := mem_toList.mp hx
      simp [doStart] at this
  rw [auditHellos]
  simp only [sendHello, hnone]
  rfl

theorem Timely.step (h : Timely T ms D sequenceNumber s) (hms : 0 < ms)
    (period : ∀ i, (T.config i).helloTimeout = ms) (least : milliSeconds 1 ≤ D.least)
    (greatest : D.greatest < milliSeconds ms)
    (hst : TimedStep dvControl dvBeat.auditHellos D s s') : Timely T ms D sequenceNumber s' := by
  refine ⟨h.punctual.step dvBeat period least greatest hst, ?_⟩
  rcases h.phase with hwaking | hrun
  · have hleast : 0 < D.least := lt_of_lt_of_le (by decide) least
    refine (hwaking.step hms hleast period (fun i => ?_) hst).imp_right fun hnet => ?_
    · refine ⟨_, audit_doStart i (sequenceNumber i) ms, fun p hp => ?_⟩
      subst hp
      rfl
    · rw [hnet]
      exact Running.start T sequenceNumber
  · right
    rcases h.static_step period least greatest hst with hsame | ⟨l, hl, hnet⟩
    · exact hsame ▸ hrun
    · exact hrun.step hl hnet

/-- Every handler returns. -/
theorem Timely.step_exists (h : Timely T ms D sequenceNumber s)
    (period : ∀ i, (T.config i).helloTimeout = ms) (least : milliSeconds 1 ≤ D.least)
    (greatest : D.greatest < milliSeconds ms) (lab : TimedLabel T) :
    ∃ s', dvTimedStep T D s lab = some s' := by
  have hms : 0 < milliSeconds ms := lt_of_le_of_lt (Nat.zero_le _) greatest
  have hleast : 0 < D.least := lt_of_lt_of_le (by decide) least
  cases lab with
  | elapse t =>
    simp only [dvTimedStep, timedStep]
    split <;> exact ⟨_, rfl⟩
  | deliver p =>
    simp only [dvTimedStep, timedStep]
    split
    · exact ⟨_, rfl⟩
    · rename_i sent m rest head
      split
      · rename_i due
        rcases h.phase with hwaking | hrun
        · exact absurd due (hwaking.not_due hleast head)
        · obtain ⟨t, ht⟩ := netStep_exists (l := .deliver p (getMilliSeconds s.now))
            hrun.synced.named trivial
          have hhead : s.net.chan p = m :: rest.map Prod.snd := by
            rw [TimedNet.net_chan, head, List.map_cons]
          rw [netStep, hhead] at ht
          obtain ⟨res, hres, _⟩ := Option.map_eq_some_iff.mp ht
          exact ⟨_, Option.map_eq_some_iff.mpr ⟨res, hres, rfl⟩⟩
      · exact ⟨_, rfl⟩
  | auditHellos i =>
    simp only [dvTimedStep, timedStep]
    split
    · rename_i due
      have hreturns : ∃ res, auditHellos (T.config i) (getMilliSeconds s.now) (s.node i) =
          some res := by
        rcases h.phase with hwaking | hrun
        · rcases hwaking.node i with ha | ha
          · exact ⟨_, ha.node ▸ audit_doStart i _ _⟩
          · have hnext := ha.next
            have hnow := ha.now
            omega
        · obtain ⟨t, ht⟩ := netStep_exists (s := s.net) (l := .auditHellos i (getMilliSeconds s.now))
            hrun.synced.named (h.none_expires period least greatest due)
          obtain ⟨res, hres, _⟩ := Option.map_eq_some_iff.mp ht
          exact ⟨res, hres⟩
      obtain ⟨res, hres⟩ := hreturns
      exact ⟨_, Option.map_eq_some_iff.mpr ⟨res, hres, rfl⟩⟩
    · exact ⟨_, rfl⟩

end Timely

/-! ## One hop -/

/-- Every node has the distances of the nodes at most `d` hops away. -/
def Knows (T : Topology) (s : DvNet T) (d : ℕ) : Prop :=
  ∀ i j, ∀ c : ℕ, c ≤ d → T.graph.edist i j = c →
    (DistanceVector.cost (s.node i).dv (T.name j)).toNat = c

/-- The same of a vector of the owner of `p`, as its neighbour there needs
it. -/
def Right (T : Topology) (d : ℕ) (p : T.Port) (dv : DistanceVector) : Prop :=
  ∀ j, j ≠ T.owner (peer p) → ∀ c : ℕ, c ≤ d → T.graph.edist (T.owner p) j = c →
    (DistanceVector.cost dv (T.name j)).toNat = c

/-- What was sent on `p` until the time `t` ends with a right vector, or the
one stored at the other end is right; and later vectors are right. -/
structure Relayed (T : Topology) (d t : ℕ) (s : TimedDvNet T) (p : T.Port) : Prop where
  earlier : match lastVector (((s.chan p).filter fun x => x.1 ≤ t).map Prod.snd) with
    | some w => Right T d p (receivedVector (T.config (T.owner (peer p))) w)
    | none => ∀ e, (s.node (T.owner (peer p))).neighborTable[T.name (T.owner p)]? = some e →
        Right T d p e.dv
  later : ∀ x ∈ s.chan p, t < x.1 → ∀ w, x.2.vector? = some w →
    Right T d p (receivedVector (T.config (T.owner (peer p))) w)

section Relayed
variable {T : Topology} {ms d t : ℕ} {D : Delays} {s s' : TimedDvNet T} {p : T.Port}

/-- The entry of a known neighbour keeps its vector, or gets the one that
arrives. -/
theorem entry_after {cfg : NodeConfig} {n n' : Node} {e : Event} {out : Packets} (hI : Inv cfg n)
    (h : handle cfg n e = some (n', out)) {K : String} (known : K ∈ n.neighborTable)
    (hc : K ∈ n'.costs) {e' : NeighborTableEntry} (he : n'.neighborTable[K]? = some e') :
    (∃ e₀, n.neighborTable[K]? = some e₀ ∧ e'.dv = e₀.dv ∧ ¬ e.VectorFrom cfg K) ∨
    ∃ now socket m w, e = .recv now socket m ∧ m.vector? = some w ∧
      cfg.reverseLookup m.originatorAddress = K ∧ e'.dv = receivedVector cfg w := by
  cases handle_entry hI h hc he with
  | kept entry _ core other => exact Or.inl ⟨_, entry, congrArg (·.2.2) core, other⟩
  | discovered _ _ fresh _ =>
    rw [mem_iff_getElem?, fresh] at known
    obtain ⟨_, hnone⟩ := known
    cases hnone
  | received payload sender _ _ stored =>
    exact Or.inr ⟨_, _, _, _, rfl, vector?_dvTable payload, sender, by rw [stored]⟩

/-- A vector on a link end is that of the node after its event. -/
theorem vector_on_port {n n' : Node} {e : Event} {out : Packets}
    (hN : NodeNamed T (T.owner p) n) (hv : ValidEvent T (T.owner p) e)
    (h : handle (T.config (T.owner p)) n e = some (n', out)) {e' : NeighborTableEntry}
    (he : StoredAt T n' p e') {m : DVMessage} (hm : m ∈ Net.onPort T (T.owner p) out p)
    {w : List (Ipv4Address × UInt32)} (hw : m.vector? = some w) :
    w = vectorFor (T.config (T.owner p)) n' e' := by
  have hN' := hN.handle hv h
  have hello : ∀ x ∈ Net.onPort T (T.owner p) (helloPackets (T.config (T.owner p)) n e) p,
      x.vector? = none := by
    intro x hx
    obtain ⟨_, y, hy, rfl⟩ := Net.of_mem_onPort hx
    exact vector?_of_mem_helloPackets hy
  rcases handle_cases hN.inv.tables.keyed h with ⟨_, _, rfl⟩ | ⟨_, _, _, _, rounds, rfl, _⟩
  · rw [hello m hm] at hw
    cases hw
  · rw [Net.onPort_append, List.mem_append] at hm
    rcases hm with hm | hm
    · rw [hello m hm] at hw
      cases hw
    · rw [Net.onPort_flatMap, List.mem_flatMap] at hm
      obtain ⟨sequenceNumber, _, hm⟩ := hm
      rw [onPort_dvRound hN' he, List.mem_singleton] at hm
      subst hm
      exact (Option.some.inj hw).symm

/-- A node that knows the distances sends right vectors. -/
theorem Knows.right (h : Knows T s.net d) {e : NeighborTableEntry}
    (hN : NodeNamed T (T.owner p) (s.node (T.owner p))) (he : StoredAt T (s.node (T.owner p)) p e) :
    Right T d p (receivedVector (T.config (T.owner (peer p)))
      (vectorFor (T.config (T.owner p)) (s.node (T.owner p)) e)) := by
  intro j hj c hc hdist
  have hcost := h (T.owner p) j c hc hdist
  obtain ⟨_, he, _⟩ := he
  obtain ⟨q, _, hname, haddr, _⟩ := hN.entry _ e he
  unfold DistanceVector.cost at hcost ⊢
  rw [receivedVector_vectorFor]
  · exact hcost
  · intro K v hK
    obtain ⟨j, rfl⟩ := hN.dvKeys K v hK
    rw [resolveName_name, reverseLookup_main]
  · rw [haddr, reverseLookup_main, ← hname, Ne, name_inj]
    exact hj

/-- When time passes `t`, what is current has been sent. -/
theorem Relayed.of_agree (hagree : Agree T s.net p) (hknows : Knows T s.net d)
    (stored : ∃ e, StoredAt T (s.node (T.owner p)) p e)
    (keys : T.name (T.owner p) ∈ (s.node (T.owner (peer p))).neighborTable →
      T.name (T.owner p) ∈ (s.node (T.owner (peer p))).costs)
    (sent : ∀ x ∈ s.chan p, x.1 ≤ t) : Relayed T d t s p := by
  have hall : (s.chan p).filter (fun x => x.1 ≤ t) = s.chan p :=
    List.filter_eq_self.mpr fun x hx => by simpa using sent x hx
  have hcost : ∀ dv, (∀ K, K ≠ T.name (T.owner (peer p)) → DistanceVector.cost dv K =
      DistanceVector.cost (s.node (T.owner p)).dv K) → Right T d p dv := by
    intro dv hdv j hj c hc hdist
    rw [hdv _ (by rw [Ne, name_inj]; exact hj)]
    exact hknows (T.owner p) j c hc hdist
  refine ⟨?_, fun x hx hlt => absurd hlt (not_lt.mpr (sent x hx))⟩
  have hA := hagree stored
  rw [TimedNet.net_chan] at hA
  rw [hall]
  split
  · rename_i w hw
    rw [hw] at hA
    exact hcost _ hA
  · rename_i hw
    rw [hw] at hA
    intro e he
    exact hcost _ (hA e (keys (mem_iff_getElem?.mpr ⟨e, he⟩)) he)

/-- What is posted after the time `t` is later. -/
theorem Relayed.apply {i : Fin T.size} {n' : Node} {out : Packets} (hnow : t < s.now)
    (later : ∀ x ∈ s.chan p, t < x.1 → ∀ w, x.2.vector? = some w →
      Right T d p (receivedVector (T.config (T.owner (peer p))) w))
    (posted : ∀ m ∈ Net.onPort T i out p, ∀ w, m.vector? = some w →
      Right T d p (receivedVector (T.config (T.owner (peer p))) w))
    (earlier : match lastVector (((s.chan p).filter fun x => x.1 ≤ t).map Prod.snd) with
      | some w => Right T d p (receivedVector (T.config (T.owner (peer p))) w)
      | none => ∀ e, ((s.apply i (n', out)).node (T.owner (peer p))).neighborTable[
          T.name (T.owner p)]? = some e → Right T d p e.dv) :
    Relayed T d t (s.apply i (n', out)) p := by
  have hnone : ((Net.onPort T i out p).map fun m => (s.now, m)).filter (fun x => x.1 ≤ t) = [] :=
    List.filter_eq_nil_iff.mpr fun x hx => by
      obtain ⟨m, _, rfl⟩ := List.mem_map.mp hx
      simpa using hnow
  refine ⟨?_, fun x hx hlt w hw => ?_⟩
  · simp only [TimedNet.apply, List.filter_append, hnone, List.append_nil] at earlier ⊢
    exact earlier
  · rcases TimedNet.of_mem_apply hx with hx | ⟨_, hx⟩
    · exact later x hx hlt w hw
    · exact posted x.2 hx w hw

section Step
variable {i : Fin T.size} {n' : Node} {out : Packets} {e : Event}

/-- What a node posts in an event after which it knows the distances. -/
theorem Knows.posts (hknows : Knows T s'.net d) (hN : Named T s.net) (hN' : Named T s'.net)
    (hv : ValidEvent T i e) (hh : handle (T.config i) (s.node i) e = some (n', out))
    (hnode : s'.node i = n') (stored : ∃ e, StoredAt T (s'.node (T.owner p)) p e) :
    ∀ m ∈ Net.onPort T i out p, ∀ w, m.vector? = some w →
      Right T d p (receivedVector (T.config (T.owner (peer p))) w) := by
  intro m hm w hw
  obtain ⟨rfl, _⟩ := Net.of_mem_onPort hm
  obtain ⟨e', he'⟩ := stored
  have hright := hknows.right (hN'.node _) he'
  rw [hnode] at hright he'
  rw [vector_on_port (hN.node _) hv hh he' hm hw]
  exact hright

/-- What becomes of the entry of the owner of `p` at the other end. -/
theorem entry_at_peer (hrun : Running T s.net) (hrun' : Running T s'.net)
    (hh : handle (T.config (T.owner (peer p))) (s.node (T.owner (peer p))) e = some (n', out))
    (hnode : s'.node (T.owner (peer p)) = n')
    (known : T.name (T.owner p) ∈ (s.node (T.owner (peer p))).neighborTable)
    {e' : NeighborTableEntry}
    (he' : (s'.node (T.owner (peer p))).neighborTable[T.name (T.owner p)]? = some e') :
    (∃ e₀, (s.node (T.owner (peer p))).neighborTable[T.name (T.owner p)]? = some e₀ ∧
      e'.dv = e₀.dv ∧ ¬ e.VectorFrom (T.config (T.owner (peer p))) (T.name (T.owner p))) ∨
    ∃ now socket m w, e = .recv now socket m ∧ m.vector? = some w ∧
      (T.config (T.owner (peer p))).reverseLookup m.originatorAddress = T.name (T.owner p) ∧
      e'.dv = receivedVector (T.config (T.owner (peer p))) w := by
  have hcost : T.name (T.owner p) ∈ n'.costs := by
    rw [← hnode]
    exact ((hrun'.synced.tables (T.owner (peer p))).keys _).mpr (mem_iff_getElem?.mpr ⟨e', he'⟩)
  rw [hnode] at he'
  exact entry_after (hrun.synced.named.node _).inv hh known hcost he'

/-- A vector of the owner of `p` to the other end comes on `p`. -/
theorem Running.same_way (hrun : Running T s.net) {q : T.Port} {sent : ℕ} {m : DVMessage}
    {rest : List (ℕ × DVMessage)} (head : s.chan q = (sent, m) :: rest)
    (hpeer : T.owner (peer q) = T.owner (peer p))
    (stored : ∃ e, StoredAt T (s.node (T.owner p)) p e) {w : List (Ipv4Address × UInt32)}
    (hw : m.vector? = some w)
    (hfrom : (T.config (T.owner (peer p))).reverseLookup m.originatorAddress = T.name (T.owner p)) :
    q = p := by
  have hmem : m ∈ s.net.chan q := by
    rw [TimedNet.net_chan, head]
    exact List.mem_cons_self
  have hname := (hrun.synced.named.msg q m hmem).1
  rw [hname, reverseLookup_main, name_inj] at hfrom
  obtain ⟨e, _, he, hif⟩ := hrun.synced.way q m hmem (by rw [hw]; exact Option.some_ne_none w)
  obtain ⟨e', _, he', hif'⟩ := stored
  rw [TimedNet.net_node, hfrom, hpeer, he'] at he
  obtain rfl := Option.some.inj he
  exact T.address_inj q p hfrom (hif.symm.trans hif')

/-- What has been sent until `t` stays as it is while the entry keeps its vector. -/
theorem Relayed.earlier_kept {n : Node} (h : Relayed T d t s p)
    (kept : ∀ e', n.neighborTable[T.name (T.owner p)]? = some e' →
      ∃ e₀, (s.node (T.owner (peer p))).neighborTable[T.name (T.owner p)]? = some e₀ ∧
        e'.dv = e₀.dv) :
    match lastVector (((s.chan p).filter fun x => x.1 ≤ t).map Prod.snd) with
    | some w => Right T d p (receivedVector (T.config (T.owner (peer p))) w)
    | none => ∀ e, n.neighborTable[T.name (T.owner p)]? = some e → Right T d p e.dv := by
  have hold := h.earlier
  cases hlast : lastVector (((s.chan p).filter fun x => x.1 ≤ t).map Prod.snd) with
  | some w =>
    rw [hlast] at hold
    exact hold
  | none =>
    rw [hlast] at hold
    intro e' he'
    obtain ⟨e₀, he₀, hdv⟩ := kept e' he'
    exact hdv ▸ hold e₀ he₀

/-- The oldest message arrives: the entry takes its vector, or keeps its own. -/
theorem Relayed.earlier_taken {n : Node} (h : Relayed T d t s p)
    (ordered : (s.chan p).Pairwise fun x y => x.1 ≤ y.1) {sent : ℕ} {m : DVMessage}
    {rest : List (ℕ × DVMessage)} (head : s.chan p = (sent, m) :: rest)
    (hentry : ∀ e', n.neighborTable[T.name (T.owner p)]? = some e' →
      (m.vector? = none ∧
        ∃ e₀, (s.node (T.owner (peer p))).neighborTable[T.name (T.owner p)]? = some e₀ ∧
          e'.dv = e₀.dv) ∨
      ∃ w, m.vector? = some w ∧ e'.dv = receivedVector (T.config (T.owner (peer p))) w) :
    match lastVector ((rest.filter fun x => x.1 ≤ t).map Prod.snd) with
    | some w => Right T d p (receivedVector (T.config (T.owner (peer p))) w)
    | none => ∀ e, n.neighborTable[T.name (T.owner p)]? = some e → Right T d p e.dv := by
  have hold := h.earlier
  rw [head] at hold ordered
  by_cases hle : sent ≤ t
  · rw [List.filter_cons_of_pos (by simpa using hle), List.map_cons, lastVector_cons] at hold
    cases hlast : lastVector ((rest.filter fun x => x.1 ≤ t).map Prod.snd) with
    | some w =>
      rw [hlast] at hold
      exact hold
    | none =>
      rw [hlast, Option.none_or] at hold
      intro e' he'
      rcases hentry e' he' with ⟨hno, e₀, he₀, hdv⟩ | ⟨w, hw, hdv⟩
      · rw [hno] at hold
        exact hdv ▸ hold e₀ he₀
      · rw [hw] at hold
        exact hdv ▸ hold
  · -- nothing earlier is left
    have hempty : rest.filter (fun x => x.1 ≤ t) = [] := by
      refine List.filter_eq_nil_iff.mpr fun x hx => ?_
      have := (List.pairwise_cons.mp ordered).1 x hx
      dsimp only at this
      simp only [decide_eq_true_eq]
      omega
    rw [List.filter_cons_of_neg (by simpa using hle), hempty] at hold
    rw [hempty]
    intro e' he'
    rcases hentry e' he' with ⟨_, e₀, he₀, hdv⟩ | ⟨w, hw, hdv⟩
    · exact hdv ▸ hold e₀ he₀
    · rw [hdv]
      exact h.later (sent, m) (head ▸ List.mem_cons_self) (not_le.mp hle) w hw

/-- What the entry at the other end is when a message of `p` arrives there. -/
theorem entry_taken (hrun : Running T s.net) (hrun' : Running T s'.net) {sent : ℕ} {m : DVMessage}
    {rest : List (ℕ × DVMessage)} (head : s.chan p = (sent, m) :: rest) {now : ℕ}
    (hh : handle (T.config (T.owner (peer p))) (s.node (T.owner (peer p)))
      (.recv now (T.socket (peer p)) m) = some (n', out))
    (hnode : s'.node (T.owner (peer p)) = n')
    (known : T.name (T.owner p) ∈ (s.node (T.owner (peer p))).neighborTable)
    {e' : NeighborTableEntry} (he' : n'.neighborTable[T.name (T.owner p)]? = some e') :
    (m.vector? = none ∧
      ∃ e₀, (s.node (T.owner (peer p))).neighborTable[T.name (T.owner p)]? = some e₀ ∧
        e'.dv = e₀.dv) ∨
    ∃ w, m.vector? = some w ∧ e'.dv = receivedVector (T.config (T.owner (peer p))) w := by
  have hmem : m ∈ s.net.chan p := by
    rw [TimedNet.net_chan, head]
    exact List.mem_cons_self
  rcases entry_at_peer hrun hrun' hh hnode known (hnode ▸ he') with ⟨e₀, he₀, hdv, hno⟩ |
    ⟨_, _, _, w, ⟨⟩, hw, _, hdv⟩
  · refine Or.inl ⟨?_, e₀, he₀, hdv⟩
    cases hp : m.payload with
    | helloReq _ _ => exact vector?_hello hp
    | dvTableMsg _ =>
      refine absurd ⟨⟨_, hp⟩, ?_⟩ hno
      rw [(hrun.synced.named.msg p m hmem).1, reverseLookup_main]
  · exact Or.inr ⟨w, hw, hdv⟩

theorem Relayed.deliver (h : Relayed T d t s p) (ordered : (s.chan p).Pairwise fun x y => x.1 ≤ y.1)
    (hnow : t < s.now) (hrun : Running T s.net) {q : T.Port} {sent : ℕ} {m : DVMessage}
    {rest : List (ℕ × DVMessage)} (head : s.chan q = (sent, m) :: rest)
    (hh : handle (T.config (T.owner (peer q))) (s.node (T.owner (peer q)))
      (.recv (getMilliSeconds s.now) (T.socket (peer q)) m) = some (n', out))
    (hs' : s' = (s.setChan q rest).apply (T.owner (peer q)) (n', out)) (hrun' : Running T s'.net)
    (hknows : Knows T s'.net d)
    (known : T.name (T.owner p) ∈ (s.node (T.owner (peer p))).neighborTable)
    (stored : ∃ e, StoredAt T (s.node (T.owner p)) p e)
    (stored' : ∃ e, StoredAt T (s'.node (T.owner p)) p e) : Relayed T d t s' p := by
  have hhead : s.net.chan q = m :: rest.map Prod.snd := by
    rw [TimedNet.net_chan, head, List.map_cons]
  have hvalid := hrun.synced.named.valid (getMilliSeconds s.now) hhead
  have hnode : s'.node (T.owner (peer q)) = n' := by
    rw [hs', TimedNet.apply_node_self]
  have later : ∀ x ∈ (s.setChan q rest).chan p, t < x.1 → ∀ w, x.2.vector? = some w →
      Right T d p (receivedVector (T.config (T.owner (peer p))) w) :=
    fun x hx => h.later x (TimedNet.of_mem_setChan head hx)
  have posted := hknows.posts hrun.synced.named hrun'.synced.named hvalid hh hnode stored'
  rw [hs']
  refine Relayed.apply hnow later posted ?_
  by_cases hqp : p = q
  · subst hqp
    rw [TimedNet.setChan_self, TimedNet.apply_node_self]
    exact h.earlier_taken ordered head fun e' he' =>
      entry_taken hrun hrun' head hh hnode known he'
  · rw [TimedNet.setChan_ne _ _ hqp, ← hs']
    refine h.earlier_kept fun e' he' => ?_
    by_cases hpeer : T.owner (peer q) = T.owner (peer p)
    · rw [hpeer] at hh hnode
      rcases entry_at_peer hrun hrun' hh hnode known he' with ⟨e₀, he₀, hdv, _⟩ |
        ⟨_, _, _, w, ⟨⟩, hw, hfrom, _⟩
      · exact ⟨e₀, he₀, hdv⟩
      · exact absurd (hrun.same_way head hpeer stored hw hfrom).symm hqp
    · rw [hs', TimedNet.apply_node_ne _ _ (Ne.symm hpeer)] at he'
      exact ⟨e', he', rfl⟩

theorem Relayed.audit (h : Relayed T d t s p) (hnow : t < s.now) (hrun : Running T s.net)
    (hh : handle (T.config i) (s.node i) (.auditHellos (getMilliSeconds s.now)) = some (n', out))
    (hs' : s' = (s.apply i (n', out)).schedule i) (hrun' : Running T s'.net)
    (hknows : Knows T s'.net d)
    (known : T.name (T.owner p) ∈ (s.node (T.owner (peer p))).neighborTable)
    (stored' : ∃ e, StoredAt T (s'.node (T.owner p)) p e) : Relayed T d t s' p := by
  have hnode : s'.node i = n' := by
    rw [hs', TimedNet.schedule, TimedNet.apply_node_self]
  have posted := hknows.posts hrun.synced.named hrun'.synced.named
    (show ValidEvent T i (.auditHellos (getMilliSeconds s.now)) from trivial) hh hnode stored'
  have hrelayed : Relayed T d t (s.apply i (n', out)) p := by
    refine Relayed.apply hnow h.later posted (h.earlier_kept fun e' he' => ?_)
    by_cases hpeer : i = T.owner (peer p)
    · subst hpeer
      rw [TimedNet.apply_node_self, ← hnode] at he'
      rcases entry_at_peer hrun hrun' hh hnode known he' with ⟨e₀, he₀, hdv, _⟩ |
        ⟨_, _, _, _, ⟨⟩, _⟩
      exact ⟨e₀, he₀, hdv⟩
    · rw [TimedNet.apply_node_ne _ _ (Ne.symm hpeer)] at he'
      exact ⟨e', he', rfl⟩
  rw [hs']
  exact ⟨hrelayed.earlier, hrelayed.later⟩

end Step

/-- When a message has had its time, what was sent before `t` has arrived. -/
theorem Relayed.arrived (h : Relayed T d t s p) (late : ∀ x ∈ s.chan p, t < x.1)
    {e : NeighborTableEntry}
    (he : (s.node (T.owner (peer p))).neighborTable[T.name (T.owner p)]? = some e) :
    Right T d p e.dv := by
  have hempty : (s.chan p).filter (fun x => x.1 ≤ t) = [] :=
    List.filter_eq_nil_iff.mpr fun x hx => by simpa using late x hx
  have hold := h.earlier
  rw [hempty] at hold
  exact hold e he

end Relayed

/-! ## Every run -/

section Runs
variable {T : Topology} {ms d : ℕ} {D : Delays} {sequenceNumber : Fin T.size → UInt32}
  {s s' : TimedDvNet T}

/-- The states of the runs in time. -/
def Reached (T : Topology) (D : Delays) (sequenceNumber : Fin T.size → UInt32)
    (s : TimedDvNet T) : Prop :=
  ∃ labs, run (dvTimedStep T D) (timedStart T sequenceNumber) labs = some s

theorem Reached.step (h : Reached T D sequenceNumber s) {lab : TimedLabel T}
    (hst : dvTimedStep T D s lab = some s') : Reached T D sequenceNumber s' := by
  obtain ⟨labs, hrun⟩ := h
  exact ⟨labs ++ [lab], run_snoc.mpr ⟨s, hrun, hst⟩⟩

theorem Timely.running (h : Timely T ms D sequenceNumber s) (hnow : milliSeconds ms < s.now) :
    Running T s.net :=
  h.phase.resolve_left fun hwaking => absurd hwaking.now (not_le.mpr hnow)

theorem Timely.known (h : Timely T ms D sequenceNumber s)
    (hnow : milliSeconds ms + D.greatest < s.now) (p : T.Port) :
    T.name (T.owner p) ∈ (s.node (T.owner (peer p))).neighborTable :=
  mem_neighborTable.mpr (h.punctual.known hnow p)

/-- A known neighbour is stored with the link end it was stored with before. -/
theorem Acts.stored_before {s s₁ : DvNet T} {i : Fin T.size} {ev : Event} {n' : Node}
    {out : Packets} (hrun : Running T s) (ha : Acts T s i ev s₁ n' out)
    (hno : ∀ K, ¬ TimedOut (T.config i) (s.node i) K ev) {p : T.Port}
    (known : T.name (T.owner (peer p)) ∈ (s.node (T.owner p)).neighborTable)
    (stored : ∃ e, StoredAt T ((s₁.apply i (n', out)).node (T.owner p)) p e) :
    ∃ e, StoredAt T (s.node (T.owner p)) p e := by
  obtain ⟨e', _, he', hif'⟩ := stored
  obtain ⟨e, he⟩ := mem_iff_getElem?.mp known
  refine ⟨e, ((hrun.synced.tables _).keys _).mpr known, he, ?_⟩
  by_cases hi : T.owner p = i
  · subst hi
    rw [Net.apply_node_self] at he'
    obtain ⟨e'', he'', hif⟩ := (handle_keeps (hrun.synced.named.node _).inv ha.handled (hno _)).2 e he
    obtain rfl := Option.some.inj (he'.symm.trans he'')
    exact hif.symm.trans hif'
  · rw [ha.node_ne hi, he] at he'
    obtain rfl := Option.some.inj he'
    exact hif'

theorem Timely.stored_of_step (h : Timely T ms D sequenceNumber s)
    (hnow : milliSeconds ms + D.greatest < s.now) (period : ∀ i, (T.config i).helloTimeout = ms)
    (least : milliSeconds 1 ≤ D.least) (greatest : D.greatest < milliSeconds ms)
    (hst : TimedStep dvControl dvBeat.auditHellos D s s') {p : T.Port}
    (stored : ∃ e, StoredAt T (s'.node (T.owner p)) p e) :
    ∃ e, StoredAt T (s.node (T.owner p)) p e := by
  have hrun := h.running (by omega)
  have known := h.known hnow (peer p)
  rw [peer_peer] at known
  rcases h.static_step period least greatest hst with hsame | ⟨l, hl, hnet⟩
  · rw [← TimedNet.net_node, hsame] at stored
    exact stored
  · rcases hrun.synced.named.acts hl hnet with hsame | ⟨i, ev, s₁, n', out, ha, hs', hno⟩
    · rw [← TimedNet.net_node, hsame] at stored
      exact stored
    · rw [← TimedNet.net_node, hs'] at stored
      exact ha.stored_before hrun hno known stored

/-- **One hop in time.** When from the time `t` on all nodes know the
distances up to `d`, they are told so on every link end. -/
theorem Relayed.step {t : ℕ} (htimely : Timely T ms D sequenceNumber s)
    (htimely' : Timely T ms D sequenceNumber s') (ht : milliSeconds ms + D.greatest ≤ t)
    (period : ∀ i, (T.config i).helloTimeout = ms) (least : milliSeconds 1 ≤ D.least)
    (greatest : D.greatest < milliSeconds ms)
    (hst : TimedStep dvControl dvBeat.auditHellos D s s') (hnow' : t < s'.now)
    (hknows : Knows T s'.net d)
    (h : t < s.now → ∀ p, (∃ e, StoredAt T (s.node (T.owner p)) p e) → Relayed T d t s p) {p : T.Port}
    (stored : ∃ e, StoredAt T (s'.node (T.owner p)) p e) : Relayed T d t s' p := by
  have hrun' := htimely'.running (by omega)
  cases hst with
  | idle => exact h hnow' p stored
  | @elapse t' may =>
    by_cases hnow : t < s.now
    · exact ⟨(h hnow p stored).earlier, (h hnow p stored).later⟩
    · refine Relayed.of_agree (hrun'.synced.agree p) hknows stored
        ((hrun'.synced.tables (T.owner (peer p))).keys _).mpr fun x hx => ?_
      have := (htimely.punctual.sent p x hx).2.1
      omega
  | deliver head due handled =>
    have hnow : t < s.now := hnow'
    have hst' : TimedStep dvControl dvBeat.auditHellos D s _ := .deliver head due handled
    have hstored := htimely.stored_of_step (by omega) period least greatest hst' stored
    exact (h hnow p hstored).deliver (htimely.punctual.ordered p) hnow (htimely.running (by omega)) head
      handled rfl hrun' hknows (htimely.known (by omega) p) hstored stored
  | audit due handled =>
    have hnow : t < s.now := hnow'
    have hst' : TimedStep dvControl dvBeat.auditHellos D s _ := .audit due handled
    have hstored := htimely.stored_of_step (by omega) period least greatest hst' stored
    exact (h hnow p hstored).audit hnow (htimely.running (by omega)) handled rfl hrun' hknows
      (htimely.known (by omega) p) stored

section Time
variable (period : ∀ i, (T.config i).helloTimeout = ms) (least : milliSeconds 1 ≤ D.least)
  (greatest : D.greatest < milliSeconds ms)
include period least greatest

theorem timely_along (labs : List (TimedLabel T)) : ∃ s,
    run (dvTimedStep T D) (timedStart T sequenceNumber) labs = some s ∧
      Timely T ms D sequenceNumber s := by
  have hms : 0 < ms := Nat.pos_of_ne_zero fun h0 => by simp [h0, milliSeconds] at greatest
  refine run_exists (C := fun _ _ => True) (P := Timely T ms D sequenceNumber)
    (Timely.start T ms D sequenceNumber period) ?_ fun _ _ _ _ _ => trivial
  intro s lab h _
  obtain ⟨s', hs'⟩ := h.step_exists period least greatest lab
  exact ⟨s', hs', h.step hms period least greatest (timedStep_cases hs')⟩

theorem Reached.timely (h : Reached T D sequenceNumber s) : Timely T ms D sequenceNumber s := by
  obtain ⟨labs, hrun⟩ := h
  obtain ⟨s', hrun', htimely⟩ := timely_along period least greatest labs
  obtain rfl := Option.some.inj (hrun.symm.trans hrun')
  exact htimely

/-- What all nodes know from a time on is told on every link end. -/
theorem Reached.relayed (hd : ∀ s, Reached T D sequenceNumber s → hopTime ms D d < s.now →
      Knows T s.net d) (h : Reached T D sequenceNumber s) (hnow : hopTime ms D d < s.now) {p : T.Port}
    (stored : ∃ e, StoredAt T (s.node (T.owner p)) p e) : Relayed T d (hopTime ms D d) s p := by
  have hfirst := first_le_hopTime ms D d
  obtain ⟨labs, hrun⟩ := h
  refine (run_invariant (I := fun s => Reached T D sequenceNumber s ∧ (hopTime ms D d < s.now →
    ∀ p, (∃ e, StoredAt T (s.node (T.owner p)) p e) → Relayed T d (hopTime ms D d) s p))
    ⟨⟨[], rfl⟩, fun hlt => ?_⟩ ?_ hrun).2 hnow p stored
  · simp [timedStart, TimedNet.start] at hlt
  · intro s lab s' hI hst
    obtain ⟨hreached, hrelayed⟩ := hI
    refine ⟨hreached.step hst, fun hnow' p hstored => ?_⟩
    exact Relayed.step (hreached.timely period least greatest)
      ((hreached.step hst).timely period least greatest) hfirst period least greatest
      (timedStep_cases hst) hnow' (hd s' (hreached.step hst) hnow') hrelayed hstored

/-- A message's time later, every neighbour has been told. -/
theorem Reached.viewed (hd : ∀ s, Reached T D sequenceNumber s → hopTime ms D d < s.now →
      Knows T s.net d) (h : Reached T D sequenceNumber s) (hnow : hopTime ms D (d + 1) < s.now) :
    Viewed T s.net d := by
  have htime := hopTime_succ ms D d
  have htimely := h.timely period least greatest
  have hfirst := first_le_hopTime ms D d
  have hrun := htimely.running (by omega)
  intro i k hadj
  obtain ⟨q, rfl, rfl⟩ := hadj
  have hi := htimely.known (by omega) (peer q)
  have hk := htimely.known (by omega) q
  rw [peer_peer] at hi
  have hci := ((hrun.synced.tables _).keys _).mpr hi
  obtain ⟨e, he⟩ := mem_iff_getElem?.mp hi
  refine ⟨hci, e, he, fun j hj c hc hdist => ?_⟩
  -- the link end the other node sends its vectors on
  obtain ⟨e', he'⟩ := mem_iff_getElem?.mp hk
  obtain ⟨p, hp, hname, _, hif⟩ := (hrun.synced.named.node _).entry _ e' he'
  have hpeer : T.owner q = T.owner (peer p) := name_inj.mp hname
  have hstored : StoredAt T (s.node (T.owner p)) p e' := by
    rw [StoredAt, ← hpeer, hp]
    exact ⟨((hrun.synced.tables _).keys _).mpr hk, he', hif⟩
  have hrelayed := h.relayed period least greatest hd (by omega) ⟨e', hstored⟩
  refine hrelayed.arrived (e := e) (fun x hx => ?_) ?_ j (hpeer ▸ hj) c hc (hp ▸ hdist)
  · have := (htimely.punctual.sent p x hx).2.2
    omega
  · rw [← hpeer, hp]
    exact he

/-- **Knowledge travels.** From `hopTime` on, distances up to `d` are
known. -/
theorem Reached.knows (hd : d ≤ 16) (h : Reached T D sequenceNumber s)
    (hnow : hopTime ms D d < s.now) : Knows T s.net d := by
  induction d generalizing s with
  | zero =>
    have hrun := (h.timely period least greatest).running (by simp only [hopTime] at hnow; omega)
    intro i j c hc hdist
    obtain rfl := Nat.le_zero.mp hc
    obtain rfl := SimpleGraph.edist_eq_zero_iff.mp hdist
    rw [DistanceVector.cost, (hrun.synced.named.node i).self]
    rfl
  | succ d ih =>
    have htime : hopTime ms D d ≤ hopTime ms D (d + 1) := hopTime_mono ms D (Nat.le_succ d)
    have hbefore : ∀ s, Reached T D sequenceNumber s → hopTime ms D d < s.now → Knows T s.net d :=
      fun s hs hlt => ih (by omega) hs hlt
    have hrun := (h.timely period least greatest).running (by simp only [hopTime] at hnow; omega)
    have hviewed := h.viewed period least greatest hbefore hnow
    intro i j c hc hdist
    rcases Nat.lt_or_ge c (d + 1) with hlt | hge
    · exact hbefore s h (by omega) i j c (by omega) hdist
    · obtain rfl := le_antisymm hc hge
      exact (hviewed.dv_eq_edist hrun.synced.named hrun.sound le_rfl hd hdist).1

/-- From `hopTime` of 15 hops on, all routes are there. -/
theorem Reached.routed (h : Reached T D sequenceNumber s) (hnow : hopTime ms D 15 < s.now) :
    Routed T s.net := by
  have hrun := (h.timely period least greatest).running (by simp only [hopTime] at hnow; omega)
  have hviewed := h.viewed period least greatest (d := 14)
    (fun s hs hlt => hs.knows period least greatest (by decide) hlt) hnow
  exact fun i j hne => hviewed.routes hrun.synced.named hrun.sound le_rfl hne

/-- A route to a node comes with the messages that take it there. -/
theorem Reached.route (h : Reached T D sequenceNumber s) {i j : Fin T.size} {c : ℕ} (hc : c + 1 < 16)
    (hdist : T.graph.edist i j = (c + 1 : ℕ)) (hnow : milliSeconds ms + (c + 2) * D.greatest < s.now) :
    ∃ rte k, (s.node i).routingTable[T.name j]? = some rte ∧ rte.cost.toNat = c + 1 ∧
      T.graph.Adj i k ∧ rte.nextHopAddr = (T.config k).mainAddress ∧
      T.graph.edist k j + 1 = T.graph.edist i j := by
  have hR := (h.timely period least greatest).running (Nat.lt_of_le_of_lt (Nat.le_add_right _ _) hnow)
  have hviewed := h.viewed period least greatest (d := c)
    (fun s hs hlt => hs.knows period least greatest (by omega) hlt) hnow
  exact hviewed.route hR.synced.named hR.sound le_rfl hc hdist

/-- Packets take the routes. -/
theorem Reached.goesTo (addressed : Addressed T) (lsNode : Fin T.size → Ls.Node)
    (lsStatic dvStatic : Fin T.size → StaticInput) (h : Reached T D sequenceNumber s)
    (hnow : milliSeconds ms + 16 * D.greatest < s.now) {i : Fin T.size} {q : T.Port}
    (hi : i ≠ T.owner q) (ttl : UInt8) : GoesTo T
      (fun i => routingNode T .dv (lsStatic i) (dvStatic i) i (lsNode i) (s.node i)) q 16 i ttl := by
  have hR := (h.timely period least greatest).running (Nat.lt_of_le_of_lt (Nat.le_add_right _ _) hnow)
  have hrouted := h.routed period least greatest hnow
  exact (hrouted.leadsTo hR.synced.named hR.own addressed lsNode lsStatic dvStatic q).goesTo hi ttl

end Time

end Runs

/-- **Distance vectors in time.** When the nodes start together and every
message takes at least a millisecond and less than `m_helloTimeout`, no handler
fails in any run. Once the first hellos have arrived, every node has its
neighbours, for good; a node has a route of the right length, to a neighbour
that is closer, to every node `c + 1 < 16` hops away after the time `c + 2`
messages take; and after the time of 16 messages, whatever is in flight,
packets to nodes fewer than 16 hops away take shortest ways, and packets to
nodes further away have no route. -/
theorem dv_in_time (T : Topology) (addressed : Addressed T) (ms : ℕ)
    (period : ∀ i, (T.config i).helloTimeout = ms) (D : Delays) (least : milliSeconds 1 ≤ D.least)
    (greatest : D.greatest < milliSeconds ms) (sequenceNumber : Fin T.size → UInt32)
    (labs : List (TimedLabel T)) (lsNode : Fin T.size → Ls.Node)
    (lsStatic dvStatic : Fin T.size → StaticInput) :
    ∃ s, run (timedStep dvControl .auditHellos D) (timedStart T sequenceNumber) labs = some s ∧
      (milliSeconds ms + D.greatest < s.now → ∀ p,
        T.name (T.owner p) ∈ (s.node (T.owner (peer p))).neighborTable) ∧
      (∀ i j, ∀ c : ℕ, c + 1 < 16 → T.graph.edist i j = (c + 1 : ℕ) →
        milliSeconds ms + (c + 2) * D.greatest < s.now →
        ∃ rte k, (s.node i).routingTable[T.name j]? = some rte ∧ rte.cost.toNat = c + 1 ∧
          T.graph.Adj i k ∧ rte.nextHopAddr = (T.config k).mainAddress ∧
          T.graph.edist k j + 1 = T.graph.edist i j) ∧
      (milliSeconds ms + 16 * D.greatest < s.now → ∀ i q, i ≠ T.owner q → ∀ ttl, GoesTo T
        (fun i => routingNode T .dv (lsStatic i) (dvStatic i) i (lsNode i) (s.node i)) q 16 i ttl) := by
  obtain ⟨s, hrun, htimely⟩ : ∃ s, run (dvTimedStep T D) (timedStart T sequenceNumber) labs = some s ∧
      Timely T ms D sequenceNumber s := timely_along period least greatest labs
  have hreached : Reached T D sequenceNumber s := ⟨labs, hrun⟩
  exact ⟨s, hrun, htimely.known, fun i j c hc hdist hnow =>
    hreached.route period least greatest hc hdist hnow,
    fun hnow i q hi ttl =>
      hreached.goesTo period least greatest addressed lsNode lsStatic dvStatic hnow hi ttl⟩

theorem lineTimes_late : ((run (dvTimedStep lineTopology lineDelays)
    (timedStart lineTopology fun _ => 0) (lineTimes 17 2)).map fun s =>
      decide (milliSeconds 2000 + 16 * lineDelays.greatest < s.now)) = some true := by decide +kernel

theorem dv_in_time_line : ∃ s ps ttl,
    run (timedStep dvControl .auditHellos lineDelays) (timedStart lineTopology fun _ => 0)
      (lineTimes 17 2) =
      some s ∧ Crosses lineTopology (lineNode 0) ps (lineNode 2) ∧
      Conveyed lineTopology (fun i => routingNode lineTopology .dv noStatic noStatic i (Ls.doStart 0)
        (s.node i)) 30 (lineNode 0) 64 ps (.delivered (lineNode 2) ttl) := by
  obtain ⟨s, hrun, _, _, hgoes⟩ := dv_in_time lineTopology line_addressed 2000 (fun _ => rfl) lineDelays
    (by decide) (by decide) (fun _ => 0) (lineTimes 17 2) (fun _ => Ls.doStart 0) (fun _ => noStatic)
    (fun _ => noStatic)
  have hlate := lineTimes_late
  rw [show run (dvTimedStep lineTopology lineDelays) (timedStart lineTopology fun _ => 0)
    (lineTimes 17 2) =
    some s from hrun, Option.map_some, Option.some_inj, decide_eq_true_eq] at hlate
  obtain ⟨ps, ttl, hway, hconveyed⟩ :=
    (hgoes hlate (lineNode 0) (linePort 1 true) (by decide) 64).delivered
      (line_near.trans_lt (Nat.cast_lt.mpr (by decide : 2 < 16)))
      (line_near.trans (Nat.cast_le.mpr (by decide : 2 ≤ linksAllowed 64)))
  exact ⟨s, ps, ttl, hrun, hway, hconveyed⟩

end Ns3Routing.Dv
