import Ns3Routing.Timed
import Ns3Routing.Ls.Delivery

/-! # Link states in time

The nodes start together, and every message takes at least a millisecond and
less than `m_helloTimeout`. Then no neighbour times out, and once the first
hellos have arrived nobody announces anything new. The last announcements
travel one hop in the time a message takes at most (`Spread`), and when they
have arrived everywhere only hellos are in flight.

While the clock stays below a bound no sequence counter wraps (`NumbersTaken`). -/

namespace Ns3Routing.Ls

open Lib Ns3Routing.Topology

abbrev TimedLsNet (T : Topology) := TimedNet T Node LSMessage

/-- The network without its times, all links up. -/
def lsNet {T : Topology} (s : TimedLsNet T) : LsNet T := { s.net with up := fun _ => true }

section Nets
variable {T : Topology} (s : TimedLsNet T)

@[simp] theorem lsNet_node : (lsNet s).node = s.node := rfl

theorem lsNet_chan (p : T.Port) : (lsNet s).chan p = (s.chan p).map Prod.snd := rfl

theorem mem_lsNet {p : T.Port} {m : LSMessage} : m ∈ (lsNet s).chan p ↔ ∃ t, (t, m) ∈ s.chan p := by
  simp [lsNet_chan]

theorem lsNet_apply (i : Fin T.size) (res : Node × Packets) :
    lsNet (s.apply i res) = (lsNet s).apply i res := by
  rw [lsNet, TimedNet.net_apply]
  simp [LsNet.apply, Net.apply, lsNet]

end Nets

/-! ## The hello timer -/

section Beat
variable (dijkstra : NodeConfig → Node → Option RoutingTable)

variable {dijkstra} in
theorem hello_on_port {T : Topology} {n n' : Node} {now : ℕ} {out : Packets} {p : T.Port}
    (h : auditHellos dijkstra (T.config (T.owner p)) now n = some (n', out)) :
    helloMessage (T.config (T.owner p)) n ∈ Net.onPort T (T.owner p) out p := by
  have hevent : handle dijkstra (T.config (T.owner p)) n (.auditHellos now) = some (n', out) := h
  have hhello : helloMessage (T.config (T.owner p)) n ∈
      Net.onPort T (T.owner p) (sendHello (T.config (T.owner p)) n).2 p := by
    have hsent : (sendHello (T.config (T.owner p)) n).2 =
        (T.config (T.owner p)).broadcastPacket (helloMessage (T.config (T.owner p)) n) := rfl
    rw [hsent, Net.onPort_broadcastPacket]
    exact List.mem_singleton_self _
  cases handle_cases hevent with
  | quiet _ => exact hhello
  | timeout _ _ _ =>
    rw [Net.onPort_append]
    exact List.mem_append_left _ hhello

variable {dijkstra} in
/-- Only its own hellos are heard of a node. -/
theorem onlyOf_sends {T : Topology} {i : Fin T.size} {n n' : Node} {e : Event} {out : Packets}
    (hk : Keyed (T.config i) n) (h : handle dijkstra (T.config i) n e = some (n', out)) :
    ∀ x ∈ out, (lsHearing dijkstra).OnlyOf T i x.2 := by
  intro x hx j m K hK
  obtain ⟨ann, heffect⟩ := (handle_cases h).effect hk
  simp only [lsHearing, hearsHello] at hK
  rcases heffect.sends x hx with ⟨_, _, hpay, horigin⟩ | ⟨a, _, hown⟩ | ⟨_, _, _, _, _, hl, hrelay⟩
  · rw [hpay, horigin, reverseLookup_main] at hK
    exact (Option.some.inj hK).symm
  · rw [hown] at hK
    cases hK
  · rw [hrelay] at hK
    simp only [hl] at hK
    cases hK

def lsBeat : Beat (lsHearing dijkstra) where
  auditHellos := .auditHellos
  audit_eq _ := rfl
  hello {T i now n n' out} _ h p hp := by
    subst hp
    refine ⟨_, hello_on_port h, fun j n => ?_⟩
    simp [lsHearing, hearsHello, helloMessage]
  only hk h := by
    rcases lsControl_cases h with ⟨e₀, _, hh⟩ | ⟨_, hsent, _⟩
    · exact onlyOf_sends hk hh
    · intro x hx j m K hK
      simp only [lsHearing, hearsHello] at hK
      rcases hsent with rfl | rfl
      · rw [of_mem_broadcastPacket hx] at hK
        simp only [helloMessage, reverseLookup_main] at hK
        exact (Option.some.inj hK).symm
      · rw [of_mem_broadcastPacket hx] at hK
        cases hK

end Beat

/-! ## Steps -/

abbrev lsTimedStep (dijkstra : NodeConfig → Node → Option RoutingTable) (T : Topology) (D : Delays)
    (s : TimedLsNet T) (lab : TimedLabel T) : Option (TimedLsNet T) :=
  timedStep (lsControl dijkstra) (lsBeat dijkstra).auditHellos D s lab

/-- The nodes as `DoStart` leaves them. -/
def timedStart (T : Topology) (sequenceNumber : Fin T.size → UInt32) : TimedLsNet T :=
  .start T fun i => doStart (sequenceNumber i)

/-- Node `i` handles the event `e` at a time. -/
structure TimedAct (dijkstra : NodeConfig → Node → Option RoutingTable) (T : Topology)
    (s : TimedLsNet T) (i : Fin T.size) (e : Event) (out : Packets) (s' : TimedLsNet T) : Prop where
  handled : handle dijkstra (T.config i) (s.node i) e = some (s'.node i, out)
  others : ∀ j, j ≠ i → s'.node j = s.node j
  now : s'.now = s.now
  next : ∀ j, s.nextAudit j ≤ s'.nextAudit j
  act : ∀ ann, Effect (T.config i) (s.node i) e (s'.node i) out ann →
    Act T (lsNet s) i e out ann (lsNet s')
  left : ∀ p x, x ∈ s.chan p → x ∈ s'.chan p ∨
    T.owner (peer p) = i ∧ ∃ now, e = .recv now (T.socket (peer p)) x.2
  posted : ∀ p x, x ∈ s'.chan p → x ∈ s.chan p ∨
    x.1 = s.now ∧ T.owner p = i ∧ ∃ y ∈ out, y.2 = x.2
  arrives : ∀ now socket m, e = .recv now socket m → ∃ p, T.owner (peer p) = i ∧
    socket = T.socket (peer p) ∧ m ∈ (lsNet s).chan p
  audit : ∀ now, e = .auditHellos now → now = getMilliSeconds s.now ∧ s.nextAudit i = s.now ∧
    s'.nextAudit i = s.now + milliSeconds (T.config i).helloTimeout

section Steps
variable {dijkstra : NodeConfig → Node → Option RoutingTable} {T : Topology} {D : Delays}
  {s s' : TimedLsNet T}

/-- The oldest message of a link end arrives. -/
theorem TimedAct.of_deliver {p : T.Port} {sent : ℕ} {m : LSMessage} {rest : List (ℕ × LSMessage)}
    {n' : Node} {out : Packets} (head : s.chan p = (sent, m) :: rest)
    (handled : handle dijkstra (T.config (T.owner (peer p))) (s.node (T.owner (peer p)))
      (.recv (getMilliSeconds s.now) (T.socket (peer p)) m) = some (n', out)) :
    TimedAct dijkstra T s (T.owner (peer p)) (.recv (getMilliSeconds s.now) (T.socket (peer p)) m)
      out ((s.setChan p rest).apply (T.owner (peer p)) (n', out)) := by
  have hnode : ((s.setChan p rest).apply (T.owner (peer p)) (n', out)).node (T.owner (peer p)) = n' :=
    TimedNet.apply_node_self _ _ _
  have left : ∀ q x, x ∈ s.chan q → x ∈ (s.setChan p rest).chan q ∨
      T.owner (peer q) = T.owner (peer p) ∧ ∃ now,
        Event.recv (getMilliSeconds s.now) (T.socket (peer p)) m =
          .recv now (T.socket (peer q)) x.2 := by
    intro q x hx
    refine (TimedNet.mem_setChan_or head hx).imp_right ?_
    rintro ⟨rfl, rfl⟩
    exact ⟨rfl, _, rfl⟩
  have arrives : ∀ now socket m', Event.recv (getMilliSeconds s.now) (T.socket (peer p)) m =
      .recv now socket m' → ∃ q, T.owner (peer q) = T.owner (peer p) ∧ socket = T.socket (peer q) ∧
        m' ∈ (lsNet s).chan q := by
    rintro _ _ _ ⟨⟩
    exact ⟨p, rfl, rfl, (mem_lsNet _).mpr ⟨sent, head ▸ List.mem_cons_self⟩⟩
  refine ⟨hnode.symm ▸ handled, fun _ hj => TimedNet.apply_node_ne _ _ hj, rfl, fun _ => le_rfl,
    ?_, ?_, ?_, arrives, ?_⟩
  · intro ann heffect
    rw [hnode] at heffect
    rw [lsNet_apply]
    refine act_of_effect (lsNet (s.setChan p rest)) rfl rfl ?_ ?_ arrives (handle_cases handled) heffect
    · intro q m' hm'
      obtain ⟨t, ht⟩ := (mem_lsNet _).mp hm'
      exact (mem_lsNet _).mpr ⟨t, TimedNet.of_mem_setChan head ht⟩
    · intro q m' hm'
      obtain ⟨t, ht⟩ := (mem_lsNet _).mp hm'
      exact (left q _ ht).imp_left fun h => (mem_lsNet _).mpr ⟨t, h⟩
  · intro q x hx
    exact (left q x hx).imp_left fun h => List.mem_append_left _ h
  · intro q x hx
    rcases TimedNet.of_mem_apply hx with hx | ⟨hnow, hx⟩
    · exact Or.inl (TimedNet.of_mem_setChan head hx)
    · exact Or.inr ⟨hnow, Net.of_mem_onPort hx⟩
  · rintro _ ⟨⟩

/-- The hello timer of a node fires. -/
theorem TimedAct.of_audit {i : Fin T.size} {n' : Node} {out : Packets} (due : s.nextAudit i = s.now)
    (handled : handle dijkstra (T.config i) (s.node i) (.auditHellos (getMilliSeconds s.now)) =
      some (n', out)) :
    TimedAct dijkstra T s i (.auditHellos (getMilliSeconds s.now)) out
      ((s.apply i (n', out)).schedule i) := by
  have hnode : ((s.apply i (n', out)).schedule i).node i = n' := TimedNet.apply_node_self _ _ _
  have arrives : ∀ now socket m, Event.auditHellos (getMilliSeconds s.now) = .recv now socket m →
      ∃ p, T.owner (peer p) = i ∧ socket = T.socket (peer p) ∧ m ∈ (lsNet s).chan p := by
    rintro _ _ _ ⟨⟩
  refine ⟨hnode.symm ▸ handled, fun _ hj => TimedNet.apply_node_ne _ _ hj, rfl, ?_, ?_, ?_, ?_,
    arrives, ?_⟩
  · intro j
    by_cases hj : j = i
    · subst hj
      simp only [TimedNet.schedule, TimedNet.apply, Function.update_self, due]
      exact Nat.le_add_right _ _
    · simp [TimedNet.schedule, TimedNet.apply, hj]
  · intro ann heffect
    rw [hnode] at heffect
    have hnet : lsNet ((s.apply i (n', out)).schedule i) = (lsNet s).apply i (n', out) :=
      lsNet_apply s i (n', out)
    rw [hnet]
    exact act_of_effect (lsNet s) rfl rfl (fun _ _ => id) (fun _ _ => Or.inl) arrives
      (handle_cases handled) heffect
  · intro p x hx
    exact Or.inl (List.mem_append_left _ hx)
  · intro p x hx
    exact (TimedNet.of_mem_apply hx).imp_right fun hnew => ⟨hnew.1, Net.of_mem_onPort hnew.2⟩
  · rintro _ ⟨⟩
    exact ⟨rfl, due, by simp [TimedNet.schedule, TimedNet.apply]⟩

/-- A node handles an event, or time elapses. -/
theorem timedStep_act (hst : TimedStep (lsControl dijkstra) (lsBeat dijkstra).auditHellos D s s') :
    (∃ t, s' = { s with now := s.now + t }) ∨ ∃ i e out, TimedAct dijkstra T s i e out s' := by
  cases hst with
  | idle => exact Or.inl ⟨0, rfl⟩
  | @elapse t _ => exact Or.inl ⟨t, rfl⟩
  | deliver head due handled => exact Or.inr ⟨_, _, _, .of_deliver head handled⟩
  | audit due handled => exact Or.inr ⟨_, _, _, .of_audit due handled⟩

end Steps

/-! ## Sequence counters -/

section Counters
variable {cfg : NodeConfig} {n n' : Node} {e : Event} {out : Packets}

/-- A number is taken for every beat of the hello timer and for every new
neighbour. -/
theorem Handled.counter (h : Handled cfg n e n' out)
    (static : ∀ now, e = .auditHellos now → ∀ K, ¬ Expires cfg now n K) :
    n'.currentSequenceNumber = n.currentSequenceNumber ∧
      n'.neighborTable.size = n.neighborTable.size ∨
    n'.currentSequenceNumber = n.currentSequenceNumber + 1 ∧
      (n'.neighborTable.size = n.neighborTable.size + 1 ∨
        (∃ now, e = .auditHellos now) ∧ n'.neighborTable.size = n.neighborTable.size) := by
  cases h with
  | @refresh _ _ lsMessage _ _ _ e known =>
    refine Or.inl ⟨rfl, ?_⟩
    simp [touch, Std.ExtTreeMap.size_insert, mem_iff_getElem?, known]
  | @discover _ _ lsMessage _ _ _ fresh _ =>
    refine Or.inr ⟨rfl, Or.inl ?_⟩
    simp [addNeighbor, Std.ExtTreeMap.size_insertIfNew, mem_iff_getElem?, fresh]
  | stale _ _ => exact Or.inl ⟨rfl, rfl⟩
  | accept _ _ _ => exact Or.inl ⟨rfl, rfl⟩
  | quiet _ => exact Or.inr ⟨rfl, Or.inr ⟨⟨_, rfl⟩, rfl⟩⟩
  | timeout expires _ _ =>
    obtain ⟨K, hK⟩ := expires
    exact absurd hK (static _ rfl K)

end Counters

/-- A table of nodes of the topology is no greater than it. -/
theorem size_le_of_named {α : Type} {T : Topology} {m : NameMap α}
    (h : ∀ K : String, K ∈ m → ∃ j, K = T.name j) : m.size ≤ T.size := by
  have hsub : m.keys.toFinset ⊆ Finset.univ.image T.name := by
    intro K hK
    rw [List.mem_toFinset, Std.ExtTreeMap.mem_keys] at hK
    obtain ⟨j, rfl⟩ := h K hK
    exact Finset.mem_image_of_mem _ (Finset.mem_univ j)
  have hcard := (Finset.card_le_card hsub).trans Finset.card_image_le
  rwa [List.toFinset_card_of_nodup Std.ExtTreeMap.nodup_keys, Std.ExtTreeMap.length_keys,
    Finset.card_univ, Fintype.card_fin] at hcard

/-- The counters cannot wrap before the time `now`. -/
def Budget (T : Topology) (ms : ℕ) (sequenceNumber : Fin T.size → UInt32) (now : ℕ) : Prop :=
  ∀ i, (sequenceNumber i).toNat + now / milliSeconds ms + T.size < 2 ^ 32

theorem Budget.before {T : Topology} {ms : ℕ} {sequenceNumber : Fin T.size → UInt32} {now now' : ℕ}
    (h : Budget T ms sequenceNumber now') (hle : now ≤ now') : Budget T ms sequenceNumber now := by
  intro i
  have hdiv : now / milliSeconds ms ≤ now' / milliSeconds ms := Nat.div_le_div_right hle
  have hi := h i
  omega

/-- What the counter of node `i` can have come to. -/
def NumbersTaken (T : Topology) (ms : ℕ) (sequenceNumber : Fin T.size → UInt32) (s : TimedLsNet T)
    (i : Fin T.size) : Prop :=
  (s.node i).currentSequenceNumber.toNat + 1 ≤ (sequenceNumber i).toNat +
    s.nextAudit i / milliSeconds ms + (s.node i).neighborTable.size

section NumbersTaken
variable {dijkstra : NodeConfig → Node → Option RoutingTable} {T : Topology} {D : Delays} {ms : ℕ}
  {sequenceNumber : Fin T.size → UInt32} {s s' : TimedLsNet T} {i : Fin T.size} {e : Event}
  {out : Packets}

theorem NumbersTaken.start (period : ∀ i, (T.config i).helloTimeout = ms) (hms : 0 < ms)
    (i : Fin T.size) :
    NumbersTaken T ms sequenceNumber (timedStart T sequenceNumber) i := by
  have hpos : 0 < milliSeconds ms := Nat.mul_pos hms (by decide)
  simp only [NumbersTaken, timedStart, TimedNet.start, doStart, period i, Nat.div_self hpos]
  omega

theorem neighborTable_size (h : Punctual (lsHearing dijkstra) T (milliSeconds ms) D s)
    (i : Fin T.size) : (s.node i).neighborTable.size ≤ T.size := by
  refine size_le_of_named fun K hK => ?_
  obtain ⟨x, hx⟩ := mem_neighborTable.mp hK
  obtain ⟨_, _, p, _, hname⟩ := h.lease i K x hx
  exact ⟨T.owner p, hname⟩

/-- No counter wraps, and the next number is counted. -/
theorem TimedAct.numbersTaken (h : TimedAct dijkstra T s i e out s') (hms : 0 < ms)
    (period : ∀ i, (T.config i).helloTimeout = ms)
    (punctual' : Punctual (lsHearing dijkstra) T (milliSeconds ms) D s')
    (budget : Budget T ms sequenceNumber s'.now)
    (taken : ∀ i, NumbersTaken T ms sequenceNumber s i)
    (static : ∀ now, e = .auditHellos now → ∀ K, ¬ Expires (T.config i) now (s.node i) K) :
    (s.node i).currentSequenceNumber ≤ (s'.node i).currentSequenceNumber ∧
      ∀ j, NumbersTaken T ms sequenceNumber s' j := by
  have hpos : 0 < milliSeconds ms := Nat.mul_pos hms (by decide)
  have hnext : ∀ j, s.nextAudit j / milliSeconds ms ≤ s'.nextAudit j / milliSeconds ms :=
    fun j => Nat.div_le_div_right (h.next j)
  have hbeats : s'.nextAudit i / milliSeconds ms ≤ s'.now / milliSeconds ms + 1 := by
    rw [← Nat.add_div_right _ hpos]
    exact Nat.div_le_div_right (punctual'.timer i).2.1
  have hsize := neighborTable_size punctual' i
  have hbudget := budget i
  have htaken := taken i
  have hhere : (s.node i).currentSequenceNumber ≤ (s'.node i).currentSequenceNumber ∧
      NumbersTaken T ms sequenceNumber s' i := by
    have hnexti := hnext i
    unfold NumbersTaken at htaken ⊢
    rcases (handle_cases h.handled).counter static with ⟨hseq, hsame⟩ | ⟨hseq, hmore⟩
    · rw [hseq, hsame]
      exact ⟨UInt32.le_refl _, by omega⟩
    · -- the number after this one is within the budget
      have htotal : (s.node i).currentSequenceNumber.toNat + 2 ≤ (sequenceNumber i).toNat +
          s'.nextAudit i / milliSeconds ms + (s'.node i).neighborTable.size := by
        rcases hmore with hmore | ⟨⟨now, he⟩, hsame⟩
        · omega
        · obtain ⟨_, hdue, hlater⟩ := h.audit now he
          rw [period i] at hlater
          have hbeat : s'.nextAudit i / milliSeconds ms = s.nextAudit i / milliSeconds ms + 1 := by
            rw [hlater, ← hdue, Nat.add_div_right _ hpos]
          omega
      have hadd : (s'.node i).currentSequenceNumber.toNat =
          (s.node i).currentSequenceNumber.toNat + 1 := by
        rw [hseq, UInt32.toNat_add, UInt32.toNat_one, Nat.mod_eq_of_lt (by omega)]
      exact ⟨UInt32.le_iff_toNat_le.mpr (by omega), by omega⟩
  refine ⟨hhere.1, fun j => ?_⟩
  by_cases hj : j = i
  · subst hj
    exact hhere.2
  · have hnextj := hnext j
    have htakenj := taken j
    unfold NumbersTaken at htakenj ⊢
    rw [h.others j hj]
    omega

end NumbersTaken

/-! ## One hop -/

/-- The announcement number `q` of node `o`, or a later one, has arrived at the
other end of `p` or was sent there until the time `t`. -/
def CoveredBy (T : Topology) (t : ℕ) (s : TimedLsNet T) (p : T.Port) (o : Fin T.size) (q : UInt32) :
    Prop :=
  (∃ x ∈ s.chan p, x.1 ≤ t ∧ ∃ neighborCosts, x.2.payload = .lsTableMsg neighborCosts ∧
    x.2.originatorAddress = (T.config o).mainAddress ∧ q ≤ x.2.sequenceNumber) ∨
  ∃ q', heldSeq (s.node (T.owner (peer p))) (T.name o) = some q' ∧ q ≤ q'

/-- The last announcements at a time: `d` hops in `hopTime`. After `far + 1`
hops nobody sends announcements any more. -/
structure Spread (T : Topology) (ms : ℕ) (D : Delays) (far : ℕ)
    (log : Fin T.size → List (UInt32 × NbrCostsVec)) (s : TimedLsNet T) : Prop where
  flooding : Flooding T log (lsNet s)
  covered : ∀ d o a, (log o).getLast? = some a → hopTime ms D d < s.now → ∀ p,
    T.graph.edist (T.owner p) o ≤ d → CoveredBy T (hopTime ms D d) s p o a.1
  lastSent : ∀ p, ∀ x ∈ s.chan p, (∃ neighborCosts, x.2.payload = .lsTableMsg neighborCosts) →
    x.1 ≤ hopTime ms D (far + 1)

section Spread
variable {dijkstra : NodeConfig → Node → Option RoutingTable} {T : Topology} {ms far d t : ℕ}
  {D : Delays} {log : Fin T.size → List (UInt32 × NbrCostsVec)} {s s' : TimedLsNet T}
  {i o : Fin T.size} {e : Event} {out : Packets} {p : T.Port} {q : UInt32}

theorem CoveredBy.le {q' : UInt32} (h : CoveredBy T t s p o q) (hle : q' ≤ q) :
    CoveredBy T t s p o q' := by
  rcases h with ⟨x, hx, ht, l, hl, ho, hq⟩ | ⟨r, hr, hq⟩
  · exact Or.inl ⟨x, hx, ht, l, hl, ho, UInt32.le_trans hle hq⟩
  · exact Or.inr ⟨r, hr, UInt32.le_trans hle hq⟩

theorem CoveredBy.of_covered (h : Covered T (lsNet s) p o q) (sent : ∀ x ∈ s.chan p, x.1 ≤ t) :
    CoveredBy T t s p o q := by
  refine h.imp_left fun hx => ?_
  obtain ⟨m, hm, hrest⟩ := hx
  obtain ⟨t', ht'⟩ := (mem_lsNet _).mp hm
  exact ⟨(t', m), ht', sent _ ht', hrest⟩

theorem CoveredBy.act (h : CoveredBy T t s p o q) (hk : Keyed (T.config i) (s.node i))
    (hact : TimedAct dijkstra T s i e out s') : CoveredBy T t s' p o q := by
  rcases h with ⟨x, hx, ht, l, hl, ho, hq⟩ | ⟨r, hr, hq⟩
  · rcases hact.left p x hx with hx | ⟨rfl, now, rfl⟩
    · exact Or.inl ⟨x, hx, ht, l, hl, ho, hq⟩
    · obtain ⟨r, hr, hle⟩ := (handle_cases hact.handled).held_recv hl
      rw [ho, reverseLookup_main] at hr
      exact Or.inr ⟨r, hr, UInt32.le_trans hq hle⟩
  · by_cases hp : T.owner (peer p) = i
    · subst hp
      obtain ⟨r', hr', hle⟩ := (handle_cases hact.handled).held_mono hk hr
      exact Or.inr ⟨r', hr', UInt32.le_trans hq hle⟩
    · exact Or.inr ⟨r, by rw [hact.others _ hp]; exact hr, hq⟩

/-- A message's time later it has arrived. -/
theorem CoveredBy.arrived (h : CoveredBy T t s p o q) (late : ∀ x ∈ s.chan p, t < x.1) :
    ∃ q', heldSeq (s.node (T.owner (peer p))) (T.name o) = some q' ∧ q ≤ q' := by
  refine h.resolve_left fun hx => ?_
  obtain ⟨x, hx, ht, _⟩ := hx
  exact absurd (late x hx) (not_lt.mpr ht)

/-- A node holds what has been covered up to it. -/
theorem held_of_covered (hP : Punctual (lsHearing dijkstra) T (milliSeconds ms) D s)
    (covered : ∀ c ≤ d, ∀ p, T.graph.edist (T.owner p) o ≤ c → CoveredBy T (hopTime ms D c) s p o q)
    (hnow : hopTime ms D (d + 1) < s.now) {k : Fin T.size} (hko : k ≠ o)
    (hdist : T.graph.edist k o ≤ (d + 1 : ℕ)) :
    ∃ q', heldSeq (s.node k) (T.name o) = some q' ∧ q ≤ q' := by
  obtain ⟨c, hc⟩ := ENat.ne_top_iff_exists.mp (ne_top_of_le_ne_top (ENat.natCast_ne_top _) hdist)
  cases c with
  | zero => exact absurd (SimpleGraph.edist_eq_zero_iff.mp hc.symm) hko
  | succ c =>
    -- a neighbour that is closer
    obtain ⟨k', ⟨p, rfl, rfl⟩, hk'⟩ := exists_adj_of_edist_succ (hc.symm.trans (Nat.cast_succ c))
    rw [← hc, Nat.cast_le] at hdist
    have htime := hopTime_succ ms D c
    have hle := hopTime_mono ms D (show c + 1 ≤ d + 1 by omega)
    have hheld := (covered c (by omega) (peer p) hk'.le).arrived fun x hx => by
      have := (hP.sent (peer p) x hx).2.2
      omega
    rwa [peer_peer] at hheld

/-- When all neighbours are known and none times out, an event announces
nothing new. -/
theorem Handled.unannounced {cfg : NodeConfig} {n n' : Node} (h : Handled cfg n e n' out)
    (static : ∀ now, e = .auditHellos now → ∀ K, ¬ Expires cfg now n K)
    (known : ∀ now socket lsMessage destinationAddress helloMessage, e = .recv now socket lsMessage →
      lsMessage.payload = .helloReq destinationAddress helloMessage →
      cfg.reverseLookup lsMessage.originatorAddress ∈ n.neighborTable) :
    Effect cfg n e n' out none := by
  cases h with
  | refresh _ old => exact .unannounced (touch_entry _ old) fun x hx => by cases hx
  | discover payload fresh _ =>
    have hmem := known _ _ _ _ _ rfl payload
    rw [mem_iff_getElem?, fresh] at hmem
    obtain ⟨_, hnone⟩ := hmem
    cases hnone
  | stale _ _ => exact .unannounced (fun _ _ => Iff.rfl) fun x hx => by cases hx
  | accept payload _ _ =>
    refine .unannounced (fun _ _ => Iff.rfl) fun x hx => ?_
    exact Or.inr ⟨_, _, _, _, rfl, payload, of_mem_broadcastPacket hx⟩
  | quiet _ =>
    refine .unannounced (fun _ _ => Iff.rfl) fun x hx => ?_
    rw [of_mem_broadcastPacket hx]
    exact Or.inl ⟨_, _, rfl, rfl⟩
  | timeout expires _ _ =>
    obtain ⟨K, hK⟩ := expires
    exact absurd hK (static _ rfl K)

/-- When time elapses. -/
theorem Spread.elapse (h : Spread T ms D far log s) {t : ℕ}
    (hP : Punctual (lsHearing dijkstra) T (milliSeconds ms) D s)
    (hP' : Punctual (lsHearing dijkstra) T (milliSeconds ms) D { s with now := s.now + t }) :
    Spread T ms D far log { s with now := s.now + t } := by
  refine ⟨h.flooding, ?_, h.lastSent⟩
  intro d
  induction d using Nat.strong_induction_on with
  | _ d ih =>
    intro o a ha hnow p hdist
    by_cases hbefore : hopTime ms D d < s.now
    · exact h.covered d o a ha hbefore p hdist
    · -- time passes `hopTime d`: what is on its way has been sent
      have sent : ∀ x ∈ s.chan p, x.1 ≤ hopTime ms D d := by
        intro x hx
        have := (hP.sent p x hx).2.1
        omega
      have hsaid : ∃ q, a.1 ≤ q ∧ Said T log (lsNet s) (T.owner p) o q := by
        by_cases ho : T.owner p = o
        · refine ⟨a.1, UInt32.le_refl _, ?_⟩
          rw [Said, if_pos ho]
          exact ⟨a.2, List.mem_of_getLast? ha⟩
        · cases d with
          | zero => exact absurd (SimpleGraph.edist_eq_zero_iff.mp (nonpos_iff_eq_zero.mp hdist)) ho
          | succ d =>
            obtain ⟨q, hq, hle⟩ := held_of_covered (q := a.1) hP' (fun c hc p hp =>
              ih c (by omega) o a ha ((hopTime_mono ms D (by omega)).trans_lt hnow) p hp) hnow ho hdist
            refine ⟨q, hle, ?_⟩
            rw [Said, if_neg ho]
            exact hq
      obtain ⟨q, hq, hsaid⟩ := hsaid
      exact (CoveredBy.of_covered (h.flooding.flood p o q hsaid) sent).le hq

/-- When everything has been covered, an announcement that arrives is not
new. -/
theorem Spread.stale (h : Spread T ms D far log s)
    (hP : Punctual (lsHearing dijkstra) T (milliSeconds ms) D s) (hfar : 1 ≤ far)
    (near : ∀ i j, T.graph.edist i j ≤ far) (hnow : hopTime ms D (far + 1) < s.now) {p : T.Port}
    {m : LSMessage} (hm : m ∈ (lsNet s).chan p) {neighborCosts : NbrCostsVec}
    (payload : m.payload = .lsTableMsg neighborCosts) :
    isNew (s.node (T.owner (peer p)))
      ((T.config (T.owner (peer p))).reverseLookup m.originatorAddress) m.sequenceNumber = false := by
  obtain ⟨o, ho, hmem⟩ := h.flooding.logged.announced p m hm neighborCosts payload
  obtain ⟨a, ha⟩ : ∃ a, (log o).getLast? = some a := by
    cases hlast : (log o).getLast? with
    | none =>
      rw [List.getLast?_eq_none_iff.mp hlast] at hmem
      cases hmem
    | some a => exact ⟨a, rfl⟩
  have hle : m.sequenceNumber ≤ a.1 := by
    rcases h.flooding.logged.le_last ha hmem with he | hlt
    · exact he ▸ UInt32.le_refl _
    · exact UInt32.le_of_lt hlt
  have hcovered : ∀ c ≤ far - 1, ∀ p, T.graph.edist (T.owner p) o ≤ c →
      CoveredBy T (hopTime ms D c) s p o a.1 := fun c hc p hp =>
    h.covered c o a ha ((hopTime_mono ms D (by omega)).trans_lt hnow) p hp
  have hheld : ∃ q, heldSeq (s.node (T.owner (peer p))) (T.name o) = some q ∧ a.1 ≤ q := by
    by_cases hio : T.owner (peer p) = o
    · -- its own announcement, come back
      have hone : T.graph.edist (T.owner p) o ≤ (1 : ℕ) := by
        rw [← hio, SimpleGraph.edist_eq_one_iff_adj.mpr (adj_owner p)]
        exact le_rfl
      have htime := hopTime_succ ms D 1
      have hle : hopTime ms D (1 + 1) ≤ hopTime ms D (far + 1) := hopTime_mono ms D (by omega)
      refine (h.covered 1 o a ha (by omega) p hone).arrived fun x hx => ?_
      have := (hP.sent p x hx).2.2
      omega
    · obtain ⟨d, rfl⟩ : ∃ d, far = d + 1 := ⟨far - 1, by omega⟩
      exact held_of_covered (d := d) hP hcovered
        ((hopTime_mono ms D (Nat.le_succ _)).trans_lt hnow) hio (near _ _)
  obtain ⟨q, hq, haq⟩ := hheld
  rw [ho, reverseLookup_main]
  cases hnew : isNew (s.node (T.owner (peer p))) (T.name o) m.sequenceNumber with
  | false => rfl
  | true =>
    have hlt := isNew_iff.mp hnew q hq
    exact absurd hlt (UInt32.not_lt.mpr (UInt32.le_trans hle haq))

/-- When a node handles an event. -/
theorem Spread.act (h : Spread T ms D far log s)
    (hP : Punctual (lsHearing dijkstra) T (milliSeconds ms) D s) (hfar : 1 ≤ far)
    (near : ∀ i j, T.graph.edist i j ≤ far) (hact : TimedAct dijkstra T s i e out s')
    (static : ∀ now, e = .auditHellos now → ∀ K, ¬ Expires (T.config i) now (s.node i) K)
    (hwrap : (s.node i).currentSequenceNumber ≤ (s'.node i).currentSequenceNumber) :
    ∃ log', Spread T ms D far log' s' := by
  have hk := h.flooding.logged.keyed i
  by_cases hnow : hopTime ms D 0 < s.now
  · -- all neighbours are known
    have heffect : Effect (T.config i) (s.node i) e (s'.node i) out none := by
      refine (handle_cases hact.handled).unannounced static fun now socket m d g he payload => ?_
      obtain ⟨p, rfl, _, hm⟩ := hact.arrives now socket m he
      rw [h.flooding.logged.hello p m hm d g payload, reverseLookup_main]
      exact mem_neighborTable.mpr (hP.known (by simpa [hopTime] using hnow) p)
    have hsame : record log i none = log := by
      simp [record]
    refine ⟨log, hsame ▸ h.flooding.act static (hact.act none heffect) hwrap, ?_, ?_⟩
    · intro d o a ha hd p hdist
      rw [hact.now] at hd
      exact (h.covered d o a ha hd p hdist).act hk hact
    · intro p x hx hpay
      rcases hact.posted p x hx with hx | ⟨hxnow, rfl, y, hy, hyx⟩
      · exact h.lastSent p x hx hpay
      · by_contra hlate
        rw [hxnow, not_le] at hlate
        obtain ⟨l, hl⟩ := hpay
        rw [← hyx] at hl
        rcases heffect.sends y hy with ⟨_, _, hhello, _⟩ | ⟨_, hann, _⟩ |
          ⟨now, socket, m, l', he, hl', _⟩
        · rw [hhello] at hl
          cases hl
        · cases hann
        · obtain ⟨q, hq, _, hm⟩ := hact.arrives now socket m he
          have hstale := h.stale hP hfar near hlate hm hl'
          rw [hq] at hstale
          have hhandled := handle_cases hact.handled
          subst he
          generalize s'.node (T.owner p) = n' at hhandled
          cases hhandled with
          | refresh payload _ => rw [hl'] at payload; cases payload
          | discover payload _ _ => rw [hl'] at payload; cases payload
          | stale _ _ => cases hy
          | accept _ new _ => rw [hstale] at new; cases new
  · obtain ⟨ann, heffect⟩ := (handle_cases hact.handled).effect hk
    refine ⟨record log i ann, h.flooding.act static (hact.act ann heffect) hwrap, ?_, ?_⟩
    · intro d o a ha hd
      have hle := hopTime_mono ms D (Nat.zero_le d)
      rw [hact.now] at hd
      omega
    · intro p x hx hpay
      rcases hact.posted p x hx with hx | ⟨hxnow, _⟩
      · exact h.lastSent p x hx hpay
      · have hle := hopTime_mono ms D (Nat.zero_le (far + 1))
        omega

end Spread

/-! ## Every run -/

/-- What holds while no counter can wrap. -/
structure Timely (dijkstra : NodeConfig → Node → Option RoutingTable) (T : Topology) (ms : ℕ)
    (D : Delays) (far : ℕ) (sequenceNumber : Fin T.size → UInt32) (s : TimedLsNet T) : Prop where
  taken : ∀ i, NumbersTaken T ms sequenceNumber s i
  current : ∀ i, CurrentOrAlone dijkstra (T.config i) (s.node i)
  phase : Waking T (milliSeconds ms) (fun i => doStart (sequenceNumber i))
    (netStart T sequenceNumber).node (netStart T sequenceNumber).chan s ∨
    ∃ log, Spread T ms D far log s

section Runs
variable {dijkstra : NodeConfig → Node → Option RoutingTable} {T : Topology} {ms far : ℕ}
  {D : Delays} {sequenceNumber : Fin T.size → UInt32} {s s' : TimedLsNet T}

/-- No neighbour times out. -/
theorem none_expires (h : Punctual (lsHearing dijkstra) T (milliSeconds ms) D s)
    (period : ∀ i, (T.config i).helloTimeout = ms) (least : milliSeconds 1 ≤ D.least)
    (greatest : D.greatest < milliSeconds ms) {i : Fin T.size} (due : s.nextAudit i = s.now)
    (K : String) : ¬ Expires (T.config i) (getMilliSeconds s.now) (s.node i) K := by
  intro hx
  obtain ⟨e, he, hexpired⟩ := hx
  have hlease : (lsHearing dijkstra).neighbors (s.node i) K =
      some (e.interfaceAddr, e.lastUpdated) := by
    simp [lsHearing, neighborLease, he]
  have := h.keeps least greatest due hlease
  simp only [NeighborTableEntry.expired, decide_eq_true_eq, period i] at hexpired
  omega

theorem audit_doStart (i : Fin T.size) (q : UInt32) (now : ℕ) :
    auditHellos dijkstra (T.config i) now (doStart q) = some (sendHello (T.config i) (doStart q)) := by
  have hnone : (doStart q).neighborTable.toList = [] :=
    List.eq_nil_iff_forall_not_mem.mpr fun x hx => by
      have := mem_toList.mp hx
      simp [doStart] at this
  rw [auditHellos]
  simp only [sendHello, hnone]
  rfl

theorem punctual_start (period : ∀ i, (T.config i).helloTimeout = ms) :
    Punctual (lsHearing dijkstra) T (milliSeconds ms) D (timedStart T sequenceNumber) := by
  refine Punctual.start period (fun i K e he => ?_) fun i K => ?_
  · simp [doStart] at he
  · simp [lsHearing, neighborLease, doStart]

theorem Timely.start (period : ∀ i, (T.config i).helloTimeout = ms) (hms : 0 < ms) :
    Timely dijkstra T ms D far sequenceNumber (timedStart T sequenceNumber) where
  taken := NumbersTaken.start period hms
  current i := Or.inl fun K => by simp [timedStart, TimedNet.start, doStart]
  phase := Or.inl (Waking.start period)

/-- When all nodes have sent their first hello. -/
theorem Spread.start
    (h : s.net = ⟨(netStart T sequenceNumber).node, (netStart T sequenceNumber).chan⟩) :
    Spread T ms D far (fun _ => []) s := by
  have hnet : lsNet s = netStart T sequenceNumber := by
    rw [lsNet, h]
    rfl
  refine ⟨hnet ▸ Flooding.start T sequenceNumber, fun d o a ha => (by cases ha), fun p x hx hpay => ?_⟩
  obtain ⟨l, hl⟩ := hpay
  have hmem : x.2 ∈ (lsNet s).chan p := (mem_lsNet s).mpr ⟨x.1, hx⟩
  rw [hnet] at hmem
  obtain ⟨_, y, hy, hyx⟩ := Net.of_mem_onPort hmem
  have hhello := of_mem_broadcastPacket hy
  rw [← hyx, hhello] at hl
  cases hl

section Time
variable (period : ∀ i, (T.config i).helloTimeout = ms) (least : milliSeconds 1 ≤ D.least)
  (greatest : D.greatest < milliSeconds ms)
include period least greatest

theorem Timely.step (h : Timely dijkstra T ms D far sequenceNumber s)
    (hP : Punctual (lsHearing dijkstra) T (milliSeconds ms) D s)
    (hP' : Punctual (lsHearing dijkstra) T (milliSeconds ms) D s') (hfar : 1 ≤ far)
    (near : ∀ i j, T.graph.edist i j ≤ far) (budget : Budget T ms sequenceNumber s'.now)
    (hst : TimedStep (lsControl dijkstra) (lsBeat dijkstra).auditHellos D s s') :
    Timely dijkstra T ms D far sequenceNumber s' := by
  have hms : 0 < ms := Nat.pos_of_ne_zero fun h0 => by simp [h0, milliSeconds] at greatest
  have hleast : 0 < D.least := lt_of_lt_of_le (by decide) least
  have hphase : (∀ log, Spread T ms D far log s → ∃ log', Spread T ms D far log' s') →
      Waking T (milliSeconds ms) (fun i => doStart (sequenceNumber i))
        (netStart T sequenceNumber).node (netStart T sequenceNumber).chan s' ∨
      ∃ log, Spread T ms D far log s' := by
    intro hspread
    rcases h.phase with hwaking | ⟨log, hs⟩
    · refine (hwaking.step hms hleast period (fun i => ?_) hst).imp_right fun hnet => ⟨_, .start hnet⟩
      refine ⟨_, audit_doStart i (sequenceNumber i) ms, fun p hp => ?_⟩
      subst hp
      rfl
    · exact Or.inr (hspread log hs)
  rcases timedStep_act hst with ⟨t, rfl⟩ | ⟨i, e, out, hact⟩
  · exact ⟨h.taken, h.current, hphase fun log hs => ⟨log, hs.elapse hP hP'⟩⟩
  · have static : ∀ now, e = .auditHellos now → ∀ K, ¬ Expires (T.config i) now (s.node i) K := by
      intro now he
      obtain ⟨rfl, due, _⟩ := hact.audit now he
      exact none_expires hP period least greatest due
    obtain ⟨hwrap, htaken⟩ := hact.numbersTaken hms period hP' budget h.taken static
    refine ⟨htaken, fun j => ?_, hphase fun log hs => hs.act hP hfar near hact static hwrap⟩
    by_cases hj : j = i
    · subst hj
      exact (h.current j).handle hact.handled
    · rw [hact.others j hj]
      exact h.current j

/-- Every handler returns when `Dijkstra` does. -/
theorem timedStep_exists (total : ∀ cfg n, (dijkstra cfg n).isSome)
    (hP : Punctual (lsHearing dijkstra) T (milliSeconds ms) D s) (lab : TimedLabel T) :
    ∃ s', lsTimedStep dijkstra T D s lab = some s' := by
  cases lab with
  | elapse t =>
    simp only [lsTimedStep, timedStep]
    split <;> exact ⟨_, rfl⟩
  | deliver p =>
    simp only [lsTimedStep, timedStep]
    split
    · exact ⟨_, rfl⟩
    · rename_i sent m rest head
      split
      · obtain ⟨res, hres⟩ := handle_isSome (T.config (T.owner (peer p))) (s.node (T.owner (peer p)))
          (e := .recv (getMilliSeconds s.now) (T.socket (peer p)) m) total (by rintro _ ⟨⟩)
        exact ⟨_, Option.map_eq_some_iff.mpr ⟨res, hres, rfl⟩⟩
      · exact ⟨_, rfl⟩
  | auditHellos i =>
    simp only [lsTimedStep, timedStep]
    split
    · rename_i due
      obtain ⟨res, hres⟩ := handle_isSome (T.config i) (s.node i)
        (e := .auditHellos (getMilliSeconds s.now)) total (by
          rintro _ ⟨⟩
          exact none_expires hP period least greatest due)
      exact ⟨_, Option.map_eq_some_iff.mpr ⟨res, hres, rfl⟩⟩
    · exact ⟨_, rfl⟩

theorem timely_run (hfar : 1 ≤ far) (near : ∀ i j, T.graph.edist i j ≤ far)
    {labs : List (TimedLabel T)}
    (hrun : run (lsTimedStep dijkstra T D) (timedStart T sequenceNumber) labs = some s) :
    Punctual (lsHearing dijkstra) T (milliSeconds ms) D s ∧
      (Budget T ms sequenceNumber s.now → Timely dijkstra T ms D far sequenceNumber s) := by
  have hms : 0 < ms := Nat.pos_of_ne_zero fun h0 => by simp [h0, milliSeconds] at greatest
  refine run_invariant (I := fun s => Punctual (lsHearing dijkstra) T (milliSeconds ms) D s ∧
      (Budget T ms sequenceNumber s.now → Timely dijkstra T ms D far sequenceNumber s))
    ⟨punctual_start period, fun _ => .start period hms⟩ ?_ hrun
  intro s lab s' hI hst
  obtain ⟨hP, htimely⟩ := hI
  have hst := timedStep_cases hst
  have hP' := hP.step (lsBeat dijkstra) period least greatest hst
  refine ⟨hP', fun budget => ?_⟩
  exact (htimely (budget.before hst.le)).step period least greatest hP hP' hfar near budget hst

end Time

/-- Then only hellos are in flight. -/
theorem Spread.calm {log : Fin T.size → List (UInt32 × NbrCostsVec)} (h : Spread T ms D far log s)
    (hP : Punctual (lsHearing dijkstra) T (milliSeconds ms) D s)
    (hnow : hopTime ms D (far + 2) < s.now) : Calm T (lsNet s) := by
  have htime : hopTime ms D (far + 2) = hopTime ms D (far + 1) + D.greatest :=
    hopTime_succ ms D (far + 1)
  have hfirst := first_le_hopTime ms D (far + 2)
  refine ⟨fun p => ?_, fun p m hm l hl => ?_⟩
  · have hknown := hP.known (by omega) (peer p)
    rw [peer_peer] at hknown
    exact mem_iff_getElem?.mp (mem_neighborTable.mpr hknown)
  · obtain ⟨t, ht⟩ := (mem_lsNet s).mp hm
    have hlast := h.lastSent p (t, m) ht ⟨l, hl⟩
    have hlate := (hP.sent p (t, m) ht).2.2
    omega

end Runs

section Settled
variable {dijkstra' : NodeConfig → Node → Option RoutingTable} {T : Topology} {D : Delays} {ms far : ℕ}
  {sequenceNumber : Fin T.size → UInt32} {s : TimedLsNet T}
variable (period : ∀ i, (T.config i).helloTimeout = ms) (least : milliSeconds 1 ≤ D.least)
  (greatest : D.greatest < milliSeconds ms)

include period least greatest

/-- When `Dijkstra` returns, no handler fails. -/
theorem run_total (total : ∀ cfg n, (dijkstra' cfg n).isSome) (labs : List (TimedLabel T)) :
    ∃ s, run (lsTimedStep dijkstra' T D) (timedStart T sequenceNumber) labs = some s := by
  obtain ⟨s, hs, _⟩ := run_exists (C := fun _ _ => True)
    (P := Punctual (lsHearing dijkstra') T (milliSeconds ms) D) (punctual_start period)
    (fun s lab hP _ => by
      obtain ⟨s', hs'⟩ := timedStep_exists period least greatest total hP lab
      exact ⟨s', hs', hP.step (lsBeat dijkstra') period least greatest (timedStep_cases hs')⟩)
    (fun _ _ _ _ _ => trivial)
  exact ⟨s, hs⟩

/-- Neighbours are known when the first hellos have arrived. -/
theorem known_in_time {labs : List (TimedLabel T)}
    (hrun : run (lsTimedStep dijkstra' T D) (timedStart T sequenceNumber) labs = some s)
    (hnow : milliSeconds ms + D.greatest < s.now) (p : T.Port) :
    T.name (T.owner p) ∈ (s.node (T.owner (peer p))).neighborTable := by
  have hP : Punctual (lsHearing dijkstra') T (milliSeconds ms) D s :=
    run_invariant (punctual_start period)
      (fun _ _ _ hP hst => hP.step (lsBeat dijkstra') period least greatest (timedStep_cases hst)) hrun
  exact mem_neighborTable.mpr (hP.known hnow p)

/-- After the time of `far + 3` messages all is calm, and what nodes store is
what `Dijkstra` makes of it. -/
theorem settled_in_time (conn : T.graph.Connected) (htwo : 2 ≤ T.size)
    (near : ∀ i j, T.graph.edist i j ≤ far) (completes : Completes dijkstra')
      {labs : List (TimedLabel T)}
    (hrun : run (lsTimedStep dijkstra' T D) (timedStart T sequenceNumber) labs = some s)
    (budget : Budget T ms sequenceNumber s.now)
    (hnow : milliSeconds ms + (far + 3) * D.greatest < s.now) :
    ∃ log, Flooding T log (lsNet s) ∧ Calm T (lsNet s) ∧
      ∀ i, dijkstra (T.config i) (s.node i) = some (s.node i).routingTable := by
  have : Nontrivial (Fin T.size) := Fin.nontrivial_iff_two_le.mpr htwo
  -- two neighbours are one hop apart
  have hfar : 1 ≤ far := by
    obtain ⟨j, hadj⟩ := conn.preconnected.exists_adj_of_nontrivial ⟨0, by omega⟩
    have hone := near ⟨0, by omega⟩ j
    rw [SimpleGraph.edist_eq_one_iff_adj.mpr hadj] at hone
    exact Nat.one_le_cast.mp hone
  obtain ⟨hP, htimely⟩ := timely_run period least greatest hfar near hrun
  have hlate : hopTime ms D (far + 2) < s.now := hnow
  obtain ⟨_, hcurrent, hphase⟩ := htimely budget
  rcases hphase with hwaking | ⟨log, hspread⟩
  · have := hwaking.now
    omega
  · have calm := hspread.calm hP hlate
    exact ⟨log, hspread.flooding, calm,
      fun i => hspread.flooding.routingTable calm conn htwo completes (hcurrent i)⟩

end Settled

/-- **Link states in time.** When the nodes of a connected network start
together and every message takes at least a millisecond and less than
`m_helloTimeout`, no handler fails in any run where `Dijkstra` returns. When
the first hellos have arrived every node has its neighbours, for good. With
nodes at most `far` hops apart, after the time `far + 3` messages take, and as
long as no counter can wrap, all nodes have the neighbours of all nodes, only
hellos are in flight, every node has stored what `Dijkstra` makes of its
tables, and packets take shortest ways. -/
theorem ls_in_time (T : Topology) (addressed : Addressed T) (conn : T.graph.Connected)
    (htwo : 2 ≤ T.size) (far : ℕ) (near : ∀ i j, T.graph.edist i j ≤ far)
    (dijkstra' : NodeConfig → Node → Option RoutingTable) (completes : Completes dijkstra') (ms : ℕ)
    (period : ∀ i, (T.config i).helloTimeout = ms) (D : Delays) (least : milliSeconds 1 ≤ D.least)
    (greatest : D.greatest < milliSeconds ms) (sequenceNumber : Fin T.size → UInt32)
    (labs : List (TimedLabel T)) (dvNode : Fin T.size → Dv.Node)
    (lsStatic dvStatic : Fin T.size → StaticInput) :
    ((∀ cfg n, (dijkstra' cfg n).isSome) → ∃ s,
      run (timedStep (lsControl dijkstra') .auditHellos D) (timedStart T sequenceNumber) labs =
        some s) ∧
    ∀ s, run (timedStep (lsControl dijkstra') .auditHellos D) (timedStart T sequenceNumber) labs =
      some s →
      (milliSeconds ms + D.greatest < s.now → ∀ p,
        T.name (T.owner p) ∈ (s.node (T.owner (peer p))).neighborTable) ∧
      (Budget T ms sequenceNumber s.now → milliSeconds ms + (far + 3) * D.greatest < s.now →
        Complete T (lsNet s) ∧
        (∀ p, ∀ x ∈ s.chan p, ∀ neighborCosts, x.2.payload ≠ .lsTableMsg neighborCosts) ∧
        (∀ i, dijkstra (T.config i) (s.node i) = some (s.node i).routingTable) ∧
        ∀ routing, routing ≠ .dv → ∀ i q, i ≠ T.owner q → ∀ ttl,
          GoesTo T (fun i => routingNode T routing (lsStatic i) (dvStatic i) i (s.node i) (dvNode i))
            q ⊤ i ttl) := by
  refine ⟨fun total => run_total period least greatest total labs, fun s hrun => ?_⟩
  refine ⟨known_in_time period least greatest hrun, fun budget hnow => ?_⟩
  obtain ⟨log, hflooding, calm, hrt⟩ :=
    settled_in_time period least greatest conn htwo near completes hrun budget hnow
  refine ⟨hflooding.complete_of_calm calm conn htwo, fun p x hx => ?_, hrt,
    fun routing hrouting i q hi ttl => ?_⟩
  · exact calm.hellos p x.2 ((mem_lsNet s).mpr ⟨x.1, hx⟩)
  · have hleads := hflooding.leadsTo calm conn htwo hrt addressed
      (fun i => routingNode_first hrouting (lsStatic i) (dvStatic i) i (s.node i) (dvNode i)) q
    exact hleads.goesTo hi ttl

theorem lineTimes_late : ((run (lsTimedStep dijkstraOrEmpty lineTopology lineDelays)
    (timedStart lineTopology fun _ => 7) (lineTimes 6 6)).map fun s =>
      decide (milliSeconds 2000 + (2 + 3) * lineDelays.greatest < s.now ∧
        s.now < 2 * milliSeconds 2000)) = some true := by decide +kernel

theorem ls_in_time_line : ∃ s ps ttl,
    run (timedStep (lsControl dijkstraOrEmpty) .auditHellos lineDelays)
      (timedStart lineTopology fun _ => 7) (lineTimes 6 6) = some s ∧
      Complete lineTopology (lsNet s) ∧ Crosses lineTopology (lineNode 0) ps (lineNode 2) ∧
      Conveyed lineTopology (fun i => routingNode lineTopology .any noStatic noStatic i (s.node i)
        (Dv.doStart (lineTopology.config i) 0)) 30 (lineNode 0) 64 ps
          (.delivered (lineNode 2) ttl) := by
  obtain ⟨htotal, hall⟩ := ls_in_time lineTopology line_addressed line_connected (by decide) 2
    line_far dijkstraOrEmpty dijkstraOrEmpty_completes 2000 (fun _ => rfl) lineDelays
    (by decide) (by decide) (fun _ => 7) (lineTimes 6 6)
    (fun i => Dv.doStart (lineTopology.config i) 0) (fun _ => noStatic) (fun _ => noStatic)
  obtain ⟨s, hrun⟩ := htotal fun cfg n => by simp [dijkstraOrEmpty]
  have hlate := lineTimes_late
  rw [show run (lsTimedStep dijkstraOrEmpty lineTopology lineDelays)
    (timedStart lineTopology fun _ => 7)
    (lineTimes 6 6) = some s from hrun, Option.map_some, Option.some_inj, decide_eq_true_eq] at hlate
  have budget : Budget lineTopology 2000 (fun _ => 7) s.now := fun i => by
    have hlt : s.now / milliSeconds 2000 < 2 := Nat.div_lt_of_lt_mul (Nat.mul_comm _ _ ▸ hlate.2)
    have hsize : lineTopology.size = 3 := rfl
    show 7 + s.now / milliSeconds 2000 + lineTopology.size < 2 ^ 32
    omega
  obtain ⟨_, hin⟩ := hall s hrun
  obtain ⟨hcomplete, _, _, hgoes⟩ := hin budget hlate.1
  obtain ⟨ps, ttl, hway, hconveyed⟩ :=
    (hgoes .any (by decide) (lineNode 0) (linePort 1 true) (by decide) 64).delivered
      (line_near.trans_lt (lt_top_iff_ne_top.mpr (ENat.natCast_ne_top 2)))
      (line_near.trans (Nat.cast_le.mpr (by decide : 2 ≤ linksAllowed 64)))
  exact ⟨s, ps, ttl, hrun, hcomplete, hway, hconveyed⟩

end Ns3Routing.Ls
