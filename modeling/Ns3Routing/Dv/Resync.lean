import Mathlib.Algebra.BigOperators.Group.Finset.Piecewise
import Mathlib.Algebra.Order.BigOperators.Group.Finset
import Ns3Routing.Dv.Consistency
import Ns3Routing.Dv.Network

/-! # Neighbours across outages

Hello messages get lost, neighbours time out on one side or on both and are
found again. Two things break the agreement between the ends of a link: a
node that discovers its neighbour starts from an empty vector, and the
neighbour, which noticed nothing, has no reason to send its vector again; and
the hello timer writes infinity into `m_dv` before `BellmanFord` looks for
changes, so that a lost neighbour is not announced. `KeepsTold` rules out
both, and is enough as long as vectors arrive in the order they are sent. -/

namespace Ns3Routing.Dv

open Lib Ns3Routing.Topology

/-- When the hello timer fires, the neighbours that stay put some destination
within 16 hops at another cost than `m_dv` has after the presets, so that
`BellmanFord` sends the vector. -/
def Announces (cfg : NodeConfig) (now : ℕ) (n : Node) : Prop :=
  ∃ D k, D ≠ cfg.thisNode ∧ k ≤ 16 ∧
    IsLeast {k | ∃ N, ¬ Expires cfg now n N ∧ Reports n N D k} k ∧
    (Expires cfg now n D ∨ (DistanceVector.cost n.dv D).toNat ≠ k)

/-- The link end `q` takes what `A` sends to `B`. -/
def Leads (T : Topology) (A B : Fin T.size) (q : T.Port) : Prop :=
  T.owner q = A ∧ T.owner (peer q) = B

instance (T : Topology) (A B : Fin T.size) (q : T.Port) : Decidable (Leads T A B q) :=
  inferInstanceAs (Decidable (_ ∧ _))

/-- A step after which `A` has told `B` what it knows, if it had before. `B`
discovers `A` only while `A` does not have it in `m_costs`, or has a vector
for it in flight; and when `A` times out other neighbours, it announces it, or
they were out of reach already. -/
def KeepsTold (T : Topology) (A B : Fin T.size) (s : DvNet T) : Label T → Prop
  | .deliver q _ => Leads T A B q → ∀ dvMessage rest, s.chan q = dvMessage :: rest →
      dvMessage.vector? = none → (s.node B).neighborTable[T.name A]? = none →
      T.name B ∉ (s.node A).costs ∨ ∃ p, Leads T A B p ∧ lastVector (s.chan p) ≠ none
  | .auditHellos i now => i = A → T.name B ∈ (s.node A).costs →
      ¬ Expires (T.config A) now (s.node A) (T.name B) →
      (∀ D, Expires (T.config A) now (s.node A) D → DistanceVector.cost (s.node A).dv D = mInf) ∨
        Announces (T.config A) now (s.node A)
  | .lose _ => True

/-- With no vector in flight between them, and each in the `m_costs` of the
other, `B` has stored the costs in the `m_dv` of `A`. -/
def ToldAcross (T : Topology) (A B : Fin T.size) (s : DvNet T) : Prop :=
  (∀ q, Leads T A B q ∨ Leads T B A q → lastVector (s.chan q) = none) →
  T.name B ∈ (s.node A).costs → T.name A ∈ (s.node B).costs →
    ∃ e, (s.node B).neighborTable[T.name A]? = some e ∧
      ∀ D, D ≠ T.name B → DistanceVector.cost e.dv D = DistanceVector.cost (s.node A).dv D

/-! ## Vectors in order

Two nodes can be joined by more than one link, and each link keeps its own
order. What `A` has sent to `B` and `B` has received from `A` is written down
for all of them together. -/

inductive VectorEvent where
  | sent (neighborCosts : List (Ipv4Address × UInt32))
  | received (neighborCosts : List (Ipv4Address × UInt32))

def VectorEvent.sent? : VectorEvent → Option (List (Ipv4Address × UInt32))
  | .sent neighborCosts => some neighborCosts
  | .received _ => none

def VectorEvent.received? : VectorEvent → Option (List (Ipv4Address × UInt32))
  | .sent _ => none
  | .received neighborCosts => some neighborCosts

/-- The vectors for `B` among the packets of `A`. -/
def vectorsTo (T : Topology) (A B : Fin T.size) (out : Packets) : List (List (Ipv4Address × UInt32)) :=
  out.filterMap fun x => if ∃ q, Leads T A B q ∧ x.1 = T.address q then x.2.vector? else none

/-- What `A` sends to `B` when it handles an event. -/
def sentBy (T : Topology) (A B : Fin T.size) (res : Option (Node × Packets)) : List VectorEvent :=
  res.toList.flatMap fun r => (vectorsTo T A B r.2).map .sent

/-- The vectors from `A` to `B` that a step sends or delivers. -/
def vectorEvents (T : Topology) (A B : Fin T.size) (s : DvNet T) : Label T → List VectorEvent
  | .deliver q now =>
    match s.chan q with
    | [] => []
    | dvMessage :: _ =>
      if Leads T A B q then dvMessage.vector?.toList.map .received
      else if T.owner (peer q) = A then
        sentBy T A B (handle (T.config A) (s.node A) (.recv now (T.socket (peer q)) dvMessage))
      else []
  | .auditHellos i now =>
    if i = A then sentBy T A B (handle (T.config A) (s.node A) (.auditHellos now)) else []
  | .lose _ => []

/-- What was received is the first of what was sent, in its order. -/
def InOrder (log : List VectorEvent) : Prop :=
  log.filterMap VectorEvent.received? <+: log.filterMap VectorEvent.sent?

/-! ## One link

A queue keeps its order, so between nodes joined by one link every run is in
order. -/

section Sole
variable {T : Topology} {p : T.Port} {st st' : DvNet T × List VectorEvent} {l : Label T}

/-- What was sent is what was received and what the link end still holds. -/
def Queued (T : Topology) (p : T.Port) (st : DvNet T × List VectorEvent) : Prop :=
  st.2.filterMap VectorEvent.sent? =
    st.2.filterMap VectorEvent.received? ++ (st.1.chan p).filterMap DVMessage.vector?

theorem sent?_sentBy {A B : Fin T.size} {n' : Node} {out : Packets} :
    (sentBy T A B (some (n', out))).filterMap VectorEvent.sent? = vectorsTo T A B out := by
  simp [sentBy, List.filterMap_map, Function.comp_def, VectorEvent.sent?]

theorem received?_sentBy {A B : Fin T.size} {n' : Node} {out : Packets} :
    (sentBy T A B (some (n', out))).filterMap VectorEvent.received? = [] := by
  simp [sentBy, List.filterMap_map, Function.comp_def, VectorEvent.received?]

/-- The vectors go to `p` when no other link end of the way gets one. -/
theorem vectorsTo_onPort {out : Packets}
    (only : ∀ x ∈ out, x.2.vector? ≠ none → ∀ q, Leads T (T.owner p) (T.owner (peer p)) q →
      x.1 = T.address q → x.1 = T.address p) :
    vectorsTo T (T.owner p) (T.owner (peer p)) out =
      (Net.onPort T (T.owner p) out p).filterMap DVMessage.vector? := by
  rw [vectorsTo, Net.onPort, if_pos rfl, List.filterMap_filterMap]
  refine List.filterMap_congr fun x hx => ?_
  by_cases hp : x.1 = T.address p
  · rw [if_pos hp, if_pos ⟨p, ⟨rfl, rfl⟩, hp⟩]
    rfl
  · rw [if_neg hp]
    by_cases hvector : x.2.vector? = none
    · rw [hvector, ite_self]
      rfl
    · rw [if_neg]
      · rfl
      · rintro ⟨q, hq, hto⟩
        exact hp (only x hx hvector q hq hto)

variable (sole : ∀ q, Leads T (T.owner p) (T.owner (peer p)) q → q = p)
include sole

theorem vectorsTo_sole (out : Packets) : vectorsTo T (T.owner p) (T.owner (peer p)) out =
    (Net.onPort T (T.owner p) out p).filterMap DVMessage.vector? :=
  vectorsTo_onPort fun _ _ _ q hq hto => sole q hq ▸ hto

theorem Queued.speaker {s : DvNet T} {log : List VectorEvent} {n' : Node} {out : Packets}
    (h : Queued T p (s, log)) :
    Queued T p (s.apply (T.owner p) (n', out),
      log ++ sentBy T (T.owner p) (T.owner (peer p)) (some (n', out))) := by
  unfold Queued at h ⊢
  simp only [List.filterMap_append, sent?_sentBy, received?_sentBy, Net.apply_chan, List.append_nil,
    vectorsTo_sole sole, h, List.append_assoc]

theorem Queued.step (h : Queued T p st)
    (hst : logged (vectorEvents T (T.owner p) (T.owner (peer p))) (netStep T) st l = some st') :
    Queued T p st' := by
  obtain ⟨s, log⟩ := st
  obtain ⟨s', hs, rfl⟩ := Option.map_eq_some_iff.mp hst
  cases l with
  | lose q =>
    simp only [netStep] at hs
    simp only [vectorEvents, List.append_nil]
    split at hs
    · exact Option.some.inj hs ▸ h
    rename_i head
    split at hs
    · rename_i payload
      obtain rfl := Option.some.inj hs
      refine h.trans (congrArg _ ?_)
      by_cases hq : p = q
      · subst hq
        simp [Net.setChan_self, head, DVMessage.vector?, payload]
      · simp only [Net.setChan_ne _ _ hq]
    · exact Option.some.inj hs ▸ h
  | auditHellos i now =>
    obtain ⟨⟨n', out⟩, handled, rfl⟩ := Option.map_eq_some_iff.mp hs
    by_cases hi : i = T.owner p
    · subst hi
      simp only [vectorEvents, if_true, handled]
      exact h.speaker sole
    · unfold Queued at h ⊢
      simpa only [vectorEvents, if_neg hi, List.append_nil, Net.apply_chan,
        Net.onPort_other (Ne.symm hi)] using h
  | deliver q now =>
    simp only [netStep] at hs
    split at hs
    · rename_i hnil
      obtain rfl := Option.some.inj hs
      simpa only [vectorEvents, hnil, List.append_nil] using h
    · rename_i dvMessage rest head
      obtain ⟨⟨n', out⟩, handled, rfl⟩ := Option.map_eq_some_iff.mp hs
      by_cases hq : Leads T (T.owner p) (T.owner (peer p)) q
      · obtain rfl := sole q hq
        have hother : Net.onPort T (T.owner (peer q)) out q = [] :=
          Net.onPort_other (owner_peer_ne q).symm
        unfold Queued at h ⊢
        simp only [vectorEvents, head, if_pos hq, Net.apply_chan, Net.setChan_self, hother,
          List.append_nil, List.filterMap_append, List.filterMap_cons] at h ⊢
        cases hvector : dvMessage.vector? <;>
          simp [hvector, h, VectorEvent.sent?, VectorEvent.received?]
      · have hqp : p ≠ q := fun he => hq ⟨he ▸ rfl, he ▸ rfl⟩
        have hpop : Queued T p (s.setChan q rest, log) := by
          unfold Queued at h ⊢
          rwa [Net.setChan_ne _ _ hqp]
        by_cases hqA : T.owner (peer q) = T.owner p
        · simp only [vectorEvents, head, if_neg hq, if_pos hqA]
          rw [hqA] at handled ⊢
          simp only [handled]
          exact hpop.speaker sole
        · unfold Queued at hpop ⊢
          simpa only [vectorEvents, head, if_neg hq, if_neg hqA, List.append_nil, Net.apply_chan,
            Net.onPort_other (Ne.symm hqA)] using hpop

theorem inOrder_of_sole (sequenceNumber : Fin T.size → UInt32) (ls : List (Label T)) :
    Along (logged (vectorEvents T (T.owner p) (T.owner (peer p))) (netStep T))
      (fun st => InOrder st.2) (netStart T sequenceNumber, []) ls := by
  have hstart : Queued T p (netStart T sequenceNumber, []) := by
    have hello : lastVector ((netStart T sequenceNumber).chan p) = none :=
      lastVector_helloPackets (n := doStart (T.config (T.owner p)) (sequenceNumber (T.owner p)))
        (T.owner p) (.auditHellos 0)
    exact (List.getLast?_eq_none_iff.mp hello).symm
  intro pre st hpre hst
  have hqueued := along_invariant hstart (fun _ _ _ h hst => h.step sole hst) ls pre st hpre hst
  unfold Queued at hqueued
  unfold InOrder
  rw [hqueued]
  exact List.prefix_append _ _

end Sole

section Announce
variable {T : Topology} {p : T.Port} {n n' : Node} {out : Packets} {now : ℕ}
  {e : NeighborTableEntry}

/-- The reports left after the hello timer are those of the neighbours that
stay. -/
theorem reports_audit {cfg : NodeConfig} (hI : Inv cfg n)
    (h : handle cfg n (.auditHellos now) = some (n', out)) {N D : String} {k : ℕ} :
    Reports n' N D k ↔ ¬ Expires cfg now n N ∧ Reports n N D k := by
  rcases handle_cases hI.tables.keyed h with ⟨hs, hq, _⟩ | ⟨m, ndv, hb, hrec, _⟩
  · cases hq with
    | audit hno =>
      unfold Reports
      simp only [hs.lists_iff, hno N, not_false_eq_true, true_and]
  · cases hb with
    | audit audited _ =>
      rw [← audited.reports]
      unfold Reports
      simp only [hrec.lists]

/-- An announcement is not silent. -/
theorem Announces.sends (hN : NodeNamed T (T.owner p) n)
    (h : handle (T.config (T.owner p)) n (.auditHellos now) = some (n', out))
    (he : StoredAt T n' p e) (ha : Announces (T.config (T.owner p)) now n) :
    lastVector (Net.onPort T (T.owner p) out p) ≠ none := by
  intro hsilent
  have hI' := (hN.handle (e := .auditHellos now) trivial h).inv
  obtain ⟨D, k, hD, hk, ⟨⟨N, hN', hrep⟩, hmin⟩, hdiff⟩ := ha
  -- the cost of `D` after the step is the least one the remaining neighbours report
  have hrep' : Reports n' N D k := (reports_audit hN.inv h).mpr ⟨hN', hrep⟩
  obtain ⟨v, hv⟩ := hI'.reports_mem hrep'
  obtain ⟨r, hr, _, hstored⟩ := hI'.route D v hv hD
  have hle : r.minCost.toNat ≤ k := hr.le_reports hI'.tables hrep'
  have hge : k ≤ r.minCost.toNat :=
    hmin ⟨_, (reports_audit hN.inv h).mp (hr.reports hI'.tables (hle.trans hk))⟩
  have hcost : (DistanceVector.cost n'.dv D).toNat = k := by
    rw [DistanceVector.cost, hv, Option.getD_some,
      hstored (UInt32.le_iff_toNat_le.mpr (hle.trans hk))]
    exact le_antisymm hle hge
  have hvalid : ValidEvent T (T.owner p) (.auditHellos now) := trivial
  rcases hN.speaks hvalid h he with hsaid | ⟨_, _, hcosts⟩
  · rw [hsaid] at hsilent; cases hsilent
  · rcases hcosts D with ⟨hkeep, hsame⟩ | ⟨_, hinf⟩
    · rw [hsame] at hcost
      exact hdiff.elim hkeep fun hne => hne hcost
    · rw [hinf] at hcost
      exact absurd (hcost.trans_le hk) (by decide)

end Announce

/-! ## What a node tells another -/

section Tells
variable {T : Topology} {A B : Fin T.size} {s s' : DvNet T} {n n' : Node} {out : Packets}
  {pending : List (List (Ipv4Address × UInt32))} {log : List VectorEvent}

theorem Leads.ne {q : T.Port} (h : Leads T A B q) : A ≠ B := by
  obtain ⟨rfl, rfl⟩ := h
  exact (owner_peer_ne q).symm

/-- A vector goes to the link end its neighbour is stored with. -/
theorem address_of_vector {ev : Event} {p q : T.Port} {e : NeighborTableEntry}
    {x : Ipv4Address × DVMessage} (h : NodeNamed T (T.owner p) n)
    (hv : ValidEvent T (T.owner p) ev)
    (hh : handle (T.config (T.owner p)) n ev = some (n', out)) (he : StoredAt T n' p e)
    (hx : x ∈ out) (hvector : x.2.vector? ≠ none) (hq : Leads T (T.owner p) (T.owner (peer p)) q)
    (hto : x.1 = T.address q) : x.1 = T.address p := by
  have h' := h.handle hv hh
  have hround : ∀ sequenceNumber, x ∈ dvRound (T.config (T.owner p)) n' sequenceNumber →
      x.1 = T.address p := by
    intro sequenceNumber hx
    obtain ⟨⟨K, c⟩, _, hx⟩ := List.mem_flatMap.mp hx
    split at hx
    · rename_i e' he'
      obtain ⟨r, hr, rfl, _, hif⟩ := h'.entry K e' he'
      rw [hif, ← hr, sendPacket_address, List.mem_singleton] at hx
      -- both are addresses of one link end, so it is the entry of the other end of `p`
      obtain rfl : r = q := T.address_inj r q (hr.trans hq.1.symm) (by rw [← hto, hx])
      obtain rfl : e' = e := Option.some.inj (he'.symm.trans (hq.2 ▸ he.2.1))
      rw [hto, ← hif, he.2.2]
    · cases hx
  rcases handle_cases h.inv.tables.keyed hh with ⟨_, _, rfl⟩ | ⟨_, _, _, _, rounds, rfl, _⟩
  · exact absurd (vector?_of_mem_helloPackets hx) hvector
  · rcases List.mem_append.mp hx with hx | hx
    · exact absurd (vector?_of_mem_helloPackets hx) hvector
    · obtain ⟨sequenceNumber, _, hx⟩ := List.mem_flatMap.mp hx
      exact hround sequenceNumber hx

/-- All vectors for the other end of `p` go to `p`, if it is stored with it. -/
theorem vectorsTo_eq {ev : Event} {p : T.Port} {e : NeighborTableEntry}
    (h : NodeNamed T (T.owner p) n) (hv : ValidEvent T (T.owner p) ev)
    (hh : handle (T.config (T.owner p)) n ev = some (n', out)) (he : StoredAt T n' p e) :
    vectorsTo T (T.owner p) (T.owner (peer p)) out =
      (Net.onPort T (T.owner p) out p).filterMap DVMessage.vector? :=
  vectorsTo_onPort fun _ hx hvector _ hq hto => address_of_vector h hv hh he hx hvector hq hto

/-- Who is in `m_costs` is stored with a link end. -/
theorem NodeNamed.storedAt (h : NodeNamed T A n) (hc : T.name B ∈ n.costs) :
    ∃ p e, Leads T A B p ∧ StoredAt T n p e := by
  obtain ⟨c, hcost⟩ := mem_iff_getElem?.mp hc
  obtain ⟨e, he⟩ := h.inv.tables.costsEntry _ c hcost
  obtain ⟨p, hp, hname, _, hif⟩ := h.entry _ e he
  have hpeer : T.owner (peer p) = B := (name_inj.mp hname).symm
  exact ⟨p, e, ⟨hp, hpeer⟩, hpeer ▸ hc, hpeer ▸ he, hif⟩

/-- While `A` has `B` in its `m_costs`, `B` knows the `m_dv` of `A` or is about
to: the last of the vectors that are `pending`, or else the one it has stored,
gives the same costs to everything but `B`. -/
def Tells (T : Topology) (A B : Fin T.size) (s : DvNet T)
    (pending : List (List (Ipv4Address × UInt32))) : Prop :=
  T.name B ∈ (s.node A).costs →
    match pending.getLast? with
    | some w => ∀ D, D ≠ T.name B →
        DistanceVector.cost (receivedVector (T.config B) w) D = DistanceVector.cost (s.node A).dv D
    | none => ∀ e, T.name A ∈ (s.node B).costs → (s.node B).neighborTable[T.name A]? = some e →
        ∀ D, D ≠ T.name B → DistanceVector.cost e.dv D = DistanceVector.cost (s.node A).dv D

theorem Tells.congr (h : Tells T A B s pending) (hA : s'.node A = s.node A)
    (hB : s'.node B = s.node B) : Tells T A B s' pending := by
  unfold Tells
  rw [hA, hB]
  exact h

/-- `A` handles an event. -/
theorem Tells.speaker {ev : Event} (hN : NodeNamed T A (s.node A)) (h : Tells T A B s pending)
    (hv : ValidEvent T A ev) (hh : handle (T.config A) (s.node A) ev = some (n', out))
    (preset : T.name B ∈ n'.costs → vectorsTo T A B out = [] →
      ∀ D, TimedOut (T.config A) (s.node A) D ev → DistanceVector.cost (s.node A).dv D = mInf) :
    Tells T A B (s.apply A (n', out)) (pending ++ vectorsTo T A B out) := by
  intro hc
  rw [Net.apply_node_self] at hc ⊢
  have hN' := hN.handle hv hh
  obtain ⟨p, e, ⟨rfl, rfl⟩, he⟩ := hN'.storedAt hc
  have hpeer := Net.apply_node_ne s (n', out) (owner_peer_ne p)
  have hlast : (vectorsTo T (T.owner p) (T.owner (peer p)) out).getLast? =
      lastVector (Net.onPort T (T.owner p) out p) := by rw [vectorsTo_eq hN hv hh he]; rfl
  rw [List.getLast?_append, hlast, hpeer]
  rcases hN.speaks hv hh he with hsaid | ⟨hsilent, ⟨_, hstored⟩, hcost⟩
  · rw [hsaid, Option.some_or]
    intro D hD
    obtain ⟨q, _, hname, haddr, _⟩ := hN'.entry _ e he.2.1
    unfold DistanceVector.cost
    rw [receivedVector_vectorFor]
    · intro K v hK
      obtain ⟨j, rfl⟩ := hN'.dvKeys K v hK
      rw [resolveName_name, reverseLookup_main]
    · rw [haddr, reverseLookup_main, ← hname]; exact hD
  · have hnothing : vectorsTo T (T.owner p) (T.owner (peer p)) out = [] := by
      rw [← List.getLast?_eq_none_iff, hlast, hsilent]
    have same : ∀ D, DistanceVector.cost n'.dv D =
        DistanceVector.cost (s.node (T.owner p)).dv D := by
      intro D
      rcases hcost D with ⟨_, hD⟩ | ⟨hout, hD⟩
      · exact hD
      · rw [hD, preset hc hnothing D hout]
    rw [hsilent, Option.none_or]
    simp only [same]
    exact h hstored.1

/-- `B` handles an event that is no vector of `A`. -/
theorem Tells.listener {ev : Event} (hN : NodeNamed T B (s.node B)) (h : Tells T A B s pending)
    (hh : handle (T.config B) (s.node B) ev = some (n', out)) (hA : s'.node A = s.node A)
    (hB : s'.node B = n') (other : ¬ ev.VectorFrom (T.config B) (T.name A))
    (told : ∀ now socket dvMessage destinationAddress helloMessage, ev = .recv now socket dvMessage →
      dvMessage.payload = .helloReq destinationAddress helloMessage →
      (T.config B).reverseLookup dvMessage.originatorAddress = T.name A →
      (s.node B).neighborTable[T.name A]? = none →
      T.name B ∉ (s.node A).costs ∨ pending ≠ []) : Tells T A B s' pending := by
  intro hc
  rw [hA] at hc ⊢
  rw [hB]
  have hbefore := h hc
  cases hlast : pending.getLast? with
  | some w =>
    rw [hlast] at hbefore
    exact hbefore
  | none =>
    rw [hlast] at hbefore
    intro e hcost he
    cases handle_entry hN.inv hh hcost he with
    | kept entry cost core _ =>
      have hdv : e.dv = _ := congrArg (·.2.2) core
      rw [hdv]
      exact hbefore _ cost entry
    | discovered payload sender fresh _ =>
      rcases told _ _ _ _ _ rfl payload sender fresh with hno | hne
      · exact absurd hc hno
      · exact absurd (List.getLast?_eq_none_iff.mp hlast) hne
    | received payload sender _ _ _ => exact absurd ⟨⟨_, payload⟩, sender⟩ other

/-- `B` handles the first of the vectors. -/
theorem Tells.hears {now socket : ℕ} {dvMessage : DVMessage} {w : List (Ipv4Address × UInt32)}
    (hN : NodeNamed T B (s.node B)) (h : Tells T A B s (w :: pending))
    (hh : handle (T.config B) (s.node B) (.recv now socket dvMessage) = some (n', out))
    (hA : s'.node A = s.node A) (hB : s'.node B = n') (payload : dvMessage.payload = .dvTableMsg w)
    (sender : (T.config B).reverseLookup dvMessage.originatorAddress = T.name A) :
    Tells T A B s' pending := by
  intro hc
  rw [hA] at hc ⊢
  rw [hB]
  have hbefore := h hc
  cases hlast : pending.getLast? with
  | some v =>
    rw [List.getLast?_cons, hlast] at hbefore
    exact hbefore
  | none =>
    rw [List.getLast?_cons, hlast] at hbefore
    intro e hcost he
    cases handle_entry hN.inv hh hcost he with
    | kept _ _ _ other => exact absurd ⟨⟨w, payload⟩, sender⟩ other
    | discovered payload' _ _ _ => rw [payload] at payload'; cases payload'
    | received payload' _ _ _ stored =>
      obtain rfl := Payload.dvTableMsg.inj (payload.symm.trans payload')
      rw [stored]
      exact hbefore

end Tells

/-! ## How many are on their way -/

/-- The vectors in flight from `A` to `B`, on all their links. -/
def inFlight (T : Topology) (A B : Fin T.size) (s : DvNet T) : ℕ :=
  ∑ q with Leads T A B q, ((s.chan q).filterMap DVMessage.vector?).length

section InFlight
variable {T : Topology} {A B : Fin T.size} {s : DvNet T} {n' : Node} {q : T.Port}
  {dvMessage : DVMessage} {rest : List DVMessage}

/-- The vectors among the packets of `A` that go to the link end `q`. -/
theorem length_onPort (out : Packets) (hq : T.owner q = A) :
    ((Net.onPort T A out q).filterMap DVMessage.vector?).length =
      out.countP fun x => (if x.1 = T.address q then x.2.vector? else none).isSome := by
  rw [Net.onPort, if_pos hq, List.filterMap_filterMap, List.length_filterMap_eq_countP]
  refine List.countP_congr fun x _ => ?_
  by_cases hx : x.1 = T.address q <;> simp [hx]

/-- A vector for `B` goes to one of the link ends that lead there. -/
theorem sum_address (x : Ipv4Address × DVMessage) :
    ∑ q with Leads T A B q, (if (if x.1 = T.address q then x.2.vector? else none).isSome
      then 1 else 0) =
        if (if ∃ q, Leads T A B q ∧ x.1 = T.address q then x.2.vector? else none).isSome
          then 1 else 0 := by
  by_cases hto : ∃ q, Leads T A B q ∧ x.1 = T.address q
  · rw [if_pos hto]
    obtain ⟨p, hp, hx⟩ := hto
    rw [Finset.sum_eq_single_of_mem p (Finset.mem_filter.mpr ⟨Finset.mem_univ p, hp⟩), if_pos hx]
    intro q hq hqp
    have hq := (Finset.mem_filter.mp hq).2
    have hxq : x.1 ≠ T.address q := fun hxq =>
      hqp (T.address_inj q p (hq.1.trans hp.1.symm) (hxq.symm.trans hx))
    simp [hxq]
  · rw [if_neg hto]
    refine Finset.sum_eq_zero fun q hq => ?_
    have hxq : x.1 ≠ T.address q := fun hxq => hto ⟨q, (Finset.mem_filter.mp hq).2, hxq⟩
    simp [hxq]

theorem length_vectorsTo (out : Packets) :
    ∑ q with Leads T A B q, ((Net.onPort T A out q).filterMap DVMessage.vector?).length =
      (vectorsTo T A B out).length := by
  rw [Finset.sum_congr rfl fun q hq => length_onPort out (Finset.mem_filter.mp hq).2.1, vectorsTo,
    List.length_filterMap_eq_countP]
  induction out with
  | nil => simp
  | cons x out ih => simp only [List.countP_cons, Finset.sum_add_distrib, ih, sum_address]

theorem inFlight_apply_self (out : Packets) :
    inFlight T A B (s.apply A (n', out)) = inFlight T A B s + (vectorsTo T A B out).length := by
  rw [← length_vectorsTo, inFlight, inFlight, ← Finset.sum_add_distrib]
  refine Finset.sum_congr rfl fun q _ => ?_
  rw [Net.apply_chan, List.filterMap_append, List.length_append]

theorem inFlight_apply_other {i : Fin T.size} (h : i ≠ A) (out : Packets) :
    inFlight T A B (s.apply i (n', out)) = inFlight T A B s := by
  refine Finset.sum_congr rfl fun q hq => ?_
  have hq := (Finset.mem_filter.mp hq).2.1
  rw [Net.apply_chan, Net.onPort_other fun hi => h (hi.symm.trans hq), List.append_nil]

theorem inFlight_pop (head : s.chan q = dvMessage :: rest) :
    inFlight T A B s = inFlight T A B (s.setChan q rest) +
      if Leads T A B q then dvMessage.vector?.toList.length else 0 := by
  have hchan : ∀ p, ((s.chan p).filterMap DVMessage.vector?).length =
      (((s.setChan q rest).chan p).filterMap DVMessage.vector?).length +
        if p = q then dvMessage.vector?.toList.length else 0 := by
    intro p
    by_cases hp : p = q
    · subst hp
      rw [Net.setChan_self, head, if_pos rfl, List.filterMap_cons]
      cases dvMessage.vector? <;> simp
    · rw [Net.setChan_ne _ _ hp, if_neg hp, Nat.add_zero]
  simp only [inFlight, hchan, Finset.sum_add_distrib, Finset.sum_ite_eq', Finset.mem_filter,
    Finset.mem_univ, true_and]

theorem inFlight_eq_zero (h : ∀ q, Leads T A B q → lastVector (s.chan q) = none) :
    inFlight T A B s = 0 := by
  refine Finset.sum_eq_zero fun q hq => ?_
  rw [List.getLast?_eq_none_iff.mp (h q (Finset.mem_filter.mp hq).2), List.length_nil]

theorem inFlight_pos (hq : Leads T A B q) (h : lastVector (s.chan q) ≠ none) :
    0 < inFlight T A B s := by
  refine Finset.sum_pos' (fun _ _ => Nat.zero_le _)
    ⟨q, Finset.mem_filter.mpr ⟨Finset.mem_univ q, hq⟩, ?_⟩
  exact List.length_pos_iff.mpr fun hnil => h (List.getLast?_eq_none_iff.mpr hnil)

end InFlight

/-! ## Runs -/

/-- What `A` has sent and `B` has not received is in flight, and tells `B` what
`A` knows. -/
def Told (T : Topology) (A B : Fin T.size) (st : DvNet T × List VectorEvent) : Prop :=
  ∃ pending, st.2.filterMap VectorEvent.sent? = st.2.filterMap VectorEvent.received? ++ pending ∧
    pending.length = inFlight T A B st.1 ∧ Tells T A B st.1 pending

section Told
variable {T : Topology} {A B : Fin T.size} {s s' : DvNet T} {n' : Node} {out : Packets}
  {log : List VectorEvent}

/-- Nothing between `A` and `B` happens. -/
theorem Told.congr (h : Told T A B (s, log)) (hA : s'.node A = s.node A)
    (hB : s'.node B = s.node B) (hflight : inFlight T A B s' = inFlight T A B s) :
    Told T A B (s', log) := by
  obtain ⟨pending, hlog, hlen, htells⟩ := h
  exact ⟨pending, hlog, hlen.trans hflight.symm, htells.congr hA hB⟩

theorem Told.speaker {ev : Event} (hN : NodeNamed T A (s.node A)) (h : Told T A B (s, log))
    (hv : ValidEvent T A ev) (hh : handle (T.config A) (s.node A) ev = some (n', out))
    (preset : T.name B ∈ n'.costs → vectorsTo T A B out = [] →
      ∀ D, TimedOut (T.config A) (s.node A) D ev → DistanceVector.cost (s.node A).dv D = mInf) :
    Told T A B (s.apply A (n', out), log ++ sentBy T A B (some (n', out))) := by
  obtain ⟨pending, hlog, hlen, htells⟩ := h
  refine ⟨pending ++ vectorsTo T A B out, ?_, ?_, htells.speaker hN hv hh preset⟩
  · simp only [List.filterMap_append, sent?_sentBy, received?_sentBy, List.append_nil]
    rw [hlog, List.append_assoc]
  · rw [List.length_append, hlen, inFlight_apply_self]

/-- `B` handles an event that is no vector of `A`. -/
theorem Told.listener {ev : Event} (hN : NodeNamed T B (s.node B)) (h : Told T A B (s, log))
    (hh : handle (T.config B) (s.node B) ev = some (n', out)) (hA : s'.node A = s.node A)
    (hB : s'.node B = n') (hflight : inFlight T A B s' = inFlight T A B s)
    (other : ¬ ev.VectorFrom (T.config B) (T.name A))
    (told : ∀ now socket dvMessage destinationAddress helloMessage, ev = .recv now socket dvMessage →
      dvMessage.payload = .helloReq destinationAddress helloMessage →
      (T.config B).reverseLookup dvMessage.originatorAddress = T.name A →
      (s.node B).neighborTable[T.name A]? = none →
      T.name B ∉ (s.node A).costs ∨ 0 < inFlight T A B s) : Told T A B (s', log) := by
  obtain ⟨pending, hlog, hlen, htells⟩ := h
  refine ⟨pending, hlog, hlen.trans hflight.symm, htells.listener hN hh hA hB other ?_⟩
  intro now socket dvMessage destinationAddress helloMessage hev payload sender fresh
  refine (told now socket dvMessage _ _ hev payload sender fresh).imp_right fun hpos => ?_
  rwa [← hlen, List.length_pos_iff] at hpos

/-- `B` receives a vector of `A`, in order. -/
theorem Told.hears {now socket : ℕ} {dvMessage : DVMessage} {w : List (Ipv4Address × UInt32)}
    (hN : NodeNamed T B (s.node B)) (h : Told T A B (s, log))
    (hh : handle (T.config B) (s.node B) (.recv now socket dvMessage) = some (n', out))
    (hA : s'.node A = s.node A) (hB : s'.node B = n')
    (hflight : inFlight T A B s = inFlight T A B s' + 1) (payload : dvMessage.payload = .dvTableMsg w)
    (sender : (T.config B).reverseLookup dvMessage.originatorAddress = T.name A)
    (inOrder : InOrder (log ++ [.received w])) : Told T A B (s', log ++ [.received w]) := by
  obtain ⟨pending, hlog, hlen, htells⟩ := h
  have hsent : (log ++ [VectorEvent.received w]).filterMap VectorEvent.sent? =
      log.filterMap VectorEvent.sent? := by simp [VectorEvent.sent?]
  have hreceived : (log ++ [VectorEvent.received w]).filterMap VectorEvent.received? =
      log.filterMap VectorEvent.received? ++ [w] := by simp [VectorEvent.received?]
  -- what is received next is the oldest of what is pending
  rw [InOrder, hsent, hreceived, hlog, List.prefix_append_right_inj] at inOrder
  obtain ⟨pending', rfl⟩ := inOrder
  refine ⟨pending', ?_, ?_, htells.hears hN hh hA hB payload sender⟩
  · rw [hsent, hreceived, hlog, List.append_assoc]
  · rw [List.length_append, List.length_singleton] at hlen
    exact Nat.add_left_cancel (hlen.trans (hflight.trans (Nat.add_comm _ 1)))

theorem Named.sender (hN : Named T s) {q : T.Port} {dvMessage : DVMessage} {rest : List DVMessage}
    (head : s.chan q = dvMessage :: rest) (i : Fin T.size) :
    (T.config i).reverseLookup dvMessage.originatorAddress = T.name (T.owner q) := by
  rw [(hN.msg q dvMessage (head ▸ List.mem_cons_self)).1, reverseLookup_main]

/-- When the hello timer of `A` fires and says nothing to `B`, which stays a
neighbour, only neighbours out of reach are given up. -/
theorem KeepsTold.presets {now : ℕ} (hk : KeepsTold T A B s (.auditHellos A now))
    (hN : NodeNamed T A (s.node A))
    (handled : handle (T.config A) (s.node A) (.auditHellos now) = some (n', out))
    (hc : T.name B ∈ n'.costs) (hsilent : vectorsTo T A B out = []) (D : String)
    (hD : Expires (T.config A) now (s.node A) D) :
    DistanceVector.cost (s.node A).dv D = mInf := by
  have hstays : T.name B ∈ (s.node A).costs ∧
      ¬ Expires (T.config A) now (s.node A) (T.name B) := by
    rcases handle_cases hN.inv.tables.keyed handled with ⟨hs, hq, _⟩ | ⟨m, ndv, hb, hrec, _⟩
    · cases hq with
      | audit hno => exact ⟨hs.costs ▸ hc, hno _⟩
    · cases hb with
      | audit audited _ =>
        obtain ⟨c, hc⟩ := mem_iff_getElem?.mp (hrec.costs ▸ hc)
        obtain ⟨hc₀, hno⟩ := audited.cost hc
        exact ⟨mem_iff_getElem?.mpr ⟨c, hc₀⟩, hno⟩
  rcases hk rfl hstays.1 hstays.2 with hinf | ha
  · exact hinf D hD
  · have hv : ValidEvent T A (.auditHellos now) := trivial
    obtain ⟨p, e, ⟨rfl, rfl⟩, he⟩ := (hN.handle hv handled).storedAt hc
    rw [vectorsTo_eq hN hv handled he, ← List.getLast?_eq_none_iff] at hsilent
    exact absurd hsilent (ha.sends hN handled he)

theorem Told.audit {i : Fin T.size} {now : ℕ} (hN : Named T s) (h : Told T A B (s, log))
    (hk : KeepsTold T A B s (.auditHellos i now))
    (handled : handle (T.config i) (s.node i) (.auditHellos now) = some (n', out)) :
    Told T A B (s.apply i (n', out), log ++ vectorEvents T A B s (.auditHellos i now)) := by
  by_cases hiA : i = A
  · subst hiA
    have hv : ValidEvent T i (.auditHellos now) := trivial
    simp only [vectorEvents, if_true, handled]
    exact h.speaker (hN.node i) hv handled fun hc hsilent =>
      hk.presets (hN.node i) handled hc hsilent
  · simp only [vectorEvents, if_neg hiA, List.append_nil]
    have hA := Net.apply_node_ne s (n', out) (Ne.symm hiA)
    have hflight : inFlight T A B (s.apply i (n', out)) = inFlight T A B s :=
      inFlight_apply_other hiA out
    by_cases hiB : i = B
    · subst hiB
      exact h.listener (hN.node i) handled hA (Net.apply_node_self ..) hflight id nofun
    · exact h.congr hA (Net.apply_node_ne s (n', out) (Ne.symm hiB)) hflight

/-- A message of `A` arrives at `B`. -/
theorem Told.arrives {q : T.Port} {now : ℕ} {dvMessage : DVMessage} {rest : List DVMessage}
    (hN : Named T s) (h : Told T A B (s, log)) (hk : KeepsTold T A B s (.deliver q now))
    (hq : Leads T A B q) (head : s.chan q = dvMessage :: rest)
    (handled : handle (T.config B) (s.node B) (.recv now (T.socket (peer q)) dvMessage) =
      some (n', out))
    (inOrder : InOrder (log ++ dvMessage.vector?.toList.map .received)) :
    Told T A B ((s.setChan q rest).apply B (n', out),
      log ++ dvMessage.vector?.toList.map .received) := by
  have hpop := inFlight_pop (A := A) (B := B) head
  have hflight : inFlight T A B ((s.setChan q rest).apply B (n', out)) =
      inFlight T A B (s.setChan q rest) := inFlight_apply_other hq.ne.symm out
  rw [if_pos hq, ← hflight] at hpop
  have hA := Net.apply_node_ne (s.setChan q rest) (n', out) hq.ne
  have hB := Net.apply_node_self (s.setChan q rest) B (n', out)
  have sender : (T.config B).reverseLookup dvMessage.originatorAddress = T.name A :=
    hq.1 ▸ hN.sender head B
  cases payload : dvMessage.payload with
  | dvTableMsg w =>
    have hvector : dvMessage.vector? = some w := by rw [DVMessage.vector?, payload]
    rw [hvector] at hpop inOrder ⊢
    exact h.hears (hN.node B) handled hA hB hpop payload sender inOrder
  | helloReq _ _ =>
    have hvector : dvMessage.vector? = none := by rw [DVMessage.vector?, payload]
    rw [hvector] at hpop ⊢
    simp only [Option.toList_none, List.map_nil, List.append_nil]
    refine h.listener (hN.node B) handled hA hB hpop.symm ?_ ?_
    · rintro ⟨⟨w, hw⟩, _⟩
      rw [payload] at hw
      cases hw
    · rintro _ _ _ _ _ ⟨⟩ _ _ fresh
      refine (hk hq dvMessage rest head hvector fresh).imp_right ?_
      rintro ⟨p, hp, hne⟩
      exact inFlight_pos hp hne

theorem Told.deliver {q : T.Port} {now : ℕ} {dvMessage : DVMessage} {rest : List DVMessage}
    (hN : Named T s) (h : Told T A B (s, log)) (hk : KeepsTold T A B s (.deliver q now))
    (head : s.chan q = dvMessage :: rest)
    (handled : handle (T.config (T.owner (peer q))) (s.node (T.owner (peer q)))
      (.recv now (T.socket (peer q)) dvMessage) = some (n', out))
    (inOrder : InOrder (log ++ vectorEvents T A B s (.deliver q now))) :
    Told T A B ((s.setChan q rest).apply (T.owner (peer q)) (n', out),
      log ++ vectorEvents T A B s (.deliver q now)) := by
  by_cases hq : Leads T A B q
  · obtain ⟨rfl, rfl⟩ := hq
    simp only [vectorEvents, head, if_pos (show Leads T _ _ q from ⟨rfl, rfl⟩)] at inOrder ⊢
    exact h.arrives hN hk ⟨rfl, rfl⟩ head handled inOrder
  have hpop := inFlight_pop (A := A) (B := B) head
  rw [if_neg hq, Nat.add_zero] at hpop
  by_cases hqA : T.owner (peer q) = A
  · subst hqA
    simp only [vectorEvents, head, if_neg hq, if_true, handled]
    have hpopped : Told T _ B (s.setChan q rest, log) := h.congr rfl rfl hpop.symm
    exact hpopped.speaker (hN.node _) (hN.valid now head) handled fun _ _ _ hout => hout.elim
  simp only [vectorEvents, head, if_neg hq, if_neg hqA, List.append_nil]
  have hA := Net.apply_node_ne (s.setChan q rest) (n', out) (Ne.symm hqA)
  have hflight : inFlight T A B ((s.setChan q rest).apply (T.owner (peer q)) (n', out)) =
      inFlight T A B s := (inFlight_apply_other hqA out).trans hpop.symm
  by_cases hqB : T.owner (peer q) = B
  · subst hqB
    -- the message is from another node
    have hsender : (T.config (T.owner (peer q))).reverseLookup dvMessage.originatorAddress ≠
        T.name A := by
      rw [hN.sender head]
      exact fun hname => hq ⟨name_inj.mp hname, rfl⟩
    refine h.listener (hN.node _) handled hA (Net.apply_node_self ..) hflight ?_ ?_
    · exact fun hfrom => hsender hfrom.2
    · rintro _ _ _ _ _ ⟨⟩ _ hfrom _
      exact absurd hfrom hsender
  · exact h.congr hA (Net.apply_node_ne _ (n', out) (Ne.symm hqB)) hflight

/-- Every step that keeps `B` told, and delivers in order. -/
theorem Told.step {l : Label T} {st st' : DvNet T × List VectorEvent} (hN : Named T st.1)
    (h : Told T A B st) (hk : KeepsTold T A B st.1 l)
    (hst : logged (vectorEvents T A B) (netStep T) st l = some st') (inOrder : InOrder st'.2) :
    Told T A B st' := by
  obtain ⟨s, log⟩ := st
  obtain ⟨s', hs, rfl⟩ := Option.map_eq_some_iff.mp hst
  cases l with
  | lose q =>
    simp only [netStep] at hs
    simp only [vectorEvents, List.append_nil]
    split at hs
    · exact Option.some.inj hs ▸ h
    rename_i head
    split at hs
    · rename_i payload
      obtain rfl := Option.some.inj hs
      have hpop := inFlight_pop (A := A) (B := B) head
      rw [DVMessage.vector?, payload] at hpop
      exact h.congr rfl rfl (by simpa using hpop.symm)
    · exact Option.some.inj hs ▸ h
  | auditHellos i now =>
    obtain ⟨⟨n', out⟩, handled, rfl⟩ := Option.map_eq_some_iff.mp hs
    exact h.audit hN hk handled
  | deliver q now =>
    simp only [netStep] at hs
    split at hs
    · rename_i hnil
      obtain rfl := Option.some.inj hs
      simpa only [vectorEvents, hnil, List.append_nil] using h
    · rename_i head
      obtain ⟨⟨n', out⟩, handled, rfl⟩ := Option.map_eq_some_iff.mp hs
      exact h.deliver hN hk head handled inOrder

/-- Nobody has a neighbour yet, and only hello messages are on their way. -/
theorem Told.start (T : Topology) (sequenceNumber : Fin T.size → UInt32) (A B : Fin T.size) :
    Told T A B (netStart T sequenceNumber, []) := by
  refine ⟨[], rfl, Eq.symm (inFlight_eq_zero fun q _ => ?_), ?_⟩
  · exact lastVector_helloPackets (n := doStart _ _) (T.owner q) (.auditHellos 0)
  · intro hc
    simp [netStart, sendHello, doStart] at hc

theorem Told.toldAcross (hN : Named T s) (h : Told T A B (s, log)) : ToldAcross T A B s := by
  intro hquiet hc hc'
  obtain ⟨pending, _, hlen, htells⟩ := h
  rw [inFlight_eq_zero fun q hq => hquiet q (Or.inl hq), List.length_eq_zero_iff] at hlen
  subst hlen
  obtain ⟨c, hcost⟩ := mem_iff_getElem?.mp hc'
  obtain ⟨e, he⟩ := (hN.node B).inv.tables.costsEntry _ c hcost
  exact ⟨e, he, htells hc e hc' he⟩

end Told

/-- From `A` to `B`, in every run that keeps `B` told and in which vectors
arrive in order. -/
theorem toldAcross_along {T : Topology} {sequenceNumber : Fin T.size → UInt32} {A B : Fin T.size}
    {ls : List (Label T)}
    (inOrder : Along (logged (vectorEvents T A B) (netStep T)) (fun st => InOrder st.2)
      (netStart T sequenceNumber, []) ls)
    (h : Meets (netStep T) (KeepsTold T A B) (netStart T sequenceNumber) ls) :
    Along (netStep T) (ToldAcross T A B) (netStart T sequenceNumber) ls := by
  have hrun : Along (logged (vectorEvents T A B) (netStep T))
      (fun st => Named T st.1 ∧ Told T A B st) (netStart T sequenceNumber, []) ls := by
    refine along_of_meets ⟨Named.start T sequenceNumber, Told.start T sequenceNumber A B⟩ ?_
      (h.logged.and inOrder.meets)
    intro st l st' h₁ hst h₂
    obtain ⟨hN, htold⟩ := h₁
    obtain ⟨hk, hin⟩ := h₂
    exact ⟨hN.step (netStep_cases (logged_some hst).1), htold.step hN hk hst (hin st' hst)⟩
  exact along_of_logged hrun fun _ h => h.2.toldAcross h.1

/-- **Neighbours agree across outages** in every run whose steps keep both of
them told, whatever hello messages are lost and whoever times out, as long as
vectors are received in the order they are sent. -/
theorem neighbours_agree (T : Topology) (sequenceNumber : Fin T.size → UInt32) (A B : Fin T.size)
    (ls : List (Label T))
    (inOrder : Along (logged (vectorEvents T A B) (netStep T)) (fun st => InOrder st.2)
      (netStart T sequenceNumber, []) ls)
    (inOrder' : Along (logged (vectorEvents T B A) (netStep T)) (fun st => InOrder st.2)
      (netStart T sequenceNumber, []) ls)
    (h : Meets (netStep T) (fun s l => KeepsTold T A B s l ∧ KeepsTold T B A s l)
      (netStart T sequenceNumber) ls) :
    Along (netStep T) (fun s => ToldAcross T A B s ∧ ToldAcross T B A s)
      (netStart T sequenceNumber) ls := by
  intro pre s hpre hs
  have hAB := toldAcross_along inOrder (h.mono fun _ _ hk => hk.1)
  have hBA := toldAcross_along inOrder' (h.mono fun _ _ hk => hk.2)
  exact ⟨hAB pre s hpre hs, hBA pre s hpre hs⟩

/-! ## Two nodes of the line -/

instance (log : List VectorEvent) : Decidable (InOrder log) :=
  inferInstanceAs (Decidable (_ <+: _))

/-- `KeepsTold` computed, for a node that announces nobody it times out. -/
def keepsToldCheck (A B : Fin lineTopology.size) (s : DvNet lineTopology) :
    Label lineTopology → Bool
  | .deliver q _ => !decide (Leads lineTopology A B q) ||
      (s.node B).neighborTable[lineTopology.name A]?.isSome ||
      !decide (lineTopology.name B ∈ (s.node A).costs) ||
      decide (∃ p, Leads lineTopology A B p ∧ (lastVector (s.chan p)).isSome)
  | .auditHellos i now => i != A || !decide (lineTopology.name B ∈ (s.node A).costs) ||
      (s.node A).neighborTable[lineTopology.name B]?.any (·.expired (lineTopology.config A) now) ||
      (s.node A).neighborTable.toList.all fun x => !x.2.expired (lineTopology.config A) now ||
        decide (DistanceVector.cost (s.node A).dv x.1 = mInf)
  | .lose _ => true

theorem keepsTold_of_check {A B : Fin lineTopology.size} {s : DvNet lineTopology}
    {l : Label lineTopology} (h : keepsToldCheck A B s l = true) :
    KeepsTold lineTopology A B s l := by
  cases l with
  | lose _ => trivial
  | auditHellos i now =>
    simp only [keepsToldCheck, Bool.or_eq_true, bne_iff_ne, Bool.not_eq_true',
      decide_eq_false_iff_not, List.all_eq_true, decide_eq_true_eq, or_assoc] at h
    intro hi hc hstays
    rcases h with h | h | h | h
    · exact absurd hi h
    · exact absurd hc h
    · cases he : (s.node A).neighborTable[lineTopology.name B]? with
      | none => rw [he] at h; cases h
      | some e =>
        rw [he, Option.any_some] at h
        exact absurd ⟨e, he, h⟩ hstays
    · refine Or.inl fun D hD => ?_
      obtain ⟨e, he, hexp⟩ := hD
      rcases h (D, e) (mem_toList.mpr he) with hno | hinf
      · rw [hexp] at hno; cases hno
      · exact hinf
  | deliver q now =>
    simp only [keepsToldCheck, Bool.or_eq_true, Bool.not_eq_true', decide_eq_false_iff_not,
      decide_eq_true_eq, or_assoc] at h
    intro hq dvMessage rest _ _ hfresh
    rcases h with h | h | h | h
    · exact absurd hq h
    · rw [hfresh] at h; cases h
    · exact Or.inl h
    · obtain ⟨p, hp, hsome⟩ := h
      exact Or.inr ⟨p, hp, Option.isSome_iff_ne_none.mp hsome⟩

/-- The ends of the first link of the line exchange hellos and vectors. -/
def meetOnLine : List (Label lineTopology) :=
  (List.replicate 4 [.deliver (linePort 0 false) 1, .deliver (linePort 0 true) 1]).flatten

/-- Nodes 0 and 1 lose a hello of each other, time each other out, and meet
again. -/
def twoSidedOutage : List (Label lineTopology) :=
  [.auditHellos (lineNode 0) 2000, .auditHellos (lineNode 1) 2000,
    .lose (linePort 0 false), .lose (linePort 0 true),
    .auditHellos (lineNode 0) 4000, .auditHellos (lineNode 1) 4000] ++
  (List.replicate 4 [.deliver (linePort 0 false) 4001, .deliver (linePort 0 true) 4001]).flatten

/-- Nothing is in flight between nodes 0 and 1, and each has the other in its
`m_costs`. -/
def quietOnLine (s : DvNet lineTopology) : Bool :=
  (lastVector (s.chan (linePort 0 false))).isNone && (lastVector (s.chan (linePort 0 true))).isNone &&
    decide ("0" ∈ (s.node (lineNode 1)).costs) && decide ("1" ∈ (s.node (lineNode 0)).costs)

theorem quietOnLine_spec {s : DvNet lineTopology} (h : quietOnLine s = true) :
    (∀ q, Leads lineTopology (lineNode 0) (lineNode 1) q ∨
      Leads lineTopology (lineNode 1) (lineNode 0) q → lastVector (s.chan q) = none) ∧
    lineTopology.name (lineNode 0) ∈ (s.node (lineNode 1)).costs ∧
    lineTopology.name (lineNode 1) ∈ (s.node (lineNode 0)).costs := by
  simp only [quietOnLine, Bool.and_eq_true, Option.isNone_iff_eq_none, decide_eq_true_eq] at h
  obtain ⟨⟨⟨hquiet, hquiet'⟩, hc⟩, hc'⟩ := h
  have hends : ∀ q, Leads lineTopology (lineNode 0) (lineNode 1) q ∨
      Leads lineTopology (lineNode 1) (lineNode 0) q → q = linePort 0 false ∨ q = linePort 0 true := by
    decide +kernel
  refine ⟨fun q hq => ?_, hc, hc'⟩
  rcases hends q hq with rfl | rfl
  · exact hquiet
  · exact hquiet'

theorem inOrder_of_check {A B : Fin lineTopology.size} {ls : List (Label lineTopology)}
    (h : checkRun (logged (vectorEvents lineTopology A B) (netStep lineTopology))
      (fun st l => (logged (vectorEvents lineTopology A B) (netStep lineTopology) st l).all
        fun st' => decide (InOrder st'.2)) (netStart lineTopology fun _ => 0, []) ls = true) :
    Along (logged (vectorEvents lineTopology A B) (netStep lineTopology))
      (fun st => InOrder st.2) (netStart lineTopology fun _ => 0, []) ls :=
  along_of_checkRun List.nil_prefix h

theorem neighbours_agree_line :
    ∃ s, run (netStep lineTopology) (netStart lineTopology fun _ => 0)
        (meetOnLine ++ twoSidedOutage) = some s ∧ quietOnLine s = true ∧
      (∃ e, (s.node (lineNode 1)).neighborTable["0"]? = some e ∧
        ∀ D, D ≠ "1" → DistanceVector.cost e.dv D = DistanceVector.cost (s.node (lineNode 0)).dv D) ∧
      ∃ e, (s.node (lineNode 0)).neighborTable["1"]? = some e ∧
        ∀ D, D ≠ "0" → DistanceVector.cost e.dv D = DistanceVector.cost (s.node (lineNode 1)).dv D := by
  have hmeets : Meets (netStep lineTopology)
      (fun s l => KeepsTold lineTopology (lineNode 0) (lineNode 1) s l ∧
        KeepsTold lineTopology (lineNode 1) (lineNode 0) s l)
      (netStart lineTopology fun _ => 0) (meetOnLine ++ twoSidedOutage) :=
    (allows_of_checkRun
      (c := fun s l => keepsToldCheck (lineNode 0) (lineNode 1) s l &&
        keepsToldCheck (lineNode 1) (lineNode 0) s l)
      (fun s l h => by
        obtain ⟨h, h'⟩ := Bool.and_eq_true_iff.mp h
        exact ⟨keepsTold_of_check h, keepsTold_of_check h'⟩) (by decide +kernel)).meets
  have halong := neighbours_agree lineTopology (fun _ => 0) (lineNode 0) (lineNode 1)
    (meetOnLine ++ twoSidedOutage) (inOrder_of_check (by decide +kernel))
    (inOrder_of_check (by decide +kernel)) hmeets
  have hend : (run (netStep lineTopology) (netStart lineTopology fun _ => 0)
      (meetOnLine ++ twoSidedOutage)).map quietOnLine = some true := by decide +kernel
  obtain ⟨s, hs, hend⟩ := Option.map_eq_some_iff.mp hend
  obtain ⟨hquiet, hc, hc'⟩ := quietOnLine_spec hend
  obtain ⟨htold, htold'⟩ := halong _ s (List.prefix_refl _) hs
  exact ⟨s, hs, hend, htold hquiet hc' hc, htold' (fun q hq => hquiet q hq.symm) hc hc'⟩

/-- Node 0 misses one hello of node 1, times it out and discovers it again,
while node 1 hears every hello of node 0. -/
def oneSidedOutage : List (Label lineTopology) :=
  [.auditHellos (lineNode 0) 2000, .auditHellos (lineNode 1) 2000,
    .deliver (linePort 0 false) 2001, .lose (linePort 0 true),
    .auditHellos (lineNode 0) 4000, .auditHellos (lineNode 1) 4000,
    .deliver (linePort 0 false) 4001, .deliver (linePort 0 true) 4001,
    .deliver (linePort 0 false) 4001]

/-- Then the vector node 0 stores for node 1 stays empty. -/
theorem outage_not_told :
    Along (logged (vectorEvents lineTopology (lineNode 0) (lineNode 1)) (netStep lineTopology))
        (fun st => InOrder st.2) (netStart lineTopology fun _ => 0, [])
        (meetOnLine ++ oneSidedOutage) ∧
      Along (logged (vectorEvents lineTopology (lineNode 1) (lineNode 0)) (netStep lineTopology))
        (fun st => InOrder st.2) (netStart lineTopology fun _ => 0, [])
        (meetOnLine ++ oneSidedOutage) ∧
      ¬ Along (netStep lineTopology)
        (fun s => ToldAcross lineTopology (lineNode 0) (lineNode 1) s ∧
          ToldAcross lineTopology (lineNode 1) (lineNode 0) s)
        (netStart lineTopology fun _ => 0) (meetOnLine ++ oneSidedOutage) := by
  refine ⟨inOrder_of_check (by decide +kernel), inOrder_of_check (by decide +kernel), fun h => ?_⟩
  have hend : (run (netStep lineTopology) (netStart lineTopology fun _ => 0)
      (meetOnLine ++ oneSidedOutage)).map (fun s => quietOnLine s &&
        decide ((s.node (lineNode 0)).neighborTable["1"]?.map
          (fun e => DistanceVector.cost e.dv "1") = some mInf) &&
        decide (DistanceVector.cost (s.node (lineNode 1)).dv "1" = 0)) = some true := by
    decide +kernel
  obtain ⟨s, hs, hend⟩ := Option.map_eq_some_iff.mp hend
  simp only [Bool.and_eq_true, decide_eq_true_eq] at hend
  obtain ⟨⟨hend, hstored⟩, hdv⟩ := hend
  obtain ⟨hquiet, hc, hc'⟩ := quietOnLine_spec hend
  obtain ⟨_, htold⟩ := h _ s (List.prefix_refl _) hs
  obtain ⟨e, he, hcost⟩ := htold (fun q hq => hquiet q hq.symm) hc hc'
  obtain ⟨e', he', hinf⟩ := Option.map_eq_some_iff.mp hstored
  have hsame : e = e' := Option.some.inj (he.symm.trans he')
  have hone := hcost "1" (by decide +kernel)
  rw [hsame, hinf] at hone
  exact absurd (hone.trans hdv) (by decide)

end Ns3Routing.Dv
