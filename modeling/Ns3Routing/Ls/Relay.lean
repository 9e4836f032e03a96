import Ns3Routing.Lib.HopDistance
import Ns3Routing.Lib.Settling
import Ns3Routing.Ls.Host

/-! # How far and how long an announcement travels

Every node sends a new announcement on to all its interfaces, back to where
it came from included. What stops the flood is the sequence number a node
stores for the originator: it never goes down, so a node relays a number once
(`flooding_ends`). The TTL is decremented and never looked at;
`relays_within_maxTTL` is about runs in which it does not run out. -/

namespace Ns3Routing.Ls

open Lib Ns3Routing.Topology

section Relays
variable {T : Topology} (dijkstra : NodeConfig → Node → Option RoutingTable)

abbrev HostNet (T : Topology) := FaultyNet T (Host Node) (HostMessage LSMessage)

abbrev HostLabel (T : Topology) := FaultyLabel T (HostAct Action)

/-- The step is the arrival of an announcement of the originator `a` with
number `q` at node `i`, which sends it on. -/
def Relays (s : HostNet T) (lab : HostLabel T) (i : Fin T.size) (a : Ipv4Address) (q : UInt32) :
    Prop :=
  ∃ now socket m neighborCosts n' out,
    lab.event? s = some (i, .recv now socket (.control m)) ∧
    m.payload = .lsTableMsg neighborCosts ∧ m.originatorAddress = a ∧ m.sequenceNumber = q ∧
    (lsHost dijkstra).handle (T.config i) (s.node i) (.recv now socket (.control m)) =
      some (n', out) ∧ out ≠ []

/-- A copy of an announcement is delivered. -/
def DeliversAnnouncement (s s' : HostNet T) : Prop :=
  ∃ p k now m neighborCosts, (s.chan p)[k]? = some (.control m) ∧
    m.payload = .lsTableMsg neighborCosts ∧
    faultyStep (lsHost dijkstra) s (.deliver p k now) = some s'

end Relays

section Held
variable {T : Topology} {dijkstra : NodeConfig → Node → Option RoutingTable} {s s' : HostNet T}

theorem keyed_hosts_step {lab : HostLabel T} (hk : ∀ i, Keyed (T.config i) (s.node i).control)
    (h : faultyStep (lsHost dijkstra) s lab = some s') (i : Fin T.size) :
    Keyed (T.config i) (s'.node i).control := by
  rcases faultyStep_cases h with ⟨j, e, out, _, ha⟩ | ⟨_, hstill⟩
  · by_cases hi : i = j
    · subst hi; exact keyed_lsHost (hk i) ha.handled
    · rw [ha.others i hi]; exact hk i
  · rw [hstill.node]; exact hk i

/-- Stored numbers after a step. -/
theorem held_mono_hosts {lab : HostLabel T} (hk : ∀ i, Keyed (T.config i) (s.node i).control)
    (h : faultyStep (lsHost dijkstra) s lab = some s') {i : Fin T.size} {K : String} {q : UInt32}
    (hq : heldSeq (s.node i).control K = some q) :
    ∃ q', heldSeq (s'.node i).control K = some q' ∧ q ≤ q' := by
  rcases faultyStep_cases h with ⟨j, e, out, _, ha⟩ | ⟨_, hstill⟩
  · by_cases hi : i = j
    · subst hi; exact held_mono_lsHost (hk i) ha.handled hq
    · rw [ha.others i hi]; exact ⟨q, hq, UInt32.le_refl q⟩
  · rw [hstill.node]; exact ⟨q, hq, UInt32.le_refl q⟩

theorem keyed_hosts_run (sequenceNumber : Fin T.size → UInt32) (pingTimeout : Fin T.size → ℕ)
    {labs : List (HostLabel T)}
    (h : run (faultyStep (lsHost dijkstra)) (hostsStart T sequenceNumber pingTimeout) labs = some s) :
    ∀ i, Keyed (T.config i) (s.node i).control := by
  refine run_invariant (I := fun s : HostNet T => ∀ i, Keyed (T.config i) (s.node i).control) ?_
    (fun _ _ _ hk hst => keyed_hosts_step hk hst) h
  intro i K e he
  simp [hostsStart, FaultyNet.start, doStart] at he

/-- Stored numbers along a run. -/
theorem held_mono_run (hk : ∀ i, Keyed (T.config i) (s.node i).control) {labs : List (HostLabel T)}
    (h : run (faultyStep (lsHost dijkstra)) s labs = some s') {i : Fin T.size} {K : String}
    {q : UInt32} (hq : heldSeq (s.node i).control K = some q) :
    ∃ q', heldSeq (s'.node i).control K = some q' ∧ q ≤ q' := by
  refine (run_invariant (I := fun t : HostNet T => (∀ i, Keyed (T.config i) (t.node i).control) ∧
    ∃ q', heldSeq (t.node i).control K = some q' ∧ q ≤ q') ⟨hk, q, hq, UInt32.le_refl q⟩ ?_ h).2
  intro t lab t' ⟨hk, q₁, hq₁, hle⟩ hst
  obtain ⟨q₂, hq₂, hle'⟩ := held_mono_hosts hk hst hq₁
  exact ⟨keyed_hosts_step hk hst, q₂, hq₂, UInt32.le_trans hle hle'⟩

/-- What is new stays new backwards. -/
theorem isNew_of_held_mono {n n' : Node} {K : String} {q : UInt32}
    (mono : ∀ q, heldSeq n K = some q → ∃ q', heldSeq n' K = some q' ∧ q ≤ q')
    (h : isNew n' K q = true) : isNew n K q = true := by
  rw [isNew_iff] at h ⊢
  intro q₀ hq₀
  obtain ⟨q', hq', hle⟩ := mono q₀ hq₀
  exact UInt32.lt_of_le_of_lt hle (h q' hq')

end Held

/-! ## The flood ends -/

section Ends
variable {T : Topology} {dijkstra : NodeConfig → Node → Option RoutingTable}

/-- Announcements in flight have an originator and number in `X`. -/
def FliesWithin (X : Finset (Ipv4Address × UInt32)) (s : HostNet T) : Prop :=
  ∀ p m neighborCosts, HostMessage.control m ∈ s.chan p → m.payload = .lsTableMsg neighborCosts →
    (m.originatorAddress, m.sequenceNumber) ∈ X

/-- The announcements of `X` that are new at a node, with the node. -/
def stillNew (X : Finset (Ipv4Address × UInt32)) (s : HostNet T) :
    Finset (Fin T.size × Ipv4Address × UInt32) :=
  (Finset.univ ×ˢ X).filter fun x =>
    isNew (s.node x.1).control ((T.config x.1).reverseLookup x.2.1) x.2.2 = true

/-- A delivery makes something known, or leaves less in flight. -/
theorem DeliversAnnouncement.decreases {X : Finset (Ipv4Address × UInt32)} {s s' : HostNet T}
    (hk : ∀ i, Keyed (T.config i) (s.node i).control) (hX : FliesWithin X s)
    (h : DeliversAnnouncement dijkstra s s') :
    FliesWithin X s' ∧ ((stillNew X s').card < (stillNew X s).card ∨
      (stillNew X s').card ≤ (stillNew X s).card ∧ s'.inFlight < s.inFlight) := by
  obtain ⟨p, k, now, m, neighborCosts, hchan, payload, hst⟩ := h
  have hsub : stillNew X s' ⊆ stillNew X s := by
    intro x hx
    simp only [stillNew, Finset.mem_filter] at hx ⊢
    exact ⟨hx.1, isNew_of_held_mono (fun q hq => held_mono_hosts hk hst hq) hx.2⟩
  have hmem : (m.originatorAddress, m.sequenceNumber) ∈ X :=
    hX p m neighborCosts (List.mem_of_getElem? hchan) payload
  simp only [faultyStep, hchan] at hst
  split at hst
  · obtain ⟨⟨n', out⟩, hrecv, rfl⟩ := Option.map_eq_some_iff.mp hst
    rcases lsHost_recv_announcement payload hrecv with ⟨_, rfl, rfl⟩ | ⟨new, hentry, rfl⟩
    · refine ⟨?_, Or.inr ⟨Finset.card_le_card hsub, ?_⟩⟩
      · intro q m' costs hm' hp'
        rcases of_mem_apply hm' with hm' | ⟨_, x, hx, _⟩
        · exact hX q m' costs (FaultyNet.of_mem_take hm') hp'
        · cases hx
      · rw [inFlight_apply_nil]
        exact inFlight_take hchan
    · refine ⟨?_, Or.inl (Finset.card_lt_card ⟨hsub, ?_⟩)⟩
      · intro q m' costs hm' hp'
        rcases of_mem_apply hm' with hm' | ⟨_, x, hx, hxm⟩
        · exact hX q m' costs (FaultyNet.of_mem_take hm') hp'
        · -- a relayed copy has the originator and number of the one received
          obtain ⟨m'', hm'', hx''⟩ := of_mem_controlPackets hx
          rw [hxm] at hx''
          obtain rfl := HostMessage.control.inj hx''
          have heq : m' = { m with ttl := m.ttl - 1 } := of_mem_broadcastPacket hm''
          rw [heq]
          exact hmem
      · intro hsup
        have hold : (T.owner (peer p), m.originatorAddress, m.sequenceNumber) ∈ stillNew X s := by
          simp [stillNew, hmem, new]
        have hnew := (Finset.mem_filter.mp (hsup hold)).2
        have hheld : heldSeq n'.control
            ((T.config (T.owner (peer p))).reverseLookup m.originatorAddress) =
              some m.sequenceNumber := by
          rw [heldSeq, hentry]; rfl
        dsimp only at hnew
        rw [show (((s.take p k).apply (T.owner (peer p)) (n', _)).node (T.owner (peer p))) = n' from
          by simp [FaultyNet.apply]] at hnew
        exact UInt32.lt_irrefl _ (isNew_iff.mp hnew _ hheld)
  · obtain rfl := Option.some.inj hst
    refine ⟨?_, Or.inr ⟨Finset.card_le_card hsub, inFlight_take hchan⟩⟩
    intro q m' costs hm' hp'
    exact hX q m' costs (FaultyNet.of_mem_take hm') hp'

/-- The announcements in flight. -/
def flying (s : HostNet T) : Finset (Ipv4Address × UInt32) :=
  Finset.univ.biUnion fun p => ((s.chan p).filterMap fun
    | .control m => some (m.originatorAddress, m.sequenceNumber)
    | _ => none).toFinset

theorem fliesWithin_flying (s : HostNet T) : FliesWithin (flying s) s := by
  intro p m costs hm _
  simp only [flying, Finset.mem_biUnion, Finset.mem_univ, true_and, List.mem_toFinset,
    List.mem_filterMap]
  exact ⟨p, .control m, hm, rfl⟩

theorem acc_deliversAnnouncement {s : HostNet T}
    (hk : ∀ i, Keyed (T.config i) (s.node i).control) :
    Acc (fun s' s : HostNet T => DeliversAnnouncement dijkstra s s') s := by
  refine acc_of_lex (I := fun t : HostNet T => (∀ i, Keyed (T.config i) (t.node i).control) ∧
    FliesWithin (flying s) t) (fun t => (stillNew (flying s) t).card) FaultyNet.inFlight ?_
    ⟨hk, fliesWithin_flying s⟩
  intro t t' ⟨hk, hX⟩ hd
  obtain ⟨hX', hlt⟩ := hd.decreases hk hX
  obtain ⟨_, _, _, _, _, _, _, hst⟩ := hd
  exact ⟨⟨keyed_hosts_step hk hst, hX'⟩, hlt⟩

end Ends

/-- **Flooding ends.** From every state `s` of every run: stored numbers never
go down and entries stay, an announcement node `i` relays now it never relays
again, and delivering announcements comes to an end. -/
theorem flooding_ends (T : Topology) (dijkstra : NodeConfig → Node → Option RoutingTable)
    (sequenceNumber : Fin T.size → UInt32) (pingTimeout : Fin T.size → ℕ)
    (labs : List (HostLabel T)) (s : HostNet T)
    (h : run (faultyStep (lsHost dijkstra)) (hostsStart T sequenceNumber pingTimeout) labs = some s) :
    (∀ labs' s', run (faultyStep (lsHost dijkstra)) s labs' = some s' → ∀ i (K : String) q,
      heldSeq (s.node i).control K = some q →
        ∃ q', heldSeq (s'.node i).control K = some q' ∧ q ≤ q') ∧
    (∀ lab labs' s' lab', run (faultyStep (lsHost dijkstra)) s (lab :: labs') = some s' →
      ∀ i a q, Relays dijkstra s lab i a q → ¬ Relays dijkstra s' lab' i a q) ∧
    Acc (fun s' s : HostNet T => DeliversAnnouncement dijkstra s s') s := by
  have hk := keyed_hosts_run sequenceNumber pingTimeout h
  refine ⟨fun labs' s' hrun i K q hq => held_mono_run hk hrun hq, ?_, acc_deliversAnnouncement hk⟩
  intro lab labs' s' lab' hrun i a q hrel hrel'
  obtain ⟨now, socket, m, costs, n', out, hev, payload, rfl, rfl, hh, hne⟩ := hrel
  obtain ⟨now', socket', m', costs', n'', out', hev', payload', horig, hnum, hh', hne'⟩ := hrel'
  obtain ⟨s₁, hst, hrest⟩ := foldlM_cons_some hrun
  have hs₁ : s₁.node i = n' ∧ ∀ i, Keyed (T.config i) (s₁.node i).control := by
    refine ⟨?_, keyed_hosts_step hk hst⟩
    rcases faultyStep_cases hst with ⟨j, e, out₁, hev₁, ha⟩ | ⟨hnone, _⟩
    · rw [hev] at hev₁
      obtain ⟨rfl, rfl⟩ := Prod.mk.inj (Option.some.inj hev₁)
      have := ha.handled
      rw [hh] at this
      exact (Prod.mk.inj (Option.some.inj this)).1.symm
    · rw [hev] at hnone; cases hnone
  -- after it was relayed, the number is held for good
  rcases lsHost_recv_announcement payload hh with ⟨_, _, rfl⟩ | ⟨_, hentry, _⟩
  · exact hne rfl
  · have hheld : heldSeq (s₁.node i).control
        ((T.config i).reverseLookup m.originatorAddress) = some m.sequenceNumber := by
      rw [hs₁.1, heldSeq, hentry]; rfl
    obtain ⟨q', hq', hle⟩ := held_mono_run hs₁.2 hrest hheld
    rcases lsHost_recv_announcement payload' hh' with ⟨_, _, rfl⟩ | ⟨new, _, _⟩
    · exact hne' rfl
    · rw [horig, hnum] at new
      exact absurd (isNew_iff.mp new q' hq') (UInt32.not_lt.mpr hle)

/-- Nodes 0 and 1 of the line hear each other and exchange announcements; the
first one is lost once and another one duplicated. -/
def lineExchange : List (HostLabel lineTopology) :=
  [.act (lineNode 0) (.control .hello), .act (lineNode 1) (.control .hello),
    .deliver (linePort 0 false) 0 1, .deliver (linePort 0 true) 0 2, .lose (linePort 1 false) 0,
    .duplicate (linePort 0 true) 0, .deliver (linePort 0 true) 0 3, .deliver (linePort 0 false) 0 4]

theorem flooding_ends_line :
    ∃ s, run (faultyStep (lsHost dijkstra)) (hostsStart lineTopology (fun _ => 7) fun _ => 2000)
      lineExchange = some s ∧
      Acc (fun s' s : HostNet lineTopology => DeliversAnnouncement dijkstra s s') s := by
  have hsome : (run (faultyStep (lsHost dijkstra))
      (hostsStart lineTopology (fun _ => 7) fun _ => 2000) lineExchange).isSome = true := by
    decide +kernel
  obtain ⟨s, hs⟩ := Option.isSome_iff_exists.mp hsome
  exact ⟨s, hs, (flooding_ends lineTopology dijkstra _ _ _ s hs).2.2⟩

/-! ## How far -/

section TTL
variable {T : Topology}

/-- An announcement that is delivered has hops left: one, and another one when
it is new and so will be sent on. -/
def TTLLasts (s : HostNet T) (lab : HostLabel T) : Prop :=
  ∀ i now socket m neighborCosts, lab.event? s = some (i, .recv now socket (.control m)) →
    m.payload = .lsTableMsg neighborCosts → 1 ≤ m.ttl ∧
      (isNew (s.node i).control ((T.config i).reverseLookup m.originatorAddress)
        m.sequenceNumber = true → 2 ≤ m.ttl)

/-- An announcement is delivered within `m_maxTTL` hops of its originator; it is
sent on with a smaller TTL, and not at all when it has no hop left. -/
def WithinTTL (dijkstra : NodeConfig → Node → Option RoutingTable) (s : HostNet T)
    (lab : HostLabel T) : Prop :=
  ∀ i now socket m neighborCosts, lab.event? s = some (i, .recv now socket (.control m)) →
    m.payload = .lsTableMsg neighborCosts →
    (∃ o, m.originatorAddress = (T.config o).mainAddress ∧
      T.graph.edist o i ≤ (T.config o).maxTTL.toNat) ∧
    ∀ n' out, (lsHost dijkstra).handle (T.config i) (s.node i) (.recv now socket (.control m)) =
      some (n', out) →
      (∀ x ∈ out, ∃ m', x.2 = .control m' ∧ m'.ttl < m.ttl) ∧ (m.ttl ≤ 1 → out = [])

/-- The hops an announcement has made and those it has left. -/
def Travels (T : Topology) (i : Fin T.size) : HostMessage LSMessage → Prop
  | .control m => ∀ neighborCosts, m.payload = .lsTableMsg neighborCosts →
      ∃ o, m.originatorAddress = (T.config o).mainAddress ∧
        T.graph.edist o i + m.ttl.toNat ≤ (T.config o).maxTTL.toNat
  | .pingReq _ | .pingRsp _ => True

variable {dijkstra : NodeConfig → Node → Option RoutingTable} {s s' : HostNet T}

theorem toNat_pred {ttl : UInt8} (h : 1 ≤ ttl) : (ttl - 1).toNat + 1 = ttl.toNat := by
  have hle : (1 : UInt8).toNat ≤ ttl.toNat := UInt8.le_iff_toNat_le.mp h
  rw [UInt8.toNat_sub_of_le _ _ h]
  simp only [UInt8.reduceToNat] at hle ⊢
  omega

/-- A hop uses up one of the TTL. -/
theorem Travels.hop {p : T.Port} {m : LSMessage} (h : Travels T (T.owner p) (.control m))
    (httl : 1 ≤ m.ttl) :
    Travels T (T.owner (peer p)) (.control { m with ttl := m.ttl - 1 }) := by
  intro neighborCosts payload
  obtain ⟨o, horigin, hle⟩ := h neighborCosts payload
  refine ⟨o, horigin, ?_⟩
  have hadj : T.graph.edist o (T.owner (peer p)) ≤ T.graph.edist o (T.owner p) + 1 := by
    rw [T.graph.edist_comm, T.graph.edist_comm (u := o)]
    exact edist_le_succ (adj_owner p).symm
  calc T.graph.edist o (T.owner (peer p)) + (m.ttl - 1).toNat
      ≤ T.graph.edist o (T.owner p) + 1 + (m.ttl - 1).toNat := by gcongr
    _ = T.graph.edist o (T.owner p) + m.ttl.toNat := by
        rw [add_assoc, ← toNat_pred httl]
        push_cast
        rw [add_comm (1 : ℕ∞)]
    _ ≤ (T.config o).maxTTL.toNat := hle

/-- What a node sends, when what it relays had a hop left. -/
theorem travels_lsHost {i : Fin T.size} {n n' : Host Node}
    {e : NodeEvent (HostMessage LSMessage) (HostAct Action)}
    {out : List (Ipv4Address × HostMessage LSMessage)} (hk : Keyed (T.config i) n.control)
    (h : (lsHost dijkstra).handle (T.config i) n e = some (n', out))
    (relayed : ∀ now socket m neighborCosts, e = .recv now socket (.control m) →
      m.payload = .lsTableMsg neighborCosts → out ≠ [] →
        Travels T i (.control { m with ttl := m.ttl - 1 })) :
    ∀ x ∈ out, Travels T i x.2 := by
  have own : ∀ l : NbrCostsVec × UInt32, Travels T i
      (.control (ownMessage (T.config i) (l.2, l.1))) := by
    intro l neighborCosts _
    exact ⟨i, rfl, by rw [SimpleGraph.edist_self, zero_add]; exact le_rfl⟩
  intro x hx
  rcases lsHost_cases h with ⟨e₀, out₀, he₀, hh, rfl⟩ | ⟨_, _, hout⟩
  · obtain ⟨m, hm, hxm⟩ := of_mem_controlPackets hx
    rw [hxm]
    obtain ⟨ann, heffect⟩ := (handle_cases hh).effect hk
    rcases heffect.sends (x.1, m) hm with ⟨_, _, hhello, _⟩ | ⟨a, _, hown⟩ |
      ⟨now, socket, m₀, neighborCosts, hrecv, payload, hrelay⟩
    · intro neighborCosts payload
      dsimp only at hhello
      rw [hhello] at payload; cases payload
    · dsimp only at hown
      rw [hown]; exact own (a.2, a.1)
    · dsimp only at hrelay
      rw [hrelay]
      exact relayed now socket m₀ neighborCosts ((he₀ now socket m₀).mpr hrecv) payload
        (List.ne_nil_of_mem hx)
  · cases hxm : x.2 with
    | control m =>
      rcases hout x hx m hxm with rfl | rfl
      · intro neighborCosts payload
        cases payload
      · exact own (_, _)
    | pingReq _ => trivial
    | pingRsp _ => trivial

/-- The invariant of runs in which the TTL lasts. -/
structure TravelInv (s : HostNet T) : Prop where
  keyed : ∀ i, Keyed (T.config i) (s.node i).control
  travels : ∀ p, ∀ m ∈ s.chan p, Travels T (T.owner p) m

theorem TravelInv.step {lab : HostLabel T} (h : TravelInv s)
    (hst : faultyStep (lsHost dijkstra) s lab = some s') (httl : TTLLasts s lab) : TravelInv s' := by
  refine ⟨keyed_hosts_step h.keyed hst, fun q m hm => ?_⟩
  rcases faultyStep_cases hst with ⟨i, e, out, hev, ha⟩ | ⟨_, hstill⟩
  · rcases ha.chan q m hm with hm | ⟨hq, x, hx, rfl⟩
    · exact h.travels q m hm
    · rw [hq]
      refine travels_lsHost (h.keyed i) ha.handled ?_ x hx
      intro now socket m₀ neighborCosts he payload _
      obtain ⟨p, hp, _, hm₀⟩ := ha.arrives now socket _ he
      rw [← hp]
      exact (h.travels p _ hm₀).hop (httl i now socket m₀ neighborCosts (he ▸ hev) payload).1
  · exact h.travels q m (hstill.chan q m hm)

/-- What the invariant says about the next delivery. -/
theorem TravelInv.within {lab : HostLabel T} (h : TravelInv s) (httl : TTLLasts s lab) :
    WithinTTL dijkstra s lab := by
  intro i now socket m neighborCosts hev payload
  obtain ⟨hone, htwo⟩ := httl i now socket m neighborCosts hev payload
  refine ⟨?_, fun n' out hh => ?_⟩
  · obtain ⟨p, k, t, rfl, hk, rfl⟩ : ∃ p k t, lab = .deliver p k t ∧
        (s.chan p)[k]? = some (.control m) ∧ i = T.owner (peer p) := by
      cases lab with
      | deliver p k t =>
        simp only [FaultyLabel.event?] at hev
        split at hev
        · rename_i m' hm'
          split at hev
          · obtain ⟨hi, hrecv⟩ := Prod.mk.inj (Option.some.inj hev)
            obtain ⟨_, _, rfl⟩ := NodeEvent.recv.inj hrecv
            exact ⟨p, k, t, rfl, hm', hi.symm⟩
          · cases hev
        · cases hev
      | act _ _ => obtain ⟨_, he⟩ := Prod.mk.inj (Option.some.inj hev); cases he
      | lose _ _ => cases hev
      | duplicate _ _ => cases hev
      | linkDown _ => cases hev
      | linkUp _ => cases hev
    obtain ⟨o, horigin, hle⟩ :=
      ((h.travels p _ (List.mem_of_getElem? hk)).hop hone) neighborCosts payload
    exact ⟨o, horigin, le_self_add.trans hle⟩
  · rcases lsHost_recv_announcement payload hh with ⟨_, _, rfl⟩ | ⟨new, _, rfl⟩
    · exact ⟨fun x hx => (by cases hx), fun _ => rfl⟩
    · have h2 := htwo new
      refine ⟨fun x hx => ?_, fun hle => ?_⟩
      · obtain ⟨m', hm', hxm⟩ := of_mem_controlPackets hx
        refine ⟨m', hxm, ?_⟩
        have heq : m' = { m with ttl := m.ttl - 1 } := of_mem_broadcastPacket hm'
        rw [heq, UInt8.lt_iff_toNat_lt]
        have := toNat_pred hone
        dsimp only
        omega
      · exact absurd (UInt8.le_trans h2 hle) (by decide)

end TTL

/-- **As long as the TTL lasts, it bounds how far an announcement
travels.** -/
theorem relays_within_maxTTL (T : Topology) (dijkstra : NodeConfig → Node → Option RoutingTable)
    (sequenceNumber : Fin T.size → UInt32) (pingTimeout : Fin T.size → ℕ)
    (labs : List (HostLabel T))
    (h : Allows (faultyStep (lsHost dijkstra)) TTLLasts (hostsStart T sequenceNumber pingTimeout)
      labs) :
    Allows (faultyStep (lsHost dijkstra)) (WithinTTL dijkstra)
      (hostsStart T sequenceNumber pingTimeout) labs := by
  intro pre lab s hp hs
  have hinv : Along (faultyStep (lsHost dijkstra)) (TravelInv (T := T))
      (hostsStart T sequenceNumber pingTimeout) labs := by
    refine along_of_meets ⟨?_, fun p m hm => by cases hm⟩ (fun t e t' => TravelInv.step) h.meets
    intro i K e he
    simp [hostsStart, FaultyNet.start, doStart] at he
  exact (hinv pre s (front_of_prefix_snoc hp) hs).within (h pre lab s hp hs)

/-- `TTLLasts`, as a check. -/
def ttlLasts {T : Topology} (s : HostNet T) (lab : HostLabel T) : Bool :=
  match lab.event? s with
  | some (i, .recv _ _ (.control m)) =>
    match m.payload with
    | .lsTableMsg _ => 1 ≤ m.ttl && (2 ≤ m.ttl || !isNew (s.node i).control
        ((T.config i).reverseLookup m.originatorAddress) m.sequenceNumber)
    | .helloReq _ _ => true
  | _ => true

theorem of_ttlLasts {T : Topology} (s : HostNet T) (lab : HostLabel T) (h : ttlLasts s lab = true) :
    TTLLasts s lab := by
  intro i now socket m neighborCosts hev payload
  simp only [ttlLasts, hev, payload, Bool.and_eq_true, Bool.or_eq_true, decide_eq_true_eq,
    Bool.not_eq_true'] at h
  refine ⟨h.1, fun new => h.2.resolve_right ?_⟩
  rw [new]
  simp

theorem relays_within_maxTTL_line :
    Allows (faultyStep (lsHost dijkstra)) (WithinTTL dijkstra)
      (hostsStart lineTopology (fun _ => 7) fun _ => 2000) lineExchange := by
  refine relays_within_maxTTL lineTopology dijkstra _ _ _ (allows_of_checkRun of_ttlLasts ?_)
  decide +kernel

/-- The topology with another `m_maxTTL` at all nodes. -/
def withMaxTTL (T : Topology) (maxTTL : UInt8) : Topology where
  size := T.size
  size_lt := T.size_lt
  links := T.links
  owner := T.owner
  owner_ne := T.owner_ne
  config i := { T.config i with maxTTL }
  address := T.address
  socket := T.socket
  nodeAddressMap := T.nodeAddressMap
  addressNodeMap := T.addressNodeMap
  addressNodeMap_address := T.addressNodeMap_address
  addressNodeMap_eq := T.addressNodeMap_eq
  mem_sockets := T.mem_sockets
  of_mem_sockets := T.of_mem_sockets
  sockets_nodup := T.sockets_nodup
  addresses_nodup := T.addresses_nodup
  address_inj := T.address_inj

/-- With `m_maxTTL` 1 on the line, node 1 sends the announcement of node 0 on,
which it has received with TTL 1. -/
theorem exhausted_relayed :
    ¬ ∀ labs, Allows (faultyStep (lsHost dijkstra)) (WithinTTL dijkstra)
      (hostsStart (withMaxTTL lineTopology 1) (fun _ => 7) fun _ => 2000) labs := by
  intro h
  have hrun : ((run (faultyStep (lsHost dijkstra))
      (hostsStart (withMaxTTL lineTopology 1) (fun _ => 7) fun _ => 2000)
      [.act (lineNode 0) (.control .hello), .deliver (linePort 0 false) 0 1,
        .act (lineNode 0) (.control .lsTableMsg)]).bind fun s =>
      (FaultyLabel.event? s (.deliver (linePort 0 false) 0 2)).bind fun x =>
        ((lsHost dijkstra).handle ((withMaxTTL lineTopology 1).config x.1) (s.node x.1) x.2).map
          fun res => (x.2, res.2.length)) =
      some (.recv 2 0 (.control ⟨8, 1, 10, .lsTableMsg []⟩), 2) := by
    decide +kernel
  obtain ⟨s, hs, hrun⟩ := Option.bind_eq_some_iff.mp hrun
  obtain ⟨⟨i, e⟩, hev, hrun⟩ := Option.bind_eq_some_iff.mp hrun
  obtain ⟨⟨n', out⟩, hh, hres⟩ := Option.map_eq_some_iff.mp hrun
  obtain ⟨rfl, hlen⟩ := Prod.mk.inj hres
  have hnil := ((h _ _ _ s (List.prefix_refl _) hs i 2 0 _ [] hev rfl).2 n' out hh).2
    (UInt8.le_refl 1)
  rw [hnil] at hlen
  cases hlen

end Ns3Routing.Ls
