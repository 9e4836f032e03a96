import Ns3Routing.Dv.Consistency
import Ns3Routing.Dv.Network
import Ns3Routing.Lib.HopDistance

/-! # Distance-vector convergence

In a static network that loses nothing and times out nobody, whatever the
order of deliveries: once no message is in flight, every routing table has
the shortest paths of fewer than 16 hops. The invariant has two halves. What
the nodes know of each other is current (`Synced`: across every link the two
ends agree or a message is on its way), and no finite cost is below the hop
distance (`Sound`). -/

namespace Ns3Routing.Dv

open Lib Ns3Routing.Topology

/-- The steps of a network that loses nothing and times out nobody. -/
def Static (T : Topology) (s : DvNet T) : Label T → Prop
  | .deliver _ _ => True
  | .auditHellos i now => ∀ K, ¬ Expires (T.config i) now (s.node i) K
  | .lose _ => False

/-- Node `i` handles the event `ev`, which it took from a queue or which is
its hello timer; `s₁` is the state without the message taken. -/
structure Acts (T : Topology) (s : DvNet T) (i : Fin T.size) (ev : Event) (s₁ : DvNet T)
    (n' : Node) (out : Packets) : Prop where
  handled : handle (T.config i) (s.node i) ev = some (n', out)
  node : s₁.node = s.node
  valid : ValidEvent T i ev
  queue : ∀ p, s₁.chan p = s.chan p ∨ ∃ now dvMessage, T.owner (peer p) = i ∧
    s.chan p = dvMessage :: s₁.chan p ∧ ev = .recv now (T.socket (peer p)) dvMessage
  source : ∀ now socket dvMessage, ev = .recv now socket dvMessage →
    ∃ q, T.owner (peer q) = i ∧ s.chan q = dvMessage :: s₁.chan q

section Acts
variable {T : Topology} {s s' s₁ : DvNet T} {l : Label T} {i : Fin T.size} {ev : Event}
  {n' : Node} {out : Packets}

theorem Named.acts (hN : Named T s) (hl : Static T s l) (h : netStep T s l = some s') :
    s' = s ∨ ∃ i ev s₁ n' out, Acts T s i ev s₁ n' out ∧ s' = s₁.apply i (n', out) ∧
      ∀ K, ¬ TimedOut (T.config i) (s.node i) K ev := by
  cases netStep_cases h with
  | idle => exact Or.inl rfl
  | lose _ _ => exact hl.elim
  | @deliver p now dvMessage rest n' out head handled =>
    refine Or.inr ⟨_, _, s.setChan p rest, n', out,
      ⟨handled, rfl, hN.valid now head, ?_, ?_⟩, rfl, fun _ => id⟩
    · intro q
      by_cases hq : q = p
      · subst hq
        exact Or.inr ⟨now, dvMessage, rfl, by rw [Net.setChan_self, head], rfl⟩
      · exact Or.inl (Net.setChan_ne _ _ hq)
    · rintro _ _ _ ⟨⟩
      exact ⟨p, rfl, by rw [Net.setChan_self, head]⟩
  | @audit i now n' out handled =>
    refine Or.inr ⟨i, _, s, n', out, ⟨handled, rfl, trivial, fun _ => Or.inl rfl, ?_⟩, rfl, hl⟩
    intro _ _ _ hev
    cases hev

/-- What is left in a queue was there before. -/
theorem Acts.mem_queue (h : Acts T s i ev s₁ n' out) {p : T.Port} {dvMessage : DVMessage}
    (hm : dvMessage ∈ s₁.chan p) : dvMessage ∈ s.chan p := by
  rcases h.queue p with heq | ⟨_, _, _, heq, _⟩
  · rw [← heq]; exact hm
  · rw [heq]; exact List.mem_cons_of_mem _ hm

theorem Acts.named (hN : Named T s) (h : Acts T s i ev s₁ n' out) :
    Named T (s₁.apply i (n', out)) := by
  have hN₁ : Named T s₁ := ⟨h.node ▸ hN.node, fun p m hm => hN.msg p m (h.mem_queue hm)⟩
  exact hN₁.apply ((hN.node i).handle h.valid h.handled) ((hN.node i).sends h.valid h.handled)

theorem Acts.node_ne (h : Acts T s i ev s₁ n' out) {j : Fin T.size} (hj : j ≠ i) :
    (s₁.apply i (n', out)).node j = s.node j := by
  rw [Net.apply_node_ne _ _ hj, h.node]

end Acts

/-! ## Neighbours know each other -/

/-- Both ends of every link are up to date about each other, or a message is
on its way. -/
structure Synced (T : Topology) (s : DvNet T) : Prop where
  named : Named T s
  agree : ∀ p, Agree T s p
  tables : ∀ i, Bookkeeping (T.config i) (s.node i)
  /-- A node is known to its neighbour, or a hello is the next it hears. -/
  heard : ∀ p, T.name (T.owner p) ∈ (s.node (T.owner (peer p))).neighborTable ∨
    ∃ dvMessage rest, s.chan p = dvMessage :: rest ∧ dvMessage.vector? = none
  /-- Vectors only travel where they are sent. -/
  way : ∀ p, ∀ dvMessage ∈ s.chan p, dvMessage.vector? ≠ none →
    ∃ e, StoredAt T (s.node (T.owner p)) p e
  /-- A node that is not known to its neighbour yet has a vector in flight. -/
  told : ∀ p, (∃ e, StoredAt T (s.node (T.owner p)) p e) →
    T.name (T.owner p) ∉ (s.node (T.owner (peer p))).neighborTable → lastVector (s.chan p) ≠ none

section Synced
variable {T : Topology} {s s' s₁ : DvNet T} {l : Label T} {i : Fin T.size} {ev : Event}
  {n' : Node} {out : Packets}

theorem chan_netStart (T : Topology) (sequenceNumber : Fin T.size → UInt32) (p : T.Port) :
    ∃ dvMessage, (netStart T sequenceNumber).chan p = [dvMessage] ∧ dvMessage.vector? = none :=
  ⟨_, Net.onPort_broadcastPacket p _, rfl⟩

theorem Synced.start (T : Topology) (sequenceNumber : Fin T.size → UInt32) :
    Synced T (netStart T sequenceNumber) := by
  have nobody : ∀ p e, ¬ StoredAt T ((netStart T sequenceNumber).node (T.owner p)) p e := by
    intro p e hx
    obtain ⟨hc, _⟩ := hx
    simp [netStart, sendHello, doStart] at hc
  have hN := Named.start T sequenceNumber
  refine ⟨hN, ?_, ?_, ?_, ?_, ?_⟩
  · intro p hstored
    obtain ⟨e, he⟩ := hstored
    exact absurd he (nobody p e)
  · intro i
    refine .of_keys (hN.node i).inv ?_ ?_ <;> simp [netStart, sendHello, doStart]
  · intro p
    obtain ⟨m, hm, hv⟩ := chan_netStart T sequenceNumber p
    exact Or.inr ⟨m, [], hm, hv⟩
  · intro p m hm hv
    obtain ⟨m', hm', hv'⟩ := chan_netStart T sequenceNumber p
    rw [hm', List.mem_singleton] at hm
    exact absurd hv' (hm ▸ hv)
  · intro p hx
    obtain ⟨e, he⟩ := hx
    exact absurd he (nobody p e)

/-- Whoever is known stays known. -/
theorem Acts.keeps (hN : Named T s) (h : Acts T s i ev s₁ n' out)
    (hno : ∀ K, ¬ TimedOut (T.config i) (s.node i) K ev) (j : Fin T.size) {K : String}
    (hK : K ∈ (s.node j).neighborTable) : K ∈ ((s₁.apply i (n', out)).node j).neighborTable := by
  by_cases hj : j = i
  · subst hj
    obtain ⟨e, he⟩ := mem_iff_getElem?.mp hK
    obtain ⟨e', he', _⟩ := (handle_keeps (hN.node j).inv h.handled (hno K)).2 e he
    rw [Net.apply_node_self]
    exact mem_iff_getElem?.mpr ⟨e', he'⟩
  · rw [h.node_ne hj]; exact hK

/-- A link end that is sent vectors stays so. -/
theorem Acts.keeps_stored (hN : Named T s) (h : Acts T s i ev s₁ n' out)
    (hno : ∀ K, ¬ TimedOut (T.config i) (s.node i) K ev) {p : T.Port} {e : NeighborTableEntry}
    (he : StoredAt T (s.node (T.owner p)) p e) :
    ∃ e', StoredAt T ((s₁.apply i (n', out)).node (T.owner p)) p e' := by
  by_cases hj : T.owner p = i
  · subst hj
    obtain ⟨hc, he, hif⟩ := he
    obtain ⟨hcosts, hentry⟩ := handle_keeps (hN.node _).inv h.handled (hno _)
    obtain ⟨e', he', hif'⟩ := hentry e he
    rw [Net.apply_node_self]
    exact ⟨e', hcosts hc, he', hif'.trans hif⟩
  · rw [h.node_ne hj]; exact ⟨e, he⟩

/-- A neighbour whose message was handled is known. -/
theorem Acts.sender (hN : Named T s) (h : Acts T s i ev s₁ n' out) {p : T.Port} {now : ℕ}
    {dvMessage : DVMessage} (hp : T.owner (peer p) = i)
    (head : s.chan p = dvMessage :: s₁.chan p)
    (hev : ev = .recv now (T.socket (peer p)) dvMessage) :
    T.name (T.owner p) ∈ ((s₁.apply i (n', out)).node (T.owner (peer p))).neighborTable := by
  subst hp hev
  have horigin := (hN.msg p dvMessage (head ▸ List.mem_cons_self)).1
  have := handle_sender (hN.node _).inv h.handled
  rw [horigin, reverseLookup_main] at this
  rw [Net.apply_node_self]; exact this

theorem Synced.heard_step (h : Synced T s) (ha : Acts T s i ev s₁ n' out)
    (hno : ∀ K, ¬ TimedOut (T.config i) (s.node i) K ev) (p : T.Port) :
    T.name (T.owner p) ∈ ((s₁.apply i (n', out)).node (T.owner (peer p))).neighborTable ∨
      ∃ dvMessage rest, (s₁.apply i (n', out)).chan p = dvMessage :: rest ∧
        dvMessage.vector? = none := by
  rcases h.heard p with hknown | ⟨m, rest, head, hm⟩
  · exact Or.inl (ha.keeps h.named hno _ hknown)
  · rcases ha.queue p with heq | ⟨now, m', hp, head', hev⟩
    · refine Or.inr ⟨m, rest ++ Net.onPort T i out p, ?_, hm⟩
      rw [Net.apply_chan, heq, head, List.cons_append]
    · exact Or.inl (ha.sender h.named hp head' hev)

theorem Synced.way_step (h : Synced T s) (ha : Acts T s i ev s₁ n' out)
    (hno : ∀ K, ¬ TimedOut (T.config i) (s.node i) K ev) (p : T.Port) (dvMessage : DVMessage)
    (hm : dvMessage ∈ (s₁.apply i (n', out)).chan p) (hv : dvMessage.vector? ≠ none) :
    ∃ e, StoredAt T ((s₁.apply i (n', out)).node (T.owner p)) p e := by
  rcases List.mem_append.mp hm with hm | hm
  · obtain ⟨e, he⟩ := h.way p dvMessage (ha.mem_queue hm) hv
    exact ha.keeps_stored h.named hno he
  · obtain ⟨hp, _⟩ := Net.of_mem_onPort hm
    subst hp
    by_contra hnone
    rw [Net.apply_node_self] at hnone
    have hN' := (h.named.node _).handle ha.valid ha.handled
    refine hv (lastVector_eq_none.mp ?_ dvMessage hm)
    have hello := lastVector_helloPackets (n := s.node (T.owner p)) (p := p) (T.owner p) ev
    rcases handle_cases (h.named.node _).inv.tables.keyed ha.handled with
      ⟨_, _, rfl⟩ | ⟨_, _, _, _, rounds, rfl, _⟩
    · exact hello
    · have hround : ∀ seq, Net.onPort T (T.owner p)
          (dvRound (T.config (T.owner p)) n' seq) p = [] :=
        fun _ => onPort_dvRound_none hN' fun e he => hnone ⟨e, he⟩
      have hrounds : Net.onPort T (T.owner p)
          (rounds.flatMap (dvRound (T.config (T.owner p)) n')) p = [] := by
        rw [Net.onPort_flatMap, List.flatMap_eq_nil_iff]
        exact fun seq _ => hround seq
      rw [Net.onPort_append, hrounds, List.append_nil]
      exact hello

theorem Synced.told_step (h : Synced T s) (ha : Acts T s i ev s₁ n' out)
    (hno : ∀ K, ¬ TimedOut (T.config i) (s.node i) K ev) (p : T.Port)
    (hstored : ∃ e, StoredAt T ((s₁.apply i (n', out)).node (T.owner p)) p e)
    (hunknown : T.name (T.owner p) ∉
      ((s₁.apply i (n', out)).node (T.owner (peer p))).neighborTable) :
    lastVector ((s₁.apply i (n', out)).chan p) ≠ none := by
  have hunknown₀ : T.name (T.owner p) ∉ (s.node (T.owner (peer p))).neighborTable :=
    fun hk => hunknown (ha.keeps h.named hno _ hk)
  have hqueue : s₁.chan p = s.chan p := by
    rcases ha.queue p with heq | ⟨now, m, hp, head, hev⟩
    · exact heq
    · exact absurd (ha.sender h.named hp head hev) hunknown
  rw [Net.apply_chan, lastVector_append, hqueue]
  by_cases hp : T.owner p = i
  · subst hp
    rw [Net.apply_node_self] at hstored
    obtain ⟨e, he⟩ := hstored
    rcases (h.named.node _).speaks ha.valid ha.handled he with hsaid | ⟨hsilent, hstored₀, _⟩
    · rw [hsaid]; simp
    · rw [hsilent, Option.none_or]
      exact h.told p hstored₀ hunknown₀
  · rw [ha.node_ne hp] at hstored
    rw [Net.onPort_other hp]
    exact h.told p hstored hunknown₀

/-- A vector only comes from a node the receiver knows. -/
theorem Synced.fromNeighbor (h : Synced T s) (ha : Acts T s i ev s₁ n' out) :
    FromNeighbor (T.config i) (s.node i) ev := by
  cases ev with
  | auditHellos _ => trivial
  | recv now socket dvMessage =>
    cases hp : dvMessage.payload with
    | helloReq _ _ => simp [FromNeighbor, hp]
    | dvTableMsg _ =>
      simp only [FromNeighbor, hp]
      obtain ⟨q, hq, head⟩ := ha.source now socket dvMessage rfl
      have horigin := (h.named.msg q dvMessage (head ▸ List.mem_cons_self)).1
      rw [horigin, reverseLookup_main]
      rcases h.heard q with hknown | ⟨m, rest, head', hm⟩
      · rw [← hq]; exact hknown
      · rw [head] at head'
        obtain ⟨rfl, _⟩ := List.cons.inj head'
        rw [vector?_dvTable hp] at hm; cases hm

/-- Static steps keep every agreement. -/
theorem Synced.keepsAgreement (h : Synced T s) (hl : Static T s l) (p : T.Port) :
    KeepsAgreement T s p l := by
  cases l with
  | lose _ => exact hl.elim
  | auditHellos i now =>
    intro _ n' out _ _ _ D hD
    exact absurd hD (hl D)
  | deliver q now =>
    intro howner hpeer hstored dvMessage rest head
    refine ⟨fun _ hnone => h.told p hstored ?_, fun hv => ?_⟩
    · rw [mem_iff_getElem?, hnone]; simp
    · obtain ⟨e, _, he, hif⟩ := h.way q dvMessage (head ▸ List.mem_cons_self) hv
      obtain ⟨e', _, he', hif'⟩ := hstored
      rw [howner, hpeer, he'] at he
      obtain rfl := Option.some.inj he
      exact T.address_inj q p howner (hif.symm.trans hif')

theorem Synced.step (h : Synced T s) (hl : Static T s l) (hst : netStep T s l = some s') :
    Synced T s' := by
  have hagree : ∀ p, Agree T s' p := fun p =>
    (h.agree p).step h.named (netStep_cases hst) (h.keepsAgreement hl p)
  rcases h.named.acts hl hst with rfl | ⟨i, ev, s₁, n', out, ha, rfl, hno⟩
  · exact h
  · refine ⟨ha.named h.named, hagree, ?_, h.heard_step ha hno, h.way_step ha hno,
      h.told_step ha hno⟩
    intro j
    by_cases hj : j = i
    · subst hj
      rw [Net.apply_node_self]
      exact (bookkeeping_step_iff (e := ev) (h.named.node j).inv (h.tables j)
        (by rw [step, ha.handled]; rfl)).mpr (h.fromNeighbor ha)
    · rw [ha.node_ne hj]; exact h.tables j

end Synced

/-! ## No cost is too small -/

/-- A cost node `i` may have for node `j`: infinite, or at most 16 hops and no
fewer than the distance. -/
def SoundAt (T : Topology) (i j : Fin T.size) (v : UInt32) : Prop :=
  v = mInf ∨ (v.toNat ≤ 16 ∧ T.graph.edist i j ≤ v.toNat)

structure SoundNode (T : Topology) (i : Fin T.size) (n : Node) : Prop where
  dv : ∀ j v, n.dv[T.name j]? = some v → SoundAt T i j v
  stored : ∀ k e, n.neighborTable[T.name k]? = some e →
    ∀ j v, e.dv[T.name j]? = some v → SoundAt T k j v

/-- What a message of node `i` says is sound for `i`. -/
def SoundMsg (T : Topology) (i : Fin T.size) (dvMessage : DVMessage) : Prop :=
  ∀ x ∈ dvMessage.neighborCosts, ∀ j, x.1 = (T.config j).mainAddress → SoundAt T i j x.2

structure Sound (T : Topology) (s : DvNet T) : Prop where
  node : ∀ i, SoundNode T i (s.node i)
  msg : ∀ p, ∀ dvMessage ∈ s.chan p, SoundMsg T (T.owner p) dvMessage

section Sound
variable {T : Topology} {s s' s₁ : DvNet T} {i : Fin T.size} {ev : Event} {n n' : Node}
  {out : Packets}

theorem SoundAt.neighbor {p : T.Port} : SoundAt T (T.owner p) (T.owner (peer p)) 1 := by
  refine Or.inr ⟨by decide, ?_⟩
  rw [SimpleGraph.edist_eq_one_iff_adj.mpr (adj_owner p)]
  exact le_rfl

theorem SoundAt.self : SoundAt T i i 0 :=
  Or.inr ⟨by decide, by rw [SimpleGraph.edist_self]; exact zero_le⟩

/-- The cost through a neighbour is sound when it is at most 16 hops. -/
theorem SoundAt.through {k j : Fin T.size} {v : UInt32} (h : SoundAt T k j v)
    (hadj : T.graph.Adj i k) (h16 : v.toNat + 1 ≤ 17) :
    T.graph.edist i j ≤ ((v.toNat + 1 : ℕ) : ℕ∞) := by
  rcases h with rfl | ⟨_, hle⟩
  · exact absurd h16 (by decide)
  · calc T.graph.edist i j ≤ T.graph.edist k j + 1 := edist_le_succ hadj
      _ ≤ (v.toNat : ℕ∞) + 1 := by gcongr
      _ = ((v.toNat + 1 : ℕ) : ℕ∞) := by push_cast; rfl

/-- An event whose message is sound for its sender. -/
def SoundEvent (T : Topology) : Event → Prop
  | .recv _ _ dvMessage =>
    ∀ k, dvMessage.originatorAddress = (T.config k).mainAddress → SoundMsg T k dvMessage
  | .auditHellos _ => True

theorem receivedVector_sound {k : Fin T.size} {dvMessage : DVMessage} {neighborCosts}
    (payload : dvMessage.payload = .dvTableMsg neighborCosts)
    (hlist : ∀ x ∈ dvMessage.neighborCosts, ∃ j, x.1 = (T.config j).mainAddress)
    (h : SoundMsg T k dvMessage) {j : Fin T.size} {v : UInt32}
    (hv : (receivedVector (T.config i) neighborCosts)[T.name j]? = some v) : SoundAt T k j v := by
  have hcosts : dvMessage.neighborCosts = neighborCosts := by
    rw [DVMessage.neighborCosts, payload]
  rw [receivedVector] at hv
  rcases of_getElem?_foldl_insert hv with ⟨x, hx, hname, rfl⟩ | hv
  · obtain ⟨j', hj'⟩ := hlist x (hcosts ▸ hx)
    rw [hj', reverseLookup_main, name_inj] at hname
    exact h x (hcosts ▸ hx) j (hname ▸ hj')
  · simp at hv

/-- The tables `BellmanFord` runs on are sound. -/
theorem BeforeBF.sound {m : Node} {ndv : DistanceVector} (hb : BeforeBF (T.config i) n ev m ndv)
    (hv : ValidEvent T i ev) (he : SoundEvent T ev) (h : SoundNode T i n) : SoundNode T i m := by
  cases hb with
  | hello payload fresh =>
    obtain ⟨p, rfl, rfl, horigin, _⟩ := hv
    rw [horigin, reverseLookup_main] at fresh
    rw [horigin]
    refine ⟨fun j v hj => ?_, fun k e hk => ?_⟩
    · simp only [addNeighbor, reverseLookup_main, getElem?_insertIfNew_eq] at hj
      split at hj
      · rename_i hn
        obtain rfl := name_inj.mp hn.1
        exact Option.some.inj hj ▸ SoundAt.neighbor
      · exact h.dv j v hj
    · rw [addNeighbor_entry (by rw [reverseLookup_main]; exact fresh)] at hk
      split at hk
      · obtain rfl := Option.some.inj hk
        intro j v hj
        simp at hj
      · exact h.stored k e hk
  | @dvTable now socket dvMessage neighborCosts payload =>
    obtain ⟨p, rfl, rfl, horigin, hlist⟩ := hv
    refine ⟨h.dv, fun k e hk => ?_⟩
    obtain ⟨entry, hdv, _, hget⟩ := storeVector_entry (T.config (T.owner p)) now
      (T.socket p) dvMessage.originatorAddress
      (receivedVector (T.config (T.owner p)) neighborCosts) n (T.name k)
    rw [hget] at hk
    split at hk
    · rename_i hn
      rw [horigin, reverseLookup_main, name_inj] at hn
      obtain rfl := Option.some.inj hk
      intro j v hj
      rw [hdv] at hj
      exact receivedVector_sound payload hlist (he k (hn ▸ horigin)) hj
    · exact h.stored k e hk
  | @audit now _ audited _ =>
    refine ⟨fun j v hj => ?_, fun k e hk => h.stored k e (audited.entry hk).1⟩
    by_cases hx : Expires (T.config i) now n (T.name j)
    · rw [(audited.gone _ hx).2.2.2] at hj
      exact Or.inl (Option.some.inj hj).symm
    · rw [(audited.kept _ hx).2.2] at hj; exact h.dv j v hj

/-- What a neighbour reports is sound up to 17 hops. -/
theorem SoundNode.reports {m : Node} (h : SoundNode T i m)
    (costsOne : ∀ (N : String) c, m.costs[N]? = some c → c = 1)
    (hentry : ∀ (K : String) e, m.neighborTable[K]? = some e →
      ∃ p, T.owner p = i ∧ K = T.name (T.owner (peer p)))
    {N : String} {j : Fin T.size} {k : ℕ} (hr : Reports m N (T.name j) k) (hk : k ≤ 17) :
    T.graph.edist i j ≤ k := by
  obtain ⟨c, v, ⟨hc, e, he, hv⟩, rfl⟩ := hr
  obtain rfl := costsOne N c hc
  obtain ⟨p, rfl, rfl⟩ := hentry N e he
  exact (h.stored _ e he j v hv).through (adj_owner p) hk

theorem SoundNode.handle (hN : NodeNamed T i n) (h : SoundNode T i n) (hv : ValidEvent T i ev)
    (he : SoundEvent T ev) (hh : handle (T.config i) n ev = some (n', out)) :
    SoundNode T i n' := by
  have hN' := hN.handle hv hh
  rcases handle_cases hN.inv.tables.keyed hh with ⟨hs, _⟩ | ⟨m, ndv, hb, hrec, _⟩
  · refine ⟨hs.dv ▸ h.dv, fun k e' hk j v hj => ?_⟩
    obtain ⟨e, he, hcore⟩ := hs.entry hk
    have hdv : e'.dv = e.dv := congrArg (·.2.2) hcore
    exact h.stored k e he j v (hdv ▸ hj)
  · have hm := hb.sound hv he h
    have hT := hb.tablesInv hN.inv.tables
    refine ⟨fun j v hj => ?_, fun k e hk => hm.stored k e (hrec.neighborTable ▸ hk)⟩
    by_cases hji : j = i
    · subst hji
      rw [hN'.self] at hj
      obtain rfl := Option.some.inj hj
      exact SoundAt.self
    · obtain ⟨w, hw⟩ := mem_iff_getElem?.mp (hrec.mem_dv.mp (mem_iff_getElem?.mpr ⟨v, hj⟩))
      obtain ⟨r, hfind, hdv, _⟩ := hrec.dest (T.name j) w hw
        (by rw [thisNode_eq, Ne, name_inj]; exact hji)
      rw [hj] at hdv
      obtain rfl := Option.some.inj hdv
      split
      · -- a new minimum, reported by the next hop
        rename_i hdiff
        have h16 : r.minCost.toNat ≤ 16 := by
          simp only [MinCost.differs, Bool.and_eq_true, decide_eq_true_eq] at hdiff
          exact UInt32.le_iff_toNat_le.mp hdiff.2
        refine Or.inr ⟨h16, ?_⟩
        refine hm.reports hT.costsOne ?_ ((findMinCost_spec hfind).reports hT h16) (by omega)
        intro K e hK
        obtain ⟨p, hp, hname, _⟩ := (hb.named hN hv).entry K e hK
        exact ⟨p, hp, hname⟩
      · rw [getElem?_addUnknown] at hw
        cases hold : m.dv[T.name j]? with
        | some w' =>
          rw [hold] at hw
          exact Option.some.inj hw ▸ hm.dv j w' hold
        | none =>
          rw [hold, Option.none_or] at hw
          split at hw
          · exact Or.inl (Option.some.inj hw).symm
          · cases hw

theorem SoundNode.sends (hN : NodeNamed T i n) (h : SoundNode T i n) (hv : ValidEvent T i ev)
    (he : SoundEvent T ev) (hh : Dv.handle (T.config i) n ev = some (n', out)) :
    ∀ x ∈ out, SoundMsg T i x.2 := by
  have hN' := hN.handle hv hh
  have h' := h.handle hN hv he hh
  have hello : ∀ x ∈ helloPackets (T.config i) n ev, SoundMsg T i x.2 := by
    intro x hx y hy
    have hnone := vector?_of_mem_helloPackets hx
    unfold DVMessage.vector? at hnone
    unfold DVMessage.neighborCosts at hy
    split at hy
    · rename_i hp; rw [hp] at hnone; cases hnone
    · cases hy
  intro x hx
  rcases handle_cases hN.inv.tables.keyed hh with ⟨_, _, rfl⟩ | ⟨_, _, _, _, rounds, rfl, _⟩
  · exact hello x hx
  · rcases List.mem_append.mp hx with hx | hx
    · exact hello x hx
    · obtain ⟨_, _, hx⟩ := List.mem_flatMap.mp hx
      intro y hy j hj
      obtain ⟨K, v, hK, hres, hval⟩ := (of_mem_dvRound hx).2 y hy
      obtain ⟨j', rfl⟩ := hN'.dvKeys K v hK
      rw [resolveName_name, hj, main_inj] at hres
      rcases hval with hval | hval
      · exact Or.inl hval
      · rw [hval]; exact h'.dv j v (hres ▸ hK)

theorem Sound.start (T : Topology) (sequenceNumber : Fin T.size → UInt32) :
    Sound T (netStart T sequenceNumber) := by
  refine ⟨fun i => ⟨fun j v hj => ?_, fun k e hk => ?_⟩, fun p m hm x hx => ?_⟩
  · simp only [netStart, sendHello, doStart, thisNode_eq, getElem?_insertIfNew_eq] at hj
    split at hj
    · rename_i hn
      obtain rfl := name_inj.mp hn.1
      obtain rfl := Option.some.inj hj
      exact SoundAt.self
    · simp at hj
  · simp [netStart, sendHello, doStart] at hk
  · obtain ⟨m', hm', hv⟩ := chan_netStart T sequenceNumber p
    rw [hm', List.mem_singleton] at hm
    subst hm
    unfold DVMessage.vector? at hv
    unfold DVMessage.neighborCosts at hx
    split at hx
    · rename_i hp; rw [hp] at hv; cases hv
    · cases hx

theorem Acts.sound (hN : Named T s) (h : Sound T s) (ha : Acts T s i ev s₁ n' out) :
    Sound T (s₁.apply i (n', out)) := by
  have he : SoundEvent T ev := by
    cases ev with
    | auditHellos _ => trivial
    | recv now socket dvMessage =>
      obtain ⟨q, _, head⟩ := ha.source now socket dvMessage rfl
      have hmem : dvMessage ∈ s.chan q := head ▸ List.mem_cons_self
      intro k hk
      rw [(hN.msg q dvMessage hmem).1, main_inj] at hk
      exact hk ▸ h.msg q dvMessage hmem
  refine ⟨fun j => ?_, fun p m hm => ?_⟩
  · by_cases hj : j = i
    · subst hj
      rw [Net.apply_node_self]
      exact (h.node j).handle (hN.node j) ha.valid he ha.handled
    · rw [ha.node_ne hj]; exact h.node j
  · rcases List.mem_append.mp hm with hm | hm
    · exact h.msg p m (ha.mem_queue hm)
    · obtain ⟨rfl, x, hx, rfl⟩ := Net.of_mem_onPort hm
      exact (h.node _).sends (hN.node _) ha.valid he ha.handled x hx

end Sound

/-! ## What neighbours report -/

/-- Across every link each end has the other in `m_costs`, with the distances
of the other to the nodes at most `d` hops from it. -/
def Viewed (T : Topology) (s : DvNet T) (d : ℕ) : Prop :=
  ∀ i k, T.graph.Adj i k → T.name k ∈ (s.node i).costs ∧
    ∃ e, (s.node i).neighborTable[T.name k]? = some e ∧ ∀ j, j ≠ i → ∀ c : ℕ, c ≤ d →
      T.graph.edist k j = c → (DistanceVector.cost e.dv (T.name j)).toNat = c

section Viewed
variable {T : Topology} {s : DvNet T} {d : ℕ} (h : Viewed T s d) (hN : Named T s) (hS : Sound T s)
include hN hS

/-- A report up to 17 hops is no less than the distance. -/
theorem Sound.lower {i j : Fin T.size} {N : String} {k : ℕ}
    (hr : Reports (s.node i) N (T.name j) k) (hk : k ≤ 17) : T.graph.edist i j ≤ k :=
  (hS.node i).reports (hN.node i).inv.tables.costsOne (fun K e hK => by
    obtain ⟨p, hp, hname, _⟩ := (hN.node i).entry K e hK
    exact ⟨p, hp, hname⟩) hr hk

include h

/-- A node that far from `j` and one hop more is told its distance by a
neighbour that is closer, and has it in `m_dv`. -/
theorem Viewed.dv_eq_edist {c : ℕ} (hc : c ≤ d) (h16 : c + 1 ≤ 16) {i j : Fin T.size}
    (hij : T.graph.edist i j = (c + 1 : ℕ)) :
    (DistanceVector.cost (s.node i).dv (T.name j)).toNat = c + 1 ∧
      ∃ k, Reports (s.node i) (T.name k) (T.name j) (c + 1) := by
  have hne : i ≠ j := by
    intro he
    obtain rfl := he
    rw [SimpleGraph.edist_self] at hij
    exact absurd hij.symm (Nat.cast_ne_zero.mpr (Nat.succ_ne_zero c))
  have hI := (hN.node i).inv
  obtain ⟨k, hadj, hk⟩ := exists_adj_of_edist_succ (hij.trans (Nat.cast_succ c))
  obtain ⟨hcosts, e, he, hview⟩ := h i k hadj
  have hcost := hview j hne.symm c hc hk
  obtain ⟨one, hone⟩ := mem_iff_getElem?.mp hcosts
  have hrep : Reports (s.node i) (T.name k) (T.name j) (c + 1) := by
    obtain rfl := hI.tables.costsOne _ one hone
    unfold DistanceVector.cost at hcost
    cases hv : e.dv[T.name j]? with
    | none =>
      rw [hv] at hcost
      exact absurd (hcost.trans_le (by omega : c ≤ 16)) (by decide)
    | some v =>
      rw [hv] at hcost
      exact ⟨1, v, ⟨hone, e, he, hv⟩, by rw [UInt32.toNat_one, ← hcost]; rfl⟩
  refine ⟨?_, k, hrep⟩
  have hthis : T.name j ≠ (T.config i).thisNode := by
    rw [thisNode_eq, Ne, name_inj]; exact hne.symm
  obtain ⟨v, hv⟩ := hI.reports_mem hrep
  obtain ⟨r, hr, _, hstored⟩ := hI.route _ v hv hthis
  have hle : r.minCost.toNat ≤ c + 1 := hr.le_reports hI.tables hrep
  have hge : T.graph.edist i j ≤ r.minCost.toNat :=
    hS.lower hN (hr.reports hI.tables (by omega)) (by omega)
  rw [hij, Nat.cast_le] at hge
  rw [DistanceVector.cost, hv, Option.getD_some,
    hstored (UInt32.le_iff_toNat_le.mpr (hle.trans h16))]
  exact le_antisymm hle hge

/-- A node that far from `j` and one hop more has a route of that length, and
the next hop of a route is a link neighbour one hop closer. -/
theorem Viewed.route {c : ℕ} (hc : c ≤ d) (h16 : c + 1 < 16) {i j : Fin T.size}
    (hij : T.graph.edist i j = (c + 1 : ℕ)) :
    ∃ rte k, (s.node i).routingTable[T.name j]? = some rte ∧ rte.cost.toNat = c + 1 ∧
      T.graph.Adj i k ∧ rte.nextHopAddr = (T.config k).mainAddress ∧
      T.graph.edist k j + 1 = T.graph.edist i j := by
  have hI := (hN.node i).inv
  have hthis : T.name j ≠ (T.config i).thisNode := by
    rw [thisNode_eq, Ne, name_inj]
    rintro rfl
    rw [SimpleGraph.edist_self] at hij
    exact absurd hij.symm (Nat.cast_ne_zero.mpr (Nat.succ_ne_zero c))
  obtain ⟨k₀, hk₀⟩ := (h.dv_eq_edist hN hS hc h16.le hij).2
  obtain ⟨rte, hrte⟩ := (hI.route_iff hthis).mpr ⟨_, c + 1, hk₀, h16⟩
  obtain ⟨hleast, N, e, hrep, he, _, number, hnum, haddr⟩ :=
    hI.route_least (hN.node i).knownCosts hthis hrte
  have hle : rte.cost.toNat ≤ c + 1 := hleast.2 ⟨_, hk₀⟩
  have hcost : rte.cost.toNat = c + 1 := by
    refine le_antisymm hle ?_
    have := hS.lower hN hrep (by omega)
    rw [hij] at this
    exact_mod_cast this
  rw [hcost] at hrep
  obtain ⟨p, hp, rfl, _⟩ := (hN.node i).entry N e he
  subst hp
  refine ⟨rte, T.owner (peer p), hrte, hcost, adj_owner p, ?_, ?_⟩
  · have hnumber : number = UInt32.ofNat (T.owner (peer p)) := by
      rw [← atoi_toString number, ← hnum, name, atoi_toString]
    rw [hnumber, T.nodeAddressMap] at haddr
    exact (Option.some.inj haddr).symm
  · obtain ⟨one, v, ⟨hone, e', he', hv⟩, hsum⟩ := hrep
    obtain rfl := hI.tables.costsOne _ one hone
    rw [UInt32.toNat_one] at hsum
    rcases (hS.node _).stored _ e' he' j v hv with rfl | ⟨_, hsound⟩
    · exact absurd (hsum.symm.trans_le (by omega : c + 1 ≤ 16)) (by decide)
    · refine le_antisymm ?_ (edist_le_succ (adj_owner p))
      calc T.graph.edist (T.owner (peer p)) j + 1 ≤ (v.toNat : ℕ∞) + 1 := by gcongr
        _ = ((c + 1 : ℕ) : ℕ∞) := by rw [hsum]; push_cast; rfl
        _ = T.graph.edist (T.owner p) j := hij.symm

end Viewed

section Sound
variable {T : Topology} {s : DvNet T} (hN : Named T s) (hS : Sound T s)
include hN hS

/-- There is no route to a node 16 or more hops away. -/
theorem Sound.near {i j : Fin T.size} (hne : i ≠ j) {rte : RoutingTableEntry}
    (hrte : (s.node i).routingTable[T.name j]? = some rte) : T.graph.edist i j < 16 := by
  have hthis : T.name j ≠ (T.config i).thisNode := by
    rw [thisNode_eq, Ne, name_inj]; exact hne.symm
  obtain ⟨N, k, hr, hk⟩ := ((hN.node i).inv.route_iff hthis).mp ⟨rte, hrte⟩
  exact (hS.lower hN hr (by omega)).trans_lt (by exact_mod_cast hk)

/-- A node that is told of all nodes within 14 hops has the routes to all nodes
within 15. -/
theorem Viewed.routes {d : ℕ} (h : Viewed T s d) (hd : 14 ≤ d) {i j : Fin T.size} (hne : i ≠ j) :
    ((∃ rte, (s.node i).routingTable[T.name j]? = some rte) ↔ T.graph.edist i j < 16) ∧
      ∀ rte, (s.node i).routingTable[T.name j]? = some rte →
        (rte.cost.toNat : ℕ∞) = T.graph.edist i j ∧
          ∃ k, T.graph.Adj i k ∧ rte.nextHopAddr = (T.config k).mainAddress ∧
            T.graph.edist k j + 1 = T.graph.edist i j := by
  have found : T.graph.edist i j < 16 → ∃ rte k, (s.node i).routingTable[T.name j]? = some rte ∧
      (rte.cost.toNat : ℕ∞) = T.graph.edist i j ∧ T.graph.Adj i k ∧
      rte.nextHopAddr = (T.config k).mainAddress ∧ T.graph.edist k j + 1 = T.graph.edist i j := by
    intro hlt
    obtain ⟨c, hc⟩ := ENat.ne_top_iff_exists.mp hlt.ne_top
    cases c with
    | zero => exact absurd (SimpleGraph.edist_eq_zero_iff.mp hc.symm) hne
    | succ c =>
      rw [← hc] at hlt
      have h16 : c + 1 < 16 := by exact_mod_cast hlt
      obtain ⟨rte, k, hrte, hcost, hhop⟩ := h.route hN hS (by omega) h16 hc.symm
      exact ⟨rte, k, hrte, by rw [hcost, hc], hhop⟩
  refine ⟨⟨fun hx => ?_, fun hlt => ?_⟩, fun rte hrte => ?_⟩
  · obtain ⟨rte, hrte⟩ := hx
    exact hS.near hN hne hrte
  · obtain ⟨rte, _, hrte, _⟩ := found hlt
    exact ⟨rte, hrte⟩
  · obtain ⟨rte', k, hrte', hcost, hhop⟩ := found (hS.near hN hne hrte)
    obtain rfl := Option.some.inj (hrte'.symm.trans hrte)
    exact ⟨hcost, k, hhop⟩

end Sound

/-! ## The network at rest -/

section AtRest
variable {T : Topology} {s : DvNet T} (h : Synced T s) (hS : Sound T s)
  (rest : ∀ p, s.chan p = [])
include h rest

/-- Across every link each end has the other in `m_costs`, with the costs of
the other's `m_dv`. -/
theorem Synced.view {i k : Fin T.size} (hadj : T.graph.Adj i k) :
    T.name k ∈ (s.node i).costs ∧ ∃ e, (s.node i).neighborTable[T.name k]? = some e ∧
      ∀ D, D ≠ T.name i → DistanceVector.cost e.dv D = DistanceVector.cost (s.node k).dv D := by
  have known : ∀ q, T.name (T.owner q) ∈ (s.node (T.owner (peer q))).neighborTable := by
    intro q
    rcases h.heard q with hq | ⟨m, msgs, head, _⟩
    · exact hq
    · rw [rest q] at head; cases head
  obtain ⟨q, rfl, rfl⟩ := hadj
  have hi := known (peer q)
  rw [peer_peer] at hi
  have hk := known q
  have hci := ((h.tables _).keys _).mpr hi
  obtain ⟨e, he⟩ := mem_iff_getElem?.mp hi
  refine ⟨hci, e, he, ?_⟩
  -- the link end the other node sends its vectors on
  obtain ⟨e', he'⟩ := mem_iff_getElem?.mp hk
  obtain ⟨p, hp, hname, _, hif⟩ := (h.named.node _).entry _ e' he'
  have hpeer : T.owner q = T.owner (peer p) := name_inj.mp hname
  have hstored : StoredAt T (s.node (T.owner p)) p e' := by
    rw [StoredAt, ← hpeer, hp]
    exact ⟨((h.tables _).keys _).mpr hk, he', hif⟩
  have hA := h.agree p ⟨e', hstored⟩
  rw [rest p, ← hpeer, hp] at hA
  exact hA e hci he

include hS

/-- A node within 16 hops of `j` is told the next distance by a neighbour that
is closer, and has its own distance in `m_dv`. -/
theorem Synced.dv_eq_edist {d : ℕ} (hd : d ≤ 16) {i j : Fin T.size}
    (hij : T.graph.edist i j = d) :
    (DistanceVector.cost (s.node i).dv (T.name j)).toNat = d ∧
      (i ≠ j → ∃ k, Reports (s.node i) (T.name k) (T.name j) d) := by
  induction d using Nat.strong_induction_on generalizing i j with
  | _ d ih =>
    cases d with
    | zero =>
      obtain rfl := SimpleGraph.edist_eq_zero_iff.mp hij
      refine ⟨?_, fun hne => absurd rfl hne⟩
      rw [DistanceVector.cost, (h.named.node i).self]; rfl
    | succ d =>
      have hview : Viewed T s d := by
        intro i k hadj
        obtain ⟨hc, e, he, hsame⟩ := h.view rest hadj
        refine ⟨hc, e, he, fun j hne c hcd hkj => ?_⟩
        rw [hsame _ (by rw [Ne, name_inj]; exact hne)]
        exact (ih c (by omega) (by omega) hkj).1
      obtain ⟨hcost, hrep⟩ := hview.dv_eq_edist h.named hS le_rfl hd hij
      exact ⟨hcost, fun _ => hrep⟩

theorem Synced.viewed : Viewed T s 16 := by
  intro i k hadj
  obtain ⟨hc, e, he, hsame⟩ := h.view rest hadj
  refine ⟨hc, e, he, fun j hne c hc hkj => ?_⟩
  rw [hsame _ (by rw [Ne, name_inj]; exact hne)]
  exact (h.dv_eq_edist hS rest hc hkj).1

/-- The next hop of a route is a link neighbour one hop closer. -/
theorem Synced.route {i j : Fin T.size} (hne : i ≠ j) :
    ((∃ rte, (s.node i).routingTable[T.name j]? = some rte) ↔ T.graph.edist i j < 16) ∧
      ∀ rte, (s.node i).routingTable[T.name j]? = some rte →
        (rte.cost.toNat : ℕ∞) = T.graph.edist i j ∧
          ∃ k, T.graph.Adj i k ∧ rte.nextHopAddr = (T.config k).mainAddress ∧
            T.graph.edist k j + 1 = T.graph.edist i j :=
  (h.viewed hS rest).routes h.named hS (by decide) hne

end AtRest

/-! ## Every run -/

theorem netStep_exists {T : Topology} {s : DvNet T} {l : Label T} (hN : Named T s)
    (hl : Static T s l) : ∃ s', netStep T s l = some s' := by
  have defined : ∀ {i ev}, ValidEvent T i ev →
      (∀ now, ev = .auditHellos now → ∀ K, ¬ Expires (T.config i) now (s.node i) K) →
      ∃ res, handle (T.config i) (s.node i) ev = some res := by
    intro i ev hv hno
    have hfrom : FromKnown (T.config i) (s.node i) ev := by
      cases ev with
      | recv now socket dvMessage =>
        obtain ⟨p, _, _, horigin, _⟩ := hv
        rw [FromKnown, horigin, reverseLookup_main]
        exact knownName i _
      | auditHellos now => exact fun K hK => absurd hK (hno now rfl K)
    obtain ⟨n', hst⟩ := step_exists (hN.node i).inv (hN.node i).knownCosts hfrom
    obtain ⟨res, hres, _⟩ := Option.map_eq_some_iff.mp hst
    exact ⟨res, hres⟩
  cases l with
  | lose _ => exact hl.elim
  | deliver p now =>
    simp only [netStep]
    split
    · exact ⟨_, rfl⟩
    · rename_i dvMessage rest head
      obtain ⟨res, hres⟩ := defined (hN.valid now head) (by rintro _ ⟨⟩)
      exact ⟨_, by rw [hres]; rfl⟩
  | auditHellos i now =>
    obtain ⟨res, hres⟩ := defined (show ValidEvent T i (.auditHellos now) from trivial)
      (by rintro _ ⟨⟩; exact hl)
    exact ⟨_, by rw [netStep, hres]; rfl⟩

/-- A run of a static network keeps what holds at the start. -/
theorem synced_run (T : Topology) (sequenceNumber : Fin T.size → UInt32) (ls : List (Label T))
    (h : Allows (netStep T) (Static T) (netStart T sequenceNumber) ls) :
    ∃ s, run (netStep T) (netStart T sequenceNumber) ls = some s ∧ Synced T s ∧ Sound T s := by
  refine run_exists (P := fun s => Synced T s ∧ Sound T s)
    ⟨Synced.start T sequenceNumber, Sound.start T sequenceNumber⟩ ?_ h
  intro s l hI hl
  obtain ⟨hsync, hS⟩ := hI
  obtain ⟨s', hst⟩ := netStep_exists hsync.named hl
  refine ⟨s', hst, hsync.step hl hst, ?_⟩
  rcases hsync.named.acts hl hst with rfl | ⟨i, ev, s₁, n', out, ha, rfl, _⟩
  · exact hS
  · exact ha.sound hsync.named hS

/-- **Distance-vector convergence.** However the messages of a static network
are interleaved, no handler fails; and when no message is in flight, a node
has a route exactly to the nodes fewer than 16 hops away, at the hop
distance, through a link neighbour that is one hop closer, and following next
hops is a path to the destination. -/
theorem dv_converges (T : Topology) (sequenceNumber : Fin T.size → UInt32) (ls : List (Label T))
    (h : Allows (netStep T) (Static T) (netStart T sequenceNumber) ls) :
    ∃ s, run (netStep T) (netStart T sequenceNumber) ls = some s ∧
      ((∀ p, s.chan p = []) → ∀ i j, i ≠ j →
        ((∃ rte, (s.node i).routingTable[T.name j]? = some rte) ↔ T.graph.edist i j < 16) ∧
        (∀ rte, (s.node i).routingTable[T.name j]? = some rte →
          (rte.cost.toNat : ℕ∞) = T.graph.edist i j ∧
            ∃ k, T.graph.Adj i k ∧ rte.nextHopAddr = (T.config k).mainAddress ∧
              T.graph.edist k j + 1 = T.graph.edist i j) ∧
        (T.graph.edist i j < 16 → ∃ w : T.graph.Walk i j, w.IsPath ∧ ∀ d ∈ w.darts,
          ∃ rte, (s.node d.fst).routingTable[T.name j]? = some rte ∧
            rte.nextHopAddr = (T.config d.snd).mainAddress)) := by
  obtain ⟨s, hrun, hsync, hS⟩ := synced_run T sequenceNumber ls h
  refine ⟨s, hrun, fun rest i j hne => ?_⟩
  obtain ⟨hnear, hroute⟩ := hsync.route hS rest hne
  refine ⟨hnear, hroute, fun hlt => ?_⟩
  refine exists_path_of_descent (fun u w =>
    ∃ rte, (s.node u).routingTable[T.name j]? = some rte ∧
      rte.nextHopAddr = (T.config w).mainAddress) (b := 16) ?_ (by exact_mod_cast hlt)
  intro u hu hlt
  obtain ⟨hnear, hroute⟩ := hsync.route hS rest hu
  obtain ⟨rte, hrte⟩ := hnear.mpr (by exact_mod_cast hlt)
  obtain ⟨_, k, hadj, haddr, hk⟩ := hroute rte hrte
  exact ⟨k, ⟨rte, hrte, haddr⟩, hadj, hk⟩

/-- Five rounds of deliveries on all link ends of the line. -/
def lineDeliveries : List (Label lineTopology) :=
  (List.replicate 5 [.deliver (linePort 0 false) 0, .deliver (linePort 0 true) 0,
    .deliver (linePort 1 false) 0, .deliver (linePort 1 true) 0]).flatten

theorem dv_converges_line :
    ∃ s, run (netStep lineTopology) (netStart lineTopology fun _ => 0) lineDeliveries = some s ∧
      (∀ p, s.chan p = []) ∧ lineTopology.graph.edist (lineNode 0) (lineNode 2) = 2 := by
  have hstatic : Allows (netStep lineTopology) (Static lineTopology)
      (netStart lineTopology fun _ => 0) lineDeliveries := by
    intro pre l t hp _
    have hl : l ∈ lineDeliveries := mem_of_prefix_snoc hp
    simp only [lineDeliveries, List.mem_flatten, List.mem_replicate] at hl
    obtain ⟨round, ⟨_, rfl⟩, hl⟩ := hl
    simp only [List.mem_cons, List.not_mem_nil, or_false] at hl
    rcases hl with rfl | rfl | rfl | rfl <;> trivial
  obtain ⟨s, hrun, hrest⟩ := dv_converges lineTopology (fun _ => 0) lineDeliveries hstatic
  have hend : (run (netStep lineTopology) (netStart lineTopology fun _ => 0) lineDeliveries).map
      (fun s => (decide (∀ p, s.chan p = []),
        (s.node (lineNode 0)).routingTable[lineTopology.name (lineNode 2)]?.map (·.cost))) =
        some (true, some 2) := by decide +kernel
  rw [hrun, Option.map_some] at hend
  obtain ⟨hquiet, hcost⟩ := Prod.mk.inj (Option.some.inj hend)
  have hquiet := of_decide_eq_true hquiet
  obtain ⟨rte, hrte, hc⟩ := Option.map_eq_some_iff.mp hcost
  have hdist := ((hrest hquiet (lineNode 0) (lineNode 2) (by decide)).2.1 rte hrte).1
  rw [hc] at hdist
  exact ⟨s, hrun, hquiet, hdist.symm⟩

end Ns3Routing.Dv
