import Ns3Routing.Ls.Network
import Ns3Routing.Lib.Run

/-! # Link-state databases agree

In a static network every node's last announcement reaches every other node:
what a node has stored of another is stored by its neighbours too or is on
the way to them (`flood`), whatever order messages arrive in. Echoes of old
announcements can replace a node's own entry; then the last announcement has
a greater number and is still on its way back (`own`). -/

namespace Ns3Routing.Ls

open Lib Ns3Routing.Topology

def UnitCosts (l : NbrCostsVec) : Prop := ∀ x ∈ l, x.2 = 1

section Nodes
variable {cfg : NodeConfig} {n n' : Node} {e : Event} {out : Packets}

theorem neighborAddrs_lists (hk : Keyed cfg n) : ListsNeighbors n (neighborAddrs n) := by
  refine ⟨?_, fun a => ?_⟩
  · -- the names of the addresses are the keys
    refine List.Nodup.of_map cfg.reverseLookup ?_
    have hkeys : ((neighborAddrs n).map Prod.fst).map cfg.reverseLookup =
        n.neighborTable.toList.map Prod.fst := by
      rw [neighborAddrs, List.map_map, List.map_map]
      exact List.map_congr_left fun i hi => hk i.1 i.2 (mem_toList.mp hi)
    rw [hkeys]
    exact nodup_fst_toList
  · simp only [neighborAddrs, List.map_map, List.mem_map]
    constructor
    · intro hx
      obtain ⟨i, hi, rfl⟩ := hx
      exact ⟨i.1, i.2, mem_toList.mp hi, rfl⟩
    · intro hx
      obtain ⟨K, e, he, rfl⟩ := hx
      exact ⟨(K, e), mem_toList.mpr he, rfl⟩

theorem neighborAddrs_unit : UnitCosts (neighborAddrs n) := by
  intro x hx
  obtain ⟨_, _, rfl⟩ := List.mem_map.mp hx
  rfl

/-- Whoever was heard is a neighbour. -/
theorem Handled.hears {now socket : Nat} {lsMessage : LSMessage} {destinationAddress helloMessage}
    (payload : lsMessage.payload = .helloReq destinationAddress helloMessage)
    (h : Handled cfg n (.recv now socket lsMessage) n' out) :
    ∃ entry, n'.neighborTable[cfg.reverseLookup lsMessage.originatorAddress]? = some entry := by
  cases h with
  | refresh _ _ => exact ⟨_, by simp only [touch, getElem?_insert_eq, if_true]; rfl⟩
  | discover _ fresh _ => exact ⟨_, (addNeighbor_entry fresh _).trans (if_pos rfl)⟩
  | stale hls _ => rw [payload] at hls; cases hls
  | accept hls _ _ => rw [payload] at hls; cases hls

section Static
variable (static : ∀ now, e = .auditHellos now → ∀ K, ¬ Expires cfg now n K)
include static

/-- Without timeouts neighbours stay. -/
theorem Handled.neighbor_kept (h : Handled cfg n e n' out) {K : String}
    {entry : NeighborTableEntry} (hK : n.neighborTable[K]? = some entry) :
    ∃ entry', n'.neighborTable[K]? = some entry' := by
  cases h with
  | @refresh _ _ lsMessage _ _ _ _ _ =>
    simp only [touch, getElem?_insert_eq]
    by_cases hname : cfg.reverseLookup lsMessage.originatorAddress = K
    · exact ⟨_, if_pos hname⟩
    · exact ⟨entry, by rw [if_neg hname, hK]⟩
  | @discover _ _ lsMessage _ _ _ fresh _ =>
    refine ⟨entry, ?_⟩
    dsimp only
    rw [addNeighbor_entry fresh, if_neg, hK]
    intro he
    obtain rfl := he
    rw [fresh] at hK; cases hK
  | stale _ _ => exact ⟨entry, hK⟩
  | accept _ _ _ => exact ⟨entry, hK⟩
  | quiet _ => exact ⟨entry, hK⟩
  | timeout expires _ _ =>
    obtain ⟨K', hx⟩ := expires
    exact absurd hx (static _ rfl K')

theorem Handled.unit (h : Handled cfg n e n' out)
    (hold : ∀ (K : String) entry, n.lsTable[K]? = some entry → UnitCosts entry.neighborCosts)
    (hrecv : ∀ now socket lsMessage neighborCosts, e = .recv now socket lsMessage →
      lsMessage.payload = .lsTableMsg neighborCosts → UnitCosts neighborCosts)
    (K : String) {entry : LSTableEntry} (hK : n'.lsTable[K]? = some entry) :
    UnitCosts entry.neighborCosts := by
  cases h with
  | refresh _ _ => exact hold K entry hK
  | @discover _ _ lsMessage _ _ _ _ _ =>
    dsimp only at hK
    rw [addNeighbor_lsTable] at hK
    split at hK
    · obtain rfl := Option.some.inj hK
      unfold ownEntryWith
      split
      · rename_i lste hlste
        intro x hx
        rcases List.mem_append.mp hx with hx | hx
        · exact hold _ lste hlste x hx
        · rw [List.mem_singleton.mp hx]
      · intro x hx
        rw [List.mem_singleton.mp hx]
    · exact hold K entry hK
  | stale _ _ => exact hold K entry hK
  | accept payload _ _ =>
    dsimp only [storeEntry] at hK
    rw [getElem?_insert_eq] at hK
    split at hK
    · obtain rfl := Option.some.inj hK
      exact hrecv _ _ _ _ rfl payload
    · exact hold K entry hK
  | quiet _ => exact hold K entry hK
  | timeout expires _ _ =>
    obtain ⟨K', hx⟩ := expires
    exact absurd hx (static _ rfl K')

end Static

end Nodes

/-! ## The invariant -/

/-- Node `u` has made the announcement number `q` of node `o`, or stored
it. -/
def Said (T : Topology) (log : Fin T.size → List (UInt32 × NbrCostsVec)) (s : LsNet T)
    (u o : Fin T.size) (q : UInt32) : Prop :=
  if u = o then ∃ neighborCosts, (q, neighborCosts) ∈ log o
  else heldSeq (s.node u) (T.name o) = some q

/-- The own entry of node `o` is older than one of its announcements. -/
def Outdated (T : Topology) (log : Fin T.size → List (UInt32 × NbrCostsVec)) (s : LsNet T)
    (o : Fin T.size) : Prop :=
  ∃ q, heldSeq (s.node o) (T.name o) = some q ∧ ∃ a ∈ log o, q < a.1

structure Flooding (T : Topology) (log : Fin T.size → List (UInt32 × NbrCostsVec)) (s : LsNet T) :
    Prop where
  logged : Logged T log s
  up : ∀ l, s.up l = true
  unit : ∀ o, ∀ a ∈ log o, UnitCosts a.2
  unitEntry : ∀ u (K : String) entry, (s.node u).lsTable[K]? = some entry →
    UnitCosts entry.neighborCosts
  /-- The last announcement lists the neighbours. -/
  current : ∀ o, match (log o).getLast? with
    | none => ∀ K : String, (s.node o).neighborTable[K]? = none
    | some a => ListsNeighbors (s.node o) a.2
  heard : ∀ p, (∃ e, (s.node (T.owner (peer p))).neighborTable[T.name (T.owner p)]? = some e) ∨
    ∃ m ∈ s.chan p, ∃ destinationAddress helloMessage,
      m.payload = .helloReq destinationAddress helloMessage
  entry : ∀ u o e, u ≠ o → (s.node u).lsTable[T.name o]? = some e →
    (e.sequenceNumber, e.neighborCosts) ∈ log o
  own : ∀ o, Outdated T log s o ∨ Mirrors (T.config o) (s.node o)
  flood : ∀ p o q, Said T log s (T.owner p) o q → Covered T s p o q

section Steps
variable {T : Topology} {log : Fin T.size → List (UInt32 × NbrCostsVec)} {s s' : LsNet T}
  {i : Fin T.size} {e : Event} {out : Packets} {ann : Option (UInt32 × NbrCostsVec)}

theorem Flooding.start (T : Topology) (sequenceNumber : Fin T.size → UInt32) :
    Flooding T (fun _ => []) (netStart T sequenceNumber) := by
  have hls : ∀ u (K : String), ((netStart T sequenceNumber).node u).lsTable[K]? = none := by
    intro u K
    simp [netStart, sendHello, doStart]
  have hnt : ∀ u (K : String), ((netStart T sequenceNumber).node u).neighborTable[K]? = none := by
    intro u K
    simp [netStart, sendHello, doStart]
  refine ⟨Logged.start T _, fun _ => rfl, ?_, ?_, fun o => hnt o, ?_, ?_, ?_, ?_⟩
  · intro _ _ h
    cases h
  · intro u K entry hK
    rw [hls] at hK; cases hK
  · intro p
    refine Or.inr ⟨helloMessage (T.config (T.owner p)) (doStart (sequenceNumber (T.owner p))),
      ?_, _, _, rfl⟩
    change _ ∈ Net.onPort T (T.owner p) ((T.config (T.owner p)).broadcastPacket (helloMessage
      (T.config (T.owner p)) (doStart (sequenceNumber (T.owner p))))) p
    rw [Net.onPort_broadcastPacket]
    exact List.mem_singleton_self _
  · intro u o entry _ hK
    rw [hls] at hK; cases hK
  · intro o
    right
    rw [Mirrors, hls]
    exact hnt o
  · intro p o q hsaid
    unfold Said at hsaid
    split at hsaid
    · obtain ⟨_, hmem⟩ := hsaid
      cases hmem
    · rw [heldSeq, hls] at hsaid; cases hsaid

theorem Flooding.still (h : Flooding T log s) (hst : Still T s s') (hup : ∀ l, s'.up l = true) :
    Flooding T log s' := by
  have hnode := hst.node
  refine ⟨h.logged.still hst, hup, h.unit, ?_, ?_, ?_, ?_, ?_, ?_⟩
  · rw [hnode]; exact h.unitEntry
  · rw [hnode]; exact h.current
  · intro p
    rw [hnode]
    refine (h.heard p).imp_right ?_
    intro hx
    obtain ⟨m, hm, hpay⟩ := hx
    exact ⟨m, hst.left p m (h.up p.1) hm, hpay⟩
  · rw [hnode]; exact h.entry
  · unfold Outdated
    rw [hnode]; exact h.own
  · intro p o q hsaid
    unfold Said at hsaid
    rw [hnode] at hsaid
    exact (h.flood p o q hsaid).still hst (h.up p.1)

/-- The last announcement has the greatest number. -/
theorem Logged.le_last (h : Logged T log s) {o : Fin T.size} {a b : UInt32 × NbrCostsVec}
    (hb : (log o).getLast? = some b) (ha : a ∈ log o) : a = b ∨ a.1 < b.1 := by
  obtain ⟨l, hl⟩ := List.getLast?_eq_some_iff.mp hb
  have hsorted := h.sorted o
  rw [hl] at ha hsorted
  rcases List.mem_append.mp ha with ha | ha
  · exact Or.inr ((List.pairwise_append.mp hsorted).2.2 a ha b (List.mem_singleton_self b))
  · exact Or.inl (List.mem_singleton.mp ha)

/-- The event of a node leaves its own entry listing its neighbours, or older
than one of its announcements. -/
theorem Flooding.own_act (h : Flooding T log s) (hact : Act T s i e out ann s') :
    Outdated T (record log i ann) s' i ∨ Mirrors (T.config i) (s'.node i) := by
  have hk := h.logged.keyed i
  rcases hact.handled.own hk with ⟨now, socket, m, l, he, hl, hname, hget, hnt⟩ | ⟨hecho, hseq⟩
  · -- an echo: of the last announcement, or of an older one
    obtain ⟨o, ho, hmem⟩ := h.logged.made hact he hl
    rw [ho, reverseLookup_main, thisNode_eq, name_inj] at hname
    subst hname
    have hcurrent := h.current o
    cases hlast : (log o).getLast? with
    | none =>
      rw [List.getLast?_eq_none_iff.mp hlast] at hmem; cases hmem
    | some b =>
      rw [hlast] at hcurrent
      rcases h.logged.le_last hlast hmem with hb | hlt
      · right
        rw [Mirrors, hget]
        dsimp only
        refine (ListsNeighbors.congr ?_).mpr (hb ▸ hcurrent)
        intro K a
        rw [hnt]
      · left
        refine ⟨m.sequenceNumber, ?_, b, mem_record.mpr (Or.inl (List.mem_of_getLast? hlast)), hlt⟩
        rw [heldSeq, ← thisNode_eq, hget]; rfl
  · rcases h.own i with ⟨q, hq, a, ha, hlt⟩ | hmirrors
    · rw [thisNode_eq] at hseq
      exact Or.inl ⟨q, hseq q hq, a, mem_record.mpr (Or.inl ha), hlt⟩
    · exact Or.inr ((hact.handled.mirrors_iff hk hmirrors).mpr hecho)

theorem Flooding.flood_act (h : Flooding T log s) (hact : Act T s i e out ann s') (p : T.Port)
    (o : Fin T.size) (q : UInt32) (hsaid : Said T (record log i ann) s' (T.owner p) o q) :
    Covered T s' p o q := by
  have hk := h.logged.keyed i
  -- what was said before the event
  have before : Said T log s (T.owner p) o q → Covered T s' p o q :=
    fun hs => (h.flood p o q hs).act hk hact
  by_cases ho : T.owner p = o
  · rw [Said, if_pos ho] at hsaid
    obtain ⟨l, hmem⟩ := hsaid
    rcases mem_record.mp hmem with hold | ⟨hi, hann⟩
    · refine before ?_
      rw [Said, if_pos ho]
      exact ⟨l, hold⟩
    · obtain rfl := hi
      obtain rfl := ho
      exact hact.announce (h.up p.1) hann
  · rw [Said, if_neg ho] at hsaid
    by_cases hi : T.owner p = i
    · obtain rfl := hi
      rcases h.logged.relay hact (h.up p.1) (Ne.symm ho) hsaid with hheld | hcov
      · refine before ?_
        rw [Said, if_neg ho]
        exact hheld
      · exact hcov
    · rw [hact.others _ hi] at hsaid
      refine before ?_
      rw [Said, if_neg ho]
      exact hsaid

/-- The last announcement still lists the neighbours after the event. -/
theorem Flooding.current_act (h : Flooding T log s) (hact : Act T s i e out ann s')
    (hk : Keyed (T.config i) (s'.node i)) :
    match (record log i ann i).getLast? with
    | none => ∀ K : String, (s'.node i).neighborTable[K]? = none
    | some a => ListsNeighbors (s'.node i) a.2 := by
  rw [record_self]
  cases ann with
  | some a =>
    simp only [Option.toList_some, List.getLast?_concat]
    rw [hact.effect.lists a rfl]
    exact neighborAddrs_lists hk
  | none =>
    have hsilent := hact.effect.silent rfl
    have hcurrent := h.current i
    rw [Option.toList_none, List.append_nil]
    cases hlast : (log i).getLast? with
    | none =>
      rw [hlast] at hcurrent
      intro K
      by_contra hne
      obtain ⟨e', he'⟩ := Option.ne_none_iff_exists'.mp hne
      obtain ⟨e₀, he₀, _⟩ := (hsilent K e'.neighborAddr).mp ⟨e', he', rfl⟩
      rw [hcurrent K] at he₀; cases he₀
    | some a =>
      rw [hlast] at hcurrent
      exact (ListsNeighbors.congr hsilent).mpr hcurrent

section Static
variable (static : ∀ now, e = .auditHellos now → ∀ K, ¬ Expires (T.config i) now (s.node i) K)
include static

theorem Flooding.heard_act (h : Flooding T log s) (hact : Act T s i e out ann s') (p : T.Port) :
    (∃ e, (s'.node (T.owner (peer p))).neighborTable[T.name (T.owner p)]? = some e) ∨
      ∃ m ∈ s'.chan p, ∃ destinationAddress helloMessage,
        m.payload = .helloReq destinationAddress helloMessage := by
  by_cases hp : T.owner (peer p) = i
  · subst hp
    rcases h.heard p with ⟨e₀, he₀⟩ | ⟨m, hm, d, g, hpay⟩
    · exact Or.inl (hact.handled.neighbor_kept static he₀)
    · rcases hact.left p m hm with hm' | ⟨_, now, rfl⟩
      · exact Or.inr ⟨m, hm', d, g, hpay⟩
      · have hheard := hact.handled.hears hpay
        rw [h.logged.hello p m hm d g hpay, reverseLookup_main] at hheard
        exact Or.inl hheard
  · rw [hact.others _ hp]
    refine (h.heard p).imp_right ?_
    intro hflight
    obtain ⟨m, hm, hpay⟩ := hflight
    exact ⟨m, (hact.left p m hm).resolve_right fun hr => hp hr.1, hpay⟩

theorem Flooding.entry_act (h : Flooding T log s) (hact : Act T s i e out ann s') {o : Fin T.size}
    {entry' : LSTableEntry} (hio : i ≠ o) (hget' : (s'.node i).lsTable[T.name o]? = some entry') :
    (entry'.sequenceNumber, entry'.neighborCosts) ∈ log o := by
  have hne : T.name o ≠ (T.config i).thisNode := by
    rw [thisNode_eq]
    exact fun hn => hio (name_inj.mp hn).symm
  rcases hact.handled.entry (h.logged.keyed i) hne with
    hsame | ⟨now, socket, m, l, he, hl, hname, _, hget, _⟩ | ⟨now, he, hx, _⟩
  · rw [hsame] at hget'
    exact h.entry i o entry' hio hget'
  · obtain ⟨o', ho', hmem⟩ := h.logged.made hact he hl
    rw [ho', reverseLookup_main, name_inj] at hname
    subst hname
    rw [hget] at hget'
    obtain rfl := Option.some.inj hget'
    exact hmem
  · exact absurd hx (static now he _)

theorem Flooding.act (h : Flooding T log s) (hact : Act T s i e out ann s')
    (hwrap : (s.node i).currentSequenceNumber ≤ (s'.node i).currentSequenceNumber) :
    Flooding T (record log i ann) s' := by
  have hlogged := h.logged.act hact hwrap
  refine ⟨hlogged, fun l => by rw [hact.up, h.up], ?_, ?_, ?_, h.heard_act static hact, ?_, ?_,
    h.flood_act hact⟩
  · intro o a ha
    rcases mem_record.mp ha with hold | ⟨_, hnew⟩
    · exact h.unit o a hold
    · rw [hact.effect.lists a hnew]; exact neighborAddrs_unit
  · intro u K entry hK
    by_cases hu : u = i
    · subst hu
      refine hact.handled.unit static (h.unitEntry u) ?_ K hK
      intro now socket m l he hl
      obtain ⟨o, _, hmem⟩ := h.logged.made hact he hl
      exact h.unit o _ hmem
    · rw [hact.others u hu] at hK
      exact h.unitEntry u K entry hK
  · intro o
    by_cases ho : o = i
    · subst ho
      exact h.current_act hact (hlogged.keyed o)
    · rw [record_ne ho, hact.others o ho]; exact h.current o
  · intro u o entry' huo hget'
    refine mem_record.mpr (Or.inl ?_)
    by_cases hu : u = i
    · subst hu
      exact h.entry_act static hact huo hget'
    · rw [hact.others u hu] at hget'
      exact h.entry u o entry' huo hget'
  · intro o
    by_cases ho : o = i
    · subst ho
      exact h.own_act hact
    · unfold Outdated
      rw [record_ne ho, hact.others o ho]
      exact h.own o

end Static

end Steps

/-! ## States with no announcement in flight -/

/-- Every node has an entry for every node, with its link neighbours, each
once and at cost 1. -/
def Complete (T : Topology) (s : LsNet T) : Prop :=
  ∀ n o, ∃ entry, (s.node n).lsTable[T.name o]? = some entry ∧ entry.neighborCosts.Nodup ∧
    ∀ x, x ∈ entry.neighborCosts ↔ ∃ j, T.graph.Adj o j ∧ x = ((T.config j).mainAddress, 1)

/-- All neighbours have been heard, and only hellos are in flight. -/
structure Calm (T : Topology) (s : LsNet T) : Prop where
  known : ∀ p, ∃ e, (s.node (T.owner p)).neighborTable[T.name (T.owner (peer p))]? = some e
  hellos : ∀ p, ∀ m ∈ s.chan p, ∀ neighborCosts, m.payload ≠ .lsTableMsg neighborCosts

section Calm
variable {T : Topology} {log : Fin T.size → List (UInt32 × NbrCostsVec)} {s : LsNet T}
  (h : Flooding T log s)
include h

theorem Flooding.calm (quiet : ∀ p, s.chan p = []) : Calm T s := by
  refine ⟨fun p => ?_, fun p m hm => ?_⟩
  · rcases h.heard (peer p) with hknown | ⟨m, hm, _⟩
    · rwa [peer_peer] at hknown
    · rw [quiet] at hm; cases hm
  · rw [quiet] at hm; cases hm

variable (calm : Calm T s)
include calm

/-- A list of a node's neighbours is one of its link neighbours. -/
theorem Flooding.lists {o : Fin T.size} {l : NbrCostsVec} (hl : ListsNeighbors (s.node o) l)
    (hunit : UnitCosts l) :
    l.Nodup ∧ ∀ x, x ∈ l ↔ ∃ j, T.graph.Adj o j ∧ x = ((T.config j).mainAddress, 1) := by
  obtain ⟨hnd, hmem⟩ := hl
  have haddr : ∀ a, a ∈ l.map Prod.fst ↔ ∃ j, T.graph.Adj o j ∧ a = (T.config j).mainAddress := by
    intro a
    rw [hmem]
    constructor
    · intro hx
      obtain ⟨K, e, he, rfl⟩ := hx
      obtain ⟨p, rfl, _, ha, _⟩ := h.logged.neighbor o K e he
      exact ⟨_, adj_owner p, ha⟩
    · intro hx
      obtain ⟨j, ⟨p, rfl, rfl⟩, rfl⟩ := hx
      obtain ⟨e, he⟩ := calm.known p
      obtain ⟨p', _, hname, ha, _⟩ := h.logged.neighbor _ _ e he
      exact ⟨_, e, he, by rw [ha, ← name_inj.mp hname]⟩
  refine ⟨List.Nodup.of_map _ hnd, fun x => ?_⟩
  constructor
  · intro hx
    obtain ⟨j, hadj, hj⟩ := (haddr x.1).mp (List.mem_map_of_mem hx)
    exact ⟨j, hadj, Prod.ext hj (hunit x hx)⟩
  · intro hx
    obtain ⟨j, hadj, rfl⟩ := hx
    obtain ⟨x, hx, hj⟩ := List.mem_map.mp ((haddr _).mpr ⟨j, hadj, rfl⟩)
    have hxj : x = ((T.config j).mainAddress, 1) := Prod.ext hj (hunit x hx)
    rwa [← hxj]

/-- The last announcement of a node was made, or stored, by every node. -/
theorem Flooding.said_of_walk {o : Fin T.size} {a : UInt32 × NbrCostsVec} (ha : a ∈ log o)
    {v : Fin T.size} (w : T.graph.Walk v o) : ∃ q, a.1 ≤ q ∧ Said T log s v o q := by
  induction w with
  | nil => exact ⟨a.1, UInt32.le_refl _, by rw [Said, if_pos rfl]; exact ⟨a.2, ha⟩⟩
  | @cons v u o hadj w ih =>
    obtain ⟨q, hle, hsaid⟩ := ih ha
    by_cases hvo : v = o
    · exact ⟨a.1, UInt32.le_refl _, by rw [Said, if_pos hvo]; exact ⟨a.2, ha⟩⟩
    · obtain ⟨p, rfl, rfl⟩ := hadj.symm
      rcases h.flood p o q hsaid with ⟨m, hm, l, hl, _⟩ | ⟨q', hq', hle'⟩
      · exact absurd hl (calm.hellos p m hm l)
      · exact ⟨q', UInt32.le_trans hle hle', by rw [Said, if_neg hvo]; exact hq'⟩

/-- A node that has a link has announced its neighbours. -/
theorem Flooding.announced (p : T.Port) :
    ∃ a, (log (T.owner p)).getLast? = some a ∧ ListsNeighbors (s.node (T.owner p)) a.2 := by
  have hcurrent := h.current (T.owner p)
  cases hlast : (log (T.owner p)).getLast? with
  | none =>
    rw [hlast] at hcurrent
    obtain ⟨e, he⟩ := calm.known p
    rw [hcurrent] at he; cases he
  | some a =>
    rw [hlast] at hcurrent
    exact ⟨a, rfl, hcurrent⟩

theorem Flooding.complete_of_calm (conn : T.graph.Connected) (htwo : 2 ≤ T.size) : Complete T s := by
  intro n o
  -- `o` has a link
  have : Nontrivial (Fin T.size) := Fin.nontrivial_iff_two_le.mpr htwo
  obtain ⟨j, p, rfl, hj⟩ := conn.preconnected.exists_adj_of_nontrivial o
  obtain ⟨a, hlast, hlists⟩ := h.announced calm p
  have ha : a ∈ log (T.owner p) := List.mem_of_getLast? hlast
  by_cases hn : n = T.owner p
  · -- the last announcement has come back over `p`
    subst hn
    have hback : ¬ Outdated T log s (T.owner p) := by
      intro hx
      obtain ⟨q, hq, b, hb, hlt⟩ := hx
      obtain ⟨q', hle, hsaid⟩ := h.said_of_walk calm ha (v := T.owner (peer p))
        (SimpleGraph.Walk.cons (adj_owner p).symm .nil)
      rcases h.flood (peer p) _ q' hsaid with ⟨m, hm, l, hl, _⟩ | ⟨q'', hq'', hle'⟩
      · exact absurd hl (calm.hellos _ m hm l)
      · rw [peer_peer, hq] at hq''
        obtain rfl := Option.some.inj hq''
        have hble : b.1 ≤ a.1 := by
          rcases h.logged.le_last hlast hb with rfl | hb
          · exact UInt32.le_refl _
          · exact UInt32.le_of_lt hb
        exact absurd hlt (UInt32.not_lt.mpr (UInt32.le_trans hble (UInt32.le_trans hle hle')))
    have hmirrors := (h.own (T.owner p)).resolve_left hback
    rw [Mirrors, thisNode_eq] at hmirrors
    cases hown : (s.node (T.owner p)).lsTable[T.name (T.owner p)]? with
    | none =>
      rw [hown] at hmirrors
      obtain ⟨e, he⟩ := calm.known p
      rw [hmirrors] at he; cases he
    | some entry =>
      rw [hown] at hmirrors
      exact ⟨entry, rfl, h.lists calm hmirrors (h.unitEntry _ _ _ hown)⟩
  · obtain ⟨w⟩ := conn.preconnected n (T.owner p)
    obtain ⟨q, hle, hsaid⟩ := h.said_of_walk calm ha w
    rw [Said, if_neg hn] at hsaid
    obtain ⟨entry, hentry, rfl⟩ := heldSeq_eq_some.mp hsaid
    have hmem := h.entry n _ entry hn hentry
    have hcosts : entry.neighborCosts = a.2 := by
      rcases h.logged.le_last hlast hmem with he | hlt
      · exact congrArg Prod.snd he
      · exact absurd hlt (UInt32.not_lt.mpr hle)
    rw [← hcosts] at hlists
    exact ⟨entry, hentry, h.lists calm hlists (h.unitEntry _ _ _ hentry)⟩

omit calm in
theorem Flooding.complete (quiet : ∀ p, s.chan p = []) (conn : T.graph.Connected)
    (htwo : 2 ≤ T.size) : Complete T s :=
  h.complete_of_calm (h.calm quiet) conn htwo

end Calm

/-! ## Static runs -/

/-- No link goes down, no neighbour times out, and no sequence counter
wraps. -/
def Static (dijkstra : NodeConfig → Node → Option RoutingTable) (T : Topology) (s : LsNet T)
    (lab : Label T) : Prop :=
  NoWrap dijkstra T s lab ∧
    match lab with
    | .deliver _ _ _ => True
    | .auditHellos i now => ∀ K, ¬ Expires (T.config i) now (s.node i) K
    | .linkDown _ => False
    | .linkUp _ => True

section Static
variable {dijkstra : NodeConfig → Node → Option RoutingTable} {T : Topology}
  {log : Fin T.size → List (UInt32 × NbrCostsVec)} {s s' : LsNet T} {lab : Label T}

theorem Flooding.step (h : Flooding T log s) (hst : netStep dijkstra T s lab = some s')
    (hstatic : Static dijkstra T s lab) : ∃ log', Flooding T log' s' := by
  obtain ⟨hwrap, hlab⟩ := hstatic
  cases netStep_cases h.logged.keyed hst with
  | act hact audit =>
    refine ⟨_, h.act (fun now he K => ?_) hact (hwrap s' hst _)⟩
    rw [audit now he] at hlab
    exact hlab K
  | still hstill hup =>
    refine ⟨log, h.still hstill fun l => hup l ?_ (h.up l)⟩
    intro he
    obtain rfl := he
    exact hlab

/-- A handler stops only in `Dijkstra` or at a timeout. -/
theorem handle_isSome (cfg : NodeConfig) (n : Node) {e : Event}
    (total : ∀ cfg n, (dijkstra cfg n).isSome)
    (static : ∀ now, e = .auditHellos now → ∀ K, ¬ Expires cfg now n K) :
    ∃ res, handle dijkstra cfg n e = some res := by
  have hrun : ∀ m, ∃ m', runDijkstra dijkstra cfg m = some m' := by
    intro m
    obtain ⟨routingTable, hr⟩ := Option.isSome_iff_exists.mp (total cfg m)
    exact ⟨_, by rw [runDijkstra, hr]; rfl⟩
  cases e with
  | recv now socket lsMessage =>
    simp only [handle, recvLSMessage]
    split
    · unfold processHelloReq
      dsimp only
      split
      · exact ⟨_, rfl⟩
      · obtain ⟨m', hm'⟩ := hrun (addNeighbor cfg now socket lsMessage n)
        exact ⟨_, by rw [hm']; rfl⟩
    · rename_i neighborCosts _
      unfold processLSTableMessage
      dsimp only
      split
      · obtain ⟨m', hm'⟩ := hrun (storeEntry (cfg.reverseLookup lsMessage.originatorAddress)
          neighborCosts lsMessage.sequenceNumber n)
        exact ⟨_, by rw [hm']; rfl⟩
      · exact ⟨_, rfl⟩
  | auditHellos now =>
    have hloop : n.neighborTable.toList.foldlM (auditEntry cfg now) ((sendHello cfg n).1, false) =
        some ((sendHello cfg n).1, false) := by
      obtain ⟨t, ht, rfl⟩ := foldlM_exists (f := auditEntry cfg now)
        (fun st => st = ((sendHello cfg n).1, false)) (l := n.neighborTable.toList)
        (by
          intro st i hi he
          obtain rfl := he
          refine ⟨_, if_neg fun hx => ?_, rfl⟩
          exact static now rfl i.1 ⟨i.2, mem_toList.mp hi, hx⟩) rfl
      exact ht
    refine ⟨((sendHello cfg n).1, (sendHello cfg n).2), ?_⟩
    simp only [handle, auditHellos]
    exact Option.bind_eq_some_iff.mpr ⟨_, hloop, rfl⟩

theorem netStep_isSome (total : ∀ cfg n, (dijkstra cfg n).isSome)
    (hstatic : Static dijkstra T s lab) : ∃ s', netStep dijkstra T s lab = some s' := by
  cases lab with
  | deliver p k now =>
    simp only [netStep]
    split
    · exact ⟨_, rfl⟩
    · rename_i lsMessage _
      split
      · obtain ⟨res, hres⟩ := handle_isSome (T.config (T.owner (peer p)))
          (s.node (T.owner (peer p))) (e := .recv now (T.socket (peer p)) lsMessage) total
            (by intro _ he; cases he)
        exact ⟨_, by rw [hres]; rfl⟩
      · exact ⟨_, rfl⟩
  | auditHellos i now =>
    obtain ⟨res, hres⟩ := handle_isSome (T.config i) (s.node i)
      (e := .auditHellos now) total (by rintro _ ⟨⟩; exact hstatic.2)
    exact ⟨_, by rw [netStep, hres]; rfl⟩
  | linkDown l => exact ⟨_, rfl⟩
  | linkUp l => exact ⟨_, rfl⟩

/-- What holds along a static run. -/
theorem flooding_along {sequenceNumber : Fin T.size → UInt32} {ls : List (Label T)}
    (static : Allows (netStep dijkstra T) (Static dijkstra T) (netStart T sequenceNumber) ls) :
    Along (netStep dijkstra T) (fun s => ∃ log, Flooding T log s) (netStart T sequenceNumber) ls := by
  refine along_of_meets ⟨_, Flooding.start T sequenceNumber⟩ ?_ static.meets
  intro s lab s' hflood hst hstatic
  obtain ⟨log, h⟩ := hflood
  exact h.step hst hstatic

end Static

/-- **The link-state databases agree.** In every static run, messages arriving
in any order, every state with nothing in flight has the complete database at
every node, whatever `Dijkstra` makes of it; and if `Dijkstra` always
returns, so does every handler. -/
theorem ls_databases_agree (dijkstra : NodeConfig → Node → Option RoutingTable) (T : Topology)
    (conn : T.graph.Connected) (htwo : 2 ≤ T.size) (sequenceNumber : Fin T.size → UInt32)
    (ls : List (Label T))
    (static : Allows (netStep dijkstra T) (Static dijkstra T) (netStart T sequenceNumber) ls) :
    Along (netStep dijkstra T) (fun s => (∀ p, s.chan p = []) → Complete T s)
        (netStart T sequenceNumber) ls ∧
      ((∀ cfg n, (dijkstra cfg n).isSome) →
        ∃ s, run (netStep dijkstra T) (netStart T sequenceNumber) ls = some s) := by
  refine ⟨?_, fun total => ?_⟩
  · intro pre s hpre hs quiet
    obtain ⟨log, h⟩ := flooding_along static pre s hpre hs
    exact h.complete quiet conn htwo
  · obtain ⟨s, hs, _⟩ := run_exists (P := fun _ => True) trivial
      (fun s lab _ hC => (netStep_isSome total hC).imp fun _ h => ⟨h, trivial⟩) static
    exact ⟨s, hs⟩

/-- Everything on the line arrives, on the first link the second message of a
queue before the first. -/
def deliverLine (now : ℕ) : List (Label lineTopology) :=
  (List.replicate 9 [.deliver (linePort 0 false) 1 now, .deliver (linePort 0 false) 0 now,
    .deliver (linePort 0 true) 1 now, .deliver (linePort 0 true) 0 now,
    .deliver (linePort 1 false) 0 now, .deliver (linePort 1 true) 0 now]).flatten

theorem of_mem_deliverLine {now : ℕ} {lab : Label lineTopology} (h : lab ∈ deliverLine now) :
    ∃ p k, lab = .deliver p k now := by
  simp only [deliverLine, List.mem_flatten, List.mem_replicate] at h
  obtain ⟨round, ⟨_, rfl⟩, h⟩ := h
  simp only [List.mem_cons, List.not_mem_nil, or_false] at h
  rcases h with rfl | rfl | rfl | rfl | rfl | rfl <;> exact ⟨_, _, rfl⟩

theorem ls_databases_agree_line :
    ∃ s, run (netStep dijkstraOrEmpty lineTopology) (netStart lineTopology fun _ => 7)
        (deliverLine 1) = some s ∧ (∀ p, s.chan p = []) ∧ Complete lineTopology s := by
  have hstatic : Allows (netStep dijkstraOrEmpty lineTopology)
      (Static dijkstraOrEmpty lineTopology) (netStart lineTopology fun _ => 7) (deliverLine 1) := by
    have hwrap : Allows (netStep dijkstraOrEmpty lineTopology)
        (NoWrap dijkstraOrEmpty lineTopology) (netStart lineTopology fun _ => 7) (deliverLine 1) :=
      allows_of_checkRun (c := noWrapCheck dijkstraOrEmpty lineTopology)
        (fun _ _ => noWrap_of_check) (by decide +kernel)
    intro pre lab t hp ht
    refine ⟨hwrap pre lab t hp ht, ?_⟩
    obtain ⟨p, k, rfl⟩ := of_mem_deliverLine (mem_of_prefix_snoc hp)
    trivial
  obtain ⟨halong, hrun⟩ := ls_databases_agree dijkstraOrEmpty lineTopology line_connected
    (by decide) (fun _ => 7) (deliverLine 1) hstatic
  obtain ⟨s, hs⟩ := hrun fun _ _ => rfl
  have hend : (run (netStep dijkstraOrEmpty lineTopology) (netStart lineTopology fun _ => 7)
      (deliverLine 1)).map (fun s => decide (∀ p, s.chan p = [])) = some true := by decide +kernel
  rw [hs, Option.map_some] at hend
  have hquiet := of_decide_eq_true (Option.some.inj hend)
  exact ⟨s, hs, hquiet, halong (deliverLine 1) s (List.prefix_refl _) hs hquiet⟩

end Ns3Routing.Ls
