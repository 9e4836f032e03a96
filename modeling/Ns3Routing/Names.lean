import Mathlib.Data.Set.Function
import Ns3Routing.AddressMaps
import Ns3Routing.Dv.Host
import Ns3Routing.Ls.Entries
import Ns3Routing.Medium
import Ns3Routing.Routes

/-! # The keys of the tables

Both protocols key their tables by names. `Among` says that all of a node's
tables speak about a set `A` of addresses, and that the keys are names of
those. Over any medium that is kept (`Ls.among_run`, `Dv.among_run`), so with
the maps of `main` the keys are the node numbers in decimal and nothing else. -/

namespace Ns3Routing

open Lib

/-- `K` is the name of an address of `A`. -/
def IsNameOf (cfg : NodeConfig) (A : Set Ipv4Address) (K : String) : Prop :=
  ∃ a ∈ A, cfg.reverseLookup a = K

/-! ## Link state -/

namespace Ls

structure TablesAmong (cfg : NodeConfig) (A : Set Ipv4Address) (n : Node) : Prop where
  neighbor : ∀ (K : String) e, n.neighborTable[K]? = some e →
    cfg.reverseLookup e.neighborAddr = K ∧ e.neighborAddr ∈ A
  entry : ∀ (K : String) e, n.lsTable[K]? = some e →
    IsNameOf cfg A K ∧ ∀ x ∈ e.neighborCosts, x.1 ∈ A

structure Among (cfg : NodeConfig) (A : Set Ipv4Address) (n : Node) : Prop
    extends TablesAmong cfg A n where
  route : ∀ K : String, K ∈ n.routingTable → IsNameOf cfg A K

def MessageAmong (A : Set Ipv4Address) (m : LSMessage) : Prop :=
  m.originatorAddress ∈ A ∧ ∀ neighborCosts, m.payload = .lsTableMsg neighborCosts →
    ∀ x ∈ neighborCosts, x.1 ∈ A

/-- A message that comes in speaks about `A`. -/
def EventAmong (A : Set Ipv4Address) : Event → Prop
  | .recv _ _ m => MessageAmong A m
  | .auditHellos _ => True

/-- `K` is a key of one of the tables. -/
def IsKey (n : Node) (K : String) : Prop := K ∈ n.neighborTable ∨ K ∈ n.lsTable ∨ K ∈ n.routingTable

section Among
variable {cfg : NodeConfig} {A : Set Ipv4Address} {n n' : Node} {e : Event} {out : Packets}

theorem among_doStart (cfg : NodeConfig) (A : Set Ipv4Address) (sequenceNumber : UInt32) :
    Among cfg A (doStart sequenceNumber) :=
  ⟨⟨by simp [doStart], by simp [doStart]⟩, by simp [doStart]⟩

theorem TablesAmong.congr (h : TablesAmong cfg A n) (neighborTable : n'.neighborTable = n.neighborTable)
    (lsTable : n'.lsTable = n.lsTable) : TablesAmong cfg A n' :=
  ⟨by rw [neighborTable]; exact h.neighbor, by rw [lsTable]; exact h.entry⟩

theorem Among.isKey (h : Among cfg A n) {K : String} (hK : IsKey n K) : IsNameOf cfg A K := by
  rcases hK with hK | hK | hK
  · obtain ⟨e, he⟩ := mem_iff_getElem?.mp hK
    obtain ⟨hname, ha⟩ := h.neighbor K e he
    exact ⟨e.neighborAddr, ha, hname⟩
  · obtain ⟨e, he⟩ := mem_iff_getElem?.mp hK
    exact (h.entry K e he).1
  · exact h.route K hK

theorem TablesAmong.ownEntryWith (h : TablesAmong cfg A n) {lsMessage : LSMessage}
    (ha : lsMessage.originatorAddress ∈ A) :
    ∀ x ∈ (Ls.ownEntryWith cfg lsMessage n).neighborCosts, x.1 ∈ A := by
  unfold Ls.ownEntryWith
  split
  · rename_i lste hlste
    intro x hx
    rcases List.mem_append.mp hx with hx | hx
    · exact (h.entry _ lste hlste).2 x hx
    · rw [List.mem_singleton.mp hx]
      exact ha
  · intro x hx
    rw [List.mem_singleton.mp hx]
    exact ha

theorem TablesAmong.addNeighbor (h : TablesAmong cfg A n) (main : cfg.mainAddress ∈ A) (now socket : ℕ)
    {lsMessage : LSMessage} (ha : lsMessage.originatorAddress ∈ A)
    (fresh : n.neighborTable[cfg.reverseLookup lsMessage.originatorAddress]? = none) :
    TablesAmong cfg A (Ls.addNeighbor cfg now socket lsMessage n) := by
  refine ⟨fun K e he => ?_, fun K e he => ?_⟩
  · rw [addNeighbor_entry fresh] at he
    split at he
    · rename_i hK
      obtain rfl := Option.some.inj he
      exact ⟨hK, ha⟩
    · exact h.neighbor K e he
  · simp only [Ls.addNeighbor, getElem?_insert_eq] at he
    split at he
    · rename_i hK
      obtain rfl := Option.some.inj he
      exact ⟨⟨_, main, hK⟩, h.ownEntryWith ha⟩
    · exact h.entry K e he

theorem TablesAmong.storeEntry (h : TablesAmong cfg A n) {a : Ipv4Address} {neighborCosts : NbrCostsVec}
    (ha : a ∈ A) (hlist : ∀ x ∈ neighborCosts, x.1 ∈ A) (seqNum : UInt32) :
    TablesAmong cfg A (Ls.storeEntry (cfg.reverseLookup a) neighborCosts seqNum n) := by
  refine ⟨h.neighbor, fun K e he => ?_⟩
  simp only [Ls.storeEntry, getElem?_insert_eq] at he
  split at he
  · rename_i hK
    obtain rfl := Option.some.inj he
    exact ⟨⟨a, ha, hK⟩, hlist⟩
  · exact h.entry K e he

/-- A link that is removed leaves the others. -/
theorem removeLink_among {node : String} {a : Ipv4Address} {t t' : NameMap LSTableEntry}
    (ht : removeLink node a t = some t')
    (h : ∀ (K : String) e, t[K]? = some e → IsNameOf cfg A K ∧ ∀ x ∈ e.neighborCosts, x.1 ∈ A) :
    ∀ (K : String) e, t'[K]? = some e → IsNameOf cfg A K ∧ ∀ x ∈ e.neighborCosts, x.1 ∈ A := by
  obtain ⟨entry, hentry, hget⟩ := removeLink_some ht
  intro K e he
  rw [hget] at he
  split at he
  · rename_i hK
    obtain rfl := Option.some.inj he
    obtain ⟨hname, hlist⟩ := h node entry hentry
    exact ⟨hK ▸ hname, fun x hx => hlist x (List.mem_of_mem_eraseP hx)⟩
  · exact h K e he

theorem TablesAmong.auditLoop (h : TablesAmong cfg A n) {now : ℕ} {flag : Bool} {res : Node × Bool}
    (hloop : n.neighborTable.toList.foldlM (auditEntry cfg now) (n, flag) = some res) :
    TablesAmong cfg A res.1 := by
  refine ⟨fun K e he => h.neighbor K e ((auditLoop_neighbors hloop K e).mp he).1, ?_⟩
  refine foldlM_invariant (fun st : Node × Bool => ∀ (K : String) e, st.1.lsTable[K]? = some e →
    IsNameOf cfg A K ∧ ∀ x ∈ e.neighborCosts, x.1 ∈ A) ?_ hloop h.entry
  intro s i t _ hs hst
  rcases auditEntry_cases hst with ⟨_, rfl⟩ | ⟨_, t₁, t₂, h₁, h₂, rfl⟩
  · exact hs
  · exact removeLink_among h₂ (removeLink_among h₁ hs)

/-- Every event keeps the two tables the routes are computed from. -/
theorem TablesAmong.handled (h : TablesAmong cfg A n) (main : cfg.mainAddress ∈ A)
    (he : EventAmong A e) (hh : Handled cfg n e n' out) : TablesAmong cfg A n' := by
  cases hh with
  | refresh payload known =>
    refine ⟨fun K e' he' => ?_, h.entry⟩
    obtain ⟨e₀, he₀, ha⟩ := (touch_entry _ known K e'.neighborAddr).mp ⟨e', he', rfl⟩
    rw [← ha]
    exact h.neighbor K e₀ he₀
  | discover payload fresh rt =>
    exact (h.addNeighbor main _ _ he.1 fresh).congr rfl rfl
  | stale _ _ => exact h
  | accept payload _ rt =>
    exact (h.storeEntry he.1 (he.2 _ payload) _).congr rfl rfl
  | quiet _ => exact h.congr rfl rfl
  | timeout _ loop _ =>
    have hsent : TablesAmong cfg A (sendHello cfg n).1 := h.congr rfl rfl
    exact (hsent.auditLoop loop).congr rfl rfl

theorem dijkstra_among (main : cfg.mainAddress ∈ A) {rt : RoutingTable}
    (hrt : dijkstra cfg n = some rt)
    (entry : ∀ (K : String) e, n.lsTable[K]? = some e → ∀ x ∈ e.neighborCosts, x.1 ∈ A)
    {K : String} (hK : K ∈ rt) : IsNameOf cfg A K := by
  have hlisted : ∀ (J : String) a, a ∈ getNeighbors n J → IsNameOf cfg A (cfg.reverseLookup a) := by
    intro J a ha
    unfold getNeighbors at ha
    split at ha
    · cases ha
    · rename_i e he
      obtain ⟨x, hx, rfl⟩ := List.mem_map.mp ha
      exact ⟨x.1, entry J e he x hx, rfl⟩
  obtain ⟨e, he⟩ := mem_iff_getElem?.mp hK
  exact dijkstra_entries (P := fun K _ => IsNameOf cfg A K)
    (fun current a _ _ _ _ ha _ _ _ _ => hlisted current a ha) ⟨_, main, rfl⟩
    (fun a _ _ ha _ _ => hlisted cfg.thisNode a ha) hrt K e he

theorem announcement_among (h : TablesAmong cfg A n) (main : cfg.mainAddress ∈ A) :
    MessageAmong A (announcement cfg n) := by
  refine ⟨main, fun neighborCosts hp x hx => ?_⟩
  obtain rfl := Payload.lsTableMsg.inj hp
  obtain ⟨i, hi, rfl⟩ := List.mem_map.mp hx
  exact (h.neighbor i.1 i.2 (mem_toList.mp hi)).2

theorem helloMessage_among (main : cfg.mainAddress ∈ A) : MessageAmong A (helloMessage cfg n) :=
  ⟨main, fun _ hp => by cases hp⟩

/-- What an event sends. -/
theorem TablesAmong.sends (h : TablesAmong cfg A n) (main : cfg.mainAddress ∈ A)
    (he : EventAmong A e) (hh : Handled cfg n e n' out) : ∀ x ∈ out, MessageAmong A x.2 := by
  cases hh with
  | refresh _ _ => exact fun x hx => by cases hx
  | discover payload fresh rt =>
    intro x hx
    rw [of_mem_broadcastPacket hx]
    exact announcement_among (h.addNeighbor main _ _ he.1 fresh) main
  | stale _ _ => exact fun x hx => by cases hx
  | accept payload _ rt =>
    intro x hx
    rw [of_mem_broadcastPacket hx]
    exact he
  | quiet _ =>
    intro x hx
    have hx' : x.2 = helloMessage cfg n := of_mem_broadcastPacket hx
    rw [hx']
    exact helloMessage_among main
  | timeout _ loop _ =>
    intro x hx
    rcases List.mem_append.mp hx with hx | hx
    · have hx' : x.2 = helloMessage cfg n := of_mem_broadcastPacket hx
      rw [hx']
      exact helloMessage_among main
    · rw [of_mem_broadcastPacket hx]
      have hsent : TablesAmong cfg A (sendHello cfg n).1 := h.congr rfl rfl
      exact announcement_among (hsent.auditLoop loop) main

/-- Every event keeps the tables among `A`, and sends nothing else. -/
theorem Among.handle (h : Among cfg A n) (main : cfg.mainAddress ∈ A) (he : EventAmong A e)
    (hh : Ls.handle Ls.dijkstra cfg n e = some (n', out)) :
    Among cfg A n' ∧ ∀ x ∈ out, MessageAmong A x.2 := by
  have hcases := handle_cases hh
  have htables := h.toTablesAmong.handled main he hcases
  refine ⟨⟨htables, fun K hK => ?_⟩, h.toTablesAmong.sends main he hcases⟩
  rcases handle_routes hh with ⟨_, m, hm, hls⟩ | ⟨_, hsame⟩
  · exact dijkstra_among main hm (fun J e he => (htables.entry J e (hls ▸ he)).2) hK
  · rw [hsame] at hK
    exact h.route K hK

theorem Among.lsControl {e : NodeEvent LSMessage Action} (h : Among cfg A n)
    (main : cfg.mainAddress ∈ A) (he : Brings (MessageAmong A) e)
    (hh : (lsControl Ls.dijkstra).handle cfg n e = some (n', out)) :
    Among cfg A n' ∧ ∀ x ∈ out, MessageAmong A x.2 := by
  rcases lsControl_cases hh with ⟨e₀, he₀, hh₀⟩ | ⟨_, hsent, rfl⟩
  · refine h.handle main ?_ hh₀
    cases e₀ with
    | recv now socket m =>
      rw [(he₀ now socket m).mpr rfl] at he
      exact he
    | auditHellos now => trivial
  · refine ⟨⟨h.toTablesAmong.congr rfl rfl, h.route⟩, fun x hx => ?_⟩
    rcases hsent with rfl | rfl
    · rw [of_mem_broadcastPacket hx]
      exact helloMessage_among main
    · rw [of_mem_broadcastPacket hx]
      exact announcement_among h.toTablesAmong main

end Among

/-- The network a simulation starts with, with any counters and ping timeouts. -/
def mediumStart {ι : Type} [DecidableEq ι] (sequenceNumber : ι → UInt32) (pingTimeout : ι → ℕ) :
    Medium ι (Host Node) (HostMessage LSMessage) :=
  .start fun i => ⟨doStart (sequenceNumber i), Pinger.start (pingTimeout i)⟩

/-- **The tables speak about `A` in every run**, when every node's main address
is in `A`. -/
theorem among_run {ι : Type} [DecidableEq ι] {config : ι → NodeConfig} {A : Set Ipv4Address}
    (main : ∀ i, (config i).mainAddress ∈ A) {sequenceNumber : ι → UInt32} {pingTimeout : ι → ℕ}
    {labs : List (MediumLabel ι (HostAct Action))} {s : Medium ι (Host Node) (HostMessage LSMessage)}
    (h : run (mediumStep (lsHost dijkstra) config) (mediumStart sequenceNumber pingTimeout) labs =
      some s) (i : ι) : Among (config i) A (s.node i).control :=
  Holds.hosts (N := fun i n => Among (config i) A n)
    (fun i _ _ _ _ hn he hh => hn.lsControl (main i) he hh)
    (fun _ _ _ hn => ⟨hn.toTablesAmong.congr rfl rfl, hn.route⟩)
    (fun i => among_doStart (config i) A (sequenceNumber i)) h i

end Ls

/-! ## Distance vector -/

namespace Dv

structure Among (cfg : NodeConfig) (A : Set Ipv4Address) (n : Node) : Prop where
  inv : Inv cfg n
  dv : ∀ K : String, K ∈ n.dv → IsNameOf cfg A K
  neighbor : ∀ (K : String) e, n.neighborTable[K]? = some e →
    cfg.reverseLookup e.neighborAddr = K ∧ e.neighborAddr ∈ A

def MessageAmong (A : Set Ipv4Address) (m : DVMessage) : Prop :=
  m.originatorAddress ∈ A ∧ ∀ x ∈ m.neighborCosts, x.1 ∈ A

/-- A message that comes in speaks about `A`. -/
def EventAmong (A : Set Ipv4Address) : Event → Prop
  | .recv _ _ m => MessageAmong A m
  | .auditHellos _ => True

/-- `K` is a key of one of the tables, or of a vector stored for a neighbour. -/
def IsKey (n : Node) (K : String) : Prop :=
  K ∈ n.dv ∨ K ∈ n.costs ∨ K ∈ n.neighborTable ∨
    (∃ (N : String) (e : NeighborTableEntry), n.neighborTable[N]? = some e ∧ K ∈ e.dv) ∨
    K ∈ n.routingTable

/-- What a node must know of the addresses `A`: a name of one is resolved to
one. -/
structure Resolves (cfg : NodeConfig) (A : Set Ipv4Address) : Prop where
  main : cfg.mainAddress ∈ A
  name : ∀ K, IsNameOf cfg A K → cfg.resolveName K ∈ A

section Among
variable {cfg : NodeConfig} {A : Set Ipv4Address} {n n' : Node} {e : Event} {out : Packets}

theorem among_doStart (main : cfg.mainAddress ∈ A) (sequenceNumber : UInt32) :
    Among cfg A (doStart cfg sequenceNumber) := by
  refine ⟨inv_doStart cfg sequenceNumber, fun K hK => ?_, fun K e he => ?_⟩
  · simp only [doStart, Std.ExtTreeMap.mem_insertIfNew, Std.ExtTreeMap.not_mem_empty, or_false,
      compare_eq_iff_eq] at hK
    exact ⟨_, main, hK⟩
  · simp [doStart] at he

theorem Among.isKey (h : Among cfg A n) (main : cfg.mainAddress ∈ A) {K : String} (hK : IsKey n K) :
    IsNameOf cfg A K := by
  have hneighbor : ∀ (K : String) e, n.neighborTable[K]? = some e → IsNameOf cfg A K := by
    intro K e he
    obtain ⟨hname, ha⟩ := h.neighbor K e he
    exact ⟨e.neighborAddr, ha, hname⟩
  rcases hK with hK | hK | hK | ⟨N, e, he, hK⟩ | hK
  · exact h.dv K hK
  · obtain ⟨c, hc⟩ := mem_iff_getElem?.mp hK
    obtain ⟨e, he⟩ := h.inv.tables.costsEntry K c hc
    exact hneighbor K e he
  · obtain ⟨e, he⟩ := mem_iff_getElem?.mp hK
    exact hneighbor K e he
  · exact h.dv K (h.inv.tables.listed N e K he hK)
  · by_cases hself : K = cfg.thisNode
    · exact ⟨_, main, hself.symm⟩
    · refine h.dv K ?_
      by_contra hnot
      have hnone : n.dv[K]? = none := by
        by_contra hne
        exact hnot (mem_iff_getElem?.mpr (Option.ne_none_iff_exists'.mp hne))
      obtain ⟨rte, hrte⟩ := mem_iff_getElem?.mp hK
      rw [h.inv.unknown K hnone hself] at hrte
      cases hrte

theorem receivedVector_among {neighborCosts : List (Ipv4Address × UInt32)}
    (h : ∀ x ∈ neighborCosts, x.1 ∈ A) {K : String} (hK : K ∈ receivedVector cfg neighborCosts) :
    IsNameOf cfg A K := by
  obtain ⟨v, hv⟩ := mem_iff_getElem?.mp hK
  rcases of_getElem?_foldl_insert hv with ⟨x, hx, hname, _⟩ | hv
  · exact ⟨x.1, h x hx, hname⟩
  · simp at hv

/-- Tables that speak about `A`, with the destinations `known`. -/
structure TablesAmong (cfg : NodeConfig) (A : Set Ipv4Address) (m : Node) (known : DistanceVector) :
    Prop where
  dv : ∀ K : String, K ∈ known → IsNameOf cfg A K
  neighbor : ∀ (K : String) e, m.neighborTable[K]? = some e →
    cfg.reverseLookup e.neighborAddr = K ∧ e.neighborAddr ∈ A

theorem Among.addNeighbor (h : Among cfg A n) {a : Ipv4Address} (ha : a ∈ A)
    (fresh : n.neighborTable[cfg.reverseLookup a]? = none) (now socket : ℕ) :
    TablesAmong cfg A (Dv.addNeighbor cfg now socket a n)
      (addUnknown (Dv.addNeighbor cfg now socket a n).dv ∅) := by
  refine ⟨fun K hK => ?_, fun K e he => ?_⟩
  · rcases mem_addUnknown.mp hK with hK | hK
    · simp only [Dv.addNeighbor, Std.ExtTreeMap.mem_insertIfNew, compare_eq_iff_eq] at hK
      rcases hK with hK | hK
      · exact ⟨a, ha, hK⟩
      · exact h.dv K hK
    · simp at hK
  · rw [addNeighbor_entry fresh] at he
    split at he
    · rename_i hK
      obtain rfl := Option.some.inj he
      exact ⟨hK, ha⟩
    · exact h.neighbor K e he

theorem Among.storeVector (h : Among cfg A n) {a : Ipv4Address} (ha : a ∈ A)
    {newdv : DistanceVector} (hnew : ∀ K : String, K ∈ newdv → IsNameOf cfg A K) (now socket : ℕ) :
    TablesAmong cfg A (Dv.storeVector cfg now socket a newdv n)
      (addUnknown (Dv.storeVector cfg now socket a newdv n).dv newdv) := by
  refine ⟨fun K hK => ?_, fun K e he => ?_⟩
  · rcases mem_addUnknown.mp hK with hK | hK
    · exact h.dv K hK
    · exact hnew K hK
  · obtain ⟨entry, _, hfrom, hget⟩ := storeVector_entry cfg now socket a newdv n K
    rw [hget] at he
    split at he
    · rename_i hK
      obtain rfl := Option.some.inj he
      rcases hfrom with ⟨_, hentry, _⟩ | ⟨old, hold, rfl⟩
      · rw [hentry]
        exact ⟨hK, ha⟩
      · exact h.neighbor K old (hK ▸ hold)
    · exact h.neighbor K e he

theorem Among.audited (h : Among cfg A n) {now : ℕ} {m : Node}
    (audited : Audited cfg now (sendHello cfg n).1 m) :
    TablesAmong cfg A m (addUnknown m.dv m.dv) := by
  refine ⟨fun K hK => ?_, fun K e he => h.neighbor K e (audited.entry he).1⟩
  rw [mem_addUnknown, or_self] at hK
  by_cases hx : Expires cfg now n K
  · obtain ⟨e, he, _⟩ := hx
    obtain ⟨hname, ha⟩ := h.neighbor K e he
    exact ⟨e.neighborAddr, ha, hname⟩
  · rw [mem_iff_getElem?, (audited.kept K hx).2.2, ← mem_iff_getElem?] at hK
    exact h.dv K hK

theorem BeforeBF.among {m : Node} {ndv : DistanceVector} (hb : BeforeBF cfg n e m ndv)
    (h : Among cfg A n) (he : EventAmong A e) : TablesAmong cfg A m (addUnknown m.dv ndv) := by
  cases hb with
  | hello _ fresh => exact h.addNeighbor he.1 fresh _ _
  | dvTable payload =>
    have hlist := he.2
    rw [DVMessage.neighborCosts, payload] at hlist
    exact h.storeVector he.1 (fun K hK => receivedVector_among hlist hK) _ _
  | audit audited _ => exact h.audited audited

theorem helloPackets_among (main : cfg.mainAddress ∈ A) {x : Ipv4Address × DVMessage}
    (hx : x ∈ helloPackets cfg n e) : MessageAmong A x.2 := by
  cases e with
  | recv _ _ _ => cases hx
  | auditHellos _ =>
    obtain ⟨j, _, rfl⟩ := List.mem_map.mp hx
    exact ⟨main, fun y hy => by cases hy⟩

theorem Among.dvRound (h : Among cfg A n) (resolves : Resolves cfg A) {sequenceNumber : UInt32}
    {x : Ipv4Address × DVMessage} (hx : x ∈ Dv.dvRound cfg n sequenceNumber) : MessageAmong A x.2 := by
  obtain ⟨horigin, hlist⟩ := of_mem_dvRound hx
  refine ⟨horigin ▸ resolves.main, fun y hy => ?_⟩
  obtain ⟨K, v, hK, hres, _⟩ := hlist y hy
  rw [hres]
  exact resolves.name K (h.dv K (mem_iff_getElem?.mpr ⟨v, hK⟩))

/-- Every event keeps the tables among `A`, and sends nothing else. -/
theorem Among.handle (h : Among cfg A n) (resolves : Resolves cfg A) (he : EventAmong A e)
    (hh : Dv.handle cfg n e = some (n', out)) :
    Among cfg A n' ∧ ∀ x ∈ out, MessageAmong A x.2 := by
  have hinv : Inv cfg n' := inv_step (e := e) h.inv (by rw [step, hh]; rfl)
  rcases handle_cases h.inv.tables.keyed hh with ⟨hs, _, rfl⟩ | ⟨m, ndv, hb, hrec, rounds, rfl, _⟩
  · refine ⟨⟨hinv, hs.dv ▸ h.dv, fun K e' he' => ?_⟩, fun x hx => helloPackets_among resolves.main hx⟩
    obtain ⟨e₀, he₀, hcore⟩ := hs.entry he'
    have haddr : e'.neighborAddr = e₀.neighborAddr := congrArg (·.1) hcore
    rw [haddr]
    exact h.neighbor K e₀ he₀
  · have htables := hb.among h he
    have hn' : Among cfg A n' := by
      refine ⟨hinv, fun K hK => htables.dv K (hrec.mem_dv.mp hK), ?_⟩
      rw [hrec.neighborTable]
      exact htables.neighbor
    refine ⟨hn', fun x hx => ?_⟩
    rcases List.mem_append.mp hx with hx | hx
    · exact helloPackets_among resolves.main hx
    · obtain ⟨_, _, hx⟩ := List.mem_flatMap.mp hx
      exact hn'.dvRound resolves hx

theorem Among.dvControl {e : NodeEvent DVMessage Action} (h : Among cfg A n)
    (resolves : Resolves cfg A) (he : Brings (MessageAmong A) e)
    (hh : Dv.dvControl.handle cfg n e = some (n', out)) :
    Among cfg A n' ∧ ∀ x ∈ out, MessageAmong A x.2 := by
  obtain ⟨e₀, hh₀, he₀⟩ := dvControl_handle hh
  refine h.handle resolves ?_ hh₀
  cases e₀ with
  | recv now socket m =>
    rw [(he₀ now socket m).mpr rfl] at he
    exact he
  | auditHellos now => trivial

end Among

/-- The network a simulation starts with, with any counters and ping timeouts. -/
def mediumStart {ι : Type} [DecidableEq ι] (config : ι → NodeConfig) (sequenceNumber : ι → UInt32)
    (pingTimeout : ι → ℕ) : Medium ι (Host Node) (HostMessage DVMessage) :=
  .start fun i => ⟨doStart (config i) (sequenceNumber i), Pinger.start (pingTimeout i)⟩

/-- **The tables speak about `A` in every run**, when every node resolves the
names of `A`. -/
theorem among_run {ι : Type} [DecidableEq ι] {config : ι → NodeConfig} {A : Set Ipv4Address}
    (resolves : ∀ i, Resolves (config i) A) {sequenceNumber : ι → UInt32} {pingTimeout : ι → ℕ}
    {labs : List (MediumLabel ι (HostAct Action))} {s : Medium ι (Host Node) (HostMessage DVMessage)}
    (h : run (mediumStep dvHost config) (mediumStart config sequenceNumber pingTimeout) labs = some s)
    (i : ι) : Among (config i) A (s.node i).control :=
  Holds.hosts (N := fun i n => Among (config i) A n)
    (fun i _ _ _ _ hn he hh => hn.dvControl (resolves i) he hh)
    (fun _ n _ hn => ⟨Inv.same (n := n) ⟨rfl, rfl, rfl, fun _ => rfl⟩ hn.inv, hn.dv, hn.neighbor⟩)
    (fun i => among_doStart (resolves i).main (sequenceNumber i)) h i

end Dv

/-! ## With the maps of `main` -/

namespace SimulatorMain.RealNodes

variable (R : RealNodes)

/-- The addresses of all nodes, their loopbacks aside. -/
def allAddresses : Set Ipv4Address := {a | ∃ i, a ∈ R.addresses i}

/-- `K` is a key of a table of some node in some run of a network of these
nodes, whatever it is that carries their messages. -/
def KeyUsed (K : String) : Prop :=
  (∃ sequenceNumber pingTimeout labs s i,
    run (mediumStep (Ls.lsHost Ls.dijkstra) R.config) (Ls.mediumStart sequenceNumber pingTimeout)
      labs = some s ∧ Ls.IsKey (s.node i).control K) ∨
  ∃ sequenceNumber pingTimeout labs s i,
    run (mediumStep Dv.dvHost R.config) (Dv.mediumStart R.config sequenceNumber pingTimeout)
      labs = some s ∧ Dv.IsKey (s.node i).control K

variable {R}

theorem isNameOf_iff (k : Fin R.totalNodes) {K : String} :
    IsNameOf (R.config k) R.allAddresses K ↔ ∃ i, R.name i = K := by
  constructor
  · rintro ⟨a, ⟨i, ha⟩, rfl⟩
    exact ⟨i, (reverseLookup_address k ha).symm⟩
  · rintro ⟨i, rfl⟩
    exact ⟨R.firstAddress i, ⟨i, firstAddress_mem i⟩, reverseLookup_address k (firstAddress_mem i)⟩

theorem main_mem (k : Fin R.totalNodes) : (R.config k).mainAddress ∈ R.allAddresses := by
  rw [config_mainAddress]
  exact ⟨k, firstAddress_mem k⟩

theorem resolves (k : Fin R.totalNodes) : Dv.Resolves (R.config k) R.allAddresses := by
  refine ⟨main_mem k, fun K hK => ?_⟩
  obtain ⟨i, rfl⟩ := (isNameOf_iff k).mp hK
  rw [resolveName_name]
  exact ⟨i, firstAddress_mem i⟩

/-- The keys in use are the names of the nodes. -/
theorem keyUsed_iff {K : String} : R.KeyUsed K ↔ ∃ i, R.name i = K := by
  constructor
  · rintro (⟨q, t, labs, s, i, hrun, hK⟩ | ⟨q, t, labs, s, i, hrun, hK⟩)
    · exact (isNameOf_iff i).mp ((Ls.among_run main_mem hrun i).isKey hK)
    · exact (isNameOf_iff i).mp ((Dv.among_run resolves hrun i).isKey (main_mem i) hK)
  · rintro ⟨i, rfl⟩
    refine Or.inr ⟨fun _ => 0, fun _ => 0, [], _, i, rfl, Or.inl ?_⟩
    have hself : (R.config i).thisNode = R.name i := by
      rw [NodeConfig.thisNode, config_mainAddress, reverseLookup_address i (firstAddress_mem i)]
    simp [Dv.mediumStart, Medium.start, Dv.doStart, hself]

/-- **Names and addresses resolve back and forth**, with the maps that `main`
gives every node `k`. -/
theorem names_resolve (R : RealNodes) (k : Fin R.totalNodes) :
    (∀ i, (R.config k).resolveNodeIpAddress (R.number i) = R.firstAddress i) ∧
    (∀ i, ∀ a ∈ R.addresses i, (R.config k).reverseLookup a = toString (i : ℕ)) ∧
    (∀ a ∈ R.allAddresses, (R.config k).reverseLookup
      ((R.config k).resolveNodeIpAddress (atoi ((R.config k).reverseLookup a))) =
        (R.config k).reverseLookup a) ∧
    (∀ i j, ∀ a ∈ R.addresses i, ∀ b ∈ R.addresses j,
      (R.config k).reverseLookup a = (R.config k).reverseLookup b ↔ i = j) ∧
    Set.BijOn R.name Set.univ {K | R.KeyUsed K} := by
  refine ⟨resolveNodeIpAddress_number k, fun i a ha => reverseLookup_address k ha, ?_, ?_, ?_⟩
  · rintro a ⟨i, ha⟩
    rw [reverseLookup_address k ha, atoi_name, resolveNodeIpAddress_number,
      reverseLookup_address k (firstAddress_mem i)]
  · intro i j a ha b hb
    rw [reverseLookup_address k ha, reverseLookup_address k hb, name_inj]
  · refine ⟨fun i _ => keyUsed_iff.mpr ⟨i, rfl⟩, fun i _ j _ h => name_inj.mp h, fun K hK => ?_⟩
    obtain ⟨i, hi⟩ := keyUsed_iff.mp hK
    exact ⟨i, Set.mem_univ i, hi⟩

end SimulatorMain.RealNodes

end Ns3Routing
