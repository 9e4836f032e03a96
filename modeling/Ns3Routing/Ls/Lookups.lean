import Ns3Routing.Ls.Dijkstra
import Ns3Routing.Ls.OwnEntry

/-! # Lookups that cannot fail

`Dijkstra` and `AuditHellos` use what `find` returns without a check. Most of
the time that goes wrong: an announcement can come in before any hello, a
node with two neighbours looks up one whose announcement it does not have,
and after a partition the main loop looks for nodes that nobody reaches.
`LookupsReady` is when the lookups of one event succeed, and a run of such
events is defined to its end. -/

namespace Ns3Routing.Ls

open Lib

/-- The addresses of the neighbours that have timed out. -/
def expiredAddrs (cfg : NodeConfig) (now : Nat) (l : List (String × NeighborTableEntry)) :
    List Ipv4Address :=
  (l.filter fun i => i.2.expired cfg now).map (·.2.neighborAddr)

/-- The list in the entry of `K` after the neighbour `a` has timed out. -/
def unlink (cfg : NodeConfig) (K : String) (neighborCosts : NbrCostsVec) (a : Ipv4Address) :
    NbrCostsVec :=
  let own := if cfg.thisNode = K then removeLSTableLink a neighborCosts else neighborCosts
  if cfg.reverseLookup a = K then removeLSTableLink cfg.mainAddress own else own

/-- An entry after the neighbours with the addresses `addrs` have timed
out. -/
def unlinkAll (cfg : NodeConfig) (K : String) (addrs : List Ipv4Address) (entry : LSTableEntry) :
    LSTableEntry :=
  { entry with neighborCosts := addrs.foldl (unlink cfg K) entry.neighborCosts }

/-- The tables without the neighbours that have timed out. -/
def withoutExpired (cfg : NodeConfig) (now : Nat) (n : Node) : Node :=
  { n with
    neighborTable := n.neighborTable.filter fun _ e => !e.expired cfg now
    lsTable := n.lsTable.map fun K => unlinkAll cfg K (expiredAddrs cfg now n.neighborTable.toList) }

/-- `Dijkstra` is ready for the tables the event leaves it, and `AuditHellos`
finds the entries it edits. -/
def LookupsReady (cfg : NodeConfig) (n : Node) : Event → Prop
  | .recv now socket lsMessage =>
    match lsMessage.payload with
    | .helloReq _ _ =>
      n.neighborTable[cfg.reverseLookup lsMessage.originatorAddress]? = none →
        Ready cfg (addNeighbor cfg now socket lsMessage n)
    | .lsTableMsg neighborCosts =>
      isNew n (cfg.reverseLookup lsMessage.originatorAddress) lsMessage.sequenceNumber = true →
        Ready cfg (storeEntry (cfg.reverseLookup lsMessage.originatorAddress) neighborCosts
          lsMessage.sequenceNumber n)
  | .auditHellos now =>
    (∀ (K : String) e, n.neighborTable[K]? = some e → e.expired cfg now = true →
      cfg.thisNode ∈ n.lsTable ∧ cfg.reverseLookup e.neighborAddr ∈ n.lsTable) ∧
    ((∃ K, Expires cfg now n K) → Ready cfg (withoutExpired cfg now n))

section Audit
variable {cfg : NodeConfig} {now : Nat}

theorem removeLink_exists {node : String} {a : Ipv4Address} {t : NameMap LSTableEntry}
    (h : node ∈ t) : ∃ t', removeLink node a t = some t' ∧
      ∀ K : String, t'[K]? = (t[K]?).map fun entry =>
        { entry with neighborCosts :=
            if node = K then removeLSTableLink a entry.neighborCosts else entry.neighborCosts } := by
  obtain ⟨entry, hentry⟩ := mem_iff_getElem?.mp h
  refine ⟨_, by simp only [removeLink, hentry]; rfl, fun K => ?_⟩
  rw [getElem?_insert_eq]
  by_cases hK : node = K
  · subst hK
    rw [if_pos rfl, hentry]
    simp
  · simp [hK]

theorem auditEntry_expired {st : Node × Bool} {i : String × NeighborTableEntry}
    (hx : i.2.expired cfg now = true) (hself : cfg.thisNode ∈ st.1.lsTable)
    (hentry : cfg.reverseLookup i.2.neighborAddr ∈ st.1.lsTable) :
    ∃ t, auditEntry cfg now st i =
        some ({ st.1 with lsTable := t, neighborTable := st.1.neighborTable.erase i.1 }, true) ∧
      ∀ K : String, t[K]? = (st.1.lsTable[K]?).map (unlinkAll cfg K [i.2.neighborAddr]) := by
  obtain ⟨t₁, ht₁, hget₁⟩ := removeLink_exists (a := i.2.neighborAddr) hself
  have hmem₁ : cfg.reverseLookup i.2.neighborAddr ∈ t₁ := by
    obtain ⟨entry, hget⟩ := mem_iff_getElem?.mp hentry
    exact mem_iff_getElem?.mpr ⟨_, by rw [hget₁, hget]; rfl⟩
  obtain ⟨t₂, ht₂, hget₂⟩ := removeLink_exists (a := cfg.mainAddress) hmem₁
  refine ⟨t₂, ?_, fun K => ?_⟩
  · rw [auditEntry, if_pos hx, ht₁]
    simp only [Option.bind_eq_bind, Option.bind_some, ht₂]
    rfl
  · rw [hget₂, hget₁, Option.map_map]
    rfl

/-- The loop of `AuditHellos` over the rest `l` of the table. -/
theorem auditLoop_exists {l : List (String × NeighborTableEntry)} (st : Node × Bool)
    (hl : ∀ i ∈ l, i.2.expired cfg now = true →
      cfg.thisNode ∈ st.1.lsTable ∧ cfg.reverseLookup i.2.neighborAddr ∈ st.1.lsTable) :
    ∃ res, l.foldlM (auditEntry cfg now) st = some res ∧
      ∀ K : String, res.1.lsTable[K]? =
        (st.1.lsTable[K]?).map (unlinkAll cfg K (expiredAddrs cfg now l)) := by
  induction l generalizing st with
  | nil =>
    have hid : ∀ K, unlinkAll cfg K [] = id := fun _ => rfl
    exact ⟨st, rfl, fun K => by simp [expiredAddrs, hid]⟩
  | cons i l ih =>
    have hrest := fun j hj => hl j (List.mem_cons_of_mem i hj)
    cases hx : i.2.expired cfg now with
    | false =>
      obtain ⟨res, hres, hls⟩ := ih st hrest
      have hfirst : auditEntry cfg now st i = some st := if_neg (by simp [hx])
      refine ⟨res, by simp [List.foldlM_cons, hfirst, hres], ?_⟩
      simpa [expiredAddrs, hx] using hls
    | true =>
      obtain ⟨hself, hentry⟩ := hl i List.mem_cons_self hx
      obtain ⟨t, hfirst, hget⟩ := auditEntry_expired hx hself hentry
      have hmem : ∀ K : String, K ∈ st.1.lsTable → K ∈ t := by
        intro K hK
        obtain ⟨entry, he⟩ := mem_iff_getElem?.mp hK
        exact mem_iff_getElem?.mpr ⟨_, by rw [hget, he]; rfl⟩
      obtain ⟨res, hres, hls⟩ := ih
        ({ st.1 with lsTable := t, neighborTable := st.1.neighborTable.erase i.1 }, true)
        fun j hj hxj => ⟨hmem _ (hrest j hj hxj).1, hmem _ (hrest j hj hxj).2⟩
      refine ⟨res, by simp [List.foldlM_cons, hfirst, hres], fun K => ?_⟩
      rw [hls, hget, Option.map_map]
      simp only [expiredAddrs, List.filter_cons, hx, if_true, List.map_cons]
      rfl

/-- The tables the loop leaves are those without the timed-out neighbours. -/
theorem auditLoop_withoutExpired {n : Node} (hk : Keyed cfg n)
    (h : ∀ (K : String) e, n.neighborTable[K]? = some e → e.expired cfg now = true →
      cfg.thisNode ∈ n.lsTable ∧ cfg.reverseLookup e.neighborAddr ∈ n.lsTable) :
    ∃ m flag, n.neighborTable.toList.foldlM (auditEntry cfg now) ((sendHello cfg n).1, false) =
        some (m, flag) ∧ m.lsTable = (withoutExpired cfg now n).lsTable ∧
      m.neighborTable = (withoutExpired cfg now n).neighborTable := by
  obtain ⟨⟨m, flag⟩, hloop, hls⟩ := auditLoop_exists ((sendHello cfg n).1, false)
    (l := n.neighborTable.toList) fun i hi hx => h i.1 i.2 (mem_toList.mp hi) hx
  have audited := auditLoop_spec (n := (sendHello cfg n).1) hk hloop
  refine ⟨m, flag, hloop, Std.ExtTreeMap.ext_getElem? fun K => ?_,
    Std.ExtTreeMap.ext_getElem? fun K => Option.ext fun e => ?_⟩
  · rw [hls K, withoutExpired, Std.ExtTreeMap.getElem?_map]; rfl
  · rw [audited.neighbors, withoutExpired, Std.ExtTreeMap.getElem?_filter', Option.filter_eq_some_iff]
    have hsame : (sendHello cfg n).1.neighborTable = n.neighborTable := rfl
    rw [hsame]
    refine and_congr_right fun he => ?_
    rw [Bool.not_eq_true']
    constructor
    · intro hno
      rw [← Bool.not_eq_true]
      exact fun hx => hno ⟨e, he, hx⟩
    · intro hx hx
      obtain ⟨e', he', hx'⟩ := hx
      rw [hsame, he] at he'
      rw [← Option.some.inj he', hx] at hx'
      cases hx'

end Audit

section Progress
variable {cfg : NodeConfig} {n : Node} {e : Event}

theorem Ready.congr {n' : Node} (h : Ready cfg n) (hls : n'.lsTable = n.lsTable)
    (hnt : n'.neighborTable = n.neighborTable) : Ready cfg n' := by
  obtain ⟨c, nt, ls, rt⟩ := n
  obtain ⟨c', nt', ls', rt'⟩ := n'
  dsimp only at hls hnt
  subst hls hnt
  exact ⟨h.self, h.neighbors, h.costs, h.total, h.reachable, h.listed⟩

theorem Ready.runDijkstra (h : Ready cfg n) : ∃ n', Ls.runDijkstra dijkstra cfg n = some n' := by
  obtain ⟨rt, hrt, _⟩ := dijkstra_spec h.searchable
  exact ⟨_, by rw [Ls.runDijkstra, hrt]; rfl⟩

/-- An event whose lookups are ready is handled. -/
theorem LookupsReady.handle (hk : Keyed cfg n) (h : LookupsReady cfg n e) :
    ∃ res, Ls.handle dijkstra cfg n e = some res := by
  cases e with
  | recv now socket lsMessage =>
    simp only [LookupsReady] at h
    simp only [Ls.handle, recvLSMessage]
    cases hp : lsMessage.payload with
    | helloReq _ _ =>
      simp only [hp] at h
      simp only [processHelloReq]
      cases hnt : n.neighborTable[cfg.reverseLookup lsMessage.originatorAddress]? with
      | some e => exact ⟨_, rfl⟩
      | none =>
        obtain ⟨n', hn'⟩ := (h hnt).runDijkstra
        exact ⟨_, by rw [hn']; rfl⟩
    | lsTableMsg neighborCosts =>
      simp only [hp] at h
      simp only [processLSTableMessage]
      by_cases hnew : isNew n (cfg.reverseLookup lsMessage.originatorAddress)
          lsMessage.sequenceNumber = true
      · obtain ⟨n', hn'⟩ := (h hnew).runDijkstra
        exact ⟨_, by rw [if_pos hnew, hn']; rfl⟩
      · exact ⟨_, by rw [if_neg hnew]⟩
  | auditHellos now =>
    obtain ⟨hentries, hready⟩ := h
    obtain ⟨m, flag, hloop, hls, hnt⟩ := auditLoop_withoutExpired hk hentries
    have hflag := (auditLoop_flag_iff (n := n) rfl hloop).1
    simp only [Ls.handle, auditHellos]
    cases flag with
    | false => exact ⟨_, Option.bind_eq_some_iff.mpr ⟨_, hloop, rfl⟩⟩
    | true =>
      obtain ⟨m', hm'⟩ := ((hready (hflag.mp rfl)).congr hls hnt).runDijkstra
      exact ⟨_, Option.bind_eq_some_iff.mpr ⟨_, hloop, by simp only [hm']; rfl⟩⟩

end Progress

/-- **When no lookup fails.** A run in which the lookups of every event are
ready is defined to its end. -/
theorem lookups_succeed (cfg : NodeConfig) (sequenceNumber : UInt32) (es : List Event)
    (h : Allows (step dijkstra cfg) (LookupsReady cfg) (doStart sequenceNumber) es) :
    ∃ n, run (step dijkstra cfg) (doStart sequenceNumber) es = some n := by
  obtain ⟨n, hn, _⟩ := run_exists (P := Keyed cfg) (by intro K e he; simp [doStart] at he)
    (fun n e hk hready => by
      obtain ⟨res, hres⟩ := hready.handle hk
      have hst : step dijkstra cfg n e = some res.1 := by rw [step, hres]; rfl
      exact ⟨res.1, hst, keyed_step hk hst⟩) h
  exact ⟨n, hn⟩

/-! ## Examples -/

/-- The hello and the first announcement of node 1. -/
def firstHello : LSMessage := ⟨5, 1, 20, .helloReq 10 "hello"⟩

def firstAnnouncement : LSMessage := ⟨6, 16, 20, .lsTableMsg [(10, 1)]⟩

/-- Node 0 after the hello of node 1. -/
def heardNode1 : Node := addNeighbor sampleConfig 0 0 firstHello (doStart 100)

/-- Node 0 after the hello and the announcement of node 1. -/
def knowsNode1 : Node := storeEntry "1" [(10, 1)] 6 heardNode1

/-- Costs in a table that can be looked through. -/
theorem one_le_of_toList {n : Node}
    (h : ∀ x ∈ n.lsTable.toList, x.2.neighborCosts.all (1 ≤ ·.2) = true) {K L : String} {c : ℕ}
    (hlink : Link cfg n K L c) : 1 ≤ c := by
  refine hlink.one_le fun K entry hK y hy => ?_
  simpa using List.all_eq_true.mp (h (K, entry) (mem_toList.mpr hK)) y hy

theorem heardNode1_ready : Ready sampleConfig heardNode1 := by
  have hkeys : heardNode1.lsTable.keys = ["0"] := by decide +kernel
  have hmem : ∀ K : String, K ∈ heardNode1.lsTable ↔ K = "0" := by
    intro K
    rw [← Std.ExtTreeMap.mem_keys, hkeys, List.mem_singleton]
  have hself : sampleConfig.thisNode = "0" := by decide +kernel
  refine ⟨by decide +kernel, ?_, ?_, by decide +kernel, ?_, ?_⟩
  · have hnt : ∀ K ∈ (getNeighbors heardNode1 sampleConfig.thisNode).map sampleConfig.reverseLookup,
        K ∈ heardNode1.neighborTable := by decide +kernel
    intro K hK
    exact hnt K (List.mem_map.mpr hK)
  · intro K L c hlink
    exact one_le_of_toList (by decide +kernel) hlink
  · intro K hK
    rw [(hmem K).mp hK, hself]
    exact ⟨0, .refl⟩
  · -- nothing comes before the node's own entry
    intro K L M hL hx hlists
    obtain ⟨c, d, hc, hd, hbefore⟩ := hx
    obtain rfl := (hmem L).mp hL
    obtain rfl := (hmem K).mp hlists.mem
    rcases hbefore with hlt | ⟨_, hlt⟩
    · exact absurd (hc.unique hd) (by omega)
    · exact absurd hlt (lt_irrefl _)

theorem knowsNode1_ready : Ready sampleConfig knowsNode1 := by
  have hkeys : knowsNode1.lsTable.keys = ["0", "1"] := by decide +kernel
  have hmem : ∀ K : String, K ∈ knowsNode1.lsTable ↔ K ∈ ["0", "1"] := by
    intro K
    rw [← Std.ExtTreeMap.mem_keys, hkeys]
  have hself : sampleConfig.thisNode = "0" := by decide +kernel
  refine ⟨by decide +kernel, ?_, ?_, by decide +kernel, ?_, ?_⟩
  · have hnt : ∀ K ∈ (getNeighbors knowsNode1 sampleConfig.thisNode).map sampleConfig.reverseLookup,
        K ∈ knowsNode1.neighborTable := by decide +kernel
    intro K hK
    exact hnt K (List.mem_map.mpr hK)
  · intro K L c hlink
    exact one_le_of_toList (by decide +kernel) hlink
  · have hlink : Link sampleConfig knowsNode1 "0" "1" 1 :=
      ⟨by decide, ⟨20, by decide +kernel, by decide +kernel⟩, 1, by decide +kernel, rfl⟩
    intro K hK
    rw [hself]
    rcases List.mem_cons.mp ((hmem K).mp hK) with rfl | hK
    · exact ⟨0, .refl⟩
    · rw [List.mem_singleton.mp hK]
      exact ⟨1, .single hlink⟩
  · have hlisted : ∀ K ∈ ["0", "1"],
        ∀ M ∈ (getNeighbors knowsNode1 K).map sampleConfig.reverseLookup,
          M ∈ knowsNode1.lsTable := by decide +kernel
    intro K L M _ _ hlists
    exact hlisted K ((hmem K).mp hlists.mem) M (List.mem_map.mpr hlists)

theorem lookups_succeed_sample :
    ∃ n, run (step dijkstra sampleConfig) (doStart 100)
      [.recv 0 0 firstHello, .recv 1 0 firstAnnouncement] = some n := by
  refine lookups_succeed sampleConfig 100 _ (allows_cons (fun _ => heardNode1_ready) ?_)
  intro n hn
  refine allows_cons (fun _ => ?_) fun _ _ pre e t hp _ => ?_
  · obtain ⟨⟨n', out⟩, hh, rfl⟩ := Option.map_eq_some_iff.mp hn
    have hname : sampleConfig.reverseLookup firstAnnouncement.originatorAddress = "1" := by
      decide +kernel
    rw [hname]
    cases handle_cases hh with
    | refresh _ known => simp [doStart] at known
    | discover _ _ _ => exact knowsNode1_ready.congr rfl rfl
    | stale payload _ => cases payload
    | accept payload _ _ => cases payload
  · rw [List.prefix_nil] at hp
    exact absurd hp (by simp)

/-- Node 0 hears both its neighbours before the first announcement comes in:
then `GetMinCostNode` looks up node 2, which has no entry yet. -/
theorem lookup_fails :
    ¬ ∀ es, ∃ n, run (step dijkstra sampleConfig) (doStart 100) es = some n := by
  intro h
  obtain ⟨n, hn⟩ := h [.recv 0 0 firstHello, .recv 0 1 ⟨7, 1, 30, .helloReq 10 "hello"⟩,
    .recv 1 0 firstAnnouncement]
  have hnone : (run (step dijkstra sampleConfig) (doStart 100)
      [.recv 0 0 firstHello, .recv 0 1 ⟨7, 1, 30, .helloReq 10 "hello"⟩,
        .recv 1 0 firstAnnouncement]).isNone = true := by decide +kernel
  rw [hn] at hnone
  cases hnone

end Ns3Routing.Ls
