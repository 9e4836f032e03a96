import Ns3Routing.Dv.Convergence
import Ns3Routing.Dv.Entries
import Ns3Routing.Ls.Informed
import Ns3Routing.Setup
import Ns3Routing.Verdicts

/-! # Dumped routing tables

`DUMP ROUTES` has every entry of the routing table checked, the node's own
entry included, and as the number of the next hop it passes what the entry has
there, the address. The result files have a line for every other node, with
the node number of the next hop. What the two components agree on is enough
to tell when a table of shortest paths is judged correct
(`dumpRoutes_correct_iff`). -/

namespace Ns3Routing.TestResult

open Lib Ns3Routing.Topology
open Codec (Text)
open SimulatorMain (lineSetup lineSetup_connected)

/-! ## `DumpRoutingTable` -/

def bytesOf (name : String) : Text := name.toList.map fun c => UInt8.ofNat c.toNat

/-- `istringstream sin (dstNum); sin >> num;` -/
def numberOf (uninit : UInt32) (dstNum : String) : UInt32 :=
  ((Istream.ofText (bytesOf dstNum)).readU32 uninit).1

/-- `checkRouteTableEntry` for a destination given by name. -/
def checkNamedRoute (uninit : UInt32) (dstNum : String) (entry : RoutingTableEntry) : Call :=
  .checkRouteTableEntry (numberOf uninit dstNum) entry.destAddr entry.nextHopNum entry.nextHopAddr
    entry.interfaceAddr entry.cost

/-- `DumpRoutingTable`, the same in both protocols. -/
def dumpRoutingTable (uninit : UInt32) (cfg : NodeConfig) (routingTable : List RoutingTableEntry) :
    List Call :=
  routingTable.map fun entry => checkNamedRoute uninit (cfg.reverseLookup entry.destAddr) entry

/-- What the simulator schedules for `DUMP ROUTES`. -/
def dumpRoutes (uninit : UInt32) (cfg : NodeConfig) (routingTable : List RoutingTableEntry) :
    List Call :=
  .startDumpRoute :: (dumpRoutingTable uninit cfg routingTable ++ [.endDumpRoute])

/-- The entries of the two protocols, as they are passed to the checker. -/
def ofLs (e : Ls.RoutingTableEntry) : RoutingTableEntry :=
  ⟨e.destAddr, e.nextHopNum, e.nextHopAddr, e.interfaceAddr, e.cost⟩

def ofDv (e : Dv.RoutingTableEntry) : RoutingTableEntry :=
  ⟨e.destAddr, e.nextHopNum, e.nextHopAddr, e.interfaceAddr, e.cost⟩

def dumpedRow (uninit : UInt32) (cfg : NodeConfig) (entry : RoutingTableEntry) : Row :=
  .route (numberOf uninit (cfg.reverseLookup entry.destAddr)) entry

theorem numberOf_toString (uninit : UInt32) (n : UInt32) :
    numberOf uninit (toString n.toNat) = n := by
  have hbytes : bytesOf (toString n.toNat) = Istream.digitsOf n.toNat := by
    rw [bytesOf, Nat.toString_eq_ofList_toDigits, String.toList_ofList]
    rfl
  rw [numberOf, hbytes, Istream.readU32, Istream.readNumber_digitsOf, Istream.toUInt32,
    if_pos n.toNat_lt]
  exact UInt32.ofNat_toNat

section Rows
variable {T : Topology} {i j : Fin T.size} {e : RoutingTableEntry} {uninit : UInt32}
  {entries : List RoutingTableEntry} {block : Block}

theorem dumpedRow_eq (h : e.destAddr = (T.config j).mainAddress) :
    dumpedRow uninit (T.config i) e = .route (UInt32.ofNat j) e := by
  rw [dumpedRow, h, reverseLookup_main, name, numberOf_toString]

theorem dumpRoutes_calls {cfg : NodeConfig} {l : List (UInt32 × RoutingTableEntry)}
    (h : block.entries = .routes l) :
    Test.calls ⟨block, entries.map (dumpedRow uninit cfg)⟩ = dumpRoutes uninit cfg entries := by
  rw [Test.calls, Block.start, Block.stop, h, List.map_map]
  rfl

end Rows

/-! ## Tables of shortest paths -/

/-- An entry for a shortest path from node `i` to node `j` over the link end
`p`. -/
structure ShortestOver (T : Topology) (i : Fin T.size) (p : T.Port) (j : Fin T.size)
    (e : RoutingTableEntry) : Prop where
  owner : T.owner p = i
  destAddr : e.destAddr = (T.config j).mainAddress
  nextHopNum : e.nextHopNum = e.nextHopAddr
  nextHopAddr : e.nextHopAddr = (T.config (T.owner (peer p))).mainAddress
  interfaceAddr : e.interfaceAddr = T.address p
  cost : (e.cost.toNat : ℕ∞) = T.graph.edist i j
  closer : T.graph.edist (T.owner (peer p)) j + 1 = T.graph.edist i j

/-- Entries for every other node, and perhaps for node `i`, each once. -/
structure ShortestPaths (T : Topology) (i : Fin T.size) (entries : List RoutingTableEntry) :
    Prop where
  nodup : (entries.map RoutingTableEntry.destAddr).Nodup
  route : ∀ e ∈ entries,
    e.destAddr = (T.config i).mainAddress ∧ e.nextHopAddr = (T.config i).mainAddress ∨
      ∃ p j, j ≠ i ∧ ShortestOver T i p j e
  complete : ∀ j, j ≠ i → ∃ e ∈ entries, e.destAddr = (T.config j).mainAddress

/-- The entries of a table of node `i` that `Dijkstra` has made from the
database of the topology, or that `BellmanFord` has left in some run when it
has found the shortest paths. -/
inductive Computed (T : Topology) (i : Fin T.size) : List RoutingTableEntry → Prop where
  | dijkstra {n : Ls.Node} {routingTable : Ls.RoutingTable} (informed : Ls.Informed T i n)
      (computed : Ls.dijkstra (T.config i) n = some routingTable) :
      Computed T i (routingTable.toList.map fun x => ofLs x.2)
  | bellmanFord {sequenceNumber : Fin T.size → UInt32} {ls : List (Dv.Label T)} {s : Dv.DvNet T}
      (reached : run (Dv.netStep T) (Dv.netStart T sequenceNumber) ls = some s)
      (converged : ∀ j, j ≠ i → ∃ rte, (s.node i).routingTable[T.name j]? = some rte ∧
        (rte.cost.toNat : ℕ∞) = T.graph.edist i j ∧
        ∃ k, rte.nextHopAddr = (T.config k).mainAddress ∧
          T.graph.edist k j + 1 = T.graph.edist i j) :
      Computed T i ((s.node i).routingTable.toList.map fun x => ofDv x.2)

section Tables
variable {T : Topology} {i : Fin T.size} {entries : List RoutingTableEntry}

theorem ShortestPaths.of_table {E : Type} {view : E → RoutingTableEntry} {table : NameMap E}
    (hentry : ∀ (K : String) e, table[K]? = some e →
      K = T.name i ∧ (view e).destAddr = (T.config i).mainAddress ∧
          (view e).nextHopAddr = (T.config i).mainAddress ∨
        ∃ p j, j ≠ i ∧ K = T.name j ∧ ShortestOver T i p j (view e))
    (hcomplete : ∀ j, j ≠ i → ∃ e, table[T.name j]? = some e) :
    ShortestPaths T i (table.toList.map fun x => view x.2) := by
  have hname : ∀ (K : String) e, table[K]? = some e →
      (T.config i).reverseLookup (view e).destAddr = K := by
    intro K e he
    rcases hentry K e he with ⟨rfl, hdest, _⟩ | ⟨_, j, _, rfl, hover⟩
    · rw [hdest, reverseLookup_main]
    · rw [hover.destAddr, reverseLookup_main]
  refine ⟨?_, ?_, ?_⟩
  · -- an address is under its own name, and the names are distinct
    have hkeys : ((table.toList.map fun x => view x.2).map RoutingTableEntry.destAddr).map
        (T.config i).reverseLookup = table.toList.map Prod.fst := by
      rw [List.map_map, List.map_map]
      refine List.map_congr_left fun x hx => ?_
      exact hname x.1 x.2 (mem_toList.mp hx)
    exact List.Nodup.of_map _ (hkeys ▸ nodup_fst_toList)
  · intro e he
    obtain ⟨x, hx, rfl⟩ := List.mem_map.mp he
    rcases hentry x.1 x.2 (mem_toList.mp hx) with ⟨_, hdest⟩ | ⟨p, j, hj, _, hover⟩
    · exact Or.inl hdest
    · exact Or.inr ⟨p, j, hj, hover⟩
  · intro j hj
    obtain ⟨e, he⟩ := hcomplete j hj
    refine ⟨view e, List.mem_map.mpr ⟨(T.name j, e), mem_toList.mpr he, rfl⟩, ?_⟩
    rcases hentry _ e he with ⟨hname, _⟩ | ⟨_, j', _, hname, hover⟩
    · exact absurd (name_inj.mp hname) hj
    · rw [hover.destAddr, name_inj.mp hname]

theorem Computed.shortestPaths (h : Computed T i entries) (conn : T.graph.Connected) :
    ShortestPaths T i entries := by
  cases h with
  | dijkstra informed computed =>
    obtain ⟨hall, hroutes⟩ := informed.routes conn computed
    refine .of_table (fun K e he => ?_) fun j _ => hall j
    rcases hroutes K e he with ⟨hK, rfl⟩ | ⟨p, j, c, hj, hK, hroute, hdist, hcloser⟩
    · exact Or.inl ⟨hK, rfl, rfl⟩
    · refine Or.inr ⟨p, j, hj, hK, hroute.owner, hroute.destAddr, hroute.nextHopNum,
        hroute.nextHopAddr, hroute.interfaceAddr, ?_, ?_⟩
      · show (e.cost.toNat : ℕ∞) = _
        rw [hroute.cost, hdist, Nat.cast_add, Nat.cast_one]
      · rw [hcloser, hdist]
  | bellmanFord reached converged =>
    obtain ⟨hN, hown⟩ := Dv.named_run reached
    refine .of_table (fun K e he => ?_) fun j hj => (converged j hj).imp fun _ h => h.1
    rcases (hN.node i).leavesOver (hown i) he with ⟨hK, rfl⟩ | ⟨p, j, hj, rfl, hover⟩
    · exact Or.inl ⟨hK, rfl, rfl⟩
    · obtain ⟨rte, hrte, hcost, k, hk, hcloser⟩ := converged j hj
      rw [he] at hrte
      obtain rfl := Option.some.inj hrte
      have hpeer : T.owner (peer p) = k := main_inj.mp (hover.nextHopAddr.symm.trans hk)
      exact Or.inr ⟨p, j, hj, rfl, hover.owner, hover.destAddr, hover.nextHopNum, hover.nextHopAddr,
        hover.interfaceAddr, hcost, hpeer ▸ hcloser⟩

/-- A node that has any other in its table has itself there too. -/
theorem Computed.own (h : Computed T i entries) {j : Fin T.size} (hj : j ≠ i) :
    ∃ e ∈ entries, e.destAddr = (T.config i).mainAddress := by
  cases h with
  | dijkstra _ computed =>
    have hself := Ls.dijkstra_self computed
    exact ⟨_, List.mem_map.mpr ⟨_, mem_toList.mpr hself, rfl⟩, rfl⟩
  | bellmanFord reached converged =>
    obtain ⟨rte, hrte, _⟩ := converged j hj
    rcases (Dv.named_run reached).2 i with hempty | hself
    · rw [hempty] at hrte
      simp at hrte
    · exact ⟨_, List.mem_map.mpr ⟨_, mem_toList.mpr hself, rfl⟩, rfl⟩

/-- A static network of link-state nodes at rest has informed all of them. -/
theorem computed_of_flooded {sequenceNumber : Fin T.size → UInt32} {ls : List (Ls.Label T)}
    {s : Ls.LsNet T} {routingTable : Ls.RoutingTable} (conn : T.graph.Connected) (htwo : 2 ≤ T.size)
    (h : Allows (Ls.netStep Ls.dijkstra T) (Ls.Static Ls.dijkstra T) (Ls.netStart T sequenceNumber) ls)
    (hrun : run (Ls.netStep Ls.dijkstra T) (Ls.netStart T sequenceNumber) ls = some s)
    (rest : ∀ p, s.chan p = [])
    (hrt : Ls.dijkstra (T.config i) (s.node i) = some routingTable) :
    Computed T i (routingTable.toList.map fun x => ofLs x.2) := by
  obtain ⟨log, hflood⟩ := Ls.flooding_along h ls s (List.prefix_refl ls) hrun
  exact .dijkstra (hflood.informed rest conn htwo i) hrt

/-- `BellmanFord` converges in a static network whose nodes are all near. -/
theorem computed_of_static {sequenceNumber : Fin T.size → UInt32} {ls : List (Dv.Label T)}
    {s : Dv.DvNet T}
    (h : Allows (Dv.netStep T) (Dv.Static T) (Dv.netStart T sequenceNumber) ls)
    (hrun : run (Dv.netStep T) (Dv.netStart T sequenceNumber) ls = some s)
    (rest : ∀ p, s.chan p = []) (near : ∀ j, T.graph.edist i j < 16) :
    Computed T i ((s.node i).routingTable.toList.map fun x => ofDv x.2) := by
  obtain ⟨s', hrun', hsync, hsound⟩ := Dv.synced_run T sequenceNumber ls h
  obtain rfl := Option.some.inj (hrun'.symm.trans hrun)
  refine .bellmanFord hrun fun j hj => ?_
  obtain ⟨hnear, hroute⟩ := hsync.route hsound rest (Ne.symm hj)
  obtain ⟨rte, hrte⟩ := hnear.mpr (near j)
  obtain ⟨hcost, k, _, hk, hcloser⟩ := hroute rte hrte
  exact ⟨rte, hrte, hcost, k, hk, hcloser⟩

end Tables

/-! ## The block of a node -/

/-- The line of a result file for the way from node `i` to node `j` over the
link end `p`: the number and the main address of the node, those of the next
hop, the address of the outgoing interface, and the hops. -/
noncomputable def routeLine (T : Topology) (i : Fin T.size) (p : T.Port) (j : Fin T.size) : Row :=
  .route (UInt32.ofNat j)
    { destAddr := (T.config j).mainAddress
      nextHopNum := UInt32.ofNat (T.owner (peer p))
      nextHopAddr := (T.config (T.owner (peer p))).mainAddress
      interfaceAddr := T.address p
      cost := UInt32.ofNat (T.graph.dist i j) }

/-- A block of routes with one line for each other node, over the link end the
table has chosen. -/
structure ListsRoutes (T : Topology) (i : Fin T.size) (entries : List RoutingTableEntry)
    (block : Block) : Prop where
  kind : ∃ l, block.entries = .routes l
  rows : ∀ row, row ∈ block.rows ↔ ∃ p j e, j ≠ i ∧ e ∈ entries ∧
    e.destAddr = (T.config j).mainAddress ∧ T.owner p = i ∧
    e.nextHopAddr = (T.config (T.owner (peer p))).mainAddress ∧ e.interfaceAddr = T.address p ∧
    row = routeLine T i p j

section Block
variable {T : Topology} {i j : Fin T.size} {p : T.Port} {entries : List RoutingTableEntry}
  {block : Block} {e : RoutingTableEntry} {uninit : UInt32}

theorem ShortestOver.dist (h : ShortestOver T i p j e) : UInt32.ofNat (T.graph.dist i j) = e.cost := by
  rw [SimpleGraph.dist, ← h.cost, ENat.toNat_natCast]
  exact UInt32.ofNat_toNat

/-- The line for an entry differs from it in the number of the next hop. -/
theorem ShortestOver.routeLine (h : ShortestOver T i p j e) : TestResult.routeLine T i p j =
    .route (UInt32.ofNat j) { e with nextHopNum := UInt32.ofNat (T.owner (peer p)) } := by
  rw [TestResult.routeLine, h.dist, ← h.destAddr, ← h.nextHopAddr, ← h.interfaceAddr]

/-- The entries are dumped under distinct numbers. -/
theorem ShortestPaths.nodup_keys (h : ShortestPaths T i entries) (uninit : UInt32) :
    ((entries.map (dumpedRow uninit (T.config i))).map Row.key).Nodup := by
  have hnum : ∀ e ∈ entries, ∃ j, e.destAddr = (T.config j).mainAddress := by
    intro e he
    rcases h.route e he with hown | ⟨_, j, _, hover⟩
    · exact ⟨i, hown.1⟩
    · exact ⟨j, hover.destAddr⟩
  rw [List.map_map, List.nodup_map_iff_inj_on h.nodup.of_map]
  intro e he e' he' hkey
  obtain ⟨j, hdest⟩ := hnum e he
  obtain ⟨j', hdest'⟩ := hnum e' he'
  rw [Function.comp_apply, Function.comp_apply, dumpedRow_eq hdest, dumpedRow_eq hdest'] at hkey
  obtain rfl := number_inj (Prod.mk.inj hkey).2
  exact List.inj_on_of_nodup_map h.nodup he he' (hdest.trans hdest'.symm)

/-- The lines made from the entries, with the number of the next hop looked up
from its address. -/
def linesOf (uninit : UInt32) (cfg : NodeConfig) (entries : List RoutingTableEntry) : List Row :=
  (entries.filter fun e => e.destAddr ≠ cfg.mainAddress).map fun e => dumpedRow uninit cfg
    { e with nextHopNum := numberOf uninit (cfg.reverseLookup e.nextHopAddr) }

theorem ShortestPaths.line_eq (h : ShortestPaths T i entries) (he : e ∈ entries) (hj : j ≠ i)
    (hdest : e.destAddr = (T.config j).mainAddress)
    (hhop : e.nextHopAddr = (T.config (T.owner (peer p))).mainAddress)
    (hif : e.interfaceAddr = T.address p) : dumpedRow uninit (T.config i)
      { e with nextHopNum := numberOf uninit ((T.config i).reverseLookup e.nextHopAddr) } =
        TestResult.routeLine T i p j := by
  rcases h.route e he with hown | ⟨_, j', _, hover⟩
  · exact absurd (main_inj.mp (hdest.symm.trans hown.1)) hj
  · obtain rfl := main_inj.mp (hover.destAddr.symm.trans hdest)
    show Row.route (numberOf uninit ((T.config i).reverseLookup e.destAddr)) _ = _
    rw [hdest, hhop, hif, reverseLookup_main, reverseLookup_main, name, name, numberOf_toString,
      numberOf_toString, TestResult.routeLine, hover.dist]

/-- A block of these lines is one the table is to be checked against. -/
theorem ShortestPaths.listsRoutes (h : ShortestPaths T i entries)
    (hkind : ∃ l, block.entries = .routes l)
    (hrows : block.rows = linesOf uninit (T.config i) entries) : ListsRoutes T i entries block := by
  refine ⟨hkind, fun row => ?_⟩
  rw [hrows, linesOf, List.mem_map]
  constructor
  · intro hx
    obtain ⟨e, he, rfl⟩ := hx
    obtain ⟨he, hne⟩ := List.mem_filter.mp he
    rcases h.route e he with hown | ⟨p, j, hj, hover⟩
    · exact absurd hown.1 (of_decide_eq_true hne)
    · exact ⟨p, j, e, hj, he, hover.destAddr, hover.owner, hover.nextHopAddr, hover.interfaceAddr,
        h.line_eq he hj hover.destAddr hover.nextHopAddr hover.interfaceAddr⟩
  · intro hx
    obtain ⟨p, j, e, hj, he, hdest, _, hhop, hif, rfl⟩ := hx
    refine ⟨e, List.mem_filter.mpr ⟨he, decide_eq_true ?_⟩, h.line_eq he hj hdest hhop hif⟩
    rw [hdest]
    exact fun heq => hj (main_inj.mp heq)

variable (h : ShortestPaths T i entries) (hb : ListsRoutes T i entries block)
include hb

theorem ListsRoutes.leaves (before : TableKind × UInt32 → Option Row) :
    block.leaves before = before := by
  obtain ⟨l, hl⟩ := hb.kind
  rw [Block.leaves, hl]

/-- Every line is under the number of another node. -/
theorem ListsRoutes.key {row : Row} (hrow : row ∈ block.rows) :
    ∃ j, j ≠ i ∧ row.key = (.routes, UInt32.ofNat j) := by
  obtain ⟨p, j, e, hj, _, _, _, _, _, rfl⟩ := (hb.rows row).mp hrow
  exact ⟨j, hj, rfl⟩

theorem ListsRoutes.line_mem (he : e ∈ entries) (hj : j ≠ i) (hover : ShortestOver T i p j e) :
    routeLine T i p j ∈ block.rows :=
  (hb.rows _).mpr ⟨p, j, e, hj, he, hover.destAddr, hover.owner, hover.nextHopAddr,
    hover.interfaceAddr, rfl⟩

/-- What is dumped for the node itself has no line. -/
theorem ListsRoutes.own_held_iff {st : State} (hown : e.destAddr = (T.config i).mainAddress) :
    expect Row.key block.rows (block.leaves (held st)) (dumpedRow uninit (T.config i) e).key =
        some (dumpedRow uninit (T.config i) e) ↔
      st.routingTable (UInt32.ofNat i) = some e := by
  rw [dumpedRow_eq hown, hb.leaves, expect_of_not_mem, held_key_route]
  intro hmem
  obtain ⟨row, hrow, hkey⟩ := List.mem_map.mp hmem
  obtain ⟨j, hj, hrowkey⟩ := hb.key hrow
  rw [hrowkey] at hkey
  exact hj (number_inj (Prod.mk.inj hkey).2)

/-- What is dumped for another node is its line when the address of the next
hop is its node number. -/
theorem ListsRoutes.route_held_iff {before : TableKind × UInt32 → Option Row} (he : e ∈ entries)
    (hj : j ≠ i) (hover : ShortestOver T i p j e) :
    expect Row.key block.rows before (dumpedRow uninit (T.config i) e).key =
        some (dumpedRow uninit (T.config i) e) ↔
      (T.config (T.owner (peer p))).mainAddress = UInt32.ofNat (T.owner (peer p)) := by
  have hline := expect_of_mem before block.nodup (hb.line_mem he hj hover)
  rw [hover.routeLine] at hline
  rw [dumpedRow_eq hover.destAddr]
  refine Eq.congr_left hline |>.trans ?_
  rw [Option.some.injEq, Row.route.injEq, RoutingTableEntry.mk.injEq, ← hover.nextHopAddr,
    ← hover.nextHopNum]
  constructor
  · intro hrow
    exact hrow.2.2.1.symm
  · intro hnum
    exact ⟨rfl, rfl, hnum.symm, rfl, rfl, rfl⟩

include h

/-- There are as many lines as entries for other nodes. -/
theorem ListsRoutes.length_le :
    block.rows.length ≤ (entries.map (dumpedRow uninit (T.config i))).length := by
  have hsub : block.rows.map Row.key ⊆ (entries.map (dumpedRow uninit (T.config i))).map Row.key := by
    intro key hkey
    obtain ⟨row, hrow, rfl⟩ := List.mem_map.mp hkey
    obtain ⟨j, hj, hrowkey⟩ := hb.key hrow
    obtain ⟨e, he, hdest⟩ := h.complete j hj
    rw [hrowkey]
    refine List.mem_map.mpr ⟨_, List.mem_map_of_mem he, ?_⟩
    rw [dumpedRow_eq hdest]
    rfl
  have hlen := (List.subperm_of_subset block.nodup hsub).length_le
  rwa [List.length_map, List.length_map] at hlen

/-- When the rows that are dumped all match. -/
theorem ListsRoutes.mismatches_iff (st : State) :
    Test.mismatches ⟨block, entries.map (dumpedRow uninit (T.config i))⟩ (held st) = 0 ↔
      (∀ e ∈ entries, e.destAddr = (T.config i).mainAddress →
        st.routingTable (UInt32.ofNat i) = some e) ∧
      ∀ e ∈ entries, ∀ k, k ≠ i → e.nextHopAddr = (T.config k).mainAddress →
        (T.config k).mainAddress = UInt32.ofNat k := by
  rw [Test.mismatches, misses_eq_zero_iff, and_iff_right (h.nodup_keys uninit)]
  simp only [List.forall_mem_map, Test.expected]
  constructor
  · intro hall
    refine ⟨fun e he hdest => (hb.own_held_iff hdest).mp (hall e he), fun e he k hk hhop => ?_⟩
    rcases h.route e he with hown | ⟨p, j, hj, hover⟩
    · exact absurd (main_inj.mp (hhop.symm.trans hown.2)) hk
    · have hpeer := main_inj.mp (hover.nextHopAddr.symm.trans hhop)
      have hnum := (hb.route_held_iff he hj hover).mp (hall e he)
      rwa [hpeer] at hnum
  · intro hall e he
    rcases h.route e he with hown | ⟨p, j, hj, hover⟩
    · exact (hb.own_held_iff hown.1).mpr (hall.1 e he hown.1)
    · have hpeer : T.owner (peer p) ≠ i := by
        rw [← hover.owner]
        exact owner_peer_ne p
      exact (hb.route_held_iff he hj hover).mpr (hall.2 e he _ hpeer hover.nextHopAddr)

/-- The verdict on the entries, from a state in front of the block. -/
theorem ListsRoutes.correct_iff {st : State} {own rest : Text} (uninit : UInt32)
    (hst : AtBlock block own rest st) :
    (∃ fuel st' errors, run (call uninit fuel) st (dumpRoutes uninit (T.config i) entries) =
        some st' ∧ st'.output = st.output ++ [.verdict block.title true errors]) ↔
      (∀ e ∈ entries, e.destAddr = (T.config i).mainAddress →
        st.routingTable (UInt32.ofNat i) = some e) ∧
      ∀ e ∈ entries, ∀ k, k ≠ i → e.nextHopAddr = (T.config k).mainAddress →
        (T.config k).mainAddress = UInt32.ofNat k := by
  obtain ⟨l, hl⟩ := hb.kind
  have htest := test_correct_iff ⟨block, entries.map (dumpedRow uninit (T.config i))⟩ uninit hst
  rw [dumpRoutes_calls hl] at htest
  rw [htest, hb.mismatches_iff h, and_iff_left (hb.length_le h)]

end Block

/-! ## The verdict -/

/-- A node with others in its table is not judged correct when the checker has
no route to the node itself, which no block of that node gives it. -/
theorem dumpRoutes_wrong {T : Topology} {i j : Fin T.size} {entries : List RoutingTableEntry}
    {block : Block} {st : State} {own rest : Text} (uninit : UInt32) (conn : T.graph.Connected)
    (computed : Computed T i entries) (lists : ListsRoutes T i entries block) (hj : j ≠ i)
    (hnone : st.routingTable (UInt32.ofNat i) = none) (hst : AtBlock block own rest st) :
    ¬ ∃ fuel st' errors, run (call uninit fuel) st (dumpRoutes uninit (T.config i) entries) =
      some st' ∧ st'.output = st.output ++ [.verdict block.title true errors] := by
  intro hcorrect
  have hheld := (lists.correct_iff (computed.shortestPaths conn) uninit hst).mp hcorrect
  obtain ⟨e, he, hdest⟩ := computed.own hj
  rw [hheld.1 e he hdest] at hnone
  cases hnone

/-- **When a table of shortest paths is judged correct.** An earlier test has
left what is dumped for the node itself, and the main address of every next
hop is its node number. -/
theorem dumpRoutes_correct_iff (T : Topology) (conn : T.graph.Connected) (i : Fin T.size)
    (entries : List RoutingTableEntry) (computed : Computed T i entries) (block : Block)
    (lists : ListsRoutes T i entries block) (uninit : UInt32) (st : State) (own rest : Text)
    (hen : st.isEnabled = true) (hgood : st.ifs.good = true) (hrest : st.ifs.rest = own ++ rest)
    (hown : block.Spelled own) (hends : Ends rest) :
    (∃ fuel st' errors, run (call uninit fuel) st (dumpRoutes uninit (T.config i) entries) =
        some st' ∧ st'.output = st.output ++ [.verdict block.title true errors]) ↔
      (∀ e ∈ entries, e.destAddr = (T.config i).mainAddress →
        st.routingTable (UInt32.ofNat i) = some e) ∧
      ∀ e ∈ entries, ∀ k, k ≠ i → e.nextHopAddr = (T.config k).mainAddress →
        (T.config k).mainAddress = UInt32.ofNat k := by
  exact lists.correct_iff (computed.shortestPaths conn) uninit ⟨hen, hgood, hrest, hown, hends⟩

/-! Node 0 of a line, with the block for it. The addresses on the line are
10.0.0.1 – 10.0.0.2 and 10.0.1.1 – 10.0.1.2. -/

theorem lineSetup_pos : 0 < lineSetup.topology.size := by decide

def line0 : Fin lineSetup.topology.size := ⟨0, lineSetup_pos⟩

def line0Entries : List RoutingTableEntry :=
  [⟨0x0A000001, 0x0A000001, 0x0A000001, 0x0A000001, 0⟩,
    ⟨0x0A000002, 0x0A000002, 0x0A000002, 0x0A000001, 1⟩,
    ⟨0x0A000102, 0x0A000002, 0x0A000002, 0x0A000001, 2⟩]

def line0Block : Block where
  title := [82]
  entries := .routes [(1, ⟨0x0A000002, 1, 0x0A000002, 0x0A000001, 1⟩),
    (2, ⟨0x0A000102, 1, 0x0A000002, 0x0A000001, 2⟩)]
  title_ne := by decide
  title_line := by simp
  nodup := by decide
  length_lt := by decide

/-- The text of 10.0.c.d. -/
def dotted (c d : UInt8) : Text := [49, 48, 46, 48, 46, 48 + c, 46, 48 + d]

def line0Tokens : List (UInt8 × Text) :=
  [(10, [49]), (32, dotted 0 2), (32, [49]), (32, dotted 0 2), (32, dotted 0 1), (32, [49]),
    (10, [50]), (32, dotted 1 2), (32, [49]), (32, dotted 0 2), (32, dotted 0 1), (32, [50])]

def line0Text : Text := [82, 10, 50] ++ line0Tokens.flatMap fun token => token.1 :: token.2

theorem line0_computed : Computed lineSetup.topology line0 line0Entries := by
  have hrt : (Ls.dijkstra (lineSetup.topology.config line0) (Ls.knowing lineSetup.topology line0)).map
      (fun rt => rt.toList.map fun x => ofLs x.2) = some line0Entries := by decide +kernel
  obtain ⟨rt, hrt, hentries⟩ := Option.map_eq_some_iff.mp hrt
  exact hentries ▸ .dijkstra (Ls.informed_knowing lineSetup.topology line0) hrt

theorem line0_listsRoutes : ListsRoutes lineSetup.topology line0 line0Entries line0Block := by
  have hlines : line0Block.rows = linesOf 0 (lineSetup.topology.config line0) line0Entries := by
    decide +kernel
  exact (line0_computed.shortestPaths lineSetup_connected).listsRoutes ⟨_, rfl⟩ hlines

theorem line0_spelled : line0Block.Spelled line0Text := by
  have hone : SpellsNumber 1 [49] := by decide
  have htwo : SpellsNumber 2 [50] := by decide
  have h01 : SpellsAddress 0x0A000001 (dotted 0 1) := by decide
  have h02 : SpellsAddress 0x0A000002 (dotted 0 2) := by decide
  have h12 : SpellsAddress 0x0A000102 (dotted 1 2) := by decide
  refine ⟨[], [], [50], _, rfl, nofun, nofun, List.cons_ne_nil _ _, List.all_eq_true.mp rfl, rfl,
    fields_of_tokens ?_⟩
  exact .cons ⟨rfl, hone⟩ (.cons ⟨rfl, h02⟩ (.cons ⟨rfl, hone⟩ (.cons ⟨rfl, h02⟩
    (.cons ⟨rfl, h01⟩ (.cons ⟨rfl, hone⟩ (.cons ⟨rfl, htwo⟩ (.cons ⟨rfl, h12⟩ (.cons ⟨rfl, hone⟩
      (.cons ⟨rfl, h02⟩ (.cons ⟨rfl, h01⟩ (.cons ⟨rfl, htwo⟩ .nil)))))))))))

/-- The checker in front of the block. -/
def line0Checker : State := openResultFile [114] (some line0Text)

theorem dumpRoutes_correct_line :
    (∃ fuel st' errors, run (call 0 fuel) line0Checker
        (dumpRoutes 0 (lineSetup.topology.config line0) line0Entries) = some st' ∧
      st'.output = line0Checker.output ++ [.verdict line0Block.title true errors]) ↔
      (∀ e ∈ line0Entries, e.destAddr = (lineSetup.topology.config line0).mainAddress →
        line0Checker.routingTable (UInt32.ofNat line0) = some e) ∧
      ∀ e ∈ line0Entries, ∀ k, k ≠ line0 →
        e.nextHopAddr = (lineSetup.topology.config k).mainAddress →
        (lineSetup.topology.config k).mainAddress = UInt32.ofNat k :=
  dumpRoutes_correct_iff lineSetup.topology lineSetup_connected line0 line0Entries line0_computed
    line0Block line0_listsRoutes 0 line0Checker line0Text [] rfl rfl (List.append_nil _).symm
    line0_spelled nofun

/-- The table is right and the block is that of the format, and the verdict is
not that it is correct. -/
theorem correct_table_fails :
    ¬ ∀ (T : Topology) (i : Fin T.size) (entries : List RoutingTableEntry) (block : Block)
      (uninit : UInt32) (st : State) (own rest : Text), T.graph.Connected → Computed T i entries →
      ListsRoutes T i entries block → st.isEnabled = true → st.ifs.good = true →
      st.ifs.rest = own ++ rest → block.Spelled own → Ends rest →
      ∃ fuel st' errors, run (call uninit fuel) st (dumpRoutes uninit (T.config i) entries) =
        some st' ∧ st'.output = st.output ++ [.verdict block.title true errors] := by
  intro h
  have hother : (1 : Fin 3) ≠ (0 : Fin 3) := by decide
  have hnone : line0Checker.routingTable (UInt32.ofNat line0) = none := rfl
  have hst : AtBlock line0Block line0Text [] line0Checker :=
    ⟨rfl, rfl, (List.append_nil _).symm, line0_spelled, nofun⟩
  have hwrong := dumpRoutes_wrong 0 lineSetup_connected line0_computed line0_listsRoutes hother hnone
    hst
  exact hwrong (h lineSetup.topology line0 line0Entries line0Block 0 line0Checker line0Text []
    lineSetup_connected line0_computed line0_listsRoutes rfl rfl (List.append_nil _).symm
    line0_spelled nofun)

end Ns3Routing.TestResult
