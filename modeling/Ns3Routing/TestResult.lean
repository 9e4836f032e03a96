import Ns3Routing.Codec
import Ns3Routing.Lib.Istream
import Ns3Routing.Lib.Run

/-! # The checker of test results

`openResultFile` opens a file of expected answers. Each test reads a block of
it: a title, the number of entries, and the entries, which for tables are read
at once and for traces one at a time. What is dumped in the test is compared
with them, and the end of the test prints whether it was correct.

All of this is in globals. The flags of the stream stay as the last read left
them, and a loop that waits for a line that is not empty waits in vain once
one of them is set: a test needs a title, and a trace a line for each entry
(`calls_return_iff`). -/

namespace Ns3Routing.TestResult

open Lib
open Codec (Text)

structure RoutingTableEntry where
  destAddr : Ipv4Address
  nextHopNum : UInt32
  nextHopAddr : Ipv4Address
  interfaceAddr : Ipv4Address
  cost : UInt32
  deriving DecidableEq

structure NeighborTableEntry where
  neighborAddr : Ipv4Address
  interfaceAddr : Ipv4Address
  deriving DecidableEq

/-- A `std::map<uint32_t, E>`. The checker finds, sets and erases, and never
walks one. -/
abbrev Table (E : Type) := UInt32 → Option E

inductive Printed where
  /-- Whether the test is correct, and the errors. -/
  | verdict (testName : Text) (correct : Bool) (errors : List String)
  | incorrectTrace (line : Text)
  deriving DecidableEq

/-- The globals, and what is printed. `errors` are the rows of `error` that are
in use, `error_count` many. -/
structure State where
  neighborTable : Table NeighborTableEntry
  routingTable : Table RoutingTableEntry
  ifs : Istream
  entryTotal : ℤ
  entryCount : ℤ
  isEnabled : Bool
  testName : Text
  errors : List String
  output : List Printed

/-- `openResultFile`, on the globals as the program starts with them. A file
that cannot be opened leaves the stream failed. -/
def openResultFile (fileName : Text) (file : Option Text) : State where
  neighborTable := fun _ => none
  routingTable := fun _ => none
  ifs := if fileName = [] then Istream.ofText [] else
    match file with
    | none => ⟨[], false, true⟩
    | some text => Istream.ofText text
  entryTotal := 0
  entryCount := 0
  isEnabled := fileName ≠ []
  testName := []
  errors := []
  output := []

/-! ## Reading a block -/

/-- `c_str`, up to its first NUL. -/
def cString (str : Text) : Text := str.takeWhile (· != 0)

/-- The address of a C string: the part before each dot is a byte, computed
modulo 256 from whatever characters it has. -/
def asciiToIpv4Host (address : Text) : UInt32 :=
  let parsed := (cString address).foldl (fun (parsed : UInt32 × UInt8) (c : UInt8) =>
    if c = 46 then (parsed.1 <<< 8 ||| parsed.2.toUInt32, 0)
    else (parsed.1, parsed.2 * 10 + (c - 48))) (0, 0)
  parsed.1 <<< 8 ||| parsed.2.toUInt32

/-- `uninit` is what a variable holds that nothing was read into. -/
def readNeighbor (uninit : UInt32) (ifs : Istream) : (UInt32 × NeighborTableEntry) × Istream :=
  let (num, ifs) := ifs.readU32 uninit
  let (addr1, ifs) := ifs.readWord []
  let (addr2, ifs) := ifs.readWord []
  ((num, { neighborAddr := asciiToIpv4Host addr1, interfaceAddr := asciiToIpv4Host addr2 }), ifs)

def readRoute (uninit : UInt32) (ifs : Istream) : (UInt32 × RoutingTableEntry) × Istream :=
  let (num1, ifs) := ifs.readU32 uninit
  let (addr1, ifs) := ifs.readWord []
  let (num2, ifs) := ifs.readU32 uninit
  let (addr2, ifs) := ifs.readWord []
  let (addr3, ifs) := ifs.readWord []
  let (cost1, ifs) := ifs.readU32 uninit
  ((num1,
    { destAddr := asciiToIpv4Host addr1
      nextHopNum := num2
      nextHopAddr := asciiToIpv4Host addr2
      interfaceAddr := asciiToIpv4Host addr3
      cost := cost1 }), ifs)

/-- The loop over the entries of a block. -/
def readEntries {E : Type} (readEntry : Istream → (UInt32 × E) × Istream) :
    ℕ → Istream → Table E → Istream × Table E
  | 0, ifs, table => (ifs, table)
  | n + 1, ifs, table =>
    let ((num, entry), ifs) := readEntry ifs
    readEntries readEntry n ifs (Function.update table num (some entry))

/-- The title and the number of entries. -/
def startBlock (fuel : ℕ) (st : State) : Option State := do
  let (testName, ifs) ← st.ifs.skipEmpty fuel
  let (entryTotal, ifs) := ifs.readInt st.entryTotal
  return { st with
    testName := testName
    ifs := ifs
    entryTotal := entryTotal
    entryCount := 0 }

def startDumpNeighbor (uninit : UInt32) (fuel : ℕ) (st : State) : Option State :=
  if !st.isEnabled then some st
  else do
    let st ← startBlock fuel st
    let (ifs, table) := readEntries (readNeighbor uninit) st.entryTotal.toNat st.ifs fun _ => none
    return { st with ifs := ifs, neighborTable := table, errors := [] }

def startDumpTrafficTrace (fuel : ℕ) (st : State) : Option State :=
  if !st.isEnabled then some st
  else do
    let st ← startBlock fuel st
    return { st with errors := [] }

def startDumpRoute (uninit : UInt32) (fuel : ℕ) (st : State) : Option State :=
  if !st.isEnabled then some st
  else do
    let st ← startBlock fuel st
    let (ifs, table) := readEntries (readRoute uninit) st.entryTotal.toNat st.ifs st.routingTable
    return { st with ifs := ifs, routingTable := table, errors := [] }

/-! ## Checking -/

/-- `sprintf (error[error_count++], ...)`. There are a hundred rows; writing
behind them is undefined. -/
def State.reportError (st : State) (text : String) : Option State :=
  if st.errors.length < 100 then some { st with errors := st.errors ++ [text] } else none

def State.printVerdict (st : State) : State :=
  { st with output := st.output ++ [.verdict st.testName st.errors.isEmpty st.errors] }

/-- How a check ends: an error is reported, or the entry is erased. -/
def State.conclude (st : State) (error : Option String) (erased : State) : Option State :=
  match error with
  | some text => st.reportError text
  | none => some erased

/-- What the checks of a neighbor's entry say, in their order. -/
def neighborError (found : Option NeighborTableEntry) (neighborNum : UInt32)
    (neighborAddr ifAddr : Ipv4Address) : Option String :=
  match found with
  | none => some s!"neighbor {neighborNum.toInt32} is nout found in standard answer"
  | some entry =>
    if neighborAddr ≠ entry.neighborAddr then
      some s!"for neighbor {neighborNum.toInt32}, neighbor address doesn't match\n"
    else if ifAddr ≠ entry.interfaceAddr then
      some s!"for neighbor {neighborNum.toInt32}, interface address doesn't match\n"
    else none

def checkNeighborTableEntry (neighborNum : UInt32) (neighborAddr ifAddr : Ipv4Address) (st : State) :
    Option State :=
  if !st.isEnabled then some st
  else
    let st := { st with entryCount := st.entryCount + 1 }
    st.conclude (neighborError (st.neighborTable neighborNum) neighborNum neighborAddr ifAddr)
      { st with neighborTable := Function.update st.neighborTable neighborNum none }

/-- The message about the cost names the number of the entry, not the
destination. -/
def routeError (found : Option RoutingTableEntry) (entryCount : ℤ) (dstNum : UInt32)
    (dstAddr : Ipv4Address) (nextHopNum : UInt32) (nextHopAddr ifAddr : Ipv4Address)
    (cost : UInt32) : Option String :=
  match found with
  | none => some s!"route to {dstNum.toInt32} is nout found in standard answer"
  | some entry =>
    if dstAddr ≠ entry.destAddr then
      some s!"for route to {dstNum.toInt32}, destination address doesn't match\n"
    else if cost ≠ entry.cost then
      some s!"for route to {entryCount}, cost doesn't match\n"
    else if nextHopNum ≠ entry.nextHopNum then
      some s!"for route to {dstNum.toInt32}, next hop number doesn't match. But it gives the same minimum cost\n"
    else if nextHopAddr ≠ entry.nextHopAddr then
      some s!"for route to {dstNum.toInt32}, next hop address doesn't match\n"
    else if ifAddr ≠ entry.interfaceAddr then
      some s!"for route to {dstNum.toInt32}, interface address doesn't match\n"
    else none

def checkRouteTableEntry (dstNum : UInt32) (dstAddr : Ipv4Address) (nextHopNum : UInt32)
    (nextHopAddr ifAddr : Ipv4Address) (cost : UInt32) (st : State) : Option State :=
  if !st.isEnabled then some st
  else
    let st := { st with entryCount := st.entryCount + 1 }
    st.conclude (routeError (st.routingTable dstNum) st.entryCount dstNum dstAddr nextHopNum
        nextHopAddr ifAddr cost)
      { st with routingTable := Function.update st.routingTable dstNum none }

/-- `g_nodeId` and `g_moduleName` of a trace. With them `answer`, which has 50
bytes, is full at most. -/
structure Tracer where
  nodeId : Text
  moduleName : Text
  fits : (cString nodeId).length + (cString moduleName).length ≤ 23

/-- `*TRAFFIC* Node: %s, Module: %s`. -/
def Tracer.answer (tracer : Tracer) : Text :=
  [42, 84, 82, 65, 70, 70, 73, 67, 42, 32, 78, 111, 100, 101, 58, 32] ++ cString tracer.nodeId ++
    [44, 32, 77, 111, 100, 117, 108, 101, 58, 32] ++ cString tracer.moduleName

def checkTrafficTrace (tracer : Tracer) (fuel : ℕ) (st : State) : Option State :=
  if !st.isEnabled then some st
  else if st.entryTotal ≤ st.entryCount then
    some { st with errors :=
      [s!"there is more traffic trace than expected in standard answer ({st.entryTotal})\n"] }
  else do
    let (line, ifs) ← st.ifs.skipEmpty fuel
    let st := { st with entryCount := st.entryCount + 1, ifs := ifs }
    if tracer.answer.isPrefixOf line then return st
    else return { st with
      errors := ["some trace doesn't match with standard answer.\n"]
      output := st.output ++ [.incorrectTrace line] }

/-! ## The end of a test -/

def endDump (st : State) : Option State :=
  if !st.isEnabled then some st
  else do
    let st ← if st.entryCount < st.entryTotal then
        st.reportError s!"entry_count {st.entryCount} is less than entry_total {st.entryTotal}\n"
      else some st
    return st.printVerdict

def endDumpNeighbor (st : State) : Option State := endDump st

def endDumpRoute (st : State) : Option State := endDump st

/-- The loop over the lines that were not read. -/
def skipUnread (fuel : ℕ) : ℕ → State → Option State
  | 0, st => some st
  | n + 1, st => do
    let (_, ifs) ← st.ifs.skipEmpty fuel
    skipUnread fuel n { st with ifs := ifs, entryCount := st.entryCount + 1 }

def endDumpTrafficTrace (fuel : ℕ) (st : State) : Option State :=
  if !st.isEnabled then some st
  else do
    let st := if st.entryCount < st.entryTotal then
        { st with errors := [s!"there is less traffic trace than expected in standard answer ({st.entryTotal})\n"] }
      else st
    let st ← skipUnread fuel (st.entryTotal - st.entryCount).toNat st
    return st.printVerdict

/-! ## Which calls return -/

inductive Call where
  | startDumpNeighbor
  | startDumpTrafficTrace
  | startDumpRoute
  | checkNeighborTableEntry (neighborNum : UInt32) (neighborAddr ifAddr : Ipv4Address)
  | checkRouteTableEntry (dstNum : UInt32) (dstAddr : Ipv4Address) (nextHopNum : UInt32)
      (nextHopAddr ifAddr : Ipv4Address) (cost : UInt32)
  | checkTrafficTrace (tracer : Tracer)
  | endDumpNeighbor
  | endDumpRoute
  | endDumpTrafficTrace

/-- `none` while the fuel is not enough for the loops of the call. -/
def call (uninit : UInt32) (fuel : ℕ) (st : State) : Call → Option State
  | .startDumpNeighbor => startDumpNeighbor uninit fuel st
  | .startDumpTrafficTrace => startDumpTrafficTrace fuel st
  | .startDumpRoute => startDumpRoute uninit fuel st
  | .checkNeighborTableEntry neighborNum neighborAddr ifAddr =>
    checkNeighborTableEntry neighborNum neighborAddr ifAddr st
  | .checkRouteTableEntry dstNum dstAddr nextHopNum nextHopAddr ifAddr cost =>
    checkRouteTableEntry dstNum dstAddr nextHopNum nextHopAddr ifAddr cost st
  | .checkTrafficTrace tracer => checkTrafficTrace tracer fuel st
  | .endDumpNeighbor => endDumpNeighbor st
  | .endDumpRoute => endDumpRoute st
  | .endDumpTrafficTrace => endDumpTrafficTrace fuel st

/-- How many lines that are not empty the call waits for. -/
def linesNeeded (st : State) : Call → ℕ
  | .startDumpNeighbor | .startDumpTrafficTrace | .startDumpRoute => 1
  | .checkTrafficTrace _ => if st.entryTotal ≤ st.entryCount then 0 else 1
  | .endDumpTrafficTrace => (st.entryTotal - st.entryCount).toNat
  | _ => 0

/-- The call takes the next row of `error`. -/
def Reports (st : State) : Call → Prop
  | .checkNeighborTableEntry neighborNum neighborAddr ifAddr =>
    neighborError (st.neighborTable neighborNum) neighborNum neighborAddr ifAddr ≠ none
  | .checkRouteTableEntry dstNum dstAddr nextHopNum nextHopAddr ifAddr cost =>
    routeError (st.routingTable dstNum) (st.entryCount + 1) dstNum dstAddr nextHopNum nextHopAddr
      ifAddr cost ≠ none
  | .endDumpNeighbor | .endDumpRoute => st.entryCount < st.entryTotal
  | _ => False

/-- The lines the call waits for are there, and the row of `error` it takes. -/
def Feasible (st : State) (c : Call) : Prop :=
  st.isEnabled = true → linesNeeded st c ≤ st.ifs.linesLeft ∧
    (Reports st c → st.errors.length < 100)

section Returns
variable {uninit : UInt32}

theorem fueled_startBlock (st : State) :
    Fueled (fun fuel => startBlock fuel st) (0 < st.ifs.linesLeft) := by
  unfold startBlock
  exact (Istream.fueled_skipEmpty st.ifs).bind_total fun r => ⟨_, rfl⟩

theorem fueled_skipUnread (n : ℕ) (st : State) :
    Fueled (fun fuel => skipUnread fuel n st) (n ≤ st.ifs.linesLeft) := by
  induction n generalizing st with
  | zero => exact (fueled_some st).congr (iff_of_true trivial (Nat.zero_le _))
  | succ n ih =>
    refine (Istream.fueled_skipEmpty st.ifs).bind
      (fun r => ih { st with ifs := r.2, entryCount := st.entryCount + 1 }) ?_
    constructor
    · intro h
      obtain ⟨hline, hrest⟩ := h
      obtain ⟨r, hr⟩ := Istream.skipEmpty_exists hline (Nat.le_refl _)
      rw [Istream.skipEmpty_some hr]
      exact Nat.succ_le_succ (hrest _ r hr)
    · intro h
      refine ⟨Nat.lt_of_lt_of_le (Nat.succ_pos n) h, fun fuel r hr => ?_⟩
      rw [Istream.skipEmpty_some hr] at h
      exact Nat.le_of_succ_le_succ h

theorem reportError_some (st : State) (text : String) :
    (∃ t, st.reportError text = some t) ↔ st.errors.length < 100 := by
  unfold State.reportError
  split
  · rename_i hlt
    exact iff_of_true ⟨_, rfl⟩ hlt
  · rename_i hlt
    exact iff_of_false (fun h => by obtain ⟨t, ht⟩ := h; cases ht) hlt

theorem conclude_some (st : State) (error : Option String) (erased : State) :
    (∃ t, st.conclude error erased = some t) ↔ (error ≠ none → st.errors.length < 100) := by
  cases error with
  | none => exact iff_of_true ⟨erased, rfl⟩ fun h => absurd rfl h
  | some text => exact (reportError_some st text).trans (by simp)

theorem endDump_some {st : State} (hen : st.isEnabled = true) :
    (∃ t, endDump st = some t) ↔ (st.entryCount < st.entryTotal → st.errors.length < 100) := by
  by_cases hless : st.entryCount < st.entryTotal
  · have hreport : ∃ text, endDump st = (st.reportError text).map State.printVerdict := by
      refine ⟨s!"entry_count {st.entryCount} is less than entry_total {st.entryTotal}\n", ?_⟩
      rw [endDump, if_neg (by simp [hen]), if_pos hless]
      exact Option.map_eq_bind.symm
    obtain ⟨text, hreport⟩ := hreport
    rw [hreport, forall_prop_of_true hless, ← reportError_some st text]
    simp
  · simp [endDump, hen, hless]

section Feasible
variable {st : State} {c : Call}

theorem call_disabled (hen : st.isEnabled = false) (uninit : UInt32) (fuel : ℕ) (c : Call) :
    call uninit fuel st c = some st := by
  cases c <;> simp [call, hen, startDumpNeighbor, startDumpTrafficTrace, startDumpRoute,
    checkNeighborTableEntry, checkRouteTableEntry, checkTrafficTrace, endDumpNeighbor, endDumpRoute,
    endDump, endDumpTrafficTrace]

/-- A call that takes no row of `error` only waits for its lines. -/
theorem feasible_of_not_reports (hen : st.isEnabled = true) (hc : ¬ Reports st c) :
    linesNeeded st c ≤ st.ifs.linesLeft ↔ Feasible st c := by
  simp [Feasible, hen, hc]

/-- A call that reads no line only takes a row of `error`. -/
theorem feasible_of_no_lines (hen : st.isEnabled = true) (hc : linesNeeded st c = 0) :
    (Reports st c → st.errors.length < 100) ↔ Feasible st c := by
  simp [Feasible, hen, hc]

end Feasible

/-- A call returns where it is feasible. -/
theorem fueled_call (uninit : UInt32) (st : State) (c : Call) :
    Fueled (fun fuel => call uninit fuel st c) (Feasible st c) := by
  cases hen : st.isEnabled with
  | false =>
    have hoff : Feasible st c := fun h => absurd (hen.symm.trans h) Bool.false_ne_true
    simp only [call_disabled hen]
    exact (fueled_some st).congr (iff_of_true trivial hoff)
  | true =>
    have hnot : ¬ (!st.isEnabled) = true := by simp [hen]
    cases c with
    | startDumpNeighbor =>
      refine Fueled.congr ?_ (feasible_of_not_reports hen id)
      simp only [call, startDumpNeighbor, if_neg hnot]
      exact (fueled_startBlock st).bind_total fun st => ⟨_, rfl⟩
    | startDumpRoute =>
      refine Fueled.congr ?_ (feasible_of_not_reports hen id)
      simp only [call, startDumpRoute, if_neg hnot]
      exact (fueled_startBlock st).bind_total fun st => ⟨_, rfl⟩
    | startDumpTrafficTrace =>
      refine Fueled.congr ?_ (feasible_of_not_reports hen id)
      simp only [call, startDumpTrafficTrace, if_neg hnot]
      exact (fueled_startBlock st).bind_total fun st => ⟨_, rfl⟩
    | checkNeighborTableEntry neighborNum neighborAddr ifAddr =>
      refine Fueled.congr ?_ (feasible_of_no_lines hen rfl)
      simp only [call, checkNeighborTableEntry, if_neg hnot]
      exact (fueled_const _).congr (conclude_some _ _ _)
    | checkRouteTableEntry dstNum dstAddr nextHopNum nextHopAddr ifAddr cost =>
      refine Fueled.congr ?_ (feasible_of_no_lines hen rfl)
      simp only [call, checkRouteTableEntry, if_neg hnot]
      exact (fueled_const _).congr (conclude_some _ _ _)
    | checkTrafficTrace tracer =>
      refine Fueled.congr ?_ (feasible_of_not_reports hen id)
      simp only [call, checkTrafficTrace, if_neg hnot]
      refine Fueled.ite (fun hfull => ?_) fun hmore => ?_
      · exact (fueled_some _).congr (iff_of_true trivial (by simp [linesNeeded, hfull]))
      · rw [linesNeeded, if_neg hmore]
        exact (Istream.fueled_skipEmpty st.ifs).bind_total fun r => by
          obtain ⟨line, ifs⟩ := r
          dsimp only
          split
          · exact ⟨_, rfl⟩
          · exact ⟨_, rfl⟩
    | endDumpNeighbor =>
      refine Fueled.congr ?_ (feasible_of_no_lines hen rfl)
      exact (fueled_const _).congr (endDump_some hen)
    | endDumpRoute =>
      refine Fueled.congr ?_ (feasible_of_no_lines hen rfl)
      exact (fueled_const _).congr (endDump_some hen)
    | endDumpTrafficTrace =>
      refine Fueled.congr ?_ (feasible_of_not_reports hen id)
      simp only [call, endDumpTrafficTrace, if_neg hnot]
      have hskip := fueled_skipUnread (st.entryTotal - st.entryCount).toNat
      split
      · exact (hskip { st with errors := _ }).bind_total fun st => ⟨_, rfl⟩
      · exact (hskip st).bind_total fun st => ⟨_, rfl⟩

/-- The calls all return precisely when each finds the lines it waits for. -/
theorem calls_return_iff (fileName : Text) (file : Option Text) (uninit : UInt32)
    (calls : List Call) :
    (∃ fuel t, run (call uninit fuel) (openResultFile fileName file) calls = some t) ↔
      ∀ fuel, Allows (call uninit fuel) Feasible (openResultFile fileName file) calls :=
  run_returns_iff (fueled_call uninit) (openResultFile fileName file) calls

/-- With a file name and no file, the first DUMP never comes back. -/
theorem missing_file_hangs :
    ¬ ∀ (fileName : Text) (file : Option Text) (uninit : UInt32) (calls : List Call),
      ∃ fuel t, run (call uninit fuel) (openResultFile fileName file) calls = some t := by
  intro h
  obtain ⟨fuel, t, ht⟩ := h [114] none 0 [.startDumpNeighbor]
  obtain ⟨s, hs, _⟩ := foldlM_cons_some ht
  have hline := (fueled_call 0 _ _).returns.mp ⟨fuel, s, hs⟩ rfl
  exact Nat.not_succ_le_zero 0 hline.1

end Returns

end Ns3Routing.TestResult
