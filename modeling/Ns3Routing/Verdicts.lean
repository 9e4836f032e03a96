import Ns3Routing.TestResult
import Ns3Routing.Lib.Log
import Ns3Routing.Lib.Tally

/-! # Verdicts on dumped tables

The file is a sequence of blocks, and a test dumps rows that are checked
against its block. Rows of both tables together are a list that is ticked off,
so the verdict of a test comes from the rows that missed and how many there
were (`test_run`).

`startDumpNeighbor` clears its table before it reads the block.
`startDumpRoute` does not, and a route an earlier test expected and did not
get is still there to be matched. -/

namespace Ns3Routing.TestResult

open Lib
open Codec (Text)

/-! ## Rows -/

inductive TableKind where
  | neighbors
  | routes
  deriving DecidableEq

/-- An entry under its number: a line of a block, or what is dumped. -/
inductive Row where
  | neighbor (num : UInt32) (entry : NeighborTableEntry)
  | route (num : UInt32) (entry : RoutingTableEntry)
  deriving DecidableEq

def Row.key : Row → TableKind × UInt32
  | .neighbor num _ => (.neighbors, num)
  | .route num _ => (.routes, num)

/-- The call that checks a row that is dumped. -/
def Row.check : Row → Call
  | .neighbor num entry => .checkNeighborTableEntry num entry.neighborAddr entry.interfaceAddr
  | .route num entry =>
    .checkRouteTableEntry num entry.destAddr entry.nextHopNum entry.nextHopAddr entry.interfaceAddr
      entry.cost

/-- What the tables hold, as one table of rows. -/
def heldIn (neighbors : Table NeighborTableEntry) (routes : Table RoutingTableEntry) :
    TableKind × UInt32 → Option Row
  | (.neighbors, num) => (neighbors num).map (Row.neighbor num)
  | (.routes, num) => (routes num).map (Row.route num)

def held (st : State) : TableKind × UInt32 → Option Row := heldIn st.neighborTable st.routingTable

/-! ## The text of a block -/

def SpellsNumber (n : UInt32) (token : Text) : Prop :=
  token ≠ [] ∧ (∀ c ∈ token, Istream.digit c = true) ∧ Istream.digitsValue token = n.toNat

def SpellsAddress (address : Ipv4Address) (token : Text) : Prop :=
  token ≠ [] ∧ (∀ c ∈ token, Istream.space c = false) ∧ asciiToIpv4Host token = address

instance (n : UInt32) (token : Text) : Decidable (SpellsNumber n token) :=
  decidable_of_iff (token ≠ [] ∧ token.all Istream.digit = true ∧ Istream.digitsValue token = n.toNat)
    (by rw [List.all_eq_true, SpellsNumber])

instance (address : Ipv4Address) (token : Text) : Decidable (SpellsAddress address token) :=
  decidable_of_iff (token ≠ [] ∧ token.any Istream.space = false ∧ asciiToIpv4Host token = address)
    (by simp [SpellsAddress])

/-- White space, and a token. -/
def Field (spells : Text → Prop) (text : Text) : Prop :=
  ∃ gap token, text = gap ++ token ∧ gap ≠ [] ∧ (∀ c ∈ gap, Istream.space c = true) ∧ spells token

/-- One field after the other. -/
def Fields : List (Text → Prop) → Text → Prop
  | [], text => text = []
  | spells :: fields, text =>
    ∃ field rest, text = field ++ rest ∧ Field spells field ∧ Fields fields rest

/-- The fields of a row, in the order in which they are read. -/
def Row.fields : Row → List (Text → Prop)
  | .neighbor num entry =>
    [SpellsNumber num, SpellsAddress entry.neighborAddr, SpellsAddress entry.interfaceAddr]
  | .route num entry =>
    [SpellsNumber num, SpellsAddress entry.destAddr, SpellsNumber entry.nextHopNum,
      SpellsAddress entry.nextHopAddr, SpellsAddress entry.interfaceAddr, SpellsNumber entry.cost]

inductive Entries where
  | neighbors (entries : List (UInt32 × NeighborTableEntry))
  | routes (entries : List (UInt32 × RoutingTableEntry))

def Entries.rows : Entries → List Row
  | .neighbors entries => entries.map fun (num, entry) => .neighbor num entry
  | .routes entries => entries.map fun (num, entry) => .route num entry

/-- A block: a title on a line of its own, and entries under distinct numbers,
as many as an `int` can count. -/
structure Block where
  title : Text
  entries : Entries
  title_ne : title ≠ []
  title_line : ∀ c ∈ title, c ≠ 10
  nodup : (entries.rows.map Row.key).Nodup
  length_lt : entries.rows.length < 2 ^ 31

def Block.rows (block : Block) : List Row := block.entries.rows

/-- Empty lines, the title, and on further lines the number of entries and
their fields. -/
def Block.Spelled (block : Block) (text : Text) : Prop :=
  ∃ newlines gap count fields, text = newlines ++ (block.title ++ 10 :: (gap ++ (count ++ fields))) ∧
    (∀ c ∈ newlines, c = 10) ∧ (∀ c ∈ gap, Istream.space c = true) ∧
    count ≠ [] ∧ (∀ c ∈ count, Istream.digit c = true) ∧
    Istream.digitsValue count = block.rows.length ∧ Fields (block.rows.flatMap Row.fields) fields

/-- A file of blocks. Each ends its last line. -/
def WellFormed : List Block → Text → Prop
  | [], text => ∀ c ∈ text, c = 10
  | block :: blocks, text => ∃ own rest, text = own ++ rest ∧ block.Spelled own ∧
      (∀ c, rest.head? = some c → c = 10) ∧ WellFormed blocks rest

/-! ## Reading what is there -/

/-- The stream in front of a text, with nothing gone wrong. -/
def behind (text : Text) : Istream := ⟨text, text.isEmpty, false⟩

/-- The text begins with white space, if it does not end. -/
def Ends (text : Text) : Prop := ∀ c, text.head? = some c → Istream.space c = true

section Reading
variable {spells : Text → Prop} {field tail : Text} {s : Istream}

theorem Field.ends (h : Field spells field) (tail : Text) :
    field ++ tail ≠ [] ∧ Ends (field ++ tail) := by
  obtain ⟨gap, token, rfl, hne, hgap, _⟩ := h
  cases gap with
  | nil => exact absurd rfl hne
  | cons c gap =>
    refine ⟨List.cons_ne_nil _ _, fun d hd => ?_⟩
    obtain rfl := Option.some.inj hd
    exact hgap c List.mem_cons_self

theorem good_behind {text : Text} (h : text ≠ []) : (behind text).good = true := by
  cases text with
  | nil => exact absurd rfl h
  | cons c text => rfl

theorem Ends.not_digit (h : Ends tail) (c : UInt8) (hc : tail.head? = some c) :
    Istream.digit c = false := by
  by_contra hdigit
  have hspace := Istream.not_space_of_digit (eq_true_of_ne_false hdigit)
  rw [h c hc] at hspace
  cases hspace

theorem readU32_field {n : UInt32} (hfield : Field (SpellsNumber n) field) (htail : Ends tail)
    (old : UInt32) : (behind (field ++ tail)).readU32 old = (n, behind tail) := by
  have hgood := good_behind (hfield.ends tail).1
  obtain ⟨gap, token, rfl, _, hgap, hne, hdigits, hvalue⟩ := hfield
  have hrest : (behind (gap ++ token ++ tail)).rest = gap ++ (token ++ tail) := List.append_assoc _ _ _
  rw [Istream.readU32, Istream.readNumber_of Istream.toUInt32 hgood hrest hne hgap hdigits
    htail.not_digit, hvalue, Istream.toUInt32, if_pos n.toNat_lt]
  exact congrArg (fun n => (n, behind tail)) UInt32.ofNat_toNat

theorem readWord_field {address : Ipv4Address} (hfield : Field (SpellsAddress address) field)
    (htail : Ends tail) (old : Text) :
    ∃ token, (behind (field ++ tail)).readWord old = (token, behind tail) ∧
      asciiToIpv4Host token = address := by
  have hgood := good_behind (hfield.ends tail).1
  obtain ⟨gap, token, rfl, _, hgap, hne, hword, hvalue⟩ := hfield
  have hrest : (behind (gap ++ token ++ tail)).rest = gap ++ (token ++ tail) := List.append_assoc _ _ _
  exact ⟨token, Istream.readWord_of hgood hrest hne hgap hword htail old, hvalue⟩

theorem fields_append {fields fields' : List (Text → Prop)} {text : Text} :
    Fields (fields ++ fields') text ↔ ∃ own rest, text = own ++ rest ∧ Fields fields own ∧
      Fields fields' rest := by
  induction fields generalizing text with
  | nil =>
    constructor
    · exact fun h => ⟨[], text, rfl, rfl, h⟩
    · intro h
      obtain ⟨own, rest, rfl, rfl, h⟩ := h
      exact h
  | cons spells fields ih =>
    constructor
    · intro h
      obtain ⟨field, rest, rfl, hfield, hrest⟩ := h
      obtain ⟨own, rest, rfl, hown, hrest⟩ := ih.mp hrest
      exact ⟨field ++ own, rest, (List.append_assoc _ _ _).symm, ⟨field, own, rfl, hfield, hown⟩, hrest⟩
    · intro h
      obtain ⟨_, rest, rfl, ⟨field, own, rfl, hfield, hown⟩, hrest⟩ := h
      exact ⟨field, own ++ rest, List.append_assoc _ _ _, hfield, ih.mpr ⟨own, rest, rfl, hown, hrest⟩⟩

theorem Fields.ends {fields : List (Text → Prop)} {text : Text} (h : Fields fields text)
    (htail : Ends tail) : Ends (text ++ tail) := by
  cases fields with
  | nil =>
    obtain rfl : text = [] := h
    exact htail
  | cons spells fields =>
    obtain ⟨field, rest, rfl, hfield, _⟩ := h
    rw [List.append_assoc]
    exact (hfield.ends _).2

/-- Each token behind a white space. -/
theorem fields_of_tokens {fields : List (Text → Prop)} {tokens : List (UInt8 × Text)}
    (h : List.Forall₂ (fun spells token => Istream.space token.1 = true ∧ spells token.2) fields
      tokens) : Fields fields (tokens.flatMap fun token => token.1 :: token.2) := by
  induction h with
  | nil => rfl
  | @cons spells token _ _ hfirst _ ih =>
    refine ⟨token.1 :: token.2, _, rfl,
      ⟨[token.1], token.2, rfl, List.cons_ne_nil _ _, ?_, hfirst.2⟩, ih⟩
    simpa using hfirst.1

/-! Reading a row, and with `toRow` for the kind of row, reading all of them. -/

variable {own : Text} {uninit : UInt32}

variable (uninit) in
theorem readNeighbor_of {num : UInt32} {entry : NeighborTableEntry}
    (h : Fields (Row.neighbor num entry).fields own) (htail : Ends tail) :
    readNeighbor uninit (behind (own ++ tail)) = ((num, entry), behind tail) := by
  obtain ⟨f₁, _, rfl, h₁, f₂, _, rfl, h₂, f₃, _, rfl, h₃, rfl⟩ := h
  simp only [List.append_assoc, List.nil_append]
  have hread₁ := readU32_field h₁ (h₂.ends (f₃ ++ tail)).2 uninit
  obtain ⟨addr1, hread₂, haddr1⟩ := readWord_field h₂ (h₃.ends tail).2 []
  obtain ⟨addr2, hread₃, haddr2⟩ := readWord_field h₃ htail []
  rw [readNeighbor, hread₁]
  dsimp only
  rw [hread₂]
  dsimp only
  rw [hread₃, haddr1, haddr2]

variable (uninit) in
theorem readRoute_of {num : UInt32} {entry : RoutingTableEntry}
    (h : Fields (Row.route num entry).fields own) (htail : Ends tail) :
    readRoute uninit (behind (own ++ tail)) = ((num, entry), behind tail) := by
  obtain ⟨f₁, _, rfl, h₁, f₂, _, rfl, h₂, f₃, _, rfl, h₃, f₄, _, rfl, h₄, f₅, _, rfl, h₅, f₆, _, rfl,
    h₆, rfl⟩ := h
  simp only [List.append_assoc, List.nil_append]
  have hread₁ := readU32_field h₁ (h₂.ends (f₃ ++ (f₄ ++ (f₅ ++ (f₆ ++ tail))))).2 uninit
  obtain ⟨addr1, hread₂, haddr1⟩ := readWord_field h₂ (h₃.ends (f₄ ++ (f₅ ++ (f₆ ++ tail)))).2 []
  have hread₃ := readU32_field h₃ (h₄.ends (f₅ ++ (f₆ ++ tail))).2 uninit
  obtain ⟨addr2, hread₄, haddr2⟩ := readWord_field h₄ (h₅.ends (f₆ ++ tail)).2 []
  obtain ⟨addr3, hread₅, haddr3⟩ := readWord_field h₅ (h₆.ends tail).2 []
  have hread₆ := readU32_field h₆ htail uninit
  rw [readRoute, hread₁]
  dsimp only
  rw [hread₂]
  dsimp only
  rw [hread₃]
  dsimp only
  rw [hread₄]
  dsimp only
  rw [hread₅]
  dsimp only
  rw [hread₆, haddr1, haddr2, haddr3]

theorem readEntries_of {E : Type} {readEntry : Istream → (UInt32 × E) × Istream}
    {toRow : UInt32 × E → Row}
    (hread : ∀ x own tail, Fields (toRow x).fields own → Ends tail →
      readEntry (behind (own ++ tail)) = (x, behind tail))
    (entries : List (UInt32 × E)) (table : Table E)
    (h : Fields ((entries.map toRow).flatMap Row.fields) own) (htail : Ends tail) :
    readEntries readEntry entries.length (behind (own ++ tail)) table =
      (behind tail, entries.foldl (fun (table : Table E) x => Function.update table x.1 (some x.2))
        table) := by
  induction entries generalizing own table with
  | nil =>
    obtain rfl : own = [] := h
    rfl
  | cons x entries ih =>
    rw [List.map_cons, List.flatMap_cons] at h
    obtain ⟨first, rest, rfl, hfirst, hrest⟩ := fields_append.mp h
    rw [List.length_cons, readEntries, List.append_assoc, hread x first _ hfirst (hrest.ends htail)]
    exact ih (Function.update table x.1 (some x.2)) hrest

end Reading

/-! ## Tables of rows -/

section Held
variable (neighbors : Table NeighborTableEntry) (routes : Table RoutingTableEntry)

theorem heldIn_update_neighbor (num : UInt32) (entry : Option NeighborTableEntry) :
    heldIn (Function.update neighbors num entry) routes =
      Function.update (heldIn neighbors routes) (.neighbors, num) (entry.map (Row.neighbor num)) := by
  funext key
  obtain ⟨kind, n⟩ := key
  cases kind with
  | neighbors =>
    by_cases hn : n = num
    · subst hn
      simp [heldIn]
    · simp [heldIn, hn]
  | routes => simp [heldIn]

theorem heldIn_update_route (num : UInt32) (entry : Option RoutingTableEntry) :
    heldIn neighbors (Function.update routes num entry) =
      Function.update (heldIn neighbors routes) (.routes, num) (entry.map (Row.route num)) := by
  funext key
  obtain ⟨kind, n⟩ := key
  cases kind with
  | neighbors => simp [heldIn]
  | routes =>
    by_cases hn : n = num
    · subst hn
      simp [heldIn]
    · simp [heldIn, hn]

theorem heldIn_neighbors (entries : List (UInt32 × NeighborTableEntry)) :
    heldIn (entries.foldl (fun table x => Function.update table x.1 (some x.2)) neighbors) routes =
      expect Row.key (Entries.neighbors entries).rows (heldIn neighbors routes) := by
  induction entries generalizing neighbors with
  | nil => rfl
  | cons x entries ih =>
    rw [List.foldl_cons, ih, heldIn_update_neighbor]
    rfl

theorem heldIn_routes (entries : List (UInt32 × RoutingTableEntry)) :
    heldIn neighbors (entries.foldl (fun table x => Function.update table x.1 (some x.2)) routes) =
      expect Row.key (Entries.routes entries).rows (heldIn neighbors routes) := by
  induction entries generalizing routes with
  | nil => rfl
  | cons x entries ih =>
    rw [List.foldl_cons, ih, heldIn_update_route]
    rfl

end Held

/-! ## A test -/

def Block.start (block : Block) : Call :=
  match block.entries with
  | .neighbors _ => .startDumpNeighbor
  | .routes _ => .startDumpRoute

def Block.stop (block : Block) : Call :=
  match block.entries with
  | .neighbors _ => .endDumpNeighbor
  | .routes _ => .endDumpRoute

/-- What is left of the rows from before when the block is read: the routes of
earlier tests always are. -/
def Block.leaves (block : Block) (before : TableKind × UInt32 → Option Row) :
    TableKind × UInt32 → Option Row :=
  match block.entries with
  | .neighbors _ => fun key => if key.1 = .neighbors then none else before key
  | .routes _ => before

/-- A test: its block, and the rows that are dumped in it. -/
structure Test where
  block : Block
  dumped : List Row

def Test.calls (test : Test) : List Call :=
  test.block.start :: (test.dumped.map Row.check ++ [test.block.stop])

def Test.expected (test : Test) (before : TableKind × UInt32 → Option Row) :
    TableKind × UInt32 → Option Row :=
  expect Row.key test.block.rows (test.block.leaves before)

/-- How many of the rows that are dumped do not match. -/
def Test.mismatches (test : Test) (before : TableKind × UInt32 → Option Row) : ℕ :=
  misses Row.key (test.expected before) test.dumped

/-- The rows after some tests. -/
def heldAfter (tests : List Test) : TableKind × UInt32 → Option Row :=
  tests.foldl (fun before test => test.dumped.foldl (tick Row.key) (test.expected before))
    fun _ => none

/-- The checker is in front of the text of a block. -/
structure AtBlock (block : Block) (own rest : Text) (st : State) : Prop where
  enabled : st.isEnabled = true
  good : st.ifs.good = true
  rest_eq : st.ifs.rest = own ++ rest
  spelled : block.Spelled own
  ends : Ends rest

/-- A state in the middle of a test: the block has been read, and what follows
it is still to come. -/
structure InTest (block : Block) (rest : Text) (output : List Printed) (st : State) : Prop where
  enabled : st.isEnabled = true
  ifs : st.ifs = behind rest
  testName : st.testName = block.title
  entryTotal : st.entryTotal = block.rows.length
  output : st.output = output

section Test
variable {block : Block} {st : State} {own rest : Text} {output : List Printed} {uninit : UInt32}
  {fuel : ℕ}

/-- The tables, the count and the errors are those of the moment. -/
theorem InTest.update (h : InTest block rest output st) (neighborTable : Table NeighborTableEntry)
    (routingTable : Table RoutingTableEntry) (entryCount : ℤ) (errors : List String) :
    InTest block rest output { st with
      neighborTable := neighborTable
      routingTable := routingTable
      entryCount := entryCount
      errors := errors } :=
  ⟨h.enabled, h.ifs, h.testName, h.entryTotal, h.output⟩

theorem startBlock_of (h : AtBlock block own rest st) (hfuel : own.length < fuel) :
    ∃ fields, Fields (block.rows.flatMap Row.fields) fields ∧ startBlock fuel st = some { st with
      testName := block.title
      ifs := behind (fields ++ rest)
      entryTotal := block.rows.length
      entryCount := 0 } := by
  obtain ⟨newlines, gap, count, fields, rfl, hnewlines, hgap, hne, hdigits, hcount, hfields⟩ :=
    h.spelled
  have htitle : st.ifs.rest =
      newlines ++ (block.title ++ 10 :: (gap ++ (count ++ (fields ++ rest)))) := by
    rw [h.rest_eq]
    simp only [List.append_assoc, List.cons_append]
  have hlen : newlines.length < fuel := by
    rw [List.length_append] at hfuel
    omega
  have hskip := Istream.skipEmpty_of h.good htitle hnewlines block.title_ne block.title_line hlen
  have hread := Istream.readNumber_of (s := ⟨gap ++ (count ++ (fields ++ rest)), false, false⟩)
    Istream.toInt rfl rfl hne hgap hdigits (hfields.ends h.ends).not_digit st.entryTotal
  have hint : Istream.toInt false (Istream.digitsValue count) = ((block.rows.length : ℤ), false) := by
    rw [hcount]
    exact if_pos block.length_lt
  rw [hint] at hread
  refine ⟨fields, hfields, ?_⟩
  rw [startBlock, hskip]
  show some { st with
    testName := block.title
    ifs := (Istream.readNumber Istream.toInt ⟨gap ++ (count ++ (fields ++ rest)), false, false⟩
      st.entryTotal).2
    entryTotal := (Istream.readNumber Istream.toInt ⟨gap ++ (count ++ (fields ++ rest)), false, false⟩
      st.entryTotal).1
    entryCount := 0 } = _
  rw [hread]
  rfl

variable (uninit) in
/-- The block is read, its rows are held beside those that are left, and
nothing else is different. -/
theorem start_of (h : AtBlock block own rest st) (hfuel : own.length < fuel) :
    ∃ st', call uninit fuel st block.start = some st' ∧ InTest block rest st.output st' ∧
      st'.errors = [] ∧ st'.entryCount = 0 ∧
      held st' = expect Row.key block.rows (block.leaves (held st)) := by
  obtain ⟨fields, hfields, hstart⟩ := startBlock_of h hfuel
  have hen := h.enabled
  have hends := h.ends
  have hnot : ¬ (!st.isEnabled) = true := by simp [hen]
  obtain ⟨title, entries, title_ne, title_line, nodup, length_lt⟩ := block
  cases entries with
  | neighbors entries =>
    have hread := readEntries_of (fun x own tail => readNeighbor_of uninit) entries
      (fun _ => none) hfields hends
    have hlen : ((Entries.neighbors entries).rows.length : ℤ).toNat = entries.length := by
      simp [Entries.rows]
    refine ⟨{ st with
      neighborTable := entries.foldl (fun table x => Function.update table x.1 (some x.2)) fun _ => none
      ifs := behind rest
      entryTotal := ((Entries.neighbors entries).rows.length : ℤ)
      entryCount := 0
      testName := title
      errors := [] }, ?_, ⟨hen, rfl, rfl, rfl, rfl⟩, rfl, rfl, ?_⟩
    · show startDumpNeighbor uninit fuel st = _
      rw [startDumpNeighbor, if_neg hnot, hstart, Option.bind_eq_bind, Option.bind_some]
      dsimp only [Block.rows]
      rw [hlen, hread]
      rfl
    · refine (heldIn_neighbors _ _ entries).trans (congrArg _ (funext fun key => ?_))
      obtain ⟨kind, num⟩ := key
      cases kind with
      | neighbors => rfl
      | routes => rfl
  | routes entries =>
    have hread := readEntries_of (fun x own tail => readRoute_of uninit) entries
      st.routingTable hfields hends
    have hlen : ((Entries.routes entries).rows.length : ℤ).toNat = entries.length := by
      simp [Entries.rows]
    refine ⟨{ st with
      routingTable := entries.foldl (fun table x => Function.update table x.1 (some x.2))
        st.routingTable
      ifs := behind rest
      entryTotal := ((Entries.routes entries).rows.length : ℤ)
      entryCount := 0
      testName := title
      errors := [] }, ?_, ⟨hen, rfl, rfl, rfl, rfl⟩, rfl, rfl, heldIn_routes _ _ entries⟩
    show startDumpRoute uninit fuel st = _
    rw [startDumpRoute, if_neg hnot, hstart, Option.bind_eq_bind, Option.bind_some]
    dsimp only [Block.rows]
    rw [hlen, hread]
    rfl

theorem neighborError_eq_none_iff (found : Option NeighborTableEntry) (num : UInt32)
    (entry : NeighborTableEntry) :
    neighborError found num entry.neighborAddr entry.interfaceAddr = none ↔ found = some entry := by
  cases found with
  | none => simp [neighborError]
  | some other =>
    obtain ⟨neighborAddr, interfaceAddr⟩ := entry
    obtain ⟨neighborAddr', interfaceAddr'⟩ := other
    simp only [neighborError, Option.some.injEq, NeighborTableEntry.mk.injEq]
    split_ifs <;> grind

theorem routeError_eq_none_iff (found : Option RoutingTableEntry) (entryCount : ℤ) (num : UInt32)
    (entry : RoutingTableEntry) :
    routeError found entryCount num entry.destAddr entry.nextHopNum entry.nextHopAddr
      entry.interfaceAddr entry.cost = none ↔ found = some entry := by
  cases found with
  | none => simp [routeError]
  | some other =>
    obtain ⟨destAddr, nextHopNum, nextHopAddr, interfaceAddr, cost⟩ := entry
    obtain ⟨destAddr', nextHopNum', nextHopAddr', interfaceAddr', cost'⟩ := other
    simp only [routeError, Option.some.injEq, RoutingTableEntry.mk.injEq]
    split_ifs <;> grind

theorem held_key_neighbor (st : State) (num : UInt32) (entry : NeighborTableEntry) :
    held st (Row.neighbor num entry).key = some (.neighbor num entry) ↔
      st.neighborTable num = some entry := by
  simp [held, Row.key, heldIn]

theorem held_key_route (st : State) (num : UInt32) (entry : RoutingTableEntry) :
    held st (Row.route num entry).key = some (.route num entry) ↔
      st.routingTable num = some entry := by
  simp [held, Row.key, heldIn]

theorem reportError_eq {st' : State} {text : String} (h : st.reportError text = some st') :
    st' = { st with errors := st.errors ++ [text] } :=
  (Option.some.inj (Option.ite_none_right_eq_some.mp h).2).symm

/-- A check that returns has ticked the row off or reported an error. -/
theorem conclude_spec {erased st' : State} {error : Option String} (row : Row)
    (hst : st.conclude error erased = some st') (h : InTest block rest output st)
    (herror : error = none ↔ held st row.key = some row) (herased : InTest block rest output erased)
    (hcount : erased.entryCount = st.entryCount) (herrors : erased.errors = st.errors)
    (hheld : held erased = Function.update (held st) row.key none) : InTest block rest output st' ∧
      st'.entryCount = st.entryCount ∧ held st' = tick Row.key (held st) row ∧
      st'.errors.length = st.errors.length + (if held st row.key = some row then 0 else 1) := by
  cases error with
  | none =>
    have hfound := herror.mp rfl
    obtain rfl := Option.some.inj hst
    refine ⟨herased, hcount, ?_, ?_⟩
    · rw [hheld, tick, if_pos hfound]
    · rw [herrors, if_pos hfound]
      rfl
  | some text =>
    have hmissing : ¬ held st row.key = some row := fun h => Option.some_ne_none _ (herror.mpr h)
    obtain rfl := reportError_eq hst
    refine ⟨h.update _ _ _ _, rfl, ?_, ?_⟩
    · rw [tick, if_neg hmissing]
      rfl
    · rw [if_neg hmissing]
      exact List.length_append

theorem check_spec {st' : State} (h : InTest block rest output st) (row : Row)
    (hst : call uninit fuel st row.check = some st') : InTest block rest output st' ∧
      st'.entryCount = st.entryCount + 1 ∧ held st' = tick Row.key (held st) row ∧
      st'.errors.length = st.errors.length + (if held st row.key = some row then 0 else 1) := by
  have hnot : ¬ (!st.isEnabled) = true := by simp [h.enabled]
  have hcounted : InTest block rest output { st with entryCount := st.entryCount + 1 } :=
    h.update _ _ _ _
  cases row with
  | neighbor num entry =>
    have herror := (neighborError_eq_none_iff (st.neighborTable num) num entry).trans
      (held_key_neighbor st num entry).symm
    change checkNeighborTableEntry num entry.neighborAddr entry.interfaceAddr st = some st' at hst
    rw [checkNeighborTableEntry, if_neg hnot] at hst
    exact conclude_spec _ hst hcounted herror (h.update _ _ _ _) rfl rfl
      (heldIn_update_neighbor _ _ num none)
  | route num entry =>
    have herror := (routeError_eq_none_iff (st.routingTable num) (st.entryCount + 1) num entry).trans
      (held_key_route st num entry).symm
    change checkRouteTableEntry num entry.destAddr entry.nextHopNum entry.nextHopAddr
      entry.interfaceAddr entry.cost st = some st' at hst
    rw [checkRouteTableEntry, if_neg hnot] at hst
    exact conclude_spec _ hst hcounted herror (h.update _ _ _ _) rfl rfl
      (heldIn_update_route _ _ num none)

variable (uninit fuel) in
/-- A check returns if a row of `error` is left. -/
theorem check_exists (st : State) (row : Row) (hroom : st.errors.length < 100) :
    ∃ st', call uninit fuel st row.check = some st' := by
  cases row with
  | neighbor num entry =>
    show ∃ st', checkNeighborTableEntry num entry.neighborAddr entry.interfaceAddr st = some st'
    unfold checkNeighborTableEntry
    split
    · exact ⟨st, rfl⟩
    · exact (conclude_some _ _ _).mpr fun _ => hroom
  | route num entry =>
    show ∃ st', checkRouteTableEntry num entry.destAddr entry.nextHopNum entry.nextHopAddr
      entry.interfaceAddr entry.cost st = some st'
    unfold checkRouteTableEntry
    split
    · exact ⟨st, rfl⟩
    · exact (conclude_some _ _ _).mpr fun _ => hroom

theorem checks_spec {st' : State} (h : InTest block rest output st) (rows : List Row)
    (hrun : run (call uninit fuel) st (rows.map Row.check) = some st') :
    InTest block rest output st' ∧ st'.entryCount = st.entryCount + rows.length ∧
      held st' = rows.foldl (tick Row.key) (held st) ∧
      st'.errors.length = st.errors.length + misses Row.key (held st) rows := by
  induction rows generalizing st with
  | nil =>
    obtain rfl := Option.some.inj hrun
    exact ⟨h, (Int.add_zero _).symm, rfl, rfl⟩
  | cons row rows ih =>
    obtain ⟨st₁, hcheck, hrest⟩ := foldlM_cons_some hrun
    obtain ⟨hin, hcount, hheld, hlen⟩ := check_spec h row hcheck
    obtain ⟨hin₂, hcount₂, hheld₂, hlen₂⟩ := ih hin hrest
    refine ⟨hin₂, ?_, ?_, ?_⟩
    · rw [hcount₂, hcount, List.length_cons]
      push_cast
      omega
    · rw [hheld₂, hheld]
      rfl
    · rw [hlen₂, hlen, hheld, misses]
      omega

variable (uninit fuel) in
theorem checks_exists (h : InTest block rest output st) (rows : List Row)
    (hroom : st.errors.length + misses Row.key (held st) rows ≤ 99) :
    ∃ st', run (call uninit fuel) st (rows.map Row.check) = some st' := by
  induction rows generalizing st with
  | nil => exact ⟨st, rfl⟩
  | cons row rows ih =>
    rw [misses] at hroom
    obtain ⟨st₁, hcheck⟩ := check_exists uninit fuel st row (by omega)
    obtain ⟨hin, _, hheld, hlen⟩ := check_spec h row hcheck
    obtain ⟨st₂, hrun⟩ := ih hin (by rw [hheld]; omega)
    refine ⟨st₂, ?_⟩
    rw [run, List.map_cons, List.foldlM_cons, hcheck]
    exact hrun

theorem printVerdict_of (h : InTest block rest output st) : st.printVerdict.isEnabled = true ∧
    st.printVerdict.ifs = behind rest ∧ held st.printVerdict = held st ∧
    st.printVerdict.output = output ++ [.verdict block.title st.errors.isEmpty st.errors] := by
  refine ⟨h.enabled, h.ifs, rfl, ?_⟩
  rw [State.printVerdict, h.output, h.testName]

theorem call_stop (block : Block) (st : State) : call uninit fuel st block.stop = endDump st := by
  unfold Block.stop
  cases block.entries with
  | neighbors entries => rfl
  | routes entries => rfl

/-- The verdict says that there was no mismatch, and not fewer rows than in the
block. -/
theorem stop_spec {st' : State} (h : InTest block rest output st)
    (hst : call uninit fuel st block.stop = some st') :
    ∃ correct errors, st'.isEnabled = true ∧ st'.ifs = behind rest ∧ held st' = held st ∧
      st'.output = output ++ [.verdict block.title correct errors] ∧
      (correct = true ↔ st.errors.length = 0 ∧ (block.rows.length : ℤ) ≤ st.entryCount) := by
  have hnot : ¬ (!st.isEnabled) = true := by simp [h.enabled]
  rw [call_stop, endDump, if_neg hnot, h.entryTotal] at hst
  by_cases hless : st.entryCount < (block.rows.length : ℤ)
  · rw [if_pos hless] at hst
    obtain ⟨st₁, hreport, hst⟩ := Option.bind_eq_some_iff.mp hst
    obtain rfl := Option.some.inj hst
    obtain rfl := reportError_eq hreport
    have hreported : ∀ errors, InTest block rest output { st with errors := errors } :=
      h.update _ _ _
    obtain ⟨hen, hifs, hheld, houtput⟩ := printVerdict_of (hreported (st.errors ++ [_]))
    refine ⟨_, _, hen, hifs, hheld, houtput, iff_of_false ?_ fun hboth => by omega⟩
    rw [List.isEmpty_eq_false_iff.mpr (by simp)]
    exact Bool.false_ne_true
  · rw [if_neg hless] at hst
    obtain rfl := Option.some.inj hst
    obtain ⟨hen, hifs, hheld, houtput⟩ := printVerdict_of h
    refine ⟨_, _, hen, hifs, hheld, houtput, ?_⟩
    rw [List.isEmpty_iff, List.length_eq_zero_iff]
    exact (and_iff_left (by omega)).symm

/-- What a whole test has done when it returns, from a state in front of its
block. -/
theorem test_spec {test : Test} {st' : State} (h : AtBlock test.block own rest st)
    (hfuel : own.length < fuel) (hrun : run (call uninit fuel) st test.calls = some st') :
    ∃ correct errors, st'.isEnabled = true ∧ st'.ifs = behind rest ∧
      held st' = test.dumped.foldl (tick Row.key) (test.expected (held st)) ∧
      st'.output = st.output ++ [.verdict test.block.title correct errors] ∧
      (correct = true ↔ test.mismatches (held st) = 0 ∧
        test.block.rows.length ≤ test.dumped.length) := by
  obtain ⟨st₁, hstart, hin₁, herrors₁, hcount₁, hheld₁⟩ := start_of uninit h hfuel
  rw [run, Test.calls, List.foldlM_cons, hstart] at hrun
  obtain ⟨st₂, hchecks, hstop⟩ := run_snoc.mp hrun
  obtain ⟨hin₂, hcount₂, hheld₂, hlen₂⟩ := checks_spec hin₁ test.dumped hchecks
  obtain ⟨correct, errors, hen₃, hifs₃, hheld₃, houtput₃, hcorrect⟩ := stop_spec hin₂ hstop
  refine ⟨correct, errors, hen₃, hifs₃, ?_, houtput₃, hcorrect.trans ?_⟩
  · rw [hheld₃, hheld₂, hheld₁]
    rfl
  · have hmis : st₂.errors.length = test.mismatches (held st) := by
      rw [hlen₂, herrors₁, hheld₁]
      exact Nat.zero_add _
    rw [hmis, hcount₂, hcount₁, Int.zero_add, Int.ofNat_le]

variable (uninit) in
/-- A test returns when a row of `error` is left for every mismatch, and one
more. -/
theorem test_exists {test : Test} (h : AtBlock test.block own rest st)
    (hroom : test.mismatches (held st) ≤ 99) (hfuel : own.length < fuel) :
    ∃ st', run (call uninit fuel) st test.calls = some st' := by
  obtain ⟨st₁, hstart, hin₁, herrors₁, _, hheld₁⟩ := start_of uninit h hfuel
  have hmis : st₁.errors.length + misses Row.key (held st₁) test.dumped =
      test.mismatches (held st) := by
    rw [herrors₁, hheld₁]
    exact Nat.zero_add _
  obtain ⟨st₂, hchecks⟩ :=
    checks_exists uninit fuel hin₁ test.dumped (by omega)
  obtain ⟨hin₂, _, _, hlen₂⟩ := checks_spec hin₁ test.dumped hchecks
  obtain ⟨st₃, hstop⟩ := (endDump_some hin₂.enabled).mpr fun _ => by omega
  refine ⟨st₃, ?_⟩
  rw [run, Test.calls, List.foldlM_cons, hstart]
  exact run_snoc.mpr ⟨st₂, hchecks, (call_stop test.block st₂).trans hstop⟩

variable (uninit) in
/-- A whole test, from a state in front of its block. -/
theorem test_run {test : Test} (h : AtBlock test.block own rest st)
    (hroom : test.mismatches (held st) ≤ 99) (hfuel : own.length < fuel) :
    ∃ st' correct errors, run (call uninit fuel) st test.calls = some st' ∧ st'.isEnabled = true ∧
      st'.ifs = behind rest ∧
      held st' = test.dumped.foldl (tick Row.key) (test.expected (held st)) ∧
      st'.output = st.output ++ [.verdict test.block.title correct errors] ∧
      (correct = true ↔ test.mismatches (held st) = 0 ∧
        test.block.rows.length ≤ test.dumped.length) := by
  obtain ⟨st', hrun⟩ := test_exists uninit h hroom hfuel
  obtain ⟨correct, errors, hspec⟩ := test_spec h hfuel hrun
  exact ⟨st', correct, errors, hrun, hspec⟩

/-- **When a test is told to be correct**, with any number of mismatches. -/
theorem test_correct_iff (test : Test) (uninit : UInt32) (h : AtBlock test.block own rest st) :
    (∃ fuel st' errors, run (call uninit fuel) st test.calls = some st' ∧
        st'.output = st.output ++ [.verdict test.block.title true errors]) ↔
      test.mismatches (held st) = 0 ∧ test.block.rows.length ≤ test.dumped.length := by
  constructor
  · intro hcorrect
    obtain ⟨fuel, st', errors, hrun, houtput⟩ := hcorrect
    have hrun := run_fuel_mono (fueled_call uninit) (Nat.le_max_left fuel (own.length + 1)) hrun
    obtain ⟨correct, errors', _, _, _, houtput', hverdict⟩ :=
      test_spec h (Nat.le_max_right fuel (own.length + 1)) hrun
    have hlast := List.append_cancel_left (houtput.symm.trans houtput')
    obtain ⟨_, rfl, _⟩ := Printed.verdict.inj (List.cons.inj hlast).1
    exact hverdict.mp rfl
  · intro hnone
    obtain ⟨st', correct, errors, hrun, _, _, _, houtput, hverdict⟩ :=
      test_run uninit h (by omega) (Nat.lt_succ_self own.length)
    obtain rfl := hverdict.mpr hnone
    exact ⟨own.length + 1, st', errors, hrun, houtput⟩

end Test

/-! ## Sequences of tests -/

section Tests
variable {tests : List Test} {more : List Block} {text : Text} {uninit : UInt32} {fuel : ℕ}

theorem Block.Spelled.ne_nil {block : Block} (h : block.Spelled text) : text ≠ [] := by
  obtain ⟨newlines, gap, count, fields, rfl, _⟩ := h
  simp [block.title_ne]

/-- After some tests: their verdicts are printed, each from the mismatches of its
rows and their number, and the stream is in front of the blocks that are left. -/
structure After (tests : List Test) (more : List Block) (text : Text) (st : State) : Prop where
  enabled : st.isEnabled = true
  good : st.ifs.rest ≠ [] → st.ifs.good = true
  length_le : st.ifs.rest.length ≤ text.length
  wellFormed : WellFormed more st.ifs.rest
  rows : held st = heldAfter tests
  printed : st.output.length = tests.length
  verdict : ∀ (k : ℕ) (test : Test), tests[k]? = some test → ∃ correct errors,
    st.output[k]? = some (.verdict test.block.title correct errors) ∧
    (correct = true ↔ test.mismatches (heldAfter (tests.take k)) = 0 ∧
      test.block.rows.length ≤ test.dumped.length)

variable (uninit) in
/-- One more test. -/
theorem After.test {test : Test} {st : State} (h : After tests (test.block :: more) text st)
    (hmis : test.mismatches (heldAfter tests) ≤ 99) (hfuel : text.length < fuel) :
    ∃ st', run (call uninit fuel) st test.calls = some st' ∧
      After (tests ++ [test]) more text st' := by
  obtain ⟨own, rest, hsplit, hown, hhead, hmore⟩ := h.wellFormed
  have hne : st.ifs.rest ≠ [] := by
    rw [hsplit]
    exact List.append_ne_nil_of_left_ne_nil hown.ne_nil _
  have hends : Ends rest := by
    intro c hc
    rw [hhead c hc]
    rfl
  have hlen := h.length_le
  rw [hsplit, List.length_append] at hlen
  rw [← h.rows] at hmis
  obtain ⟨st', correct, errors, hrun, hen, hifs, hheld, houtput, hcorrect⟩ :=
    test_run uninit ⟨h.enabled, h.good hne, hsplit, hown, hends⟩ hmis (by omega : own.length < fuel)
  have hrest : st'.ifs.rest = rest := congrArg Istream.rest hifs
  refine ⟨st', hrun, hen, ?_, ?_, hrest ▸ hmore, ?_, ?_, fun k other hother => ?_⟩
  · rw [hifs]
    exact good_behind
  · rw [hrest]
    exact Nat.le_trans (Nat.le_add_left _ _) hlen
  · rw [hheld, h.rows, heldAfter, heldAfter, List.foldl_append]
    rfl
  · rw [houtput, List.length_append, List.length_append, h.printed]
    rfl
  · rcases (getElem?_snoc tests test other k).mp hother with hother | ⟨rfl, rfl⟩
    · -- an earlier verdict stays where it is
      have hlt := (List.getElem?_eq_some_iff.mp hother).1
      obtain ⟨correct', errors', hprinted, hcorrect'⟩ := h.verdict k other hother
      refine ⟨correct', errors', ?_, ?_⟩
      · rw [houtput, List.getElem?_append_left (by rw [h.printed]; exact hlt), hprinted]
      · rw [List.take_append_of_le_length (Nat.le_of_lt hlt)]
        exact hcorrect'
    · refine ⟨correct, errors, ?_, ?_⟩
      · rw [houtput, ← h.printed, List.getElem?_concat_length]
      · rw [List.take_left, ← h.rows]
        exact hcorrect

variable (uninit) in
theorem after_run {st : State} (h : After [] (tests.map Test.block ++ more) text st)
    (hmis : ∀ (k : ℕ) (test : Test), tests[k]? = some test →
      test.mismatches (heldAfter (tests.take k)) ≤ 99) (hfuel : text.length < fuel) :
    ∃ st', run (call uninit fuel) st (tests.flatMap Test.calls) = some st' ∧
      After tests more text st' := by
  induction tests using List.reverseRecOn generalizing more with
  | nil => exact ⟨st, rfl, h⟩
  | append_singleton tests test ih =>
    have hblocks : After [] (tests.map Test.block ++ test.block :: more) text st := by
      simpa using h
    have hmis' : ∀ (k : ℕ) (test : Test), tests[k]? = some test →
        test.mismatches (heldAfter (tests.take k)) ≤ 99 := by
      intro k other hother
      have hlt := (List.getElem?_eq_some_iff.mp hother).1
      have hle := hmis k other (by rw [List.getElem?_append_left hlt, hother])
      rwa [List.take_append_of_le_length (Nat.le_of_lt hlt)] at hle
    have hlast := hmis tests.length test (by simp)
    rw [List.take_left] at hlast
    obtain ⟨st₁, hrun₁, h₁⟩ := ih hblocks hmis'
    obtain ⟨st₂, hrun₂, h₂⟩ := h₁.test uninit hlast hfuel
    refine ⟨st₂, ?_, h₂⟩
    rw [List.flatMap_append, List.flatMap_singleton]
    exact run_append.mpr ⟨st₁, hrun₁, hrun₂⟩

/-- The checker has opened a file of blocks. -/
theorem after_open {fileName : Text} {blocks : List Block} (hname : fileName ≠ [])
    (hfile : WellFormed blocks text) : After [] blocks text (openResultFile fileName (some text)) := by
  have hifs : (openResultFile fileName (some text)).ifs = Istream.ofText text := if_neg hname
  refine ⟨decide_eq_true hname, fun _ => ?_, ?_, ?_, ?_, rfl, nofun⟩
  · rw [hifs]
    rfl
  · rw [hifs]
    exact Nat.le_refl _
  · rw [hifs]
    exact hfile
  · funext key
    obtain ⟨kind, num⟩ := key
    cases kind with
    | neighbors => rfl
    | routes => rfl

/-- The same from the start, with a file of blocks. -/
theorem file_run (fileName : Text) (uninit : UInt32) (hname : fileName ≠ [])
    (hfile : WellFormed (tests.map Test.block ++ more) text)
    (hmis : ∀ (k : ℕ) (test : Test), tests[k]? = some test →
      test.mismatches (heldAfter (tests.take k)) ≤ 99) :
    ∃ fuel st, run (call uninit fuel) (openResultFile fileName (some text))
        (tests.flatMap Test.calls) = some st ∧ st.output.length = tests.length ∧
      ∀ (k : ℕ) (test : Test), tests[k]? = some test → ∃ correct errors,
        st.output[k]? = some (.verdict test.block.title correct errors) ∧
        (correct = true ↔ test.mismatches (heldAfter (tests.take k)) = 0 ∧
          test.block.rows.length ≤ test.dumped.length) := by
  obtain ⟨st, hrun, hafter⟩ :=
    after_run uninit (after_open hname hfile) hmis (Nat.lt_succ_self text.length)
  exact ⟨text.length + 1, st, hrun, hafter.printed, hafter.verdict⟩

/-- A test is told to be correct precisely when its rows are those of its block,
unless routes that earlier tests left stand for rows of the block that are not
dumped. -/
theorem verdicts_exact_iff (fileName : Text) (uninit : UInt32) (text : Text) (tests : List Test)
    (more : List Block) (hname : fileName ≠ [])
    (hfile : WellFormed (tests.map Test.block ++ more) text)
    (hmis : ∀ (k : ℕ) (test : Test), tests[k]? = some test →
      test.mismatches (heldAfter (tests.take k)) ≤ 99) :
    ∃ fuel st, run (call uninit fuel) (openResultFile fileName (some text))
        (tests.flatMap Test.calls) = some st ∧ st.output.length = tests.length ∧
      ∀ (k : ℕ) (test : Test), tests[k]? = some test → ∃ correct errors,
        st.output[k]? = some (.verdict test.block.title correct errors) ∧
        ((correct = true ↔ test.dumped.Perm test.block.rows) ↔
          ¬ Fooled Row.key test.block.rows (test.block.leaves (heldAfter (tests.take k)))
            test.dumped) := by
  obtain ⟨fuel, st, hrun, hlen, hverdicts⟩ := file_run fileName uninit hname hfile hmis
  refine ⟨fuel, st, hrun, hlen, fun k test htest => ?_⟩
  obtain ⟨correct, errors, hprinted, hcorrect⟩ := hverdicts k test htest
  refine ⟨correct, errors, hprinted, ?_⟩
  rw [hcorrect]
  exact tally_exact_iff test.block.nodup _ test.dumped

end Tests

/-! Blocks with one route, for which every number but the destination is 1. -/

def oneRoute (title : UInt8) (num : UInt32) (h : title ≠ 10) : Block where
  title := [title]
  entries := .routes [(num, ⟨1, 1, 1, 1, 1⟩)]
  title_ne := List.cons_ne_nil _ _
  title_line := by simpa using h
  nodup := List.nodup_singleton _
  length_lt := by simp [Entries.rows]

theorem oneRoute_spelled (newlines : Text) (title digit : UInt8) (num : UInt32) (h : title ≠ 10)
    (hnewlines : ∀ c ∈ newlines, c = 10) (hnum : SpellsNumber num [digit]) :
    (oneRoute title num h).Spelled
      (newlines ++ [title, 10, 49, 10, digit, 32, 49, 32, 49, 32, 49, 32, 49, 32, 49]) := by
  have hone : SpellsNumber 1 [49] := by decide
  have haddress : SpellsAddress 1 [49] := by decide
  have hfields : Fields (Row.route num ⟨1, 1, 1, 1, 1⟩).fields
      ([(10, [digit]), (32, [49]), (32, [49]), (32, [49]), (32, [49]), (32, [49])].flatMap
        fun token => token.1 :: token.2) :=
    fields_of_tokens (.cons ⟨rfl, hnum⟩ (.cons ⟨rfl, haddress⟩ (.cons ⟨rfl, hone⟩
      (.cons ⟨rfl, haddress⟩ (.cons ⟨rfl, haddress⟩ (.cons ⟨rfl, hone⟩ .nil))))))
  exact ⟨newlines, [], [49], _, rfl, hnewlines, nofun, List.cons_ne_nil _ _,
    List.all_eq_true.mp rfl, rfl, hfields⟩

/-- The test whose block has a route to 3, with some rows. -/
def testA (dumped : List Row) : Test := ⟨oneRoute 65 3 (by decide), dumped⟩

/-- The test whose block has a route to 4. -/
def testB (dumped : List Row) : Test := ⟨oneRoute 66 4 (by decide), dumped⟩

/-- The two blocks, one behind the other. -/
def textAB : Text :=
  [65, 10, 49, 10, 51, 32, 49, 32, 49, 32, 49, 32, 49, 32, 49,
    10, 66, 10, 49, 10, 52, 32, 49, 32, 49, 32, 49, 32, 49, 32, 49]

theorem wellFormed_textAB (dumpedA dumpedB : List Row) :
    WellFormed ([testA dumpedA, testB dumpedB].map Test.block ++ []) textAB := by
  refine ⟨_, _, rfl, oneRoute_spelled [] 65 51 3 (by decide) nofun (by decide), ?_, _, [], rfl,
    oneRoute_spelled [10] 66 52 4 (by decide) (by simp) (by decide), nofun, nofun⟩
  intro c hc
  exact (Option.some.inj hc).symm

theorem mismatches_textAB (dumpedA dumpedB : List Row)
    (hA : (testA dumpedA).mismatches (heldAfter []) ≤ 99)
    (hB : (testB dumpedB).mismatches (heldAfter [testA dumpedA]) ≤ 99) (k : ℕ) (test : Test)
    (htest : [testA dumpedA, testB dumpedB][k]? = some test) :
    test.mismatches (heldAfter ([testA dumpedA, testB dumpedB].take k)) ≤ 99 := by
  match k with
  | 0 =>
    obtain rfl := Option.some.inj htest
    exact hA
  | 1 =>
    obtain rfl := Option.some.inj htest
    exact hB
  | k + 2 => cases htest

/-- Both tests dump the route of their block. -/
theorem verdicts_exact_textAB :
    let tests := [testA [.route 3 ⟨1, 1, 1, 1, 1⟩], testB [.route 4 ⟨1, 1, 1, 1, 1⟩]]
    ∃ fuel st, run (call 0 fuel) (openResultFile [114] (some textAB)) (tests.flatMap Test.calls) =
        some st ∧ st.output.length = tests.length ∧
      ∀ (k : ℕ) (test : Test), tests[k]? = some test → ∃ correct errors,
        st.output[k]? = some (.verdict test.block.title correct errors) ∧
        ((correct = true ↔ test.dumped.Perm test.block.rows) ↔
          ¬ Fooled Row.key test.block.rows (test.block.leaves (heldAfter (tests.take k)))
            test.dumped) :=
  verdicts_exact_iff [114] 0 textAB _ [] (by decide) (wellFormed_textAB _ _)
    (mismatches_textAB _ _ (by decide) (by decide))

/-- The route to 3 is not dumped when it is expected. It is dumped in the next
test instead of the route to 4, and that test is correct. -/
theorem leftover_route_passes :
    ¬ ∀ (fileName : Text) (uninit : UInt32) (text : Text) (tests : List Test) (more : List Block),
      fileName ≠ [] → WellFormed (tests.map Test.block ++ more) text →
      (∀ (k : ℕ) (test : Test), tests[k]? = some test →
        test.mismatches (heldAfter (tests.take k)) ≤ 99) →
      ∃ fuel st, run (call uninit fuel) (openResultFile fileName (some text))
          (tests.flatMap Test.calls) = some st ∧ st.output.length = tests.length ∧
        ∀ (k : ℕ) (test : Test), tests[k]? = some test → ∃ correct errors,
          st.output[k]? = some (.verdict test.block.title correct errors) ∧
          (correct = true ↔ test.dumped.Perm test.block.rows) := by
  intro h
  have hmis := mismatches_textAB [] [.route 3 ⟨1, 1, 1, 1, 1⟩] (by decide) (by decide)
  obtain ⟨fuel, st, hrun, _, hexact⟩ := h [114] 0 textAB _ [] (by decide) (wellFormed_textAB _ _) hmis
  obtain ⟨fuel', st', hrun', _, hverdicts⟩ :=
    file_run [114] 0 (by decide) (wellFormed_textAB _ _) hmis
  have h₁ := run_fuel_mono (fueled_call 0) (Nat.le_max_left fuel fuel') hrun
  have h₂ := run_fuel_mono (fueled_call 0) (Nat.le_max_right fuel fuel') hrun'
  obtain rfl := Option.some.inj (h₁.symm.trans h₂)
  obtain ⟨correct, errors, hprinted, hperm⟩ := hexact 1 _ rfl
  obtain ⟨correct', errors', hprinted', hcorrect⟩ := hverdicts 1 _ rfl
  obtain ⟨_, rfl, _⟩ := Printed.verdict.inj (Option.some.inj (hprinted.symm.trans hprinted'))
  have hnot := hperm.mp (hcorrect.mpr (by decide))
  exact absurd hnot (by decide)

end Ns3Routing.TestResult
