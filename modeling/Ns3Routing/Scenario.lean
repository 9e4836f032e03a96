import Ns3Routing.Tokenize
import Ns3Routing.Lib.Istream

/-! # The scenario loop of `SimulatorMain::Start`

The loop reads a line, splits it into `m_tokens` and either moves the time
pointer or hands the tokens to `ProcessCommandTokens`. `m_tokens` is a member
and `Tokenize` appends to it, so what one line leaves there is in front of the
next. It is cleared on the way out of every branch but one: a TIME command
with a wrong number of arguments stays. -/

namespace Ns3Routing.SimulatorMain

open Lib

/-- `std::toupper` on a byte. -/
def toupper (c : UInt8) : UInt8 := if 97 ≤ c ∧ c ≤ 122 then c - 32 else c

def upperCase (str : Text) : Text := str.map toupper

/-- The bytes of a literal. -/
def bytes (literal : List Char) : Text := literal.map fun c => UInt8.ofNat c.toNat

def timeCommand : Text := bytes ['T', 'I', 'M', 'E']

/-! ## Times -/

/-- A `Time`, in the default resolution of nanoseconds. -/
structure Time where
  ns : Int64
  deriving DecidableEq

/-- `MilliSeconds`. The product is a `uint64_t` and is stored as an `int64_t`. -/
def milliSeconds (ms : UInt64) : Time := ⟨(ms * 1000000).toInt64⟩

def Time.getMilliSeconds (time : Time) : UInt64 := time.ns.toUInt64 / 1000000

/-- `sin >> delta`, where the variable has no value before. -/
def extractU64 (argument : Text) : Option UInt64 := Istream.extract Istream.toUInt64 argument

/-! ## The loop -/

/-- `m_tokens`, the time pointer, and the calls of `ProcessCommandTokens` so
far. -/
structure Script where
  tokens : List Text
  time : Time
  calls : List (List Text × Time)
  deriving DecidableEq

/-- One pass of the loop, after `getline`. -/
def scriptLine (st : Script) (commandLine : Text) : Option Script :=
  if commandLine = [] then some st
  else do
    let tokens ← tokenize commandLine st.tokens [32]
    match tokens with
    | [] => return { st with tokens := [] }
    | command :: arguments =>
      let command := upperCase command
      if command = timeCommand then
        match arguments with
        | [argument] =>
          -- with white space for an argument the variable has no value
          let delta ← extractU64 argument
          return { st with
            time := milliSeconds (st.time.getMilliSeconds + delta)
            tokens := [] }
        | _ => return { st with tokens := command :: arguments }
      else
        return { st with
          calls := st.calls ++ [(command :: arguments, milliSeconds st.time.getMilliSeconds)]
          tokens := [] }

/-- The line, and what comes after its end unless that is the end of the
file. -/
def getline (file : Text) : Text × Option Text :=
  (file.takeWhile (· != 10), match file.dropWhile (· != 10) with
    | [] => none
    | _ :: rest => some rest)

theorem length_lt_of_getline {file rest : Text} (h : (getline file).2 = some rest) :
    rest.length < file.length := by
  have hle := (List.dropWhile_sublist (· != 10) : (file.dropWhile (· != 10)).Sublist file).length_le
  unfold getline at h
  dsimp only at h
  split at h
  · cases h
  · rename_i c rest' hdrop
    obtain rfl := Option.some.inj h
    rw [hdrop, List.length_cons] at hle
    exact hle

/-- The `do` loop, until the end of the file was reached. -/
def readLines (file : Text) (st : Script) : Option Script :=
  (scriptLine st (getline file).1).bind fun st =>
    match _hrest : (getline file).2 with
    | none => some st
    | some rest => readLines rest st
termination_by file.length
decreasing_by exact length_lt_of_getline _hrest

/-- The part of `Start` that processes the script file. -/
def readScript (file : Text) : Option Script :=
  readLines file { tokens := [], time := milliSeconds 0, calls := [] }

/-! ## What a line asks for -/

/-- The tokens of a line. -/
def lineWords (commandLine : Text) : List Text := words ([32].contains ·) commandLine

inductive Line where
  | blank
  | time (argument : Text)
  /-- A TIME command without an argument. -/
  | loneTime
  /-- A TIME command with more than one. -/
  | longTime (arguments : List Text)
  | command (tokens : List Text)

def Line.of (commandLine : Text) : Line :=
  match lineWords commandLine with
  | [] => .blank
  | first :: arguments =>
    if upperCase first = timeCommand then
      match arguments with
      | [argument] => .time argument
      | [] => .loneTime
      | arguments => .longTime arguments
    else .command (upperCase first :: arguments)

def lines (file : Text) : List Text := file.splitOn 10

/-- The number an argument spells, if it is not white space. -/
def argumentNumber (argument : Text) : Option ℤ := Istream.extract Istream.toNumber argument

/-- The calls the lines ask for, each with the sum of the numbers of the TIME
commands before it. -/
def expected : ℤ → List Line → List (List Text × ℤ)
  | _, [] => []
  | ms, .time argument :: ls => expected (ms + (argumentNumber argument).getD 0) ls
  | ms, .command tokens :: ls => (tokens, ms) :: expected ms ls
  | ms, _ :: ls => expected ms ls

/-- TIME commands with a wrong number of arguments have none and come in
pairs, with only blank lines between. `pending` means that the first of a pair
has been read. -/
def Paired (pending : Bool) : List Line → Prop
  | [] => pending = false
  | .blank :: ls => Paired pending ls
  | .loneTime :: ls => Paired (!pending) ls
  | .longTime _ :: _ => False
  | .time _ :: ls => pending = false ∧ Paired false ls
  | .command _ :: ls => pending = false ∧ Paired false ls

/-! ## Adding up times

The numbers of TIME commands are added up in milliseconds that go through 64
bits of nanoseconds each time. -/

/-- The whole milliseconds that are left of `ms` in 64 bits of nanoseconds. -/
def wrap (ms : ℤ) : ℤ := ms * 1000000 % 2 ^ 64 / 1000000

/-- A number that 64 bits do not hold is read as the greatest one. -/
def clamp (number : ℤ) : ℤ := if number.natAbs < 2 ^ 64 then number else 2 ^ 64 - 1

/-- Every TIME command has a number, and at every command the `sum` of the
numbers before it is a time and what wrapping around has left of it. -/
def Kept : (sum left : ℤ) → List Line → Prop
  | _, _, [] => True
  | sum, left, .time argument :: ls =>
    ∃ number, argumentNumber argument = some number ∧
      Kept (sum + number) (wrap (left + clamp number)) ls
  | sum, left, .command _ :: ls => left = sum ∧ sum * 1000000 < 2 ^ 63 ∧ Kept sum left ls
  | sum, left, _ :: ls => Kept sum left ls

section Times
variable {time : Time} {sum left number : ℤ} {delta : UInt64}

theorem wrap_eq (h : 0 ≤ left) (hlt : left * 1000000 < 2 ^ 64) : wrap left = left := by
  unfold wrap
  omega

/-- The time pointer stands at `left` milliseconds. -/
def AtTime (time : Time) (left : ℤ) : Prop := (time.getMilliSeconds.toNat : ℤ) = left

theorem getMilliSeconds_milliSeconds (ms : UInt64) :
    ((milliSeconds ms).getMilliSeconds.toNat : ℤ) = wrap ms.toNat := by
  have hnat : (milliSeconds ms).getMilliSeconds.toNat = ms.toNat * 1000000 % 2 ^ 64 / 1000000 := by
    show ((ms * 1000000).toInt64.toUInt64 / 1000000).toNat = _
    rw [UInt64.toUInt64_toInt64, UInt64.toNat_div, UInt64.toNat_mul]
    rfl
  rw [hnat, Int.natCast_div, Int.natCast_mod, Int.natCast_mul]
  rfl

theorem AtTime.bound (h : AtTime time left) : 0 ≤ left ∧ left * 1000000 < 2 ^ 64 := by
  have hdiv : time.getMilliSeconds.toNat = time.ns.toUInt64.toNat / 1000000 := by
    rw [Time.getMilliSeconds, UInt64.toNat_div]
    rfl
  have hlt := time.ns.toUInt64.toNat_lt
  unfold AtTime at h
  omega

theorem AtTime.get (h : AtTime time left) : AtTime (milliSeconds time.getMilliSeconds) left := by
  obtain ⟨hnonneg, hlt⟩ := h.bound
  rw [AtTime, getMilliSeconds_milliSeconds, h, wrap_eq hnonneg hlt]

/-- What is read is the number, up to multiples of 2^64. -/
theorem clamp_toUInt64 (negative : Bool) (n : ℕ) :
    ((Istream.toUInt64 negative n).1.toNat : ℤ) % 2 ^ 64 =
      clamp (Istream.toNumber negative n).1 % 2 ^ 64 := by
  have habs : (Istream.toNumber negative n).1.natAbs = n := by
    cases negative with
    | false => rfl
    | true => exact Int.natAbs_neg n
  rw [Istream.toUInt64, clamp, habs]
  by_cases hn : n < 2 ^ 64
  · rw [if_pos hn, if_pos hn]
    have hnat : (UInt64.ofNat n).toNat = n := (UInt64.toNat_ofNat').trans (Nat.mod_eq_of_lt hn)
    cases negative with
    | false => exact congrArg (fun m : ℕ => (m : ℤ) % 2 ^ 64) hnat
    | true =>
      have hsub : (0 - UInt64.ofNat n).toNat = (2 ^ 64 - n) % 2 ^ 64 := by
        rw [UInt64.toNat_sub, hnat]
        rfl
      show (((0 - UInt64.ofNat n).toNat : ℕ) : ℤ) % 2 ^ 64 = -(n : ℤ) % 2 ^ 64
      rw [hsub]
      omega
  · rw [if_neg hn, if_neg hn]
    rfl

theorem AtTime.add {argument : Text} (h : AtTime time left)
    (hread : extractU64 argument = some delta) (hnumber : argumentNumber argument = some number) :
    AtTime (milliSeconds (time.getMilliSeconds + delta)) (wrap (left + clamp number)) := by
  rcases Istream.extract_cases argument with hnone | ⟨negative, n, hsome⟩
  · rw [extractU64, hnone] at hread
    cases hread
  · obtain rfl := Option.some.inj ((hsome Istream.toUInt64).symm.trans hread)
    obtain rfl := Option.some.inj ((hsome Istream.toNumber).symm.trans hnumber)
    have hclamp := clamp_toUInt64 negative n
    have hsum : ((time.getMilliSeconds + (Istream.toUInt64 negative n).1).toNat : ℤ) % 2 ^ 64 =
        (left + clamp (Istream.toNumber negative n).1) % 2 ^ 64 := by
      have hword : ((2 ^ 64 : ℕ) : ℤ) = 2 ^ 64 := rfl
      rw [UInt64.toNat_add, ← h, Int.natCast_mod, Int.natCast_add, hword,
        Int.emod_emod_of_dvd _ (Int.dvd_refl _), Int.add_emod, hclamp, ← Int.add_emod]
    rw [AtTime, getMilliSeconds_milliSeconds, wrap, wrap, Int.mul_emod, hsum, ← Int.mul_emod]

/-- Where a command is called. -/
theorem AtTime.exact_iff (h : AtTime time left) :
    (milliSeconds time.getMilliSeconds).ns.toInt = sum * 1000000 ↔
      left = sum ∧ sum * 1000000 < 2 ^ 63 := by
  obtain ⟨hnonneg, hlt⟩ := h.bound
  have hnat : (time.getMilliSeconds * 1000000).toBitVec.toNat = time.getMilliSeconds.toNat * 1000000 := by
    show (time.getMilliSeconds * 1000000).toNat = _
    rw [UInt64.toNat_mul]
    unfold AtTime at h
    exact Nat.mod_eq_of_lt (show time.getMilliSeconds.toNat * 1000000 < 2 ^ 64 by omega)
  show (time.getMilliSeconds * 1000000).toInt64.toBitVec.toInt = _ ↔ _
  rw [UInt64.toBitVec_toInt64, BitVec.toInt_eq_toNat_cond, hnat]
  unfold AtTime at h
  split
  · omega
  · -- no multiple of 10^6 differs from another one by 2^64
    omega

end Times

/-! ## The lines one after the other -/

theorem readLines_last {file : Text} {st : Script} (h : (getline file).2 = none) :
    readLines file st = scriptLine st (getline file).1 := by
  rw [readLines]
  cases scriptLine st (getline file).1 with
  | none => rfl
  | some st' =>
    simp only [Option.bind_some]
    split
    · rfl
    · rename_i hrest
      rw [h] at hrest
      cases hrest

theorem readLines_next {file rest : Text} {st : Script} (h : (getline file).2 = some rest) :
    readLines file st = (scriptLine st (getline file).1).bind (readLines rest) := by
  rw [readLines]
  cases scriptLine st (getline file).1 with
  | none => rfl
  | some st' =>
    simp only [Option.bind_some]
    split
    · rename_i hnone
      rw [h] at hnone
      cases hnone
    · rename_i rest' hrest
      rw [h] at hrest
      obtain rfl := Option.some.inj hrest
      rfl

theorem lines_getline (file : Text) : lines file = (getline file).1 ::
    (match (getline file).2 with
      | none => []
      | some rest => lines rest) := by
  have hline : ∀ c ∈ file.takeWhile (· != 10), (c == 10) = false := by
    intro c hc
    simpa using List.mem_takeWhile_imp hc
  have happend := List.takeWhile_append_dropWhile (p := (· != 10)) (l := file)
  unfold getline lines List.splitOn
  dsimp only
  cases hdrop : file.dropWhile (· != 10) with
  | nil =>
    rw [hdrop, List.append_nil] at happend
    rw [happend] at hline ⊢
    exact List.splitOnP_eq_singleton hline
  | cons c rest =>
    have hc : (c == 10) = true := by
      have hhead := List.head_dropWhile_not (· != 10) (hdrop ▸ List.cons_ne_nil c rest)
      simpa [hdrop] using hhead
    rw [hdrop] at happend
    rw [← happend, List.splitOnP_append_cons_of_forall_mem hline c hc, happend]

theorem readLines_eq (file : Text) (st : Script) :
    readLines file st = (lines file).foldlM scriptLine st := by
  induction hlen : file.length using Nat.strong_induction_on generalizing file st with
  | _ k ih =>
    rw [lines_getline]
    cases hrest : (getline file).2 with
    | none =>
      rw [readLines_last hrest]
      simp
    | some rest =>
      rw [readLines_next hrest]
      simp only [List.foldlM_cons]
      refine congrArg _ (funext fun st => ?_)
      exact ih _ (hlen ▸ length_lt_of_getline hrest) rest st rfl

/-! ## What a line does -/

theorem upperCase_timeCommand : upperCase timeCommand = timeCommand := by decide

theorem toupper_eq_T {c : UInt8} (h : toupper c = 84) : c = 84 ∨ c = 116 := by
  unfold toupper at h
  split at h
  · have hnat : (c - 32).toNat = 84 := congrArg UInt8.toNat h
    have hlt := c.toNat_lt
    rw [UInt8.toNat_sub] at hnat
    have hnat : (2 ^ 8 - 32 + c.toNat) % 2 ^ 8 = 84 := hnat
    refine Or.inr (UInt8.toNat_inj.mp ?_)
    show c.toNat = 116
    omega
  · exact Or.inl h

/-- A spelling of TIME is no number, and `delta` is 0. -/
theorem extractU64_time {argument : Text} (h : upperCase argument = timeCommand) :
    extractU64 argument = some 0 := by
  have htime : timeCommand = [84, 73, 77, 69] := rfl
  rw [htime] at h
  cases argument with
  | nil => cases h
  | cons c rest =>
    rcases toupper_eq_T (List.cons.inj h).1 with rfl | rfl
    · rfl
    · rfl

/-- The line, when `m_tokens` is empty. -/
def Line.apply (st : Script) : Line → Option Script
  | .blank => some st
  | .time argument => (extractU64 argument).map fun delta =>
    { st with time := milliSeconds (st.time.getMilliSeconds + delta) }
  | .loneTime => some { st with tokens := [timeCommand] }
  | .longTime arguments => some { st with tokens := timeCommand :: arguments }
  | .command tokens =>
    some { st with calls := st.calls ++ [(tokens, milliSeconds st.time.getMilliSeconds)] }

section Step
variable {st st' : Script} {commandLine : Text} {held : List Text}

theorem tokenize_line (commandLine : Text) (tokens : List Text) :
    tokenize commandLine tokens [32] = some (tokens ++ lineWords commandLine) :=
  tokenize_eq commandLine tokens [32]

theorem scriptLine_clear (h : st.tokens = []) :
    scriptLine st commandLine = (Line.of commandLine).apply st := by
  obtain ⟨tokens, time, calls⟩ := st
  obtain rfl : tokens = [] := h
  unfold scriptLine Line.of
  by_cases hline : commandLine = []
  · subst hline
    rfl
  · rw [if_neg hline, tokenize_line]
    simp only [List.nil_append, Option.bind_eq_bind, Option.bind_some]
    cases lineWords commandLine with
    | nil => rfl
    | cons first arguments =>
      dsimp only
      by_cases hfirst : upperCase first = timeCommand
      · rw [if_pos hfirst, if_pos hfirst, hfirst]
        match arguments with
        | [] | _ :: _ :: _ => rfl
        | [argument] =>
          cases hread : extractU64 argument <;> simp [Line.apply, hread]
      · rw [if_neg hfirst, if_neg hfirst]
        rfl

/-- The line, when a TIME is held in `m_tokens`: it is read as the rest of
that command. -/
theorem scriptLine_held (h : st.tokens = timeCommand :: held) (hlen : held.length ≠ 1) :
    scriptLine st commandLine = match held ++ lineWords commandLine with
      | [argument] => (extractU64 argument).map fun delta =>
        { st with
          time := milliSeconds (st.time.getMilliSeconds + delta)
          tokens := [] }
      | arguments => some { st with tokens := timeCommand :: arguments } := by
  obtain ⟨tokens, time, calls⟩ := st
  obtain rfl : tokens = timeCommand :: held := h
  unfold scriptLine
  by_cases hline : commandLine = []
  · subst hline
    rw [if_pos rfl, show lineWords [] = [] from rfl, List.append_nil]
    match held with
    | [] => rfl
    | [_] => exact absurd rfl hlen
    | _ :: _ :: _ => rfl
  · rw [if_neg hline, tokenize_line]
    simp only [List.cons_append, Option.bind_eq_bind, Option.bind_some, upperCase_timeCommand,
      if_true]
    match held ++ lineWords commandLine with
    | [] | _ :: _ :: _ => rfl
    | [argument] => cases hread : extractU64 argument <;> simp [hread]

theorem scriptLine_held_cases (h : st.tokens = timeCommand :: held) (hlen : held.length ≠ 1)
    (hline : scriptLine st commandLine = some st') :
    st'.calls = st.calls ∧
      ((∃ argument delta, held ++ lineWords commandLine = [argument] ∧ st'.tokens = [] ∧
          extractU64 argument = some delta ∧
          st'.time = milliSeconds (st.time.getMilliSeconds + delta)) ∨
        (held ++ lineWords commandLine).length ≠ 1 ∧ st'.time = st.time ∧
          st'.tokens = timeCommand :: (held ++ lineWords commandLine)) := by
  rw [scriptLine_held h hlen] at hline
  generalize held ++ lineWords commandLine = arguments at hline ⊢
  match arguments with
  | [argument] =>
    obtain ⟨delta, hread, rfl⟩ := Option.map_eq_some_iff.mp hline
    exact ⟨rfl, Or.inl ⟨argument, delta, rfl, rfl, hread, rfl⟩⟩
  | [] | _ :: _ :: _ =>
    obtain rfl := Option.some.inj hline
    exact ⟨rfl, Or.inr ⟨by simp, rfl, rfl⟩⟩

theorem Line.of_nil (h : lineWords commandLine = []) : Line.of commandLine = .blank := by
  rw [Line.of, h]

theorem Line.of_singleton {first : Text} (h : lineWords commandLine = [first]) :
    Line.of commandLine =
      if upperCase first = timeCommand then .loneTime else .command [upperCase first] := by
  rw [Line.of, h]

/-- With more than one token a line is not blank, and if it is a TIME command,
it has an argument. -/
theorem Line.of_long (h : 2 ≤ (lineWords commandLine).length) :
    Line.of commandLine ≠ .blank ∧ Line.of commandLine ≠ .loneTime := by
  unfold Line.of
  generalize lineWords commandLine = tokens at h ⊢
  match tokens with
  | [] | [_] => simp at h
  | first :: second :: rest =>
    dsimp only
    split
    · cases rest with
      | nil => exact ⟨nofun, nofun⟩
      | cons third rest => exact ⟨nofun, nofun⟩
    · exact ⟨nofun, nofun⟩

theorem Line.of_longTime {arguments : List Text} (h : Line.of commandLine = .longTime arguments) :
    2 ≤ arguments.length := by
  unfold Line.of at h
  generalize lineWords commandLine = tokens at h
  match tokens with
  | [] => cases h
  | first :: rest =>
    dsimp only at h
    split at h
    · match rest with
      | [] | [_] => cases h
      | a :: b :: rest =>
        obtain rfl := Line.longTime.inj h
        simp
    · cases h

end Step

/-! ## Whole scripts -/

section Run
variable {st st' : Script} {held : List Text} {ls : List Text} {sum left : ℤ}

def Line.isCommand : Line → Bool
  | .command _ => true
  | _ => false

theorem length_expected (sum : ℤ) (kinds : List Line) :
    (expected sum kinds).length = kinds.countP Line.isCommand := by
  induction kinds generalizing sum with
  | nil => rfl
  | cons kind kinds ih =>
    cases kind with
    | command tokens =>
      rw [List.countP_cons_of_pos rfl, ← ih sum]
      rfl
    | blank | loneTime | longTime _ | time _ =>
      rw [List.countP_cons_of_neg (by simp [Line.isCommand])]
      exact ih _

/-- What the line leaves in `m_tokens`. -/
def Line.leaves : Line → List Text
  | .loneTime => [timeCommand]
  | .longTime arguments => timeCommand :: arguments
  | _ => []

/-- The call the line makes. -/
def Line.called (time : Time) : Line → List (List Text × Time)
  | .command tokens => [(tokens, milliSeconds time.getMilliSeconds)]
  | _ => []

theorem Line.tokens_apply {kind : Line} (htokens : st.tokens = []) (h : kind.apply st = some st') :
    st'.tokens = kind.leaves := by
  cases kind with
  | loneTime | longTime _ => rw [← Option.some.inj h, Line.leaves]
  | blank | command _ =>
    rw [← Option.some.inj h]
    exact htokens
  | time _ =>
    obtain ⟨_, _, rfl⟩ := Option.map_eq_some_iff.mp h
    exact htokens

theorem Line.calls_apply {kind : Line} (h : kind.apply st = some st') :
    st'.calls = st.calls ++ kind.called st.time := by
  cases kind with
  | command tokens => rw [← Option.some.inj h, Line.called]
  | blank | loneTime | longTime _ =>
    rw [← Option.some.inj h]
    exact (List.append_nil _).symm
  | time _ =>
    obtain ⟨_, _, rfl⟩ := Option.map_eq_some_iff.mp h
    exact (List.append_nil _).symm

theorem Line.length_calls_apply {kind : Line} (h : kind.apply st = some st') :
    st'.calls.length = st.calls.length + if kind.isCommand then 1 else 0 := by
  rw [Line.calls_apply h, List.length_append]
  cases kind with
  | blank | loneTime | longTime _ | time _ | command _ => rfl

/-- `m_tokens` is empty, or it holds a TIME command with a wrong number of
arguments. -/
def Holds (st : Script) : Prop :=
  st.tokens = [] ∨ ∃ held, st.tokens = timeCommand :: held ∧ held.length ≠ 1

theorem Holds.step {line : Text} (h : Holds st) (hline : scriptLine st line = some st') :
    Holds st' := by
  rcases h with htokens | ⟨held, htokens, hlen⟩
  · rw [scriptLine_clear htokens] at hline
    have hleft := Line.tokens_apply htokens hline
    cases hkind : Line.of line with
    | blank | time _ | command _ =>
      rw [hkind] at hleft
      exact Or.inl hleft
    | loneTime =>
      rw [hkind] at hleft
      exact Or.inr ⟨[], hleft, by simp⟩
    | longTime arguments =>
      have hlong := Line.of_longTime hkind
      rw [hkind] at hleft
      exact Or.inr ⟨arguments, hleft, by omega⟩
  · rcases (scriptLine_held_cases htokens hlen hline).2 with ⟨_, _, _, hnone, _⟩ | ⟨hlen', _, hsome⟩
    · exact Or.inl hnone
    · exact Or.inr ⟨_, hsome, hlen'⟩

/-- Calls are only made for lines that are commands. -/
theorem run_calls_le (h : ls.foldlM scriptLine st = some st') (hst : Holds st) :
    st'.calls.length ≤ st.calls.length + (ls.map Line.of).countP Line.isCommand := by
  induction ls generalizing st with
  | nil =>
    obtain rfl := Option.some.inj h
    exact Nat.le_add_right _ _
  | cons line ls ih =>
    obtain ⟨st₁, hline, hrest⟩ := foldlM_cons_some h
    have hle := ih hrest (hst.step hline)
    rw [List.map_cons, List.countP_cons]
    rcases hst with htokens | ⟨held, htokens, hlen⟩
    · rw [scriptLine_clear htokens] at hline
      rw [Line.length_calls_apply hline] at hle
      omega
    · rw [(scriptLine_held_cases htokens hlen hline).1] at hle
      omega

/-- With two tokens after TIME, nothing gets `m_tokens` empty again. -/
theorem run_stuck (h : ls.foldlM scriptLine st = some st')
    (hst : ∃ held, st.tokens = timeCommand :: held ∧ 2 ≤ held.length) : st'.tokens ≠ [] := by
  have hkeep : ∀ s line t, line ∈ ls →
      (∃ held, s.tokens = timeCommand :: held ∧ 2 ≤ held.length) → scriptLine s line = some t →
      ∃ held, t.tokens = timeCommand :: held ∧ 2 ≤ held.length := by
    intro s line t _ hs hline
    obtain ⟨held, htokens, hlen⟩ := hs
    have hlong : 2 ≤ (held ++ lineWords line).length := by
      rw [List.length_append]
      omega
    rcases (scriptLine_held_cases htokens (by omega) hline).2 with ⟨_, _, hone, _⟩ | ⟨_, _, hsome⟩
    · rw [hone] at hlong
      simp at hlong
    · exact ⟨_, hsome, hlong⟩
  obtain ⟨held, htokens, _⟩ := foldlM_invariant _ hkeep h hst
  rw [htokens]
  exact List.cons_ne_nil _ _

/-- What `m_tokens` holds while the second TIME of a pair is to come. -/
def pendingTokens (pending : Bool) : List Text := if pending then [timeCommand] else []

/-- A line other than a TIME with too many arguments, when nothing is held. -/
theorem Line.apply_paired {kind : Line} (htokens : st.tokens = []) (h : kind.apply st = some st')
    (hkind : ∀ arguments, kind ≠ .longTime arguments) : ∃ pending,
      st'.tokens = pendingTokens pending ∧
      ∀ kinds, Paired false (kind :: kinds) ↔ Paired pending kinds := by
  have hleft := Line.tokens_apply htokens h
  cases kind with
  | blank => exact ⟨false, hleft, fun _ => Iff.rfl⟩
  | time _ | command _ => exact ⟨false, hleft, fun _ => and_iff_right rfl⟩
  | loneTime => exact ⟨true, hleft, fun _ => Iff.rfl⟩
  | longTime arguments => exact absurd rfl (hkind arguments)

/-- A line while the second TIME of a pair is to come: a blank line, that TIME,
a command with one token, which is swallowed, or one with more. -/
theorem scriptLine_pending {line : Text} (hst : st.tokens = pendingTokens true)
    (hline : scriptLine st line = some st') : st'.calls = st.calls ∧
      ((Line.of line = .blank ∧ st'.tokens = pendingTokens true ∧ st'.time = st.time) ∨
        (Line.of line = .loneTime ∧ st'.tokens = [] ∧
          st'.time = milliSeconds st.time.getMilliSeconds) ∨
        ((Line.of line).isCommand = true ∧ st'.tokens = []) ∨
        (Line.of line ≠ .blank ∧ Line.of line ≠ .loneTime ∧
          ∃ held, st'.tokens = timeCommand :: held ∧ 2 ≤ held.length)) := by
  have hheld : st.tokens = timeCommand :: [] := hst
  obtain ⟨hcalls, hcases⟩ := scriptLine_held_cases hheld (by simp) hline
  rw [List.nil_append] at hcases
  refine ⟨hcalls, ?_⟩
  rcases hcases with ⟨argument, delta, hwords, htokens, hread, htime⟩ | ⟨hlen, htime, htokens⟩
  · have hkind := Line.of_singleton hwords
    by_cases hspelled : upperCase argument = timeCommand
    · rw [if_pos hspelled] at hkind
      obtain rfl := Option.some.inj ((extractU64_time hspelled).symm.trans hread)
      rw [UInt64.add_zero] at htime
      exact Or.inr (Or.inl ⟨hkind, htokens, htime⟩)
    · rw [if_neg hspelled] at hkind
      exact Or.inr (Or.inr (Or.inl ⟨by rw [hkind]; rfl, htokens⟩))
  · by_cases hwords : lineWords line = []
    · rw [hwords] at htokens
      exact Or.inl ⟨Line.of_nil hwords, htokens, htime⟩
    · have hpos := List.length_pos_of_ne_nil hwords
      have hlong : 2 ≤ (lineWords line).length := by omega
      obtain ⟨hblank, hlone⟩ := Line.of_long hlong
      exact Or.inr (Or.inr (Or.inr ⟨hblank, hlone, _, htokens, by omega⟩))

/-- In a script with paired TIME commands that line is blank, or the second
TIME, which asks for nothing. -/
theorem scriptLine_paired {line : Text} {kinds : List Line} (hst : st.tokens = pendingTokens true)
    (hp : Paired true (Line.of line :: kinds)) : ∃ st₁ pending, scriptLine st line = some st₁ ∧
      st₁.calls = st.calls ∧ st₁.tokens = pendingTokens pending ∧ Paired pending kinds ∧
      (∀ left, AtTime st.time left → AtTime st₁.time left) ∧
      (∀ sum, expected sum (Line.of line :: kinds) = expected sum kinds) ∧
      ∀ sum left, Kept sum left (Line.of line :: kinds) ↔ Kept sum left kinds := by
  have hheld : st.tokens = timeCommand :: [] := hst
  cases hwords : lineWords line with
  | nil =>
    have hline := scriptLine_held hheld (by simp) |>.trans (by rw [hwords, List.append_nil])
    rw [Line.of_nil hwords] at hp ⊢
    exact ⟨_, true, hline, rfl, rfl, hp, fun _ h => h, fun _ => rfl, fun _ _ => Iff.rfl⟩
  | cons first rest =>
    cases rest with
    | nil =>
      have hkind := Line.of_singleton hwords
      split_ifs at hkind with hspelled
      · have hline := scriptLine_held hheld (by simp) |>.trans (by rw [hwords, List.nil_append])
        simp only [extractU64_time hspelled, Option.map_some, UInt64.add_zero] at hline
        rw [hkind] at hp ⊢
        exact ⟨_, false, hline, rfl, rfl, hp, fun _ h => h.get, fun _ => rfl, fun _ _ => Iff.rfl⟩
      · rw [hkind] at hp
        exact absurd hp.1 (by simp)
    | cons second rest =>
      obtain ⟨hblank, hlone⟩ := Line.of_long (hwords ▸ (by simp : 2 ≤ (first :: second :: rest).length))
      generalize Line.of line = kind at hp hblank hlone
      cases kind with
      | blank => exact absurd rfl hblank
      | loneTime => exact absurd rfl hlone
      | longTime arguments => exact absurd hp id
      | time _ | command _ => exact absurd hp.1 (by simp)

/-- TIME commands that are not paired leave something in `m_tokens`, or
swallow a command. -/
theorem run_unpaired {pending : Bool} (h : ls.foldlM scriptLine st = some st')
    (hst : st.tokens = pendingTokens pending) (hp : ¬ Paired pending (ls.map Line.of)) :
    st'.tokens ≠ [] ∨
      st'.calls.length < st.calls.length + (ls.map Line.of).countP Line.isCommand := by
  induction ls generalizing st pending with
  | nil =>
    obtain rfl := Option.some.inj h
    cases pending with
    | false => exact absurd rfl hp
    | true => exact Or.inl (by rw [hst]; exact List.cons_ne_nil _ _)
  | cons line ls ih =>
    obtain ⟨st₁, hline, hrest⟩ := foldlM_cons_some h
    rw [List.map_cons] at hp ⊢
    rw [List.countP_cons]
    cases pending with
    | false =>
      rw [scriptLine_clear hst] at hline
      by_cases hlong : ∃ arguments, Line.of line = .longTime arguments
      · obtain ⟨arguments, hkind⟩ := hlong
        have hheld := Line.tokens_apply hst hline
        rw [hkind] at hheld
        exact Or.inl (run_stuck hrest ⟨arguments, hheld, Line.of_longTime hkind⟩)
      · push Not at hlong
        obtain ⟨pending, htokens, hpaired⟩ := Line.apply_paired hst hline hlong
        rw [hpaired] at hp
        refine (ih hrest htokens hp).imp_right fun hlt => ?_
        rw [Line.length_calls_apply hline] at hlt
        omega
    | true =>
      obtain ⟨hcalls, hcases⟩ := scriptLine_pending hst hline
      rcases hcases with ⟨hkind, htokens, _⟩ | ⟨hkind, htokens, _⟩ | ⟨hcommand, htokens⟩ |
        ⟨_, _, hstuck⟩
      · rw [hkind] at hp ⊢
        refine (ih hrest htokens hp).imp_right fun hlt => ?_
        rw [hcalls] at hlt
        exact hlt
      · rw [hkind] at hp ⊢
        have hclear : st₁.tokens = pendingTokens false := htokens
        refine (ih hrest hclear hp).imp_right fun hlt => ?_
        rw [hcalls] at hlt
        exact hlt
      · have hle := run_calls_le hrest (Or.inl htokens)
        rw [hcalls] at hle
        rw [hcommand, if_pos rfl]
        exact Or.inr (by omega)
      · exact Or.inl (run_stuck hrest hstuck)

/-- The call is the wanted one, at exactly its time. -/
def Meets (call : List Text × Time) (wanted : List Text × ℤ) : Prop :=
  call.1 = wanted.1 ∧ call.2.ns.toInt = wanted.2 * 1000000

/-- The rest of a script makes the calls its lines ask for. -/
def Calls (st : Script) (sum : ℤ) (ls : List Text) : Prop :=
  ∃ st' calls, ls.foldlM scriptLine st = some st' ∧ st'.tokens = [] ∧
    st'.calls = st.calls ++ calls ∧ List.Forall₂ Meets calls (expected sum (ls.map Line.of))

/-- Calls that are made stay made. -/
theorem run_calls_prefix (h : ls.foldlM scriptLine st = some st') (hst : Holds st) :
    st.calls <+: st'.calls := by
  induction ls generalizing st with
  | nil => exact Option.some.inj h ▸ List.prefix_refl _
  | cons line ls ih =>
    obtain ⟨st₁, hline, hrest⟩ := foldlM_cons_some h
    refine List.IsPrefix.trans ?_ (ih hrest (hst.step hline))
    rcases hst with htokens | ⟨held, htokens, hlen⟩
    · rw [scriptLine_clear htokens] at hline
      rw [Line.calls_apply hline]
      exact List.prefix_append _ _
    · have hsame := (scriptLine_held_cases htokens hlen hline).1
      exact hsame ▸ List.prefix_refl _

/-- One line: what it asks for in `C` and the calls of the rest. -/
theorem calls_cons_iff {st₁ : Script} {line : Text} {made : List (List Text × Time)} {C : Prop}
    {sum₁ : ℤ} (hline : scriptLine st line = some st₁) (hst₁ : Holds st₁)
    (hmade : st₁.calls = st.calls ++ made)
    (hexpected : ∀ rest, List.Forall₂ Meets (made ++ rest) (expected sum ((line :: ls).map Line.of)) ↔
      C ∧ List.Forall₂ Meets rest (expected sum₁ (ls.map Line.of))) :
    Calls st sum (line :: ls) ↔ C ∧ Calls st₁ sum₁ ls := by
  constructor
  · intro h
    obtain ⟨st', calls, hrun, htokens, hcalls, hmeets⟩ := h
    obtain ⟨st₂, hline₂, hrest⟩ := foldlM_cons_some hrun
    obtain rfl := Option.some.inj (hline.symm.trans hline₂)
    obtain ⟨rest, hprefix⟩ := run_calls_prefix hrest hst₁
    have happend : calls = made ++ rest := by
      rw [hmade, List.append_assoc, hcalls] at hprefix
      exact (List.append_cancel_left hprefix).symm
    rw [happend, hexpected] at hmeets
    exact ⟨hmeets.1, st', rest, hrest, htokens, hprefix.symm, hmeets.2⟩
  · intro h
    obtain ⟨hC, st', rest, hrest, htokens, hcalls, hmeets⟩ := h
    refine ⟨st', made ++ rest, ?_, htokens, ?_, (hexpected rest).mpr ⟨hC, hmeets⟩⟩
    · rw [List.foldlM_cons, hline]
      exact hrest
    · rw [hcalls, hmade, List.append_assoc]

theorem holds_pending {pending : Bool} (hst : st.tokens = pendingTokens pending) : Holds st := by
  cases pending with
  | false => exact Or.inl hst
  | true => exact Or.inr ⟨[], hst, by simp⟩

/-- A line that makes no call. -/
theorem calls_silent_iff {st₁ : Script} {line : Text} {pending : Bool} {sum₁ : ℤ}
    (hline : scriptLine st line = some st₁) (hst₁ : st₁.tokens = pendingTokens pending)
    (hcalls : st₁.calls = st.calls)
    (hexpected : expected sum ((line :: ls).map Line.of) = expected sum₁ (ls.map Line.of)) :
    Calls st sum (line :: ls) ↔ Calls st₁ sum₁ ls := by
  rw [calls_cons_iff hline (holds_pending hst₁) (hcalls.trans (List.append_nil _).symm)
    fun rest => by rw [hexpected, List.nil_append, true_and], true_and]

/-- A command line. -/
theorem calls_command_iff {st₁ : Script} {line : Text} {tokens : List Text}
    (htime : AtTime st.time left) (hline : scriptLine st line = some st₁) (hst₁ : st₁.tokens = [])
    (hkind : Line.of line = .command tokens)
    (hcalls : st₁.calls = st.calls ++ [(tokens, milliSeconds st.time.getMilliSeconds)]) :
    Calls st sum (line :: ls) ↔ (left = sum ∧ sum * 1000000 < 2 ^ 63) ∧ Calls st₁ sum ls := by
  refine calls_cons_iff hline (Or.inl hst₁) hcalls fun rest => ?_
  rw [List.map_cons, hkind, expected, List.singleton_append, List.forall₂_cons, Meets,
    htime.exact_iff]
  simp

/-- With paired TIME commands every command is called, at its time precisely
when the times are kept. -/
theorem calls_iff_kept {pending : Bool} (hst : st.tokens = pendingTokens pending)
    (htime : AtTime st.time left) (hp : Paired pending (ls.map Line.of)) :
    Calls st sum ls ↔ Kept sum left (ls.map Line.of) := by
  induction ls generalizing st pending sum left with
  | nil =>
    have hnone : pending = false := hp
    subst hnone
    exact iff_of_true ⟨st, [], rfl, hst, (List.append_nil _).symm, List.Forall₂.nil⟩ trivial
  | cons line ls ih =>
    rw [List.map_cons] at hp ⊢
    cases pending with
    | false =>
      have hclear : scriptLine st line = (Line.of line).apply st := scriptLine_clear hst
      cases hkind : Line.of line with
      | blank =>
        rw [hkind] at hp hclear
        rw [calls_silent_iff hclear hst rfl (by rw [List.map_cons, hkind]; rfl)]
        exact ih hst htime hp
      | loneTime =>
        rw [hkind] at hp hclear
        have htokens : pendingTokens true = [timeCommand] := rfl
        rw [calls_silent_iff hclear htokens.symm rfl (by rw [List.map_cons, hkind]; rfl)]
        exact ih htokens.symm htime hp
      | longTime arguments =>
        rw [hkind] at hp
        exact absurd hp id
      | command tokens =>
        rw [hkind] at hp hclear
        rw [calls_command_iff htime hclear hst hkind rfl, Kept, and_assoc]
        exact and_congr_right fun _ => and_congr_right fun _ => ih hst htime hp.2
      | time argument =>
        rw [hkind] at hp hclear
        rw [Kept]
        rcases Istream.extract_cases argument with hnone | ⟨negative, n, hsome⟩
        · -- without a number the line is undefined
          have hread : extractU64 argument = none := hnone _
          have hnumber : argumentNumber argument = none := hnone _
          rw [Line.apply, hread, Option.map_none] at hclear
          refine iff_of_false ?_ ?_
          · rintro ⟨st', _, hrun, _⟩
            obtain ⟨_, hline, _⟩ := foldlM_cons_some hrun
            rw [hclear] at hline
            cases hline
          · rintro ⟨_, hsome, _⟩
            rw [hnumber] at hsome
            cases hsome
        · have hread : extractU64 argument = some _ := hsome _
          have hnumber : argumentNumber argument = some _ := hsome _
          rw [Line.apply, hread, Option.map_some] at hclear
          have hexpected : expected sum ((line :: ls).map Line.of) =
              expected (sum + (Istream.toNumber negative n).1) (ls.map Line.of) := by
            rw [List.map_cons, hkind, expected, hnumber, Option.getD_some]
          have hnow := htime.add hread hnumber
          obtain ⟨st₁, rfl, htokens⟩ : ∃ st₁ : Script, st₁ = { st with
              time := milliSeconds (st.time.getMilliSeconds + (Istream.toUInt64 negative n).1) } ∧
              st₁.tokens = pendingTokens false := ⟨_, rfl, hst⟩
          rw [calls_silent_iff hclear hst rfl hexpected, hnumber, ih htokens hnow hp.2]
          simp
    | true =>
      obtain ⟨st₁, pending, hline, hcalls, htokens, hp₁, hnow, hexpected, hkept⟩ :=
        scriptLine_paired hst hp
      rw [calls_silent_iff hline htokens hcalls (hexpected sum), hkept]
      exact ih htokens (hnow left htime) hp₁

end Run

/-- The tokens of every command line are handed over once, in the order of the
lines and at the sum of the numbers of the TIME commands before, and
`m_tokens` is empty at the end. -/
def Executes (file : Text) : Prop :=
  ∃ st, readScript file = some st ∧ st.tokens = [] ∧
    List.Forall₂ Meets st.calls (expected 0 ((lines file).map Line.of))

/-- **When a scenario is executed line by line**: when TIME commands with a
wrong number of arguments cancel out in pairs, the others have a number, and
the sums of the numbers are kept. -/
theorem script_executes_iff (file : Text) : Executes file ↔
    Paired false ((lines file).map Line.of) ∧ Kept 0 0 ((lines file).map Line.of) := by
  have hcalls : Executes file ↔ Calls { tokens := [], time := milliSeconds 0, calls := [] } 0
      (lines file) := by
    unfold Executes Calls readScript
    rw [readLines_eq]
    exact exists_congr fun st => by simp
  rw [hcalls]
  by_cases hp : Paired false ((lines file).map Line.of)
  · have hzero : AtTime (milliSeconds 0) 0 := by
      unfold AtTime
      decide
    rw [and_iff_right hp]
    exact calls_iff_kept rfl hzero hp
  · refine iff_of_false ?_ (fun h => hp h.1)
    rintro ⟨st, calls, hrun, htokens, hcalls, hmeets⟩
    have hlength := hmeets.length_eq
    rw [length_expected] at hlength
    rcases run_unpaired hrun rfl hp with hne | hlt
    · exact hne htokens
    · rw [hcalls, List.nil_append, List.length_nil, Nat.zero_add, hlength] at hlt
      exact lt_irrefl _ hlt

/-- The time pointer can go back. -/
example : Kept 0 0 [.time (bytes ['1', '0']), .time (bytes ['-', '5']),
    .command [bytes ['Q', 'U', 'I', 'T']]] :=
  ⟨10, rfl, -5, rfl, by decide, by decide, trivial⟩

/-- A TIME command with two arguments swallows the QUIT after it. -/
theorem quit_swallowed :
    let file := bytes ['T', 'I', 'M', 'E', ' ', '1', ' ', '2', '\n', 'Q', 'U', 'I', 'T']
    (∃ st, readScript file = some st ∧ st.calls = [] ∧ st.tokens.length = 4) ∧
      ¬ Executes file := by
  intro file
  have hrun : ∃ st, readScript file = some st ∧ st.calls = [] ∧ st.tokens.length = 4 := by
    refine ⟨⟨[timeCommand, bytes ['1'], bytes ['2'], bytes ['Q', 'U', 'I', 'T']], milliSeconds 0, []⟩,
      ?_, rfl, rfl⟩
    rw [readScript, readLines_eq]
    decide +kernel
  refine ⟨hrun, ?_⟩
  intro h
  obtain ⟨st, hst, _, hlen⟩ := hrun
  obtain ⟨st', hst', hnone, _⟩ := h
  rw [hst] at hst'
  obtain rfl := Option.some.inj hst'
  rw [hnone] at hlen
  cases hlen

end Ns3Routing.SimulatorMain
