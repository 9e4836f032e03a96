import Ns3Routing.Codec
import Ns3Routing.Lib.Words

/-! # `Tokenize`

The loop of `Tokenize` with its two positions, `none` for `npos`, and what it
computes: the words of the string, after the tokens that are there
(`tokenize_eq`), which are its maximal runs without delimiters
(`tokenize_exact`). -/

namespace Ns3Routing.SimulatorMain

open Lib

abbrev Text := Codec.Text

/-- The first position from `pos` on with a character of the kind. -/
def findFirst (kind : UInt8 → Bool) (str : Text) (pos : Option ℕ) : Option ℕ :=
  pos.bind fun pos => ((str.drop pos).findIdx? kind).map (pos + ·)

def findFirstOf (str delimiters : Text) (pos : Option ℕ) : Option ℕ :=
  findFirst (fun c => delimiters.contains c) str pos

def findFirstNotOf (str delimiters : Text) (pos : Option ℕ) : Option ℕ :=
  findFirst (fun c => !delimiters.contains c) str pos

/-- `str.substr (lastPos, pos - lastPos)`, which throws when `lastPos` is
`npos`. -/
def substr (str : Text) (lastPos pos : Option ℕ) : Option Text :=
  lastPos.map fun lastPos =>
    match pos with
    | some pos => (str.drop lastPos).take (pos - lastPos)
    | none => str.drop lastPos

/-- The loop of `Tokenize`, for as many rounds as `fuel` allows. -/
def tokenizeLoop (str delimiters : Text) : ℕ → Option ℕ → Option ℕ → List Text → Option (List Text)
  | 0, _, _, _ => none
  | fuel + 1, lastPos, pos, tokens =>
    if pos ≠ none ∨ lastPos ≠ none then do
      let token ← substr str lastPos pos
      let lastPos := findFirstNotOf str delimiters pos
      tokenizeLoop str delimiters fuel lastPos (findFirstOf str delimiters lastPos)
        (tokens ++ [token])
    else some tokens

def tokenize (str : Text) (tokens : List Text) (delimiters : Text) : Option (List Text) :=
  let lastPos := findFirstNotOf str delimiters (some 0)
  tokenizeLoop str delimiters (str.length + 1) lastPos (findFirstOf str delimiters lastPos) tokens

section Spec
variable {kind : UInt8 → Bool} {str delimiters : Text} {l i : ℕ}

/-- Nothing of the kind is found. -/
theorem findFirst_none (h : findFirst kind str (some l) = none) :
    ∀ c ∈ str.drop l, kind c = false := by
  simp only [findFirst, Option.bind_some, Option.map_eq_none_iff] at h
  exact List.findIdx?_eq_none_iff.mp h

/-- What is passed over, and what is found. -/
theorem findFirst_some (h : findFirst kind str (some l) = some i) :
    ∃ skipped c rest, str.drop l = skipped ++ c :: rest ∧ skipped.length = i - l ∧ l ≤ i ∧
      str.drop i = c :: rest ∧ (∀ c ∈ skipped, kind c = false) ∧ kind c = true := by
  simp only [findFirst, Option.bind_some] at h
  obtain ⟨j, hj, rfl⟩ := Option.map_eq_some_iff.mp h
  obtain ⟨hlt, hkind, hbefore⟩ := List.findIdx?_eq_some_iff_getElem.mp hj
  refine ⟨(str.drop l).take j, (str.drop l)[j], (str.drop l).drop (j + 1), ?_, ?_, ?_, ?_, ?_, hkind⟩
  · rw [List.getElem_cons_drop, List.take_append_drop]
  · rw [List.length_take]
    omega
  · omega
  · rw [List.getElem_cons_drop, List.drop_drop]
  · intro c hc
    obtain ⟨k, hk, rfl⟩ := List.mem_take_iff_getElem.mp hc
    have hno := hbefore k (by omega)
    simpa using hno

/-- One word, and where it ends. -/
theorem substr_word {c : UInt8} {rest : Text} (hl : str.drop l = c :: rest)
    (hc : delimiters.contains c = false) :
    ∃ token, substr str (some l) (findFirstOf str delimiters (some l)) = some token ∧
      words (delimiters.contains ·) (str.drop l) = token ::
        (match findFirstOf str delimiters (some l) with
          | some p => words (delimiters.contains ·) (str.drop p)
          | none => []) ∧
      ∀ p, findFirstOf str delimiters (some l) = some p → l < p ∧ p < str.length := by
  cases hp : findFirstOf str delimiters (some l) with
  | none =>
    refine ⟨str.drop l, rfl, ?_, nofun⟩
    exact words_last (by rw [hl]; exact List.cons_ne_nil _ _) (findFirst_none hp)
  | some p =>
    obtain ⟨word, d, rest', hdrop, hlen, hle, hdrop', hword, hd⟩ := findFirst_some hp
    have hne : word ≠ [] := by
      intro hnil
      rw [hnil, List.nil_append, hl] at hdrop
      rw [(List.cons.inj hdrop).1, hd] at hc
      cases hc
    have hpos : 0 < word.length := List.length_pos_of_ne_nil hne
    refine ⟨word, ?_, ?_, ?_⟩
    · simp only [substr, Option.map_some, hdrop, ← hlen, List.take_left]
    · dsimp only
      rw [hdrop, hdrop', words_first hne hword hd, words_sep_cons hd]
    · intro q hq
      obtain rfl := Option.some.inj hq
      have hlast := congrArg List.length hdrop'
      rw [List.length_drop, List.length_cons] at hlast
      omega

theorem tokenizeLoop_eq {fuel : ℕ} (tokens : List Text) (hle : l ≤ str.length)
    (hfuel : str.length - l < fuel) :
    tokenizeLoop str delimiters fuel (findFirstNotOf str delimiters (some l))
      (findFirstOf str delimiters (findFirstNotOf str delimiters (some l))) tokens =
    some (tokens ++ words (delimiters.contains ·) (str.drop l)) := by
  induction fuel generalizing l tokens with
  | zero => omega
  | succ fuel ih =>
    cases hlast : findFirstNotOf str delimiters (some l) with
    | none =>
      -- only delimiters are left
      have hall : ∀ c ∈ str.drop l, delimiters.contains c = true := by
        intro c hc
        simpa using findFirst_none hlast c hc
      rw [words_seps hall, List.append_nil]
      rfl
    | some i =>
      obtain ⟨skipped, c, rest, hdrop, _, hli, hi, hskipped, hc⟩ := findFirst_some hlast
      have hc : delimiters.contains c = false := by simpa using hc
      obtain ⟨token, htoken, hwords, hpos⟩ := substr_word hi hc
      have hskip : words (delimiters.contains ·) (str.drop l) =
          words (delimiters.contains ·) (str.drop i) := by
        rw [hdrop, hi]
        exact words_drop_seps fun c hc => by simpa using hskipped c hc
      rw [hskip, hwords, tokenizeLoop, if_pos (Or.inr (Option.some_ne_none i)), htoken]
      simp only [Option.bind_eq_bind, Option.bind_some]
      cases hp : findFirstOf str delimiters (some i) with
      | none =>
        obtain ⟨fuel, rfl⟩ : ∃ k, fuel = k + 1 := ⟨fuel - 1, by
          have := congrArg List.length hdrop
          rw [List.length_drop, List.length_append, List.length_cons] at this
          omega⟩
        rfl
      | some p =>
        obtain ⟨hip, hp'⟩ := hpos p hp
        rw [ih _ (Nat.le_of_lt hp') (by omega), List.append_assoc]
        rfl

/-- The words of the string come after the tokens that are there. -/
theorem tokenize_eq (str : Text) (tokens : List Text) (delimiters : Text) :
    tokenize str tokens delimiters = some (tokens ++ words (delimiters.contains ·) str) :=
  tokenizeLoop_eq tokens (Nat.zero_le _) (Nat.lt_succ_self _)

end Spec

/-- **`Tokenize` splits exactly.** It returns, and appends what stands in the
maximal runs without delimiters, in their order. Joined by a delimiter, the
appended tokens are split into themselves. -/
theorem tokenize_exact (str : Text) (tokens : List Text) (delimiters : Text) :
    ∃ runs, Runs (delimiters.contains ·) str runs ∧
      tokenize str tokens delimiters = some (tokens ++ runs.map (slice str)) ∧
      ∀ d ∈ delimiters, tokenize ([d].intercalate (runs.map (slice str))) [] delimiters =
        some (runs.map (slice str)) := by
  obtain ⟨runs, hruns, hwords⟩ := exists_runs (delimiters.contains ·) str
  refine ⟨runs, hruns, ?_, fun d hd => ?_⟩
  · rw [tokenize_eq, hwords]
  · rw [tokenize_eq, List.nil_append, ← hwords]
    refine congrArg some (words_intercalate ?_ (fun w => words_ne_nil) fun w => words_clean)
    simpa using hd

end Ns3Routing.SimulatorMain
