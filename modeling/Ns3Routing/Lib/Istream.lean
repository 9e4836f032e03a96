import Mathlib.Algebra.Group.Int.Defs
import Mathlib.Algebra.Group.Nat.Defs
import Mathlib.Data.List.TakeWhile
import Mathlib.Data.Int.Basic
import Ns3Routing.Lib.Words
import Ns3Routing.Lib.Run

/-! # Input streams

An input stream with the two flags reads leave behind: one for the end of
the input, one for a read that failed. While either is set, every further
read fails and leaves its variable as it is, which is why a read takes the
value the variable has before.

`skipEmpty` is the loop that calls `getline` until it gets a line that is not
empty. It has no other exit, so where no such line is left it does not return
(`fueled_skipEmpty`). -/

namespace Ns3Routing.Lib

structure Istream where
  rest : List UInt8
  eof : Bool
  fail : Bool
  deriving DecidableEq

namespace Istream

/-- A stream on a text, before the first read. -/
def ofText (text : List UInt8) : Istream := ⟨text, false, false⟩

def good (s : Istream) : Bool := !s.eof && !s.fail

/-- Up to the next newline, which is taken as well. -/
def getline (s : Istream) (old : List UInt8) : List UInt8 × Istream :=
  if s.good then
    match s.rest.dropWhile (· != 10) with
    | [] => (s.rest, ⟨[], true, s.rest.isEmpty⟩)
    | _ :: rest => (s.rest.takeWhile (· != 10), ⟨rest, false, false⟩)
  else (old, { s with fail := true })

/-- `while (line.length () == 0) getline (s, line)`, for as many rounds as
`fuel` allows. -/
def skipEmpty : ℕ → Istream → Option (List UInt8 × Istream)
  | 0, _ => none
  | fuel + 1, s =>
    let (line, s) := s.getline []
    if line.length = 0 then skipEmpty fuel s else some (line, s)

/-! ## `operator>>` -/

def space (c : UInt8) : Bool := c = 32 || (9 ≤ c && c ≤ 13)

def digit (c : UInt8) : Bool := 48 ≤ c && c ≤ 57

/-- Skips white space. With nothing behind it, or after an earlier failure,
there is nothing to read. -/
def sentry (s : Istream) : Bool × Istream :=
  if s.good then
    match s.rest.dropWhile space with
    | [] => (false, ⟨[], true, true⟩)
    | c :: rest => (true, ⟨c :: rest, false, false⟩)
  else (false, { s with fail := true })

/-- A word, up to the next white space. -/
def readWord (s : Istream) (old : List UInt8) : List UInt8 × Istream :=
  match s.sentry with
  | (false, s) => (old, s)
  | (true, s) =>
    let rest := s.rest.dropWhile (!space ·)
    (s.rest.takeWhile (!space ·), ⟨rest, rest.isEmpty, false⟩)

/-- The number the digits spell. -/
def digitsValue (digits : List UInt8) : ℕ := digits.foldl (fun n c => n * 10 + (c.toNat - 48)) 0

/-- A number: a sign if there is one, and digits. `convert` makes the value,
and tells whether the number is out of its range. -/
def readNumber {α : Type} (convert : Bool → ℕ → α × Bool) (s : Istream) (old : α) : α × Istream :=
  match s.sentry with
  | (false, s) => (old, s)
  | (true, s) =>
    let negative := s.rest.head? = some 45
    let unsigned := if negative ∨ s.rest.head? = some 43 then s.rest.tail else s.rest
    let digits := unsigned.takeWhile digit
    let rest := unsigned.dropWhile digit
    let value := convert negative (digitsValue digits)
    (value.1, ⟨rest, rest.isEmpty, digits.isEmpty || value.2⟩)

/-- An `int` of 32 bits, the nearest one where the number is out of range. -/
def toInt (negative : Bool) (n : ℕ) : ℤ × Bool :=
  if negative then if n ≤ 2 ^ 31 then (-n, false) else (-2 ^ 31, true)
  else if n < 2 ^ 31 then (n, false) else (2 ^ 31 - 1, true)

def toUInt32 (negative : Bool) (n : ℕ) : UInt32 × Bool :=
  if n < 2 ^ 32 then (if negative then 0 - UInt32.ofNat n else UInt32.ofNat n, false)
  else (0xFFFFFFFF, true)

def toUInt64 (negative : Bool) (n : ℕ) : UInt64 × Bool :=
  if n < 2 ^ 64 then (if negative then 0 - UInt64.ofNat n else UInt64.ofNat n, false)
  else (0xFFFFFFFFFFFFFFFF, true)

/-- The number itself, in no range. -/
def toNumber (negative : Bool) (n : ℕ) : ℤ × Bool := (if negative then -n else n, false)

def readInt : Istream → ℤ → ℤ × Istream := readNumber toInt

def readU32 : Istream → UInt32 → UInt32 × Istream := readNumber toUInt32

/-- The number at the start of a text, read into a variable that has no value
before. With nothing but white space in the text it has none afterwards. -/
def extract {α : Type} (convert : Bool → ℕ → α × Bool) (text : List UInt8) : Option α :=
  (readNumber (fun negative n => Prod.map some id (convert negative n)) (ofText text) none).1

/-- What is read does not depend on what is made of it. -/
theorem extract_cases (text : List UInt8) :
    (∀ {α : Type} (convert : Bool → ℕ → α × Bool), extract convert text = none) ∨
      ∃ negative n, ∀ {α : Type} (convert : Bool → ℕ → α × Bool),
        extract convert text = some (convert negative n).1 := by
  unfold extract readNumber
  rcases (ofText text).sentry with ⟨skipped, s⟩
  cases skipped with
  | false => exact Or.inl fun _ => rfl
  | true => exact Or.inr ⟨_, _, fun _ => rfl⟩

/-- Where nothing is read the variable keeps its value. -/
theorem readNumber_eq_or {α : Type} (convert : Bool → ℕ → α × Bool) (s : Istream) (old : α) :
    (s.readNumber convert old).1 = old ∨
      ∃ negative n, (s.readNumber convert old).1 = (convert negative n).1 := by
  unfold readNumber
  split
  · exact Or.inl rfl
  · exact Or.inr ⟨_, _, rfl⟩

theorem toInt_lt (negative : Bool) (n : ℕ) : (toInt negative n).1 < 2 ^ 31 := by
  unfold toInt
  split_ifs <;> dsimp only <;> omega

/-! ## Lines -/

variable {s : Istream} {line : List UInt8} {fuel : ℕ}

/-- How many lines that are not empty can still be read. -/
def linesLeft (s : Istream) : ℕ := if s.good then (words (· == 10) s.rest).length else 0

theorem linesLeft_of_not_good (h : s.good = false) : s.linesLeft = 0 := by
  simp [linesLeft, h]

/-- The line, and what is behind it. -/
theorem getline_good (h : s.good = true) (old : List UInt8) : ∃ line, (∀ c ∈ line, (c == 10) = false) ∧
    ((s.rest = line ∧ s.getline old = (line, ⟨[], true, line.isEmpty⟩)) ∨
      ∃ rest, s.rest = line ++ 10 :: rest ∧ s.getline old = (line, ⟨rest, false, false⟩)) := by
  have hline : ∀ c ∈ s.rest.takeWhile (· != 10), (c == 10) = false := by
    intro c hc
    simpa using List.mem_takeWhile_imp hc
  have happend := List.takeWhile_append_dropWhile (p := (· != 10)) (l := s.rest)
  refine ⟨s.rest.takeWhile (· != 10), hline, ?_⟩
  unfold getline
  rw [if_pos h]
  cases hdrop : s.rest.dropWhile (· != 10) with
  | nil =>
    rw [hdrop, List.append_nil] at happend
    rw [happend]
    exact Or.inl ⟨rfl, rfl⟩
  | cons c rest =>
    have hc : c = 10 := by
      have hhead := List.head_dropWhile_not (· != 10) (hdrop ▸ List.cons_ne_nil c rest)
      simpa [hdrop] using hhead
    rw [hdrop, hc] at happend
    exact Or.inr ⟨rest, happend.symm, rfl⟩

theorem length_words_line (h : ∀ c ∈ line, (c == 10) = false) :
    (words (· == 10) line).length = if line = [] then 0 else 1 := by
  split
  · rename_i hnil
    rw [hnil]
    rfl
  · rename_i hne
    rw [words_last hne h]
    rfl

/-- A line that is read counts, unless it is empty. -/
theorem getline_linesLeft (s : Istream) :
    s.linesLeft = (if (s.getline []).1 = [] then 0 else 1) + (s.getline []).2.linesLeft := by
  cases hgood : s.good with
  | false =>
    have hbad : ({ s with fail := true } : Istream).good = false := by simp [good]
    rw [getline, hgood]
    simp [linesLeft_of_not_good hgood, linesLeft_of_not_good hbad]
  | true =>
    obtain ⟨line, hline, ⟨hrest, hget⟩ | ⟨rest, hrest, hget⟩⟩ := getline_good hgood []
    · have hend : (⟨[], true, line.isEmpty⟩ : Istream).good = false := rfl
      rw [hget, linesLeft, hgood, hrest, linesLeft_of_not_good hend, Nat.add_zero]
      exact length_words_line hline
    · have hnext : (⟨rest, false, false⟩ : Istream).good = true := rfl
      rw [hget, linesLeft, linesLeft, hgood, hnext, hrest, words_append_sep hline rfl]
      simp [length_words_line hline]

theorem skipEmpty_some {r : List UInt8 × Istream} (h : skipEmpty fuel s = some r) :
    s.linesLeft = r.2.linesLeft + 1 := by
  induction fuel generalizing s with
  | zero => cases h
  | succ fuel ih =>
    rw [getline_linesLeft]
    unfold skipEmpty at h
    dsimp only at h
    split at h
    · rename_i hlen
      rw [if_pos (List.length_eq_zero_iff.mp hlen), ih h, Nat.zero_add]
    · rename_i hlen
      obtain rfl := Option.some.inj h
      rw [if_neg fun hnil => hlen (List.length_eq_zero_iff.mpr hnil), Nat.add_comm]

theorem skipEmpty_mono {r : List UInt8 × Istream} {fuel' : ℕ} (h : skipEmpty fuel s = some r)
    (hle : fuel ≤ fuel') : skipEmpty fuel' s = some r := by
  induction fuel generalizing s fuel' with
  | zero => cases h
  | succ fuel ih =>
    obtain ⟨fuel', rfl⟩ : ∃ k, fuel' = k + 1 := ⟨fuel' - 1, by omega⟩
    unfold skipEmpty at h ⊢
    dsimp only at h ⊢
    split at h
    · rename_i hlen
      rw [if_pos hlen]
      exact ih h (by omega)
    · rename_i hlen
      rw [if_neg hlen]
      exact h

/-- While a line is left the stream gets shorter. -/
theorem length_getline (h : 0 < s.linesLeft) : (s.getline []).2.rest.length < s.rest.length := by
  have hgood : s.good = true := by
    by_contra hbad
    rw [linesLeft_of_not_good (by simpa using hbad)] at h
    exact Nat.lt_irrefl _ h
  obtain ⟨line, hline, ⟨hrest, hget⟩ | ⟨rest, hrest, hget⟩⟩ := getline_good hgood []
  · rw [hget, hrest]
    refine List.length_pos_of_ne_nil fun hnil => ?_
    rw [linesLeft, hgood, hrest, hnil] at h
    exact Nat.lt_irrefl _ h
  · rw [hget, hrest, List.length_append, List.length_cons]
    dsimp only
    omega

theorem skipEmpty_exists (h : 0 < s.linesLeft) (hfuel : s.rest.length ≤ fuel) :
    ∃ r, skipEmpty fuel s = some r := by
  induction fuel generalizing s with
  | zero =>
    have hlt := length_getline h
    omega
  | succ fuel ih =>
    unfold skipEmpty
    dsimp only
    split
    · rename_i hlen
      have hlt := length_getline h
      rw [getline_linesLeft, if_pos (List.length_eq_zero_iff.mp hlen), Nat.zero_add] at h
      exact ih h (by omega)
    · exact ⟨_, rfl⟩

/-- The loop returns as long as a line is left. -/
theorem fueled_skipEmpty (s : Istream) : Fueled (fun fuel => skipEmpty fuel s) (0 < s.linesLeft) := by
  refine ⟨fun fuel fuel' r hle h => skipEmpty_mono h hle, ?_⟩
  constructor
  · intro h
    obtain ⟨fuel, r, hr⟩ := h
    rw [skipEmpty_some hr]
    exact Nat.succ_pos _
  · intro h
    exact ⟨_, skipEmpty_exists h (Nat.le_refl _)⟩

theorem span_run {p : UInt8 → Bool} {l r : List UInt8} (hl : ∀ c ∈ l, p c = true)
    (hr : ∀ c, r.head? = some c → p c = false) :
    (l ++ r).takeWhile p = l ∧ (l ++ r).dropWhile p = r := by
  rw [List.takeWhile_append_of_pos hl, List.dropWhile_append_of_pos hl]
  cases r with
  | nil => exact ⟨List.append_nil l, rfl⟩
  | cons c r =>
    have hc : ¬ p c = true := by simp [hr c rfl]
    rw [List.takeWhile_cons_of_neg hc, List.dropWhile_cons_of_neg hc]
    exact ⟨List.append_nil l, rfl⟩

/-- Empty lines, and the line the loop ends with. -/
theorem skipEmpty_of {newlines line more : List UInt8} (hgood : s.good = true)
    (hrest : s.rest = newlines ++ (line ++ 10 :: more)) (hnewlines : ∀ c ∈ newlines, c = 10)
    (hne : line ≠ []) (hline : ∀ c ∈ line, c ≠ 10) (hfuel : newlines.length < fuel) :
    skipEmpty fuel s = some (line, ⟨more, false, false⟩) := by
  induction newlines generalizing s fuel with
  | nil =>
    obtain ⟨fuel, rfl⟩ : ∃ k, fuel = k + 1 := ⟨fuel - 1, by omega⟩
    have hspan := span_run (p := (· != 10)) (l := line) (r := 10 :: more) (by simpa using hline)
      (by simp)
    have hget : s.getline [] = (line, ⟨more, false, false⟩) := by
      rw [getline, if_pos hgood, hrest, List.nil_append, hspan.1, hspan.2]
    rw [skipEmpty, hget]
    exact if_neg fun h => hne (List.length_eq_zero_iff.mp h)
  | cons c newlines ih =>
    obtain ⟨fuel, rfl⟩ : ∃ k, fuel = k + 1 := ⟨fuel - 1, by omega⟩
    obtain rfl : c = 10 := hnewlines c List.mem_cons_self
    have hget : s.getline [] = ([], ⟨newlines ++ (line ++ 10 :: more), false, false⟩) := by
      rw [getline, if_pos hgood, hrest]
      rfl
    rw [skipEmpty, hget]
    rw [List.length_cons] at hfuel
    exact ih rfl rfl (fun c hc => hnewlines c (List.mem_cons_of_mem _ hc)) (by omega)

theorem getline_of {line more : List UInt8} (hgood : s.good = true)
    (hrest : s.rest = line ++ 10 :: more)
    (hline : ∀ c ∈ line, c ≠ 10) (old : List UInt8) : s.getline old = (line, ⟨more, false, false⟩) := by
  have hspan := span_run (p := (· != 10)) (l := line) (r := 10 :: more) (by simpa using hline) (by simp)
  rw [getline, if_pos hgood, hrest, hspan.1, hspan.2]

/-! ## Words and numbers that are there -/

section Read
variable {α : Type} {pre word digits tail : List UInt8}

/-- Skipping white space in front of a word. -/
theorem sentry_of (hgood : s.good = true) (hrest : s.rest = pre ++ word) (hne : word ≠ [])
    (hpre : ∀ c ∈ pre, space c = true) (hword : ∀ c, word.head? = some c → space c = false) :
    s.sentry = (true, ⟨word, false, false⟩) := by
  have hdrop := (span_run hpre hword).2
  rw [sentry, if_pos hgood, hrest, hdrop]
  cases word with
  | nil => exact absurd rfl hne
  | cons c word => rfl

theorem readWord_of (hgood : s.good = true) (hrest : s.rest = pre ++ (word ++ tail))
    (hne : word ≠ []) (hpre : ∀ c ∈ pre, space c = true) (hword : ∀ c ∈ word, space c = false)
    (htail : ∀ c, tail.head? = some c → space c = true) (old : List UInt8) :
    s.readWord old = (word, ⟨tail, tail.isEmpty, false⟩) := by
  have hhead : ∀ c, (word ++ tail).head? = some c → space c = false := by
    intro c hc
    rw [List.head?_append_of_ne_nil _ hne] at hc
    exact hword c (List.mem_of_mem_head? hc)
  have hsentry := sentry_of hgood hrest (by simp [hne]) hpre hhead
  have hspan := span_run (p := (!space ·)) (l := word) (r := tail) (by simpa using hword)
    (by simpa using htail)
  rw [readWord, hsentry]
  dsimp only
  rw [hspan.1, hspan.2]

theorem not_space_of_digit {c : UInt8} (h : digit c = true) : space c = false := by
  simp only [digit, Bool.and_eq_true, decide_eq_true_eq, UInt8.le_iff_toNat_le] at h
  simp only [space, Bool.or_eq_false_iff, Bool.and_eq_false_iff, decide_eq_false_iff_not,
    UInt8.le_iff_toNat_le, ← UInt8.toNat_inj]
  obtain ⟨hlo, hhi⟩ := h
  have h48 : (48 : UInt8).toNat = 48 := rfl
  have h32 : (32 : UInt8).toNat = 32 := rfl
  have h13 : (13 : UInt8).toNat = 13 := rfl
  omega

theorem readNumber_of (convert : Bool → ℕ → α × Bool) (hgood : s.good = true)
    (hrest : s.rest = pre ++ (digits ++ tail)) (hne : digits ≠ []) (hpre : ∀ c ∈ pre, space c = true)
    (hdigits : ∀ c ∈ digits, digit c = true) (htail : ∀ c, tail.head? = some c → digit c = false)
    (old : α) :
    s.readNumber convert old = ((convert false (digitsValue digits)).1,
      ⟨tail, tail.isEmpty, (convert false (digitsValue digits)).2⟩) := by
  have hhead : ∀ c, (digits ++ tail).head? = some c → digit c = true := by
    intro c hc
    rw [List.head?_append_of_ne_nil _ hne] at hc
    exact hdigits c (List.mem_of_mem_head? hc)
  have hsentry := sentry_of hgood hrest (by simp [hne]) hpre
    fun c hc => not_space_of_digit (hhead c hc)
  have hminus : (digits ++ tail).head? ≠ some 45 := fun h => Bool.false_ne_true (hhead 45 h)
  have hplus : (digits ++ tail).head? ≠ some 43 := fun h => Bool.false_ne_true (hhead 43 h)
  obtain ⟨htake, hdrop⟩ := span_run hdigits htail
  rw [readNumber, hsentry]
  dsimp only
  have hsign : ¬ ((digits ++ tail).head? = some 45 ∨ (digits ++ tail).head? = some 43) :=
    fun h => h.elim hminus hplus
  rw [if_neg hsign, decide_eq_false hminus, htake, hdrop, List.isEmpty_eq_false_iff.mpr hne,
    Bool.false_or]

/-- The digits of a number. -/
def digitsOf (n : ℕ) : List UInt8 := (Nat.toDigits 10 n).map fun c => UInt8.ofNat c.toNat

theorem digit_of_isDigit {c : Char} (h : c.isDigit = true) :
    (UInt8.ofNat c.toNat).toNat = c.toNat ∧ digit (UInt8.ofNat c.toNat) = true := by
  have hrange : 48 ≤ c.toNat ∧ c.toNat ≤ 57 := Char.isDigit_iff_toNat.mp h
  have hnat : (UInt8.ofNat c.toNat).toNat = c.toNat := by
    rw [UInt8.toNat_ofNat']
    omega
  refine ⟨hnat, ?_⟩
  simp only [digit, Bool.and_eq_true, decide_eq_true_eq, UInt8.le_iff_toNat_le, hnat]
  exact hrange

theorem digits_digitsOf (n : ℕ) : ∀ c ∈ digitsOf n, digit c = true := by
  intro c hc
  obtain ⟨ch, hch, rfl⟩ := List.mem_map.mp hc
  exact (digit_of_isDigit (Nat.isDigit_of_mem_toDigits (by decide) (by decide) hch)).2

theorem digitsValue_digitsOf (n : ℕ) : digitsValue (digitsOf n) = n := by
  refine Eq.trans ?_ (Nat.ofDigitChars_ten_toDigits (n := n))
  rw [digitsValue, digitsOf, List.foldl_map, Nat.ofDigitChars_eq_foldl]
  refine List.foldl_ext _ _ _ fun sofar c hc => ?_
  have hdigit := Nat.isDigit_of_mem_toDigits (by decide) (by decide) hc
  rw [(digit_of_isDigit hdigit).1, Nat.mul_comm]
  rfl

theorem digitsOf_ne_nil (n : ℕ) : digitsOf n ≠ [] := by
  simp [digitsOf]

theorem digitsOf_inj {m n : ℕ} : digitsOf m = digitsOf n ↔ m = n := by
  constructor
  · intro h
    rw [← digitsValue_digitsOf m, h, digitsValue_digitsOf]
  · exact congrArg digitsOf

theorem not_digit_of_space {c : UInt8} (h : space c = true) : digit c = false := by
  by_contra hdigit
  rw [not_space_of_digit (by simpa using hdigit)] at h
  cases h

theorem not_space_digitsOf (n : ℕ) : ∀ c ∈ digitsOf n, space c = false :=
  fun c hc => not_space_of_digit (digits_digitsOf n c hc)

/-- A number that is printed is read back. -/
theorem readNumber_digitsOf (convert : Bool → ℕ → α × Bool) (n : ℕ) (old : α) :
    (ofText (digitsOf n)).readNumber convert old =
      ((convert false n).1, ⟨[], true, (convert false n).2⟩) := by
  have hrest : (ofText (digitsOf n)).rest = [] ++ (digitsOf n ++ []) := (List.append_nil _).symm
  have hread := readNumber_of convert rfl hrest (digitsOf_ne_nil n) (by simp) (digits_digitsOf n)
    (by simp) old
  rwa [digitsValue_digitsOf] at hread

end Read

end Istream

end Ns3Routing.Lib
