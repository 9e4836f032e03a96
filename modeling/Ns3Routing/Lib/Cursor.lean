import Ns3Routing.Lib.Bytes

/-! # Programs that read memory

A program reads bytes from a position on and moves the position over them.
Nothing holds it at the end of the bytes it is meant for: behind the last one
it reads whatever is in memory. Its outcome therefore lists the positions it
has read.

`Follows` relates a program to a reader of byte lists, which does stop at the
end. Where the reader has a value, the program gets the same one and stays
inside, and where the reader runs out of bytes, the program reads behind the
end. The rules go through the structure of the program. -/

namespace Ns3Routing.Lib

/-- The positions read and, unless the program was stopped, its value and the
position after it. -/
structure Outcome (α : Type) where
  reads : List ℕ
  result : Option (α × ℕ)

/-- A program that reads a `ρ`, from a position on. -/
def Cursor (ρ α : Type) := ρ → ℕ → Outcome α

namespace Cursor

variable {ρ α β : Type}

instance : Monad (Cursor ρ) where
  pure a := fun _ pos => ⟨[], some (a, pos)⟩
  bind x f := fun b pos =>
    match (x b pos).result with
    | none => ⟨(x b pos).reads, none⟩
    | some (a, next) => ⟨(x b pos).reads ++ (f a b next).reads, (f a b next).result⟩

/-- `count` values, appended to `as` one after the other. -/
def appendMany (x : Cursor ρ α) : ℕ → List α → Cursor ρ (List α)
  | 0, as => pure as
  | count + 1, as => do
    let a ← x
    appendMany x count (as ++ [a])

variable {x : Cursor ρ α} {f : α → Cursor ρ β} {b : ρ} {pos next i : ℕ} {a : α}

theorem bind_of_some (h : (x b pos).result = some (a, next)) :
    (x >>= f) b pos = ⟨(x b pos).reads ++ (f a b next).reads, (f a b next).result⟩ := by
  show (match (x b pos).result with
    | none => (⟨(x b pos).reads, none⟩ : Outcome β)
    | some (a, next) => ⟨(x b pos).reads ++ (f a b next).reads, (f a b next).result⟩) = _
  rw [h]

theorem mem_reads_bind (h : i ∈ (x b pos).reads) : i ∈ ((x >>= f) b pos).reads := by
  show i ∈ (match (x b pos).result with
    | none => (⟨(x b pos).reads, none⟩ : Outcome β)
    | some (a, next) => ⟨(x b pos).reads ++ (f a b next).reads, (f a b next).result⟩).reads
  split
  · exact h
  · exact List.mem_append_left _ h

end Cursor

section Follows
variable {ρ α β : Type} (bytes : ρ → List UInt8)

/-- The program does on a `ρ` what the reader does on its bytes. -/
structure Follows (x : Cursor ρ α) (r : List UInt8 → Option (α × List UInt8)) : Prop where
  value : ∀ b pos a rest, pos ≤ (bytes b).length → r ((bytes b).drop pos) = some (a, rest) →
    ∃ next, next ≤ (bytes b).length ∧ rest = (bytes b).drop next ∧
      (x b pos).result = some (a, next) ∧ ∀ i ∈ (x b pos).reads, i < (bytes b).length
  overrun : ∀ b pos, pos ≤ (bytes b).length → r ((bytes b).drop pos) = none →
    ∃ i ∈ (x b pos).reads, (bytes b).length ≤ i

variable {bytes} {x : Cursor ρ α} {f : α → Cursor ρ β} {r r' : List UInt8 → Option (α × List UInt8)}
  {g : α → List UInt8 → Option (β × List UInt8)}

theorem Follows.congr (h : Follows bytes x r) (hr : ∀ s, r s = r' s) : Follows bytes x r' := by
  obtain rfl : r = r' := funext hr
  exact h

theorem follows_pure (a : α) : Follows bytes (pure a) fun s => some (a, s) := by
  refine ⟨fun b pos a' rest hpos h => ?_, fun b pos hpos h => by cases h⟩
  obtain ⟨rfl, rfl⟩ := Prod.mk.inj (Option.some.inj h)
  exact ⟨pos, hpos, rfl, rfl, nofun⟩

theorem Follows.bind (hx : Follows bytes x r) (hf : ∀ a, Follows bytes (f a) (g a)) :
    Follows bytes (x >>= f) fun s => (r s).bind fun p => g p.1 p.2 := by
  constructor
  · intro b pos c rest hpos h
    obtain ⟨⟨a, rest₁⟩, h₁, h₂⟩ := Option.bind_eq_some_iff.mp h
    obtain ⟨next₁, hnext₁, rfl, hresult₁, hinside₁⟩ := hx.value b pos a rest₁ hpos h₁
    obtain ⟨next, hnext, rfl, hresult, hinside⟩ := (hf a).value b next₁ c rest hnext₁ h₂
    rw [Cursor.bind_of_some hresult₁]
    refine ⟨next, hnext, rfl, hresult, fun i hi => ?_⟩
    rcases List.mem_append.mp hi with hi | hi
    · exact hinside₁ i hi
    · exact hinside i hi
  · intro b pos hpos h
    cases h₁ : r ((bytes b).drop pos) with
    | none =>
      obtain ⟨i, hi, hle⟩ := hx.overrun b pos hpos h₁
      exact ⟨i, Cursor.mem_reads_bind hi, hle⟩
    | some p =>
      obtain ⟨a, rest₁⟩ := p
      obtain ⟨next₁, hnext₁, rfl, hresult₁, _⟩ := hx.value b pos a rest₁ hpos h₁
      rw [h₁] at h
      obtain ⟨i, hi, hle⟩ := (hf a).overrun b next₁ hnext₁ h
      rw [Cursor.bind_of_some hresult₁]
      exact ⟨i, List.mem_append_right _ hi, hle⟩

/-- A value made from the one that was read. -/
theorem Follows.map (hx : Follows bytes x r) (c : α → β) :
    Follows bytes (x >>= fun a => pure (c a)) fun s => (r s).map fun p => (c p.1, p.2) := by
  refine (hx.bind fun a => follows_pure (c a)).congr fun s => ?_
  cases r s <;> rfl

theorem Follows.appendMany (hx : Follows bytes x r) (count : ℕ) (as : List α) :
    Follows bytes (x.appendMany count as) fun s =>
      (readMany r count s).map fun p => (as ++ p.1, p.2) := by
  induction count generalizing as with
  | zero =>
    refine (follows_pure as).congr fun s => ?_
    simp [readMany]
  | succ count ih =>
    refine (hx.bind fun a => ih (as ++ [a])).congr fun s => ?_
    rw [readMany]
    cases r s with
    | none => rfl
    | some p =>
      obtain ⟨a, rest⟩ := p
      simp only [Option.bind_eq_bind, Option.bind_some]
      cases readMany r count rest with
      | none => rfl
      | some q => simp

variable {b : ρ} {pos : ℕ} {a : α} {rest : List UInt8}

/-- The program reads none of the memory behind the bytes. -/
def Inside (bytes : ρ → List UInt8) (b : ρ) (o : Outcome α) : Prop :=
  ∀ i ∈ o.reads, i < (bytes b).length

theorem Follows.inside_iff (hx : Follows bytes x r) (hpos : pos ≤ (bytes b).length) :
    Inside bytes b (x b pos) ↔ (r ((bytes b).drop pos)).isSome := by
  cases h : r ((bytes b).drop pos) with
  | none =>
    obtain ⟨i, hi, hle⟩ := hx.overrun b pos hpos h
    exact iff_of_false (fun hinside => absurd (hinside i hi) (Nat.not_lt.mpr hle)) (by simp)
  | some p =>
    obtain ⟨_, _, _, _, hinside⟩ := hx.value b pos p.1 p.2 hpos h
    exact iff_of_true hinside rfl

theorem Follows.not_inside_bind (hx : Follows bytes x r) (hpos : pos ≤ (bytes b).length)
    (h : r ((bytes b).drop pos) = none) : ¬ Inside bytes b ((x >>= f) b pos) := by
  intro hinside
  obtain ⟨i, hi, hle⟩ := hx.overrun b pos hpos h
  exact absurd (hinside i (Cursor.mem_reads_bind hi)) (Nat.not_lt.mpr hle)

/-- After a first part that has a value, the rest of the program decides. -/
theorem Follows.bind_value (hx : Follows bytes x r) (hpos : pos ≤ (bytes b).length)
    (h : r ((bytes b).drop pos) = some (a, rest)) :
    ∃ next, next ≤ (bytes b).length ∧ rest = (bytes b).drop next ∧
      ((x >>= f) b pos).result = (f a b next).result ∧
      (Inside bytes b ((x >>= f) b pos) ↔ Inside bytes b (f a b next)) := by
  obtain ⟨next, hnext, hrest, hresult, hinside⟩ := hx.value b pos a rest hpos h
  refine ⟨next, hnext, hrest, ?_⟩
  rw [Cursor.bind_of_some hresult]
  refine ⟨rfl, fun h i hi => h i (List.mem_append_right _ hi), fun h i hi => ?_⟩
  rcases List.mem_append.mp hi with hi | hi
  · exact hinside i hi
  · exact h i hi

/-- A first part that takes `k` bytes: they must be there, and then the rest of
the program decides. -/
theorem Follows.inside_bind_iff {k need : ℕ} (hx : Follows bytes x r) (ht : Takes k r)
    (hrest : ∀ a next, k ≤ (bytes b).length → next ≤ (bytes b).length →
      r (bytes b) = some (a, (bytes b).drop k) → (bytes b).drop k = (bytes b).drop next →
      (Inside bytes b (f a b next) ↔ k + need ≤ (bytes b).length)) :
    Inside bytes b ((x >>= f) b 0) ↔ k + need ≤ (bytes b).length := by
  by_cases hlen : k ≤ (bytes b).length
  · obtain ⟨a, ha⟩ := ht.some (bytes b) hlen
    obtain ⟨next, hnext, hdrop, _, hinside⟩ := hx.bind_value (f := f) (Nat.zero_le _) ha
    exact hinside.trans (hrest a next hlen hnext ha hdrop)
  · have hshort := ht.none (bytes b) (Nat.lt_of_not_le hlen)
    exact iff_of_false (hx.not_inside_bind (Nat.zero_le _) hshort) (by omega)

end Follows

end Ns3Routing.Lib
