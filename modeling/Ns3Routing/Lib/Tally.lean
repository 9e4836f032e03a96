import Mathlib.Data.List.Nodup
import Mathlib.Data.List.Perm.Subperm
import Mathlib.Logic.Function.Basic

/-! # Ticking off a list

What is expected is held in a table under keys. Items that come are compared
with what is held under their key, and ticked off if they are the same: the
next one with that key is a miss.

Whether all that was expected has come is then told from two numbers, the
misses and how many items came. That is exact as long as the table holds
nothing else (`tally_exact_iff`). -/

namespace Ns3Routing.Lib

variable {κ ρ : Type*} [DecidableEq κ]

/-- The table with the items of a list set, one after the other. -/
def expect (key : ρ → κ) (own : List ρ) (before : κ → Option ρ) : κ → Option ρ :=
  own.foldl (fun held item => Function.update held (key item) (some item)) before

variable {key : ρ → κ} {own items : List ρ} {before : κ → Option ρ} {item : ρ} {k : κ}

theorem expect_of_not_mem (h : k ∉ own.map key) : expect key own before k = before k := by
  induction own generalizing before with
  | nil => rfl
  | cons item own ih =>
    rw [List.map_cons, List.mem_cons, not_or] at h
    exact (ih h.2).trans (Function.update_of_ne h.1 _ _)

theorem expect_of_mem (before : κ → Option ρ) (hnodup : (own.map key).Nodup) (h : item ∈ own) :
    expect key own before (key item) = some item := by
  induction own generalizing before with
  | nil => cases h
  | cons first own ih =>
    rw [List.map_cons, List.nodup_cons] at hnodup
    rcases List.mem_cons.mp h with rfl | h
    · exact (expect_of_not_mem hnodup.1).trans (Function.update_self _ _ _)
    · exact ih _ hnodup.2 h

theorem expect_eq_some_iff (hnodup : (own.map key).Nodup) (item : ρ) :
    expect key own before (key item) = some item ↔
      item ∈ own ∨ key item ∉ own.map key ∧ before (key item) = some item := by
  by_cases hkey : key item ∈ own.map key
  · obtain ⟨found, hfound, heq⟩ := List.mem_map.mp hkey
    rw [← heq, expect_of_mem before hnodup hfound]
    constructor
    · intro h
      obtain rfl := Option.some.inj h
      exact Or.inl hfound
    · intro h
      rcases h with h | h
      · rw [← expect_of_mem before hnodup hfound, heq]
        exact expect_of_mem before hnodup h
      · exact absurd (heq ▸ hkey) h.1
  · rw [expect_of_not_mem hkey]
    constructor
    · exact fun h => Or.inr ⟨hkey, h⟩
    · intro h
      rcases h with h | h
      · exact absurd (List.mem_map_of_mem h) hkey
      · exact h.2

variable [DecidableEq ρ]

def tick (key : ρ → κ) (held : κ → Option ρ) (item : ρ) : κ → Option ρ :=
  if held (key item) = some item then Function.update held (key item) none else held

/-- How many items are not what is held when they come. -/
def misses (key : ρ → κ) : (κ → Option ρ) → List ρ → ℕ
  | _, [] => 0
  | held, item :: items =>
    (if held (key item) = some item then 0 else 1) + misses key (tick key held item) items

/-- Items of another list pass for ones of `own`: some that were left in the
table from before come, and not fewer items than `own` has. -/
def Fooled (key : ρ → κ) (own : List ρ) (before : κ → Option ρ) (items : List ρ) : Prop :=
  (items.map key).Nodup ∧ own.length ≤ items.length ∧
    (∀ item ∈ items, item ∈ own ∨ key item ∉ own.map key ∧ before (key item) = some item) ∧
    ∃ item ∈ items, item ∉ own

/-- There is no miss when each item is held, and each but once. -/
theorem misses_eq_zero_iff (key : ρ → κ) (held : κ → Option ρ) (items : List ρ) :
    misses key held items = 0 ↔ (items.map key).Nodup ∧ ∀ item ∈ items, held (key item) =
      some item := by
  induction items generalizing held with
  | nil => simp [misses]
  | cons item items ih =>
    rw [misses, List.map_cons, List.nodup_cons, List.forall_mem_cons]
    by_cases hitem : held (key item) = some item
    · have hrest : ∀ other, Function.update held (key item) none (key other) = some other ↔
          key other ≠ key item ∧ held (key other) = some other := by
        intro other
        by_cases heq : key other = key item
        · rw [heq, Function.update_self]
          exact iff_of_false nofun fun h => h.1 rfl
        · rw [Function.update_of_ne heq]
          exact (and_iff_right heq).symm
      rw [if_pos hitem, Nat.zero_add, ih, tick, if_pos hitem]
      simp only [hrest, List.mem_map, not_exists, not_and]
      constructor
      · intro h
        exact ⟨⟨fun other hother => (h.2 other hother).1, h.1⟩, hitem,
          fun other hother => (h.2 other hother).2⟩
      · intro h
        exact ⟨h.1.2, fun other hother => ⟨h.1.1 other hother, h.2.2 other hother⟩⟩
    · rw [if_neg hitem]
      exact iff_of_false (by omega) fun h => hitem h.2.1

theorem tally_of_perm (hnodup : (own.map key).Nodup) (h : items.Perm own) :
    misses key (expect key own before) items = 0 ∧ own.length ≤ items.length := by
  refine ⟨(misses_eq_zero_iff _ _ _).mpr ⟨(h.map key).nodup_iff.mpr hnodup, fun item hitem => ?_⟩,
    Nat.le_of_eq h.length_eq.symm⟩
  exact expect_of_mem before hnodup (h.mem_iff.mp hitem)

/-- No miss and enough items say that the items are `own`, unless one that was
left from before stands for one that did not come. -/
theorem tally_exact_iff (hnodup : (own.map key).Nodup) (before : κ → Option ρ) (items : List ρ) :
    ((misses key (expect key own before) items = 0 ∧ own.length ≤ items.length) ↔ items.Perm own) ↔
      ¬ Fooled key own before items := by
  have hmisses := misses_eq_zero_iff key (expect key own before) items
  simp only [expect_eq_some_iff hnodup] at hmisses
  constructor
  · intro hexact hfooled
    obtain ⟨hkeys, hlen, hall, item, hitem, hnot⟩ := hfooled
    have hperm := hexact.mp ⟨hmisses.mpr ⟨hkeys, hall⟩, hlen⟩
    exact hnot (hperm.mem_iff.mp hitem)
  · intro hnot
    refine ⟨fun h => ?_, tally_of_perm hnodup⟩
    obtain ⟨hzero, hlen⟩ := h
    obtain ⟨hkeys, hall⟩ := hmisses.mp hzero
    have hsub : items ⊆ own := by
      intro item hitem
      by_contra hout
      exact hnot ⟨hkeys, hlen, hall, item, hitem, hout⟩
    exact (List.subperm_of_subset hkeys.of_map hsub).perm_of_length_le hlen

end Ns3Routing.Lib
