import Mathlib.Logic.Function.Basic

/-! # Assigning one value to a set of places

A state is a function from places to values. `Assigned v S f g` says that `g`
is `f` with `v` in the places of `S`, and thereby both what a program changes
and what it leaves alone. The rules follow the program: one assignment, one
part after the other, a loop. -/

namespace Ns3Routing.Lib

variable {α β ι : Type*}

/-- `g` has `v` in the places of `S`, and is `f` elsewhere. -/
structure Assigned (v : β) (S : α → Prop) (f g : α → β) : Prop where
  set : ∀ a, S a → g a = v
  frame : ∀ a, ¬ S a → g a = f a

variable {v : β} {S S' : α → Prop} {f g h : α → β}

theorem assigned_refl : Assigned v (fun _ => False) f f := ⟨fun _ h => h.elim, fun _ _ => rfl⟩

theorem assigned_update [DecidableEq α] (a : α) : Assigned v (· = a) f (Function.update f a v) := by
  refine ⟨fun b hb => ?_, fun b hb => Function.update_of_ne hb v f⟩
  rw [hb, Function.update_self]

theorem Assigned.congr (hg : Assigned v S f g) (hS : ∀ a, S a ↔ S' a) : Assigned v S' f g :=
  ⟨fun a ha => hg.set a ((hS a).mpr ha), fun a ha => hg.frame a fun h => ha ((hS a).mp h)⟩

theorem Assigned.trans (hg : Assigned v S f g) (hh : Assigned v S' g h) :
    Assigned v (fun a => S a ∨ S' a) f h := by
  classical
  constructor
  · intro a ha
    by_cases hS' : S' a
    · exact hh.set a hS'
    · rw [hh.frame a hS']
      exact hg.set a (ha.resolve_right hS')
  · intro a ha
    rw [hh.frame a fun h => ha (Or.inr h), hg.frame a fun h => ha (Or.inl h)]

theorem Assigned.ite {p : Prop} [Decidable p] (hg : Assigned v S f g) :
    Assigned v (fun a => p ∧ S a) f (if p then g else f) := by
  by_cases hp : p
  · rw [if_pos hp]
    exact hg.congr fun a => (and_iff_right hp).symm
  · rw [if_neg hp]
    exact assigned_refl.congr fun a => iff_of_false id fun h => hp h.1

/-- A loop assigns what its rounds assign. -/
theorem Assigned.foldl {step : (α → β) → ι → α → β} {S : ι → α → Prop} {l : List ι}
    (hstep : ∀ i ∈ l, ∀ f, Assigned v (S i) f (step f i)) (f : α → β) :
    Assigned v (fun a => ∃ i ∈ l, S i a) f (l.foldl step f) := by
  induction l generalizing f with
  | nil => exact assigned_refl.congr fun a => by simp
  | cons i l ih =>
    have hrest := ih (fun j hj => hstep j (List.mem_cons_of_mem _ hj)) (step f i)
    exact ((hstep i List.mem_cons_self f).trans hrest).congr fun a => by simp

/-- Two such sets only differ where the value was there already. -/
theorem Assigned.iff (hg : Assigned v S f g) :
    Assigned v S' f g ↔ ∀ a, S a ∧ ¬ S' a ∨ S' a ∧ ¬ S a → f a = v := by
  constructor
  · intro hg' a ha
    rcases ha with ⟨hS, hS'⟩ | ⟨hS', hS⟩
    · rw [← hg'.frame a hS', hg.set a hS]
    · rw [← hg.frame a hS, hg'.set a hS']
  · intro heq
    classical
    constructor
    · intro a ha
      by_cases hS : S a
      · exact hg.set a hS
      · rw [hg.frame a hS]
        exact heq a (Or.inr ⟨ha, hS⟩)
    · intro a ha
      by_cases hS : S a
      · rw [hg.set a hS]
        exact (heq a (Or.inl ⟨hS, ha⟩)).symm
      · exact hg.frame a hS

end Ns3Routing.Lib
