import Mathlib.Data.List.Perm.Basic
import Mathlib.Order.Lattice

/-! # Binary heaps

The places of a heap are counted from one: the parent of place `c` is `c / 2`.
What stands at place zero is not looked at. -/

namespace Ns3Routing.Lib

/-! ## Exchanging two places -/

section Exchange
variable {α : Type}

/-- `none` when one of the places is not there. -/
def exchange (xs : List α) (i j : ℕ) : Option (List α) := do
  let x ← xs[i]?
  let y ← xs[j]?
  some ((xs.set i y).set j x)

variable {xs ys : List α} {i j : ℕ}

theorem exchange_isSome (hi : i < xs.length) (hj : j < xs.length) :
    ∃ ys, exchange xs i j = some ys := by
  simp [exchange, List.getElem?_eq_getElem hi, List.getElem?_eq_getElem hj]

theorem exchange_some (h : exchange xs i j = some ys) :
    ∃ x y, xs[i]? = some x ∧ xs[j]? = some y ∧ ys = (xs.set i y).set j x := by
  simp only [exchange, bind, Option.bind_eq_some_iff, Option.some.injEq] at h
  obtain ⟨x, hx, y, hy, rfl⟩ := h
  exact ⟨x, y, hx, hy, rfl⟩

theorem getElem?_exchange (h : exchange xs i j = some ys) (k : ℕ) :
    ys[k]? = if k = j then xs[i]? else if k = i then xs[j]? else xs[k]? := by
  obtain ⟨x, y, hx, hy, rfl⟩ := exchange_some h
  obtain ⟨hi, _⟩ := List.getElem?_eq_some_iff.mp hx
  obtain ⟨hj, _⟩ := List.getElem?_eq_some_iff.mp hy
  by_cases hkj : k = j
  · subst hkj
    simp [hj, hx]
  · by_cases hki : k = i
    · subst hki
      rw [List.getElem?_set_ne (Ne.symm hkj), List.getElem?_set_self hi, if_neg hkj, if_pos rfl, hy]
    · simp [hkj, hki, List.getElem?_set_ne (Ne.symm hkj), List.getElem?_set_ne (Ne.symm hki)]

theorem length_exchange (h : exchange xs i j = some ys) : ys.length = xs.length := by
  obtain ⟨x, y, _, _, rfl⟩ := exchange_some h
  simp

theorem exchange_perm (h : exchange xs i j = some ys) : ys.Perm xs := by
  obtain ⟨x, y, hx, hy, rfl⟩ := exchange_some h
  obtain ⟨hi, rfl⟩ := List.getElem?_eq_some_iff.mp hx
  obtain ⟨hj, rfl⟩ := List.getElem?_eq_some_iff.mp hy
  exact List.set_set_perm hi hj

end Exchange

/-! ## Order -/

section Heap
variable {α κ : Type} [LinearOrder κ] (key : α → κ) (xs : List α)

/-- Place `c` does not come before its parent. -/
def ParentFirst (c : ℕ) : Prop :=
  ∀ a b, xs[c / 2]? = some a → xs[c]? = some b → key a ≤ key b

def IsHeap : Prop := ∀ c, 2 ≤ c → ParentFirst key xs c

/-- Only `hole` may come before its parent. -/
structure RisesAt (hole : ℕ) : Prop where
  others : ∀ c, 2 ≤ c → c ≠ hole → ParentFirst key xs c
  grand : 2 ≤ hole → ∀ c, c / 2 = hole → ∀ a b, xs[hole / 2]? = some a → xs[c]? = some b → key a ≤ key b

/-- Only the children of `hole` may come before their parent, and `start`,
from where it sank. -/
structure SinksAt (start hole : ℕ) : Prop where
  le : start ≤ hole
  others : ∀ c, 2 ≤ c → c ≠ start → c / 2 ≠ hole → ParentFirst key xs c
  grand : 2 ≤ hole → ∀ c, c / 2 = hole → ∀ a b, xs[hole / 2]? = some a → xs[c]? = some b → key a ≤ key b

variable {key xs} {ys : List α} {hole start c : ℕ}

theorem ParentFirst.congr (h : ParentFirst key xs c) (parent : ys[c / 2]? = xs[c / 2]?)
    (child : ys[c]? = xs[c]?) : ParentFirst key ys c := by
  intro a b ha hb
  exact h a b (parent ▸ ha) (child ▸ hb)

/-- The root comes first. -/
theorem IsHeap.root_le (h : IsHeap key xs) {a b : α} (ha : xs[1]? = some a) (hc : 1 ≤ c)
    (hb : xs[c]? = some b) : key a ≤ key b := by
  induction c using Nat.strongRecOn generalizing b with
  | ind c ih =>
    by_cases hone : c = 1
    · subst hone
      exact le_of_eq (congrArg key (Option.some.inj (ha.symm.trans hb)))
    · obtain ⟨hlt, _⟩ := List.getElem?_eq_some_iff.mp hb
      have hp : xs[c / 2]? = some xs[c / 2] := List.getElem?_eq_getElem (by omega)
      exact (ih (c / 2) (by omega) (by omega) hp).trans (h c (by omega) _ b hp hb)

theorem RisesAt.isHeap (h : RisesAt key xs hole) (stop : 2 ≤ hole → ParentFirst key xs hole) :
    IsHeap key xs := by
  intro c hc
  by_cases hch : c = hole
  · exact hch ▸ stop (hch ▸ hc)
  · exact h.others c hc hch

/-- One place up. -/
theorem RisesAt.up (h : RisesAt key xs hole) (hhole : 2 ≤ hole)
    (before : ∀ a b, xs[hole / 2]? = some a → xs[hole]? = some b → key b < key a)
    (hys : exchange xs hole (hole / 2) = some ys) : RisesAt key ys (hole / 2) := by
  have hget := getElem?_exchange hys
  obtain ⟨x, p, hx, hp, _⟩ := exchange_some hys
  have hlt := before p x hp hx
  have hne : hole ≠ hole / 2 := by omega
  have parent : ys[hole / 2]? = some x := by rw [hget, if_pos rfl, hx]
  have moved : ys[hole]? = some p := by rw [hget, if_neg hne, if_pos rfl, hp]
  have same : ∀ k, k ≠ hole → k ≠ hole / 2 → ys[k]? = xs[k]? := fun k hk hk' => by
    rw [hget, if_neg hk', if_neg hk]
  refine ⟨fun c hc hne' a b ha hb => ?_, fun htwo c hc a b ha hb => ?_⟩
  · by_cases hch : c = hole
    · -- the old parent, under what rose
      subst hch
      obtain rfl := Option.some.inj (parent.symm.trans ha)
      obtain rfl := Option.some.inj (moved.symm.trans hb)
      exact hlt.le
    · rw [same c hch hne'] at hb
      by_cases hpc : c / 2 = hole
      · rw [hpc, moved] at ha
        obtain rfl := Option.some.inj ha
        exact h.grand hhole c hpc _ b hp hb
      · by_cases hpp : c / 2 = hole / 2
        · rw [hpp, parent] at ha
          obtain rfl := Option.some.inj ha
          exact hlt.le.trans (h.others c hc hch _ b (hpp ▸ hp) hb)
        · rw [same _ hpc hpp] at ha
          exact h.others c hc hch a b ha hb
  · have hgrand : ys[hole / 2 / 2]? = xs[hole / 2 / 2]? := same _ (by omega) (by omega)
    rw [hgrand] at ha
    have hap := h.others (hole / 2) htwo (by omega) a p ha hp
    by_cases hch : c = hole
    · subst hch
      obtain rfl := Option.some.inj (moved.symm.trans hb)
      exact hap
    · rw [same c hch (by omega)] at hb
      exact hap.trans (h.others c (by omega) hch p b (hc ▸ hp) hb)

theorem SinksAt.parentFirst (h : SinksAt key xs start hole)
    (stop : ∀ c, c / 2 = hole → ParentFirst key xs c) (hc : 2 ≤ c) (hne : c ≠ start) :
    ParentFirst key xs c := by
  by_cases hch : c / 2 = hole
  · exact stop c hch
  · exact h.others c hc hne hch

/-- One place down, to the child that comes first. -/
theorem SinksAt.down (h : SinksAt key xs start hole) (hchild : c / 2 = hole) (hhole : 1 ≤ hole)
    (first : ∀ d, d / 2 = hole → ∀ a b, xs[c]? = some a → xs[d]? = some b → key a ≤ key b)
    (after : ∀ a b, xs[hole]? = some a → xs[c]? = some b → key b ≤ key a)
    (hys : exchange xs hole c = some ys) : SinksAt key ys start c := by
  have hget := getElem?_exchange hys
  obtain ⟨x, y, hx, hy, _⟩ := exchange_some hys
  have hlt : hole < c := by omega
  have hle := h.le
  have moved : ys[c]? = some x := by rw [hget, if_pos rfl, hx]
  have parent : ys[hole]? = some y := by rw [hget, if_neg (Nat.ne_of_lt hlt), if_pos rfl, hy]
  have same : ∀ k, k ≠ hole → k ≠ c → ys[k]? = xs[k]? := fun k hk hk' => by
    rw [hget, if_neg hk', if_neg hk]
  refine ⟨by omega, fun d hd hstart hdc a b ha hb => ?_, fun _ d hd a b ha hb => ?_⟩
  · by_cases hdhole : d / 2 = hole
    · rw [hdhole, parent] at ha
      obtain rfl := Option.some.inj ha
      by_cases hdc' : d = c
      · subst hdc'
        obtain rfl := Option.some.inj (moved.symm.trans hb)
        exact after _ _ hx hy
      · rw [same d (by omega) hdc'] at hb
        exact first d hdhole _ b hy hb
    · rw [same _ hdhole hdc] at ha
      by_cases heq : d = hole
      · subst heq
        obtain rfl := Option.some.inj (parent.symm.trans hb)
        exact h.grand hd c hchild a _ ha hy
      · have hne : d ≠ c := fun hdc' => hdhole (hdc' ▸ hchild)
        rw [same d heq hne] at hb
        exact h.others d hd hstart hdhole a b ha hb
  · rw [hchild, parent] at ha
    obtain rfl := Option.some.inj ha
    rw [same d (by omega) (by omega)] at hb
    exact h.others d (by omega) (by omega) (by omega) _ b (hd ▸ hy) hb

end Heap

end Ns3Routing.Lib
