import Mathlib.Data.List.Basic

/-! # The words of a list

The maximal runs of elements that are not separators, in their order. The
rules tell the words of a list from how it begins. -/

namespace Ns3Routing.Lib

variable {α : Type*} (p : α → Bool)

/-- The non-empty pieces between separators. -/
def words (xs : List α) : List (List α) := (xs.splitOnP p).filter (!·.isEmpty)

variable {p} {xs ys : List α} {x : α}

theorem words_sep_cons (hx : p x = true) : words p (x :: xs) = words p xs := by
  rw [words, List.splitOnP_cons_eq_if_modifyHead, if_pos hx]
  rfl

/-- Separators in front do not matter. -/
theorem words_drop_seps (h : ∀ x ∈ xs, p x = true) : words p (xs ++ ys) = words p ys := by
  induction xs with
  | nil => rfl
  | cons x xs ih =>
    obtain ⟨hx, hxs⟩ := List.forall_mem_cons.mp h
    rw [List.cons_append, words_sep_cons hx, ih hxs]

theorem words_seps (h : ∀ x ∈ xs, p x = true) : words p xs = [] := by
  have hwords : words p (xs ++ []) = words p [] := words_drop_seps h
  rwa [List.append_nil] at hwords

/-- A word that goes on to the end. -/
theorem words_last (hne : xs ≠ []) (h : ∀ x ∈ xs, p x = false) : words p xs = [xs] := by
  rw [words, List.splitOnP_eq_singleton h]
  simp [hne]

/-- A word and the separator after it. -/
theorem words_first (hne : xs ≠ []) (h : ∀ x ∈ xs, p x = false) (hx : p x = true) :
    words p (xs ++ x :: ys) = xs :: words p ys := by
  rw [words, List.splitOnP_append_cons_of_forall_mem h x hx, List.filter_cons_of_pos (by simp [hne])]
  rfl

theorem words_ne_nil {w : List α} (h : w ∈ words p xs) : w ≠ [] := by
  simpa using (List.mem_filter.mp h).2

/-- What comes before a separator has its words and what comes after it has
its own. -/
theorem words_append_sep (h : ∀ x ∈ xs, p x = false) (hx : p x = true) :
    words p (xs ++ x :: ys) = words p xs ++ words p ys := by
  cases xs with
  | nil => exact words_sep_cons hx
  | cons y xs =>
    have hne : y :: xs ≠ [] := List.cons_ne_nil _ _
    rw [words_first hne h hx, words_last hne h]
    rfl

/-- The words of words that are joined by a separator. -/
theorem words_intercalate {ws : List (List α)} (hx : p x = true) (hne : ∀ w ∈ ws, w ≠ [])
    (h : ∀ w ∈ ws, ∀ y ∈ w, p y = false) : words p ([x].intercalate ws) = ws := by
  induction ws with
  | nil => rfl
  | cons w ws ih =>
    have hw := words_last (hne w List.mem_cons_self) (h w List.mem_cons_self)
    cases ws with
    | nil =>
      rw [show [x].intercalate [w] = w by simp [List.intercalate]]
      exact hw
    | cons w' ws =>
      rw [show [x].intercalate (w :: w' :: ws) = w ++ x :: [x].intercalate (w' :: ws) by
        simp [List.intercalate]]
      rw [words_append_sep (h w List.mem_cons_self) hx, hw,
        ih (fun v hv => hne v (List.mem_cons_of_mem _ hv))
          (fun v hv => h v (List.mem_cons_of_mem _ hv))]
      rfl

/-! ## Words by position -/

/-- From `i` up to `j` there is no separator, and the stretch cannot be made
longer on either side. -/
structure IsRun (p : α → Bool) (xs : List α) (i j : ℕ) : Prop where
  lt : i < j
  le : j ≤ xs.length
  inside : ∀ k x, i ≤ k → k < j → xs[k]? = some x → p x = false
  before : ∀ k, i = k + 1 → ∃ x, xs[k]? = some x ∧ p x = true
  after : j < xs.length → ∃ x, xs[j]? = some x ∧ p x = true

/-- The elements from `i` up to `j`. -/
def slice (xs : List α) (r : ℕ × ℕ) : List α := (xs.drop r.1).take (r.2 - r.1)

theorem isRun_clean {i j : ℕ} (h : ∀ x ∈ xs, p x = false) :
    IsRun p xs i j ↔ i = 0 ∧ j = xs.length ∧ xs ≠ [] := by
  have hno : ∀ (k : ℕ) x, xs[k]? = some x → p x ≠ true := by
    intro k x hk
    rw [h x (List.mem_of_getElem? hk)]
    exact Bool.false_ne_true
  constructor
  · intro hr
    have hj : j = xs.length := by
      by_contra hj
      obtain ⟨x, hk, hx⟩ := hr.after (Nat.lt_of_le_of_ne hr.le hj)
      exact hno j x hk hx
    have hi : i = 0 := by
      cases i with
      | zero => rfl
      | succ k =>
        obtain ⟨x, hk, hx⟩ := hr.before k rfl
        exact absurd hx (hno k x hk)
    refine ⟨hi, hj, fun hnil => ?_⟩
    have hlt := hr.lt
    rw [hj, hnil] at hlt
    exact Nat.not_lt_zero _ hlt
  · intro hr
    obtain ⟨rfl, rfl, hne⟩ := hr
    exact ⟨List.length_pos_of_ne_nil hne, Nat.le_refl _,
      fun _ x _ _ hk => h x (List.mem_of_getElem? hk), fun k hk => by omega,
      fun hlt => absurd hlt (Nat.lt_irrefl _)⟩

theorem getElem?_past (k : ℕ) : (xs ++ x :: ys)[xs.length + 1 + k]? = ys[k]? := by
  rw [List.getElem?_append_right (by omega), show xs.length + 1 + k - xs.length = k + 1 by omega]
  rfl

section Sep
variable {i j : ℕ}

theorem getElem?_front {k : ℕ} (h : k < xs.length) : (xs ++ x :: ys)[k]? = xs[k]? :=
  List.getElem?_append_left h

/-- A run that ends in front of `x` does not depend on what comes from there on. -/
theorem IsRun.of_left (h : IsRun p (xs ++ x :: ys) i j) (hj : j ≤ xs.length) : IsRun p xs i j := by
  have hlt := h.lt
  refine ⟨hlt, hj, fun k y hik hkj hk => ?_, fun k hk => ?_, fun hj' => ?_⟩
  · have hfront : (xs ++ x :: ys)[k]? = xs[k]? := getElem?_front (by omega)
    exact h.inside k y hik hkj (hfront.trans hk)
  · have hfront : (xs ++ x :: ys)[k]? = xs[k]? := getElem?_front (by omega)
    rw [← hfront]
    exact h.before k hk
  · have hfront : (xs ++ x :: ys)[j]? = xs[j]? := getElem?_front hj'
    rw [← hfront]
    exact h.after (by simp; omega)

/-- A run behind `x` is one of what comes there. -/
theorem IsRun.of_right (h : IsRun p (xs ++ x :: ys) (xs.length + 1 + i) (xs.length + 1 + j)) :
    IsRun p ys i j := by
  have hlt := h.lt
  have hle := h.le
  rw [List.length_append, List.length_cons] at hle
  refine ⟨by omega, by omega, fun k y hik hkj hk => ?_, fun k hk => ?_, fun hj => ?_⟩
  · exact h.inside (xs.length + 1 + k) y (by omega) (by omega) ((getElem?_past k).trans hk)
  · have hpast : (xs ++ x :: ys)[xs.length + 1 + k]? = ys[k]? := getElem?_past k
    rw [← hpast]
    exact h.before (xs.length + 1 + k) (by omega)
  · have hpast : (xs ++ x :: ys)[xs.length + 1 + j]? = ys[j]? := getElem?_past j
    rw [← hpast]
    exact h.after (by simp; omega)

variable (hx : p x = true)
include hx

theorem IsRun.left (h : IsRun p xs i j) : IsRun p (xs ++ x :: ys) i j := by
  have hle := h.le
  have hlt := h.lt
  refine ⟨hlt, by simp; omega, fun k y hik hkj hk => ?_, fun k hk => ?_, fun _ => ?_⟩
  · rw [getElem?_front (by omega : k < xs.length)] at hk
    exact h.inside k y hik hkj hk
  · rw [getElem?_front (by omega : k < xs.length)]
    exact h.before k hk
  · by_cases hj : j < xs.length
    · rw [getElem?_front hj]
      exact h.after hj
    · obtain rfl : j = xs.length := by omega
      exact ⟨x, by simp, hx⟩

theorem IsRun.right (h : IsRun p ys i j) :
    IsRun p (xs ++ x :: ys) (xs.length + 1 + i) (xs.length + 1 + j) := by
  have hle := h.le
  have hlt := h.lt
  refine ⟨by omega, by simp; omega, fun k y hik hkj hk => ?_, fun k hk => ?_, fun hj => ?_⟩
  · obtain ⟨k, rfl⟩ : ∃ k', k = xs.length + 1 + k' := ⟨k - (xs.length + 1), by omega⟩
    rw [getElem?_past] at hk
    exact h.inside k y (by omega) (by omega) hk
  · cases i with
    | zero =>
      obtain rfl : k = xs.length := by omega
      exact ⟨x, by simp, hx⟩
    | succ i =>
      obtain rfl : k = xs.length + 1 + i := by omega
      rw [getElem?_past]
      exact h.before i rfl
  · rw [getElem?_past]
    simp only [List.length_append, List.length_cons] at hj
    exact h.after (by omega)

/-- A run does not go over a separator. -/
theorem isRun_append_sep : IsRun p (xs ++ x :: ys) i j ↔ IsRun p xs i j ∨
    ∃ i' j', i = xs.length + 1 + i' ∧ j = xs.length + 1 + j' ∧ IsRun p ys i' j' := by
  constructor
  · intro h
    have hlt := h.lt
    have hmid : (xs ++ x :: ys)[xs.length]? = some x := by simp
    have hside : j ≤ xs.length ∨ xs.length < i := by
      by_contra hno
      have hclean := h.inside xs.length x (by omega) (by omega) hmid
      rw [hx] at hclean
      cases hclean
    rcases hside with hj | hi
    · exact Or.inl (h.of_left hj)
    · obtain ⟨i, rfl⟩ : ∃ i', i = xs.length + 1 + i' := ⟨i - (xs.length + 1), by omega⟩
      obtain ⟨j, rfl⟩ : ∃ j', j = xs.length + 1 + j' := ⟨j - (xs.length + 1), by omega⟩
      exact Or.inr ⟨i, j, rfl, rfl, h.of_right⟩
  · intro h
    rcases h with h | ⟨i', j', rfl, rfl, h⟩
    · exact h.left hx
    · exact h.right hx

end Sep

theorem slice_append_left {r : ℕ × ℕ} (h : r.2 ≤ xs.length) :
    slice (xs ++ ys) r = slice xs r := by
  unfold slice
  by_cases hle : r.1 ≤ xs.length
  · rw [List.drop_append_of_le_length hle, List.take_append_of_le_length]
    rw [List.length_drop]
    omega
  · rw [show r.2 - r.1 = 0 by omega, List.take_zero, List.take_zero]

variable (xs ys) in
theorem slice_append_right (i j : ℕ) :
    slice (xs ++ ys) (xs.length + i, xs.length + j) = slice ys (i, j) := by
  unfold slice
  dsimp only
  rw [List.drop_append, List.drop_eq_nil_of_le (by omega), List.nil_append,
    show xs.length + i - xs.length = i by omega,
    show xs.length + j - (xs.length + i) = j - i by omega]

/-- The runs of a list in their order. -/
structure Runs (p : α → Bool) (xs : List α) (runs : List (ℕ × ℕ)) : Prop where
  mem_iff : ∀ i j, (i, j) ∈ runs ↔ IsRun p xs i j
  ordered : runs.Pairwise fun r r' => r.2 < r'.1

theorem Runs.append_sep {rs rs' : List (ℕ × ℕ)} (hx : p x = true) (h : Runs p xs rs)
    (h' : Runs p ys rs') :
    Runs p (xs ++ x :: ys)
      (rs ++ rs'.map fun r => (xs.length + 1 + r.1, xs.length + 1 + r.2)) := by
  constructor
  · intro i j
    rw [isRun_append_sep hx, List.mem_append, h.mem_iff]
    refine or_congr_right ?_
    simp only [List.mem_map, Prod.mk.injEq, Prod.exists]
    constructor
    · intro hr
      obtain ⟨i', j', hmem, rfl, rfl⟩ := hr
      exact ⟨i', j', rfl, rfl, (h'.mem_iff i' j').mp hmem⟩
    · intro hr
      obtain ⟨i', j', rfl, rfl, hrun⟩ := hr
      exact ⟨i', j', (h'.mem_iff i' j').mpr hrun, rfl, rfl⟩
  · rw [List.pairwise_append]
    refine ⟨h.ordered, ?_, ?_⟩
    · rw [List.pairwise_map]
      exact h'.ordered.imp fun hlt => by omega
    · intro r hr r' hr'
      obtain ⟨r', hr', rfl⟩ := List.mem_map.mp hr'
      have hle := ((h.mem_iff r.1 r.2).mp hr).le
      omega

theorem exists_first_sep (h : ∃ x ∈ xs, p x ≠ false) :
    ∃ pre x post, xs = pre ++ x :: post ∧ p x = true ∧ ∀ y ∈ pre, p y = false := by
  induction xs with
  | nil => simp at h
  | cons y xs ih =>
    cases hy : p y with
    | true => exact ⟨[], y, xs, rfl, hy, nofun⟩
    | false =>
      obtain ⟨pre, x, post, rfl, hx, hpre⟩ := ih (by simpa [hy] using h)
      exact ⟨y :: pre, x, post, rfl, hx, List.forall_mem_cons.mpr ⟨hy, hpre⟩⟩

/-- The words are what stands in the runs. -/
theorem exists_runs (p : α → Bool) (xs : List α) :
    ∃ runs, Runs p xs runs ∧ words p xs = runs.map (slice xs) := by
  induction hlen : xs.length using Nat.strongRecOn generalizing xs with
  | _ k ih =>
    by_cases hclean : ∀ x ∈ xs, p x = false
    · by_cases hnil : xs = []
      · subst hnil
        exact ⟨[], ⟨fun i j => by simp [isRun_clean hclean], List.Pairwise.nil⟩, rfl⟩
      · refine ⟨[(0, xs.length)], ⟨fun i j => ?_, List.pairwise_singleton _ _⟩, ?_⟩
        · simp [isRun_clean hclean, hnil]
        · rw [words_last hnil hclean]
          simp [slice]
    · push Not at hclean
      obtain ⟨pre, x, post, rfl, hx, hpre⟩ := exists_first_sep hclean
      obtain ⟨rs, hrs, hwords⟩ := ih pre.length (by rw [← hlen]; simp) pre rfl
      obtain ⟨rs', hrs', hwords'⟩ := ih post.length (by rw [← hlen]; simp; omega) post rfl
      refine ⟨_, hrs.append_sep hx hrs', ?_⟩
      rw [words_append_sep hpre hx, List.map_append, hwords, hwords', List.map_map]
      congr 1
      · refine List.map_congr_left fun r hr => ?_
        exact (slice_append_left ((hrs.mem_iff r.1 r.2).mp hr).le).symm
      · refine List.map_congr_left fun r _ => ?_
        have hshift := slice_append_right (pre ++ [x]) post r.1 r.2
        rw [List.length_append, List.length_singleton, List.append_assoc] at hshift
        exact hshift.symm

/-- A word has no separator in it. -/
theorem words_clean {w : List α} (h : w ∈ words p xs) : ∀ y ∈ w, p y = false := by
  obtain ⟨runs, hruns, hwords⟩ := exists_runs p xs
  rw [hwords] at h
  obtain ⟨⟨i, j⟩, hr, rfl⟩ := List.mem_map.mp h
  have hrun := (hruns.mem_iff i j).mp hr
  intro y hy
  obtain ⟨k, hk, rfl⟩ := List.mem_take_iff_getElem.mp hy
  rw [List.getElem_drop]
  exact hrun.inside (i + k) _ (by omega) (by omega) (List.getElem?_eq_getElem _)

end Ns3Routing.Lib
