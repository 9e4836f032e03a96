import Mathlib.Data.List.Nodup

/-! # Ordered maps with unique keys

`Std.ExtTreeMap` read as `std::map`: iteration is in key order, `insertIfNew`
is `insert` (which keeps the value already there), `insert` is assignment
through `operator[]`. The lemmas restate lookups after an update with
equality of keys in place of a comparison, and give membership in the list an
iteration walks. -/

namespace Ns3Routing.Lib

open Std

variable {α β : Type*} {cmp : α → α → Ordering} [TransCmp cmp] {m : ExtTreeMap α β cmp}

theorem mem_iff_getElem? {k : α} : k ∈ m ↔ ∃ v, m[k]? = some v := by
  rw [← ExtTreeMap.contains_iff_mem, ExtTreeMap.contains_eq_isSome_getElem?,
    Option.isSome_iff_exists]

theorem isSome_map_getElem? {γ : Type*} {f : β → γ} {k : α} : (m[k]?.map f).isSome = true ↔ k ∈ m := by
  rw [Option.isSome_map, mem_iff_getElem?, Option.isSome_iff_exists]

theorem nodup_fst_toList : (m.toList.map Prod.fst).Nodup := by
  rw [ExtTreeMap.map_fst_toList_eq_keys]
  exact ExtTreeMap.nodup_keys

variable [LawfulEqCmp cmp]

theorem mem_toList {k : α} {v : β} : (k, v) ∈ m.toList ↔ m[k]? = some v :=
  ExtTreeMap.mem_toList_iff_getElem?_eq_some

/-- An iteration does not visit a missing key. -/
theorem fst_ne_of_none {k : α} (h : m[k]? = none) : ∀ i ∈ m.toList, i.1 ≠ k := by
  intro i hi hk
  have hsome := mem_toList.mp hi
  rw [hk, h] at hsome
  cases hsome

theorem flatMap_of_nodup {ι γ : Type*} {key : ι → α} {f : ι → List γ} {l : List ι} {x : ι}
    (nodup : (l.map key).Nodup) (hx : x ∈ l) (h : ∀ y ∈ l, key y ≠ key x → f y = []) :
    l.flatMap f = f x := by
  induction l with
  | nil => cases hx
  | cons y l ih =>
    obtain ⟨hfresh, hnd⟩ := List.nodup_cons.mp (List.map_cons ▸ nodup)
    rw [List.flatMap_cons]
    rcases List.mem_cons.mp hx with rfl | hx
    · have hrest : l.flatMap f = [] := by
        rw [List.flatMap_eq_nil_iff]
        intro z hz
        exact h z (List.mem_cons_of_mem _ hz) fun he => hfresh (he ▸ List.mem_map_of_mem hz)
      rw [hrest, List.append_nil]
    · have hne : key y ≠ key x := fun he => hfresh (he ▸ List.mem_map_of_mem hx)
      rw [h y List.mem_cons_self hne, List.nil_append,
        ih hnd hx fun z hz => h z (List.mem_cons_of_mem _ hz)]

/-- An iteration that only has output for one key. -/
theorem flatMap_toList_at {γ : Type*} {f : α × β → List γ} {k : α} {v : β} (hk : m[k]? = some v)
    (h : ∀ k' v', m[k']? = some v' → k' ≠ k → f (k', v') = []) : m.toList.flatMap f = f (k, v) :=
  flatMap_of_nodup (α := α) nodup_fst_toList (mem_toList.mpr hk)
    fun y hy hne => h y.1 y.2 (mem_toList.mp hy) hne

variable [DecidableEq α]

@[simp] theorem getElem?_insert_eq {k a : α} {v : β} :
    (m.insert k v)[a]? = if k = a then some v else m[a]? := by
  rw [ExtTreeMap.getElem?_insert]
  simp only [LawfulEqCmp.compare_eq_iff_eq]

@[simp] theorem getElem?_erase_eq {k a : α} :
    (m.erase k)[a]? = if k = a then none else m[a]? := by
  rw [ExtTreeMap.getElem?_erase]
  simp only [LawfulEqCmp.compare_eq_iff_eq]

@[simp] theorem getElem?_insertIfNew_eq {k a : α} {v : β} :
    (m.insertIfNew k v)[a]? = if k = a ∧ m[k]? = none then some v else m[a]? := by
  rw [ExtTreeMap.getElem?_insertIfNew]
  simp [LawfulEqCmp.compare_eq_iff_eq]

section FillFromList
variable {ι : Type*} {key : ι → α} {val : ι → β} {l : List ι}

theorem getElem?_foldl_insert_of_ne {a : α} (h : ∀ x ∈ l, key x ≠ a) :
    (l.foldl (fun m x => m.insert (key x) (val x)) m)[a]? = m[a]? := by
  induction l generalizing m with
  | nil => rfl
  | cons x l ih =>
    rw [List.foldl_cons, ih fun y hy => h y (List.mem_cons_of_mem _ hy), getElem?_insert_eq,
      if_neg (h x List.mem_cons_self)]

theorem getElem?_foldl_insert_of_mem (val : ι → β) {x : ι} (nodup : (l.map key).Nodup) (hx : x ∈ l) :
    (l.foldl (fun m x => m.insert (key x) (val x)) m)[key x]? = some (val x) := by
  induction l generalizing m with
  | nil => cases hx
  | cons y l ih =>
    obtain ⟨hfresh, hnd⟩ := List.nodup_cons.mp (List.map_cons ▸ nodup)
    rw [List.foldl_cons]
    rcases List.mem_cons.mp hx with rfl | hx
    · rw [getElem?_foldl_insert_of_ne, getElem?_insert_eq, if_pos rfl]
      exact fun z hz he => hfresh (he ▸ List.mem_map_of_mem hz)
    · exact ih hnd hx

theorem of_getElem?_foldl_insert {a : α} {v : β}
    (h : (l.foldl (fun m x => m.insert (key x) (val x)) m)[a]? = some v) :
    (∃ x ∈ l, key x = a ∧ val x = v) ∨ m[a]? = some v := by
  induction l generalizing m with
  | nil => exact Or.inr h
  | cons x l ih =>
    rw [List.foldl_cons] at h
    rcases ih h with ⟨y, hy, hv⟩ | hv
    · exact Or.inl ⟨y, List.mem_cons_of_mem _ hy, hv⟩
    · rw [getElem?_insert_eq] at hv
      split at hv
      · exact Or.inl ⟨x, List.mem_cons_self, ‹_›, Option.some.inj hv⟩
      · exact Or.inr hv

theorem getElem?_foldl_insertIfNew (key : ι → α) {a : α} {v : β} :
    (l.foldl (fun m x => m.insertIfNew (key x) v) m)[a]? =
      if m[a]? = none ∧ (∃ x ∈ l, key x = a) then some v else m[a]? := by
  induction l generalizing m with
  | nil => simp
  | cons x l ih =>
    rw [List.foldl_cons, ih, getElem?_insertIfNew_eq]
    by_cases hx : key x = a
    · subst hx
      cases hm : m[key x]? with
      | none => simp
      | some b => simp
    · simp [hx]

end FillFromList

end Ns3Routing.Lib
