import Mathlib.Data.List.Nodup

/-! # Loops that may stop

A loop whose body may hit undefined behaviour is a fold in `Option`: `none`
means that some iteration had no defined result. Two rules cover the loops of
a program that walks a keyed container. `foldlM_invariant` and
`foldlM_exists` are the usual invariant rules, for what holds if the loop
ends and for its ending at all. `foldlM_frame` and `foldlM_at` are for bodies
that only touch the part of the state named by the key they visit: outside
its own iteration a key is left alone, so its final value is decided there. -/

namespace Ns3Routing.Lib

variable {σ ι κ γ : Type*} {f : σ → ι → Option σ}

theorem foldlM_cons_some {x : ι} {l : List ι} {s t : σ}
    (h : (x :: l).foldlM f s = some t) : ∃ s', f s x = some s' ∧ l.foldlM f s' = some t := by
  simpa [List.foldlM_cons, Option.bind_eq_bind, Option.bind_eq_some_iff] using h

theorem foldlM_append_some {l₁ l₂ : List ι} {s t : σ} :
    (l₁ ++ l₂).foldlM f s = some t ↔ ∃ s', l₁.foldlM f s = some s' ∧ l₂.foldlM f s' = some t := by
  simp [List.foldlM_append, Option.bind_eq_bind, Option.bind_eq_some_iff]

/-- What every iteration preserves holds after the loop. -/
theorem foldlM_invariant (P : σ → Prop) {l : List ι} {s t : σ}
    (step : ∀ s x t, x ∈ l → P s → f s x = some t → P t)
    (h : l.foldlM f s = some t) (hs : P s) : P t := by
  induction l generalizing s with
  | nil => cases h; exact hs
  | cons x l ih =>
    obtain ⟨s', hx, hl⟩ := foldlM_cons_some h
    exact ih (fun a y b hy => step a y b (List.mem_cons_of_mem _ hy)) hl
      (step s x s' List.mem_cons_self hs hx)

/-- A loop every iteration of which is defined, is defined. -/
theorem foldlM_exists (P : σ → Prop) {l : List ι} {s : σ}
    (step : ∀ s x, x ∈ l → P s → ∃ t, f s x = some t ∧ P t) (hs : P s) :
    ∃ t, l.foldlM f s = some t ∧ P t := by
  induction l generalizing s with
  | nil => exact ⟨s, rfl, hs⟩
  | cons x l ih =>
    obtain ⟨s', hx, hp⟩ := step s x List.mem_cons_self hs
    obtain ⟨t, hl, ht⟩ := ih (fun a y hy => step a y (List.mem_cons_of_mem _ hy)) hp
    exact ⟨t, by simp [List.foldlM_cons, hx, hl], ht⟩

/-- A loop that makes a list. -/
theorem mapM_eq_some {g : ι → Option κ} {l : List ι} {r : List κ} :
    l.mapM g = some r ↔ l.map g = r.map some := by
  induction l generalizing r with
  | nil => cases r <;> simp
  | cons x l ih =>
    cases r with
    | nil => simp [List.mapM_cons, Option.bind_eq_bind, Option.bind_eq_some_iff]
    | cons y r => simp [List.mapM_cons, Option.bind_eq_bind, Option.bind_eq_some_iff, ih]

section Keyed
variable (get : σ → κ → γ) (key : ι → κ)

/-- A key the loop does not visit keeps its value. -/
theorem foldlM_frame {l : List ι}
    (frame : ∀ x ∈ l, ∀ s t k, f s x = some t → k ≠ key x → get t k = get s k)
    {s t : σ} {k : κ} (h : l.foldlM f s = some t) (hk : ∀ x ∈ l, key x ≠ k) :
    get t k = get s k :=
  foldlM_invariant (fun r => get r k = get s k)
    (fun a x b hx ha hf => (frame x hx a b k hf (hk x hx).symm).trans ha) h rfl

/-- The iteration of a visited key sees the key's initial value and leaves
its final one. -/
theorem foldlM_at {l : List ι}
    (frame : ∀ x ∈ l, ∀ s t k, f s x = some t → k ≠ key x → get t k = get s k)
    {s t : σ} {x : ι} (nodup : (l.map key).Nodup) (h : l.foldlM f s = some t) (hx : x ∈ l) :
    ∃ s' t', f s' x = some t' ∧ get s' (key x) = get s (key x) ∧
      get t (key x) = get t' (key x) := by
  induction l generalizing s with
  | nil => cases hx
  | cons y l ih =>
    obtain ⟨s', hy, hl⟩ := foldlM_cons_some h
    obtain ⟨fresh, hnd⟩ : (∀ z ∈ l, key z ≠ key y) ∧ (l.map key).Nodup := by
      simpa using nodup
    have frame' : ∀ z ∈ l, ∀ s t k, f s z = some t → k ≠ key z → get t k = get s k :=
      fun z hz => frame z (List.mem_cons_of_mem _ hz)
    rcases List.mem_cons.mp hx with rfl | hx
    · exact ⟨s, s', hy, rfl, foldlM_frame get key frame' hl fresh⟩
    · obtain ⟨a, b, hf, ha, hb⟩ := ih frame' hnd hl hx
      exact ⟨a, b, hf, ha.trans (frame y List.mem_cons_self s s' _ hy (fresh x hx)), hb⟩

end Keyed

end Ns3Routing.Lib
