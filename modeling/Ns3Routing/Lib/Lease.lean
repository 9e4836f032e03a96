import Mathlib.Data.Nat.Notation
import Mathlib.Logic.Function.Basic
import Mathlib.Data.Option.Basic
import Mathlib.Order.Nat

/-! # Leases

A table of leases: who holds a key keeps it by renewing it, and from time to
time the leases that were not renewed for `timeout` are dropped. A lease has a
place, which is that of the renewal that began it. `Leased` relates the table
to the renewals so far; `Leased.exact` says whose leases are left when the old
ones have just been dropped. -/

namespace Ns3Routing.Lib

variable {κ ι : Type*}

/-- The place of the lease of a key, and the time of its last renewal. -/
abbrev Leases (κ ι : Type*) := κ → Option (ι × ℕ)

namespace Leases

/-- A lease that is there keeps its place. -/
def renew [DecidableEq κ] (L : Leases κ ι) (k : κ) (i : ι) (t : ℕ) : Leases κ ι :=
  Function.update L k (some (((L k).map Prod.fst).getD i, t))

def expire (timeout now : ℕ) (L : Leases κ ι) : Leases κ ι :=
  fun k => (L k).filter fun x => now < x.2 + timeout

end Leases

/-- The table after the renewals `log`, each with its key, place and time. -/
structure Leased (timeout : ℕ) (log : List (κ × ι × ℕ)) (L : Leases κ ι) (clock : ℕ) : Prop where
  past : ∀ k i t, (k, i, t) ∈ log → t ≤ clock
  lease : ∀ k i t, L k = some (i, t) → ∃ i', (k, i', t) ∈ log
  /-- A renewed lease is there, or its time is over. -/
  renewed : ∀ k i t, (k, i, t) ∈ log →
    (∃ i' t', L k = some (i', t') ∧ t ≤ t') ∨ t + timeout ≤ clock

/-- The last renewal of every lease was at the lease's place. -/
def InPlace (log : List (κ × ι × ℕ)) (L : Leases κ ι) : Prop :=
  ∀ k i t, L k = some (i, t) → (k, i, t) ∈ log

section Rules
variable {timeout clock : ℕ} {log : List (κ × ι × ℕ)} {L : Leases κ ι}

theorem Leased.empty (timeout clock : ℕ) :
    Leased timeout [] (fun _ : κ => (none : Option (ι × ℕ))) clock :=
  ⟨by simp, by simp, by simp⟩

theorem Leased.later {now : ℕ} (h : Leased timeout log L clock) (hnow : clock ≤ now) :
    Leased timeout log L now :=
  ⟨fun k i t hm => (h.past k i t hm).trans hnow, h.lease,
    fun k i t hm => (h.renewed k i t hm).imp_right fun hle => hle.trans hnow⟩

theorem renew_self [DecidableEq κ] {k : κ} {i : ι} {t : ℕ} :
    L.renew k i t k = some (((L k).map Prod.fst).getD i, t) := by
  simp [Leases.renew]

theorem renew_ne [DecidableEq κ] {k k' : κ} {i : ι} {t : ℕ} (h : k' ≠ k) :
    L.renew k i t k' = L k' := by
  simp [Leases.renew, h]

theorem eq_renew [DecidableEq κ] {L' : Leases κ ι} {k : κ} {i : ι} {t : ℕ}
    (self : L' k = some (((L k).map Prod.fst).getD i, t)) (others : ∀ k', k' ≠ k → L' k' = L k') :
    L' = L.renew k i t := by
  funext k'
  by_cases hk : k' = k
  · rw [hk, self, renew_self]
  · rw [others k' hk, renew_ne hk]

theorem Leased.renew [DecidableEq κ] {now : ℕ} (h : Leased timeout log L clock) (hnow : clock ≤ now)
    (k : κ) (i : ι) : Leased timeout (log ++ [(k, i, now)]) (L.renew k i now) now := by
  refine ⟨?_, ?_, ?_⟩
  · intro k' i' t hm
    rcases List.mem_append.mp hm with hm | hm
    · exact (h.past k' i' t hm).trans hnow
    · simp only [List.mem_singleton, Prod.mk.injEq] at hm
      exact hm.2.2.le
  · intro k' i' t hL
    by_cases hk : k' = k
    · subst hk
      rw [renew_self] at hL
      obtain ⟨_, rfl⟩ := Prod.mk.inj (Option.some.inj hL)
      exact ⟨i, by simp⟩
    · rw [renew_ne hk] at hL
      obtain ⟨i'', hm⟩ := h.lease k' i' t hL
      exact ⟨i'', List.mem_append_left _ hm⟩
  · intro k' i' t hm
    by_cases hk : k' = k
    · subst hk
      refine Or.inl ⟨_, now, renew_self, ?_⟩
      rcases List.mem_append.mp hm with hm | hm
      · exact (h.past k' i' t hm).trans hnow
      · simp only [List.mem_singleton, Prod.mk.injEq] at hm
        exact hm.2.2.le
    · rw [renew_ne hk]
      rcases List.mem_append.mp hm with hm | hm
      · exact (h.renewed k' i' t hm).imp_right fun hle => hle.trans hnow
      · simp only [List.mem_singleton, Prod.mk.injEq] at hm
        exact absurd hm.1 hk

theorem expire_some {now : ℕ} {k : κ} {x : ι × ℕ} :
    L.expire timeout now k = some x ↔ L k = some x ∧ now < x.2 + timeout := by
  simp [Leases.expire, Option.filter_eq_some_iff]

theorem Leased.expire {now : ℕ} (h : Leased timeout log L clock) (hnow : clock ≤ now) :
    Leased timeout log (L.expire timeout now) now := by
  refine ⟨fun k i t hm => (h.past k i t hm).trans hnow, ?_, ?_⟩
  · intro k i t hL
    exact h.lease k i t (expire_some.mp hL).1
  · intro k i t hm
    rcases h.renewed k i t hm with ⟨i', t', hL, hle⟩ | hle
    · by_cases hlt : now < t' + timeout
      · exact Or.inl ⟨i', t', expire_some.mpr ⟨hL, hlt⟩, hle⟩
      · right; omega
    · exact Or.inr (hle.trans hnow)

/-- **When the old leases have been dropped**, the leases left are those that
were renewed within the timeout. -/
theorem Leased.exact {now : ℕ} (h : Leased timeout log L clock) (hnow : clock ≤ now) (k : κ) :
    (∃ x, L.expire timeout now k = some x) ↔ ∃ i t, (k, i, t) ∈ log ∧ now < t + timeout := by
  constructor
  · intro ⟨x, hx⟩
    obtain ⟨hL, hlt⟩ := expire_some.mp hx
    obtain ⟨i', hm⟩ := h.lease k x.1 x.2 hL
    exact ⟨i', x.2, hm, hlt⟩
  · intro ⟨i, t, hm, hlt⟩
    rcases (h.expire hnow).renewed k i t hm with ⟨i', t', hL, _⟩ | hle
    · exact ⟨(i', t'), hL⟩
    · omega

theorem InPlace.renew [DecidableEq κ] {now : ℕ} {k : κ} {i : ι} (h : InPlace log L)
    (hi : ∀ i₀ t₀, L k = some (i₀, t₀) → i = i₀) : InPlace (log ++ [(k, i, now)])
    (L.renew k i now) := by
  intro k' i' t hL
  by_cases hk : k' = k
  · subst hk
    rw [renew_self] at hL
    obtain ⟨rfl, rfl⟩ := Prod.mk.inj (Option.some.inj hL)
    cases hk' : L k' with
    | none => simp
    | some x =>
      rw [hi x.1 x.2 hk']
      simp
  · rw [renew_ne hk] at hL
    exact List.mem_append_left _ (h k' i' t hL)

theorem InPlace.expire {now : ℕ} (h : InPlace log L) : InPlace log (L.expire timeout now) :=
  fun k i t hL => h k i t (expire_some.mp hL).1

end Rules

end Ns3Routing.Lib
