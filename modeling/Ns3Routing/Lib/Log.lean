import Mathlib.Data.List.Induction

/-! # Logs

What happened so far, oldest first. `Since p q` is the past-time operator:
`q` happened, and `p` has held ever since. A log is `Justified` when every
event in it has its reason in what was there before. -/

namespace Ns3Routing.Lib

variable {ω : Type*}

/-- Where an event of a log with one more event stands. -/
theorem split_snoc {log pre post : List ω} {e e' : ω} (h : log ++ [e] = pre ++ e' :: post) :
    (e' = e ∧ pre = log) ∨ ∃ post', post = post' ++ [e] ∧ log = pre ++ e' :: post' := by
  rcases List.eq_nil_or_concat post with rfl | ⟨post', e'', rfl⟩
  · obtain ⟨rfl, he⟩ := List.append_inj' h rfl
    exact Or.inl ⟨(List.cons.inj he).1.symm, rfl⟩
  · rw [List.concat_eq_append, ← List.cons_append, ← List.append_assoc] at h
    obtain ⟨rfl, he⟩ := List.append_inj' h rfl
    refine Or.inr ⟨post', ?_, rfl⟩
    rw [List.concat_eq_append, (List.cons.inj he).1]

/-- What stands at a place of a log with one more event. -/
theorem getElem?_snoc (l : List ω) (a b : ω) (i : ℕ) :
    (l ++ [a])[i]? = some b ↔ l[i]? = some b ∨ (i = l.length ∧ a = b) := by
  rcases Nat.lt_trichotomy i l.length with hlt | heq | hgt
  · rw [List.getElem?_append_left hlt]
    exact ⟨Or.inl, fun h => h.resolve_right fun h => Nat.ne_of_lt hlt h.1⟩
  · simp [heq]
  · have hnone : l[i]? = none := List.getElem?_eq_none (Nat.le_of_lt hgt)
    have hnone' : (l ++ [a])[i]? = none := List.getElem?_eq_none (by simpa using Nat.succ_le_of_lt hgt)
    rw [hnone, hnone']
    refine iff_of_false nofun fun h => ?_
    rcases h with h | h
    · cases h
    · omega

/-- `q` happened, and everything after it satisfies `p`. -/
def Since (p q : ω → Prop) (log : List ω) : Prop :=
  ∃ pre e post, log = pre ++ e :: post ∧ q e ∧ ∀ e' ∈ post, p e'

theorem since_nil {p q : ω → Prop} : ¬ Since p q [] := by
  intro ⟨pre, e, post, h, _⟩
  simp at h

theorem since_snoc {p q : ω → Prop} {log : List ω} {e : ω} :
    Since p q (log ++ [e]) ↔ Since p q log ∧ p e ∨ q e := by
  constructor
  · intro ⟨pre, e', post, h, hq, hp⟩
    rcases split_snoc h with ⟨rfl, _⟩ | ⟨post', rfl, rfl⟩
    · exact Or.inr hq
    · refine Or.inl ⟨⟨pre, e', post', rfl, hq, fun e₁ h₁ => hp e₁ ?_⟩, hp e ?_⟩
      · exact List.mem_append_left _ h₁
      · exact List.mem_append_right _ (List.mem_singleton.mpr rfl)
  · intro h
    rcases h with ⟨⟨pre, e', post, rfl, hq, hp⟩, he⟩ | hq
    · refine ⟨pre, e', post ++ [e], by simp, hq, fun e₁ h₁ => ?_⟩
      rcases List.mem_append.mp h₁ with h₁ | h₁
      · exact hp e₁ h₁
      · rw [List.mem_singleton.mp h₁]; exact he
    · exact ⟨log, e, [], rfl, hq, fun e₁ h₁ => by cases h₁⟩

/-- What happened, happened last at some point. -/
theorem since_of_exists {q : ω → Prop} {log : List ω} (h : ∃ e ∈ log, q e) :
    Since (fun e => ¬ q e) q log := by
  induction log using List.reverseRecOn with
  | nil =>
    obtain ⟨e, he, _⟩ := h
    cases he
  | append_singleton log e ih =>
    rw [since_snoc]
    by_cases he : q e
    · exact Or.inr he
    · refine Or.inl ⟨ih ?_, he⟩
      obtain ⟨e', he', hq⟩ := h
      rcases List.mem_append.mp he' with hmem | hlast
      · exact ⟨e', hmem, hq⟩
      · rw [List.mem_singleton.mp hlast] at hq
        exact absurd hq he

/-- Every event has its reason `J` in the events before it. -/
def Justified (J : List ω → ω → Prop) (log : List ω) : Prop :=
  ∀ pre e post, log = pre ++ e :: post → J pre e

theorem Justified.nil {J : List ω → ω → Prop} : Justified J [] := by
  intro pre e post h
  simp at h

theorem Justified.snoc {J : List ω → ω → Prop} {log : List ω} {e : ω} (h : Justified J log)
    (he : J log e) : Justified J (log ++ [e]) := by
  intro pre e' post hsplit
  rcases split_snoc hsplit with ⟨rfl, rfl⟩ | ⟨post', _, hlog⟩
  · exact he
  · exact h pre e' post' hlog

theorem Justified.front {J : List ω → ω → Prop} {log log' : List ω} (h : Justified J (log ++ log')) :
    Justified J log := by
  intro pre e post hlog
  exact h pre e (post ++ log') (by simp [hlog])

theorem Justified.of_mem {J : List ω → ω → Prop} {log : List ω} {e : ω} (h : Justified J log)
    (he : e ∈ log) : ∃ pre, (∀ e' ∈ pre, e' ∈ log) ∧ J pre e := by
  obtain ⟨pre, post, rfl⟩ := List.append_of_mem he
  exact ⟨pre, fun e' he' => List.mem_append_left _ he', h pre e post rfl⟩

/-- What does not happen again happens at most once. -/
theorem countP_le_one {p : ω → Bool} {log : List ω}
    (h : ∀ pre e post, log = pre ++ e :: post → p e = true → ∀ e' ∈ pre, ¬ p e' = true) :
    log.countP p ≤ 1 := by
  induction log using List.reverseRecOn with
  | nil => simp
  | append_singleton log e ih =>
    rw [List.countP_append]
    by_cases he : p e = true
    · have hnone : log.countP p = 0 := List.countP_eq_zero.mpr (h log e [] rfl he)
      rw [hnone, Nat.zero_add]
      exact List.countP_le_length
    · rw [List.countP_singleton, if_neg he]
      refine ih fun pre e' post hlog => h pre e' (post ++ [e]) ?_
      simp [hlog]

end Ns3Routing.Lib
