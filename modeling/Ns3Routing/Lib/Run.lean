import Mathlib.Data.List.Induction
import Ns3Routing.Lib.OptionFold

/-! # Runs of a partial step function

A component that handles one event at a time is a function
`σ → ε → Option σ`, `none` where handling the event is undefined behaviour. A
run is a list of events. `Along` speaks about the states a run passes
through and `Meets` about the events in the states they are handled in.
`along_iff_meets` is the exact rule: when a step from a good state ends in a
good state precisely under a condition on that state and event, a run stays
good precisely when all its steps meet the condition. -/

namespace Ns3Routing.Lib

variable {σ ε : Type*} (step : σ → ε → Option σ)

/-- The state after the events `es`, if every one of them was defined. -/
def run (s : σ) (es : List ε) : Option σ := es.foldlM step s

/-- `P` holds in every state the run passes through, the first included. -/
def Along (P : σ → Prop) (s : σ) (es : List ε) : Prop :=
  ∀ pre t, pre <+: es → run step s pre = some t → P t

/-- Every event of the run that is handled, is handled in a state that with
it meets `C`. -/
def Meets (C : σ → ε → Prop) (s : σ) (es : List ε) : Prop :=
  ∀ pre e t t', pre ++ [e] <+: es → run step s pre = some t → step t e = some t' → C t e

/-- Some event of the run comes in a state that with it meets `C`. -/
def Visits (C : σ → ε → Prop) (s : σ) (es : List ε) : Prop :=
  ∃ pre e t, pre ++ [e] <+: es ∧ run step s pre = some t ∧ C t e

/-- Every event of the run comes in a state that with it meets `C`. -/
def Allows (C : σ → ε → Prop) (s : σ) (es : List ε) : Prop :=
  ∀ pre e t, pre ++ [e] <+: es → run step s pre = some t → C t e

variable {step}

theorem run_snoc {s t' : σ} {es : List ε} {e : ε} :
    run step s (es ++ [e]) = some t' ↔ ∃ t, run step s es = some t ∧ step t e = some t' := by
  rw [run, foldlM_append_some]
  simp [run, List.foldlM_cons]

theorem run_one (s : σ) (e : ε) : run step s [e] = step s e := by
  rw [run, List.foldlM_cons]
  exact bind_pure (step s e)

theorem front_of_prefix_snoc {pre es : List ε} {e : ε} (h : pre ++ [e] <+: es) : pre <+: es :=
  (List.prefix_append pre [e]).trans h

theorem mem_of_prefix_snoc {pre es : List ε} {e : ε} (h : pre ++ [e] <+: es) : e ∈ es :=
  h.subset (List.mem_append_right pre List.mem_cons_self)

/-- The invariant rule for conditional steps. -/
theorem along_of_meets {P : σ → Prop} {C : σ → ε → Prop} {s : σ} {es : List ε} (init : P s)
    (keep : ∀ t e t', P t → step t e = some t' → C t e → P t') (h : Meets step C s es) :
    Along step P s es := by
  intro pre
  induction pre using List.reverseRecOn with
  | nil => intro t _ ht; cases ht; exact init
  | append_singleton pre e ih =>
    intro t' hp ht'
    obtain ⟨t, ht, hst⟩ := run_snoc.mp ht'
    exact keep t e t' (ih t (front_of_prefix_snoc hp) ht) hst (h pre e t t' hp ht hst)

theorem Meets.mono {C C' : σ → ε → Prop} {s : σ} {es : List ε} (h : Meets step C s es)
    (hC : ∀ t e, C t e → C' t e) : Meets step C' s es := fun pre e t t' hp ht ht' =>
  hC t e (h pre e t t' hp ht ht')

theorem Meets.and {C C' : σ → ε → Prop} {s : σ} {es : List ε} (h : Meets step C s es)
    (h' : Meets step C' s es) : Meets step (fun t e => C t e ∧ C' t e) s es :=
  fun pre e t t' hp ht ht' => ⟨h pre e t t' hp ht ht', h' pre e t t' hp ht ht'⟩

/-- What holds all along a run holds after each of its steps. -/
theorem Along.meets {P : σ → Prop} {s : σ} {es : List ε} (h : Along step P s es) :
    Meets step (fun t e => ∀ t', step t e = some t' → P t') s es := by
  intro pre e t _ hp ht _ t' ht'
  exact h (pre ++ [e]) t' hp (run_snoc.mpr ⟨t, ht, ht'⟩)

/-- The plain invariant rule. -/
theorem along_invariant {I : σ → Prop} {s : σ} (init : I s)
    (keep : ∀ t e t', I t → step t e = some t' → I t') (es : List ε) : Along step I s es :=
  along_of_meets (C := fun _ _ => True) init (fun t e t' hI hst _ => keep t e t' hI hst)
    (fun _ _ _ _ _ _ _ => trivial)

/-- The same for the last state of a run. -/
theorem run_invariant {I : σ → Prop} {s t : σ} (init : I s)
    (keep : ∀ t e t', I t → step t e = some t' → I t') {es : List ε} (h : run step s es = some t) :
    I t := along_invariant init keep es es t (List.prefix_refl es) h

/-- The exact rule, over states that satisfy an invariant `I`. -/
theorem along_iff_meets {I P : σ → Prop} {C : σ → ε → Prop} {s : σ} (es : List ε) (initI : I s)
    (keep : ∀ t e t', I t → step t e = some t' → I t') (initP : P s)
    (exact : ∀ t e t', I t → P t → step t e = some t' → (P t' ↔ C t e)) :
    Along step P s es ↔ Meets step C s es := by
  have hI := along_invariant initI keep es
  constructor
  · intro h pre e t t' hp ht hst
    have hpre := front_of_prefix_snoc hp
    exact (exact t e t' (hI pre t hpre ht) (h pre t hpre ht) hst).mp
      (h (pre ++ [e]) t' hp (run_snoc.mpr ⟨t, ht, hst⟩))
  · intro h pre t hp ht
    refine (along_of_meets (P := fun t => I t ∧ P t) ⟨initI, initP⟩ ?_ h pre t hp ht).2
    intro t e t' hIP hst hC
    exact ⟨keep t e t' hIP.1 hst, (exact t e t' hIP.1 hIP.2 hst).mpr hC⟩

/-- The rule for runs that do not stop: an allowed event is always defined. -/
theorem run_exists {P : σ → Prop} {C : σ → ε → Prop} {s : σ} {es : List ε} (init : P s)
    (progress : ∀ t e, P t → C t e → ∃ t', step t e = some t' ∧ P t')
    (h : Allows step C s es) : ∃ t, run step s es = some t ∧ P t := by
  induction es using List.reverseRecOn with
  | nil => exact ⟨s, rfl, init⟩
  | append_singleton es e ih =>
    obtain ⟨t, ht, hP⟩ := ih fun pre e' t hp => h pre e' t (hp.trans (List.prefix_append es [e]))
    obtain ⟨t', hst, hP'⟩ := progress t e hP (h es e t (List.prefix_refl _) ht)
    exact ⟨t', run_snoc.mpr ⟨t, ht, hst⟩, hP'⟩

/-- What an event that meets `C` brings about and every event keeps, holds
after a run with such an event. -/
theorem run_of_visits {I P : σ → Prop} {C : σ → ε → Prop} {s s' : σ} {es : List ε} (init : I s)
    (keep : ∀ t e t', I t → step t e = some t' → I t')
    (bring : ∀ t e t', I t → step t e = some t' → C t e → P t')
    (stay : ∀ t e t', I t → P t → step t e = some t' → P t')
    (hv : Visits step C s es) (h : run step s es = some s') : P s' := by
  obtain ⟨pre, e, t, ⟨rest, rfl⟩, ht, hC⟩ := hv
  obtain ⟨t', ht', hrest⟩ := foldlM_append_some.mp h
  obtain ⟨u, hu, hst⟩ := run_snoc.mp ht'
  rw [ht] at hu
  obtain rfl := Option.some.inj hu
  have hI := run_invariant init keep ht
  refine (run_invariant (I := fun t => I t ∧ P t) ⟨keep t e t' hI hst, bring t e t' hI hst hC⟩ ?_
    hrest).2
  intro u e' u' hu hst'
  exact ⟨keep u e' u' hu.1 hst', stay u e' u' hu.1 hu.2 hst'⟩

theorem run_append {s t' : σ} {es es' : List ε} :
    run step s (es ++ es') = some t' ↔ ∃ t, run step s es = some t ∧ run step t es' = some t' :=
  foldlM_append_some

/-- What a run allows, the rest of it allows. -/
theorem Allows.rest {C : σ → ε → Prop} {s t : σ} {es es' : List ε}
    (h : Allows step C s (es ++ es')) (ht : run step s es = some t) : Allows step C t es' := by
  intro pre e u hp hu
  refine h (es ++ pre) e u ?_ (run_append.mpr ⟨t, ht, hu⟩)
  rw [List.append_assoc]
  exact (List.prefix_append_right_inj es).mpr hp

theorem allows_cons {C : σ → ε → Prop} {s : σ} {e : ε} {es : List ε} (he : C s e)
    (hes : ∀ t, step s e = some t → Allows step C t es) : Allows step C s (e :: es) := by
  intro pre e' t hp ht
  cases pre with
  | nil =>
    obtain rfl := Option.some.inj ht
    rw [List.nil_append, List.cons_prefix_cons] at hp
    rw [hp.1]; exact he
  | cons e₀ pre =>
    rw [List.cons_append, List.cons_prefix_cons] at hp
    obtain ⟨rfl, hp⟩ := hp
    obtain ⟨s', hs', ht⟩ := foldlM_cons_some ht
    exact hes s' hs' pre e' t hp ht

theorem Allows.front {C : σ → ε → Prop} {s : σ} {es es' : List ε}
    (h : Allows step C s (es ++ es')) : Allows step C s es :=
  fun pre e t hp => h pre e t (hp.trans (List.prefix_append es es'))

/-! ## Checking a given run -/

/-- `c` is true at every event of the run. -/
def checkRun (step : σ → ε → Option σ) (c : σ → ε → Bool) : σ → List ε → Bool
  | _, [] => true
  | s, e :: es => c s e && (step s e).all fun t => checkRun step c t es

theorem allows_of_checkRun {c : σ → ε → Bool} {C : σ → ε → Prop} (hc : ∀ s e, c s e = true → C s e)
    {s : σ} {es : List ε} (h : checkRun step c s es = true) : Allows step C s es := by
  intro pre
  induction pre generalizing s es with
  | nil =>
    intro e t hp ht
    obtain ⟨rest, rfl⟩ := hp
    obtain rfl := Option.some.inj ht
    exact hc s e (Bool.and_eq_true_iff.mp h).1
  | cons e' pre ih =>
    intro e t hp ht
    obtain ⟨rest, rfl⟩ := hp
    obtain ⟨s', hs', ht⟩ := foldlM_cons_some ht
    have hrest := (Bool.and_eq_true_iff.mp h).2
    rw [hs', Option.all_some] at hrest
    exact ih hrest e t (List.prefix_append _ _) ht

theorem Allows.meets {C : σ → ε → Prop} {s : σ} {es : List ε} (h : Allows step C s es) :
    Meets step C s es := fun pre e t _ hp ht _ => h pre e t hp ht

theorem along_of_checkRun {P : σ → Prop} [DecidablePred P] {s : σ} {es : List ε} (init : P s)
    (h : checkRun step (fun s e => (step s e).all fun t => decide (P t)) s es = true) :
    Along step P s es := by
  have hall : Allows step (fun t e => ∀ t', step t e = some t' → P t') s es := by
    refine allows_of_checkRun (fun t e hc t' ht' => ?_) h
    rw [ht', Option.all_some, decide_eq_true_eq] at hc
    exact hc
  exact along_of_meets init (fun _ _ t' _ hst hP => hP t' hst) hall.meets

/-! ## Steps that loop

A function with a loop in it has a fuel, and is undefined while the fuel is not
enough. `Fueled F P` says that more fuel does not change what is defined, and
that some fuel is enough precisely under `P`. -/

structure Fueled {α : Type*} (F : ℕ → Option α) (P : Prop) : Prop where
  mono : ∀ fuel fuel' a, fuel ≤ fuel' → F fuel = some a → F fuel' = some a
  returns : (∃ fuel a, F fuel = some a) ↔ P

section Fuel
variable {α β : Type*} {F G : ℕ → Option α} {P Q : Prop}

theorem Fueled.congr (h : Fueled F P) (hPQ : P ↔ Q) : Fueled F Q :=
  ⟨h.mono, h.returns.trans hPQ⟩

/-- What has no loop. -/
theorem fueled_const (x : Option α) : Fueled (fun _ => x) (∃ a, x = some a) :=
  ⟨fun _ _ _ _ h => h, ⟨fun h => h.elim fun _ h => h, fun h => ⟨0, h⟩⟩⟩

theorem fueled_some (a : α) : Fueled (fun _ => some a) True :=
  (fueled_const (some a)).congr (iff_of_true ⟨a, rfl⟩ trivial)

/-- What comes behind the loop cannot fail. -/
theorem Fueled.bind_total (h : Fueled F P) {g : α → Option β} (hg : ∀ a, ∃ b, g a = some b) :
    Fueled (fun fuel => (F fuel).bind g) P := by
  constructor
  · intro fuel fuel' b hle hb
    obtain ⟨a, ha, hgb⟩ := Option.bind_eq_some_iff.mp hb
    exact Option.bind_eq_some_iff.mpr ⟨a, h.mono fuel fuel' a hle ha, hgb⟩
  · rw [← h.returns]
    constructor
    · intro hsome
      obtain ⟨fuel, b, hb⟩ := hsome
      obtain ⟨a, ha, _⟩ := Option.bind_eq_some_iff.mp hb
      exact ⟨fuel, a, ha⟩
    · intro hsome
      obtain ⟨fuel, a, ha⟩ := hsome
      obtain ⟨b, hb⟩ := hg a
      exact ⟨fuel, b, Option.bind_eq_some_iff.mpr ⟨a, ha, hb⟩⟩

/-- One loop behind the other: the second returns under `R`, which is about
what the first leaves. -/
theorem Fueled.bind (h : Fueled F P) {g : ℕ → α → Option β} {R : α → Prop}
    (hg : ∀ a, Fueled (fun fuel => g fuel a) (R a)) (hPQ : P ∧ (∀ fuel a, F fuel = some a → R a) ↔ Q) :
    Fueled (fun fuel => (F fuel).bind (g fuel)) Q := by
  constructor
  · intro fuel fuel' b hle hb
    obtain ⟨a, ha, hgb⟩ := Option.bind_eq_some_iff.mp hb
    exact Option.bind_eq_some_iff.mpr ⟨a, h.mono fuel fuel' a hle ha, (hg a).mono fuel fuel' b hle hgb⟩
  · rw [← hPQ, ← h.returns]
    constructor
    · intro hsome
      obtain ⟨fuel, b, hb⟩ := hsome
      obtain ⟨a, ha, hgb⟩ := Option.bind_eq_some_iff.mp hb
      refine ⟨⟨fuel, a, ha⟩, fun fuel' a' ha' => ?_⟩
      -- both runs of the first loop give the same
      have h₁ := h.mono fuel _ a (Nat.le_max_left fuel fuel') ha
      have h₂ := h.mono fuel' _ a' (Nat.le_max_right fuel fuel') ha'
      obtain rfl := Option.some.inj (h₁.symm.trans h₂)
      exact (hg a).returns.mp ⟨fuel, b, hgb⟩
    · intro hsome
      obtain ⟨⟨fuel, a, ha⟩, hR⟩ := hsome
      obtain ⟨fuel', b, hb⟩ := (hg a).returns.mpr (hR fuel a ha)
      refine ⟨max fuel fuel', b, Option.bind_eq_some_iff.mpr ⟨a, ?_, ?_⟩⟩
      · exact h.mono fuel _ a (Nat.le_max_left fuel fuel') ha
      · exact (hg a).mono fuel' _ b (Nat.le_max_right fuel fuel') hb

theorem Fueled.ite {c : Prop} [Decidable c] (hF : c → Fueled F P) (hG : ¬ c → Fueled G P) :
    Fueled (fun fuel => if c then F fuel else G fuel) P := by
  by_cases hc : c
  · simpa only [if_pos hc] using hF hc
  · simpa only [if_neg hc] using hG hc

variable {fueled : ℕ → σ → ε → Option σ} {C : σ → ε → Prop}

theorem run_fuel_mono (h : ∀ s e, Fueled (fun fuel => fueled fuel s e) (C s e)) {fuel fuel' : ℕ}
    {s t : σ} {es : List ε} (hle : fuel ≤ fuel') (hrun : run (fueled fuel) s es = some t) :
    run (fueled fuel') s es = some t := by
  induction es generalizing s with
  | nil => exact hrun
  | cons e es ih =>
    obtain ⟨s', he, hes⟩ := foldlM_cons_some hrun
    have hrest := ih hes
    have he' : fueled fuel' s e = some s' := (h s e).mono fuel fuel' s' hle he
    rw [run, List.foldlM_cons, he']
    exact hrest

/-- A run returns precisely when each of its events comes in a state in which
the event alone returns. -/
theorem run_returns_iff (h : ∀ s e, Fueled (fun fuel => fueled fuel s e) (C s e)) (s : σ)
    (es : List ε) :
    (∃ fuel t, run (fueled fuel) s es = some t) ↔ ∀ fuel, Allows (fueled fuel) C s es := by
  constructor
  · intro hrun fuel pre e t hp ht
    obtain ⟨fuel', last, hlast⟩ := hrun
    obtain ⟨rest, rfl⟩ := hp
    obtain ⟨t', hpre, _⟩ := run_append.mp hlast
    obtain ⟨u, hu, he⟩ := run_snoc.mp hpre
    have h₁ := run_fuel_mono h (Nat.le_max_left fuel fuel') ht
    have h₂ := run_fuel_mono h (Nat.le_max_right fuel fuel') hu
    obtain rfl := Option.some.inj (h₁.symm.trans h₂)
    exact (h t e).returns.mp ⟨fuel', t', he⟩
  · intro hallows
    induction es using List.reverseRecOn with
    | nil => exact ⟨0, s, rfl⟩
    | append_singleton es e ih =>
      obtain ⟨fuel, t, ht⟩ := ih fun fuel => (hallows fuel).front
      obtain ⟨fuel', t', ht'⟩ := (h t e).returns.mpr (hallows fuel es e t (List.prefix_refl _) ht)
      refine ⟨max fuel fuel', t', run_snoc.mpr ⟨t, ?_, ?_⟩⟩
      · exact run_fuel_mono h (Nat.le_max_left fuel fuel') ht
      · exact (h t e).mono fuel' _ t' (Nat.le_max_right fuel fuel') ht'

end Fuel

/-! ## Runs with a log and a clock -/

/-- A step that also writes down what `obs` sees of the event. -/
def logged {ω : Type*} (obs : σ → ε → List ω) (step : σ → ε → Option σ) (st : σ × List ω) (e : ε) :
    Option (σ × List ω) :=
  (step st.1 e).map fun t => (t, st.2 ++ obs st.1 e)

section Logged
variable {ω : Type*} {obs : σ → ε → List ω} {P : σ → Prop} {C : σ → ε → Prop} {s : σ}
  {log : List ω} {es : List ε}

theorem logged_some {st st' : σ × List ω} {e : ε} (h : logged obs step st e = some st') :
    step st.1 e = some st'.1 ∧ st'.2 = st.2 ++ obs st.1 e := by
  obtain ⟨t, ht, rfl⟩ := Option.map_eq_some_iff.mp h
  exact ⟨ht, rfl⟩

/-- Writing a log changes nothing in the run. -/
theorem run_logged (obs : σ → ε → List ω) (st : σ × List ω) (es : List ε) :
    (run (logged obs step) st es).map Prod.fst = run step st.1 es := by
  induction es generalizing st with
  | nil => rfl
  | cons e es ih =>
    simp only [run, List.foldlM_cons, logged] at ih ⊢
    cases step st.1 e with
    | none => rfl
    | some t => exact ih (t, st.2 ++ obs st.1 e)

theorem Meets.logged (h : Meets step C s es) :
    Meets (Lib.logged obs step) (fun st e => C st.1 e) (s, log) es := by
  intro pre e st st' hp hst hst'
  refine h pre e st.1 st'.1 hp ?_ (logged_some hst').1
  rw [← run_logged obs (s, log), hst, Option.map_some]

theorem along_of_logged {Q : σ × List ω → Prop} (h : Along (Lib.logged obs step) Q (s, log) es)
    (hQ : ∀ st, Q st → P st.1) : Along step P s es := by
  intro pre t hp ht
  rw [← run_logged obs (s, log)] at ht
  obtain ⟨st, hst, rfl⟩ := Option.map_eq_some_iff.mp ht
  exact hQ st (h pre st hp hst)

end Logged

/-- A step of a system with a clock: an event that has a time does not come
before the clock, and sets it. -/
def clocked (time : ε → Option ℕ) (step : σ → ε → Option σ) (st : σ × ℕ) (e : ε) : Option (σ × ℕ) :=
  if st.2 ≤ (time e).getD st.2 then (step st.1 e).map fun t => (t, (time e).getD st.2) else none

theorem clocked_some {time : ε → Option ℕ} {st st' : σ × ℕ} {e : ε}
    (h : clocked time step st e = some st') :
    st.2 ≤ st'.2 ∧ st'.2 = (time e).getD st.2 ∧ step st.1 e = some st'.1 := by
  unfold clocked at h
  split at h
  · rename_i hle
    obtain ⟨t, ht, rfl⟩ := Option.map_eq_some_iff.mp h
    exact ⟨hle, rfl, ht⟩
  · cases h

end Ns3Routing.Lib
