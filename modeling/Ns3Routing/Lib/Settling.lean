import Mathlib.Order.Filter.AtTopBot.Basic
import Mathlib.Order.Filter.Finite
import Mathlib.Order.WellFounded

/-! # Runs that end, and values that settle

`acc_of_lex` ends runs by a measure. Where no measure is at hand,
`eventually_settled` is about a family of values along an infinite run: when
a value only ever changes to something at most `b`, and every value `m` is
kept for good once it is reached and all lower values have settled, then all
values settle. -/

namespace Ns3Routing.Lib

open Filter

/-- A relation that lowers `f`, or keeps it and lowers `g`, ends from every
state with the invariant. -/
theorem acc_of_lex {α : Type*} {R : α → α → Prop} {I : α → Prop} (f g : α → ℕ)
    (step : ∀ s s', I s → R s s' → I s' ∧ (f s' < f s ∨ f s' ≤ f s ∧ g s' < g s)) {s : α}
    (hs : I s) : Acc (fun s' s => R s s') s := by
  induction hf : f s using Nat.strong_induction_on generalizing s with
  | _ x ihf =>
    induction hg : g s using Nat.strong_induction_on generalizing s with
    | _ y ihg =>
      refine ⟨s, fun s' hR => ?_⟩
      obtain ⟨hI, hlt | ⟨hle, hlt⟩⟩ := step s s' hs hR
      · exact ihf (f s') (hf ▸ hlt) hI rfl
      · rcases hle.lt_or_eq with hle | heq
        · exact ihf (f s') (hf ▸ hle) hI rfl
        · exact ihg (g s') (hg ▸ hlt) hI (heq.trans hf) rfl

/-- A sequence of numbers that does not go up from some point on stays the
same from some point on. -/
theorem eventually_const_of_antitone {f : ℕ → ℕ} (h : ∀ᶠ t in atTop, f (t + 1) ≤ f t) :
    ∀ᶠ t in atTop, f (t + 1) = f t := by
  obtain ⟨T, hT⟩ := eventually_atTop.mp h
  obtain ⟨t₀, ht₀, hmin⟩ : ∃ t₀ ≥ T, ∀ t ≥ T, f t₀ ≤ f t := by
    obtain ⟨_, ⟨t₀, ht₀, rfl⟩, hmin⟩ := WellFounded.has_min wellFounded_lt (f '' Set.Ici T)
      ⟨f T, T, Set.mem_Ici.mpr le_rfl, rfl⟩
    exact ⟨t₀, ht₀, fun t ht => not_lt.mp (hmin (f t) ⟨t, ht, rfl⟩)⟩
  have low : ∀ t ≥ t₀, f t = f t₀ := by
    intro t ht
    induction t, ht using Nat.le_induction with
    | base => rfl
    | succ t ht ih =>
      have hle : f (t + 1) ≤ f t := hT t (ht₀.trans ht)
      exact le_antisymm (hle.trans_eq ih) (hmin (t + 1) (by omega))
  filter_upwards [eventually_ge_atTop t₀] with t ht
  rw [low t ht, low (t + 1) (by omega)]

/-- A sequence whose changes lead into `G` ends up in `G`, or fixed. -/
theorem fixed_or_within {f : ℕ → ℕ} {G : ℕ → Prop}
    (h : ∀ᶠ t in atTop, f (t + 1) = f t ∨ G (f (t + 1))) :
    ∀ᶠ T in atTop, (∀ t ≥ T, f t = f T) ∨ ∀ t ≥ T, G (f t) := by
  obtain ⟨T, hT⟩ := eventually_atTop.mp h
  by_cases hG : ∃ t₀ ≥ T, G (f t₀)
  · obtain ⟨t₀, ht₀, hG⟩ := hG
    have stays : ∀ t ≥ t₀, G (f t) := by
      intro t ht
      induction t, ht using Nat.le_induction with
      | base => exact hG
      | succ t ht ih =>
        rcases hT t (ht₀.trans ht) with he | hG
        · rw [he]; exact ih
        · exact hG
    filter_upwards [eventually_ge_atTop t₀] with t₁ ht₁
    exact Or.inr fun t ht => stays t (ht₁.trans ht)
  · push Not at hG
    filter_upwards [eventually_ge_atTop T] with t₁ ht₁
    refine Or.inl fun t ht => ?_
    induction t, ht using Nat.le_induction with
    | base => rfl
    | succ t ht ih =>
      rcases hT t (ht₁.trans ht) with he | hG'
      · exact he.trans ih
      · exact absurd hG' (hG (t + 1) (by omega))

section Settling
variable {V : Type*} [Finite V] {x : ℕ → V → ℕ} {b : ℕ}

/-- From `T` on, a value is fixed or at least `m`. -/
def SettledBelow (x : ℕ → V → ℕ) (m T : ℕ) : Prop :=
  ∀ v, (∀ t ≥ T, x t v = x T v) ∨ ∀ t ≥ T, m ≤ x t v

/-- When values change to at least `m` only, those below `m` settle. -/
theorem exists_settledBelow {m : ℕ}
    (h : ∀ᶠ t in atTop, ∀ v, x (t + 1) v ≠ x t v → m ≤ x (t + 1) v) : ∃ T, SettledBelow x m T := by
  refine (eventually_all.mpr fun v => fixed_or_within (f := fun t => x t v) ?_).exists
  filter_upwards [h] with t ht
  exact or_iff_not_imp_left.mpr (ht v)

/-- **Values settle.** -/
theorem eventually_settled (bounded : ∀ t v, x (t + 1) v ≠ x t v → x (t + 1) v ≤ b)
    (sticky : ∀ m T, m ≤ b → SettledBelow x m T → ∀ v, ∀ᶠ t in atTop,
      x (t + 1) v ≠ x t v → x (t + 1) v = m → ∀ t' > t, x t' v = m) :
    ∀ᶠ t in atTop, ∀ v, x (t + 1) v = x t v := by
  -- by induction on `m`: in the end nothing changes to a value below `m`
  have below : ∀ m ≤ b + 1, ∀ᶠ t in atTop, ∀ v, x (t + 1) v ≠ x t v → m ≤ x (t + 1) v := by
    intro m
    induction m with
    | zero => intro _; exact Eventually.of_forall fun _ _ _ => Nat.zero_le _
    | succ m ih =>
      intro hm
      have hlow := ih (by omega)
      obtain ⟨T, hT⟩ := exists_settledBelow hlow
      refine eventually_all.mpr fun v => ?_
      obtain ⟨T', hT'⟩ := eventually_atTop.mp (sticky m T (by omega) hT v)
      -- a change to `m` is the last one
      have once : ∀ᶠ t in atTop, x (t + 1) v ≠ x t v → x (t + 1) v ≠ m := by
        by_cases hch : ∃ t₀ ≥ T', x (t₀ + 1) v ≠ x t₀ v ∧ x (t₀ + 1) v = m
        · obtain ⟨t₀, ht₀, hne, hm⟩ := hch
          filter_upwards [eventually_gt_atTop t₀] with t ht hne'
          have h₁ := hT' t₀ ht₀ hne hm t ht
          have h₂ := hT' t₀ ht₀ hne hm (t + 1) (by omega)
          exact absurd (h₂.trans h₁.symm) hne'
        · push Not at hch
          filter_upwards [eventually_ge_atTop T'] with t ht hne
          exact hch t ht hne
      filter_upwards [hlow, once] with t h₁ h₂ hne
      have := h₁ v hne
      have := h₂ hne
      omega
  filter_upwards [below (b + 1) le_rfl] with t ht v
  by_contra hne
  have := ht v hne
  have := bounded t v hne
  omega

/-! ## Values that are computed from what was heard

Everyone has a value and tells others about it; messages arrive late and in
any order. A receiver keeps the last thing it heard from each of the others,
and its own value is the least offer it can make from that. -/

variable {Q : Type*} [Finite Q] {src : Q → V} {chan : ℕ → Q → Multiset ℕ} {y : ℕ → V → ℕ}

/-- A receiver: `chan` is what is on its way on each channel, and `y` the last
it heard from each sender. What is sent is the sender's value. -/
structure Receives (x : ℕ → V → ℕ) (src : Q → V) (chan : ℕ → Q → Multiset ℕ) (y : ℕ → V → ℕ) :
    Prop where
  sends : ∀ t q, ∃ rest new, (∀ c ∈ new, c = x (t + 1) (src q)) ∧ rest ≤ chan t q ∧
    chan (t + 1) q = rest + new
  hears : ∀ t w, y (t + 1) w = y t w ∨ ∃ q rest new, src q = w ∧
    (∀ c ∈ new, c = x (t + 1) w) ∧ chan t q = y (t + 1) w ::ₘ rest ∧ chan (t + 1) q = rest + new

/-- **What was heard settles**: old messages run out. -/
theorem Receives.settledBelow (h : Receives x src chan y) {m T : ℕ} (hx : SettledBelow x m T) :
    ∃ T', SettledBelow y m T' := by
  classical
  -- `G w` is what `w` says from `T` on
  have hG : ∀ w, ∃ G : ℕ → Prop, (∀ t ≥ T, G (x t w)) ∧ ∀ f : ℕ → ℕ,
      (∀ᶠ T' in atTop, (∀ t ≥ T', f t = f T') ∨ ∀ t ≥ T', G (f t)) →
        ∀ᶠ T' in atTop, (∀ t ≥ T', f t = f T') ∨ ∀ t ≥ T', m ≤ f t := by
    intro w
    rcases hx w with hfix | hhigh
    · refine ⟨(· = x T w), hfix, fun f hf => ?_⟩
      filter_upwards [hf] with T' hT'
      refine Or.inl ?_
      rcases hT' with hfix | hall
      · exact hfix
      · intro t ht
        rw [hall t ht, hall T' le_rfl]
    · exact ⟨(m ≤ ·), hhigh, fun f hf => hf⟩
  choose G hsay hsettle using hG
  -- a message from before `T` is heard once
  have heard : ∀ᶠ t in atTop, ∀ q rest new, (∀ c ∈ new, c = x (t + 1) (src q)) →
      ∀ c, chan t q = c ::ₘ rest → chan (t + 1) q = rest + new → G (src q) c := by
    refine eventually_all.mpr fun q => ?_
    have hnew : ∀ t ≥ T, ∀ new : Multiset ℕ, (∀ c ∈ new, c = x (t + 1) (src q)) →
        new.countP (fun c => ¬ G (src q) c) = 0 := by
      intro t ht new hnew
      rw [Multiset.countP_eq_zero]
      intro c hc hbad
      rw [hnew c hc] at hbad
      exact hbad (hsay (src q) (t + 1) (by omega))
    have hanti : ∀ᶠ t in atTop, (chan (t + 1) q).countP (fun c => ¬ G (src q) c) ≤
        (chan t q).countP (fun c => ¬ G (src q) c) := by
      filter_upwards [eventually_ge_atTop T] with t ht
      obtain ⟨rest, new, hx, hle, he⟩ := h.sends t q
      rw [he, Multiset.countP_add, hnew t ht new hx, add_zero]
      exact Multiset.countP_le_of_le _ hle
    have hconst := eventually_const_of_antitone
      (f := fun t => (chan t q).countP fun c => ¬ G (src q) c) hanti
    filter_upwards [hconst, eventually_ge_atTop T] with t hconst ht
    intro rest new hx c hc he
    by_contra hbad
    rw [he, hc, Multiset.countP_add, hnew t ht new hx,
      Multiset.countP_cons_of_pos (p := fun c => ¬ G (src q) c) rest hbad] at hconst
    omega
  have settled : ∀ᶠ T' in atTop, ∀ w, (∀ t ≥ T', y t w = y T' w) ∨ ∀ t ≥ T', m ≤ y t w := by
    refine eventually_all.mpr fun w => ?_
    refine hsettle w (fun t => y t w) (fixed_or_within (f := fun t => y t w) ?_)
    filter_upwards [heard] with t ht
    rcases h.hears t w with hsame | ⟨q, rest, new, rfl, hx, hc, he⟩
    · exact Or.inl hsame
    · exact Or.inr (ht q rest new hx (y (t + 1) (src q)) hc he)
  exact settled.exists

/-- `r` is the least of the offers `g (y w)` of the senders in `N`, if that is
at most `b`. -/
def LeastOffer (g : ℕ → ℕ) (b : ℕ) (N : Set V) (y : V → ℕ) (r : ℕ) : Prop :=
  (∀ w ∈ N, r ≤ g (y w)) ∧ (r ≤ b → ∃ w ∈ N, r = g (y w))

/-- The value of `u` at each time: as before, or the least offer where that is
at most `b`. -/
def Relaxes (g : ℕ → ℕ) (b : ℕ) (N : Set V) (x : ℕ → V → ℕ) (y : ℕ → V → ℕ) (u : V) : Prop :=
  ∀ t, x (t + 1) u = x t u ∧ y (t + 1) = y t ∨
    ∃ r, LeastOffer g b N (y (t + 1)) r ∧ x (t + 1) u = if r ≤ b then r else x t u

omit [Finite V] in
/-- A value that is reached when everything below it was heard for good
stays. -/
theorem Relaxes.sticky {g : ℕ → ℕ} {N : Set V} {u : V} (hg : ∀ c, g c ≤ b → c < g c)
    (h : Relaxes g b N x y u) {m T : ℕ} (hm : m ≤ b) (hy : SettledBelow y m T) :
    ∀ᶠ t in atTop, x (t + 1) u ≠ x t u → x (t + 1) u = m → ∀ t' > t, x t' u = m := by
  filter_upwards [eventually_ge_atTop T] with t ht hne heq
  -- an offer of at most `m` rests on something fixed
  have fixed : ∀ w t₁ t₂, T ≤ t₁ → T ≤ t₂ → g (y t₁ w) ≤ m → y t₂ w = y t₁ w := by
    intro w t₁ t₂ h₁ h₂ hle
    have hlt := hg (y t₁ w) (hle.trans hm)
    rcases hy w with hfix | hhigh
    · rw [hfix t₁ h₁, hfix t₂ h₂]
    · have := hhigh t₁ h₁
      omega
  have hleast : LeastOffer g b N (y (t + 1)) m := by
    rcases h t with ⟨hsame, _⟩ | ⟨r, hr, hx⟩
    · exact absurd hsame hne
    · by_cases hrb : r ≤ b
      · rw [if_pos hrb, heq] at hx
        exact hx ▸ hr
      · rw [if_neg hrb] at hx
        exact absurd hx hne
  obtain ⟨w, hw, hwm⟩ := hleast.2 hm
  have stays : ∀ t' ≥ t + 1, x t' u = m := by
    intro t' ht'
    induction t', ht' using Nat.le_induction with
    | base => exact heq
    | succ t' ht' ih =>
      rcases h t' with ⟨hsame, _⟩ | ⟨r, hr, hx⟩
      · exact hsame.trans ih
      · have hrm : r ≤ m := by
          have hle := hr.1 w hw
          rwa [fixed w (t + 1) (t' + 1) (by omega) (by omega) hwm.ge, ← hwm] at hle
        have hmr : m ≤ r := by
          obtain ⟨w', hw', hr'⟩ := hr.2 (hrm.trans hm)
          have hle := hleast.1 w' hw'
          rwa [fixed w' (t' + 1) (t + 1) (by omega) (by omega) (hr' ▸ hrm), ← hr'] at hle
        rw [hx, if_pos (hrm.trans hm)]
        omega
  exact fun t' ht' => stays t' ht'

end Settling

end Ns3Routing.Lib
