import Mathlib.Order.Lattice
import Ns3Routing.Lib.Run

/-! # The newest of what arrives

A register that is overwritten only by a value of greater rank, and a state
with one register for each key. What a register holds in the end depends on
the values that arrived and not on their order or on how often they came
(`get_run_iff`, `get_run_eq`), as long as values of the same rank are the
same. -/

namespace Ns3Routing.Lib

section Register
variable {α ρ : Type*} [LinearOrder ρ] (rank : α → ρ)

/-- The register after `x` has arrived. -/
def keepNewer (held : Option α) (x : α) : Option α :=
  match held with
  | none => some x
  | some y => if rank y < rank x then some x else some y

/-- `x` has the greatest rank among the value held and the values that
arrive. On a tie it is the value held. -/
structure Newest (held : Option α) (arrives : α → Prop) (x : α) : Prop where
  candidate : held = some x ∨ arrives x
  held_lt : ∀ y, held = some y → y = x ∨ rank y < rank x
  arrives_le : ∀ y, arrives y → rank y ≤ rank x

variable {rank} {held : Option α} {arrives : α → Prop} {x y z : α}

theorem keepNewer_of_lt (h : ∀ y, held = some y → rank y < rank x) :
    keepNewer rank held x = some x := by
  unfold keepNewer
  cases held with
  | none => rfl
  | some y => exact if_pos (h y rfl)

theorem keepNewer_of_le (h : rank x ≤ rank y) : keepNewer rank (some y) x = some y :=
  if_neg (not_lt.mpr h)

theorem isSome_keepNewer : (keepNewer rank held x).isSome := by
  unfold keepNewer
  cases held with
  | none => rfl
  | some y => dsimp only; split <;> rfl

theorem Newest.congr {arrives' : α → Prop} (h : Newest rank held arrives x)
    (same : ∀ y, arrives y ↔ arrives' y) : Newest rank held arrives' x :=
  ⟨h.candidate.imp_right (same x).mp, h.held_lt, fun y hy => h.arrives_le y ((same y).mpr hy)⟩

/-- Nothing arrives. -/
theorem newest_held : Newest rank (some x) (fun _ => False) x :=
  ⟨Or.inl rfl, fun _ hy => Or.inl (Option.some.inj hy).symm, fun _ hy => hy.elim⟩

/-- What was there and the first arrival, told from what the register holds
after it. -/
theorem Newest.cons (h : Newest rank (keepNewer rank held y) arrives x) :
    Newest rank held (fun z => z = y ∨ arrives z) x := by
  obtain ⟨hcandidate, hheld, harrives⟩ := h
  unfold keepNewer at hcandidate hheld
  cases held with
  | none =>
    refine ⟨Or.inr ?_, nofun, ?_⟩
    · exact hcandidate.imp_left fun hx => (Option.some.inj hx).symm
    · intro z hz
      rcases hz with rfl | hz
      · rcases hheld z rfl with rfl | hlt
        · exact le_refl _
        · exact le_of_lt hlt
      · exact harrives z hz
  | some w =>
    dsimp only at hcandidate hheld
    split at hcandidate
    · rename_i hlt
      rw [if_pos hlt] at hheld
      have hle : rank y ≤ rank x := by
        rcases hheld y rfl with rfl | hy
        · exact le_refl _
        · exact le_of_lt hy
      refine ⟨Or.inr ?_, ?_, ?_⟩
      · exact hcandidate.imp_left fun hx => (Option.some.inj hx).symm
      · intro z hz
        obtain rfl := Option.some.inj hz
        exact Or.inr (lt_of_lt_of_le hlt hle)
      · intro z hz
        rcases hz with rfl | hz
        · exact hle
        · exact harrives z hz
    · rename_i hge
      rw [if_neg hge] at hheld
      refine ⟨hcandidate.imp_right Or.inr, hheld, ?_⟩
      intro z hz
      rcases hz with rfl | hz
      · rcases hheld w rfl with rfl | hw
        · exact not_lt.mp hge
        · exact le_trans (not_lt.mp hge) (le_of_lt hw)
      · exact harrives z hz

theorem Newest.le (h : Newest rank held arrives x) (hy : held = some y ∨ arrives y) :
    rank y ≤ rank x := by
  rcases hy with hy | hy
  · rcases h.held_lt y hy with rfl | hlt
    · exact le_refl _
    · exact le_of_lt hlt
  · exact h.arrives_le y hy

theorem Newest.unique (h : Newest rank held arrives x) (h' : Newest rank held arrives y)
    (consistent : ∀ z w, arrives z → arrives w → rank z = rank w → z = w) : x = y := by
  have hrank : rank x = rank y := le_antisymm (h'.le h.candidate) (h.le h'.candidate)
  rcases h.candidate with hx | hx
  · rcases h'.held_lt x hx with hxy | hlt
    · exact hxy
    · exact absurd hrank (ne_of_lt hlt)
  · rcases h'.candidate with hy | hy
    · rcases h.held_lt y hy with hyx | hlt
      · exact hyx.symm
      · exact absurd hrank.symm (ne_of_lt hlt)
    · exact consistent x y hx hy hrank

end Register

section Registers
variable {σ ε κ α ρ : Type*} [LinearOrder ρ] {rank : α → ρ} {step : σ → ε → Option σ}
  {get : σ → κ → Option α} {key : ε → κ} {val : ε → α} {s t t' : σ} {es es' : List ε} {k : κ} {x : α}

/-- The value `x` arrives for the key `k`. -/
def Arrives (key : ε → κ) (val : ε → α) (es : List ε) (k : κ) (x : α) : Prop :=
  ∃ e ∈ es, key e = k ∧ val e = x

theorem arrives_cons {e : ε} :
    Arrives key val (e :: es) k x ↔ (key e = k ∧ x = val e) ∨ Arrives key val es k x := by
  rw [Arrives, List.exists_mem_cons_iff, eq_comm (a := x)]
  rfl

variable [DecidableEq κ]

/-- An event writes to the register of its key. -/
def Registers (rank : α → ρ) (step : σ → ε → Option σ) (get : σ → κ → Option α) (key : ε → κ)
    (val : ε → α) : Prop :=
  ∀ s e t, step s e = some t → ∀ k,
    get t k = if key e = k then keepNewer rank (get s k) (val e) else get s k

theorem Registers.newest (hr : Registers rank step get key val) (h : run step s es = some t)
    (hx : get t k = some x) : Newest rank (get s k) (Arrives key val es k) x := by
  induction es generalizing s with
  | nil =>
    obtain rfl := Option.some.inj h
    rw [hx]
    exact newest_held.congr fun y => ⟨False.elim, fun ⟨_, he, _⟩ => by cases he⟩
  | cons e es ih =>
    obtain ⟨s₁, hs₁, hrest⟩ := foldlM_cons_some h
    have hnewest := ih hrest
    rw [hr s e s₁ hs₁ k] at hnewest
    split at hnewest
    · rename_i hk
      refine hnewest.cons.congr fun y => ?_
      rw [arrives_cons, and_iff_right hk]
    · rename_i hk
      refine hnewest.congr fun y => ?_
      rw [arrives_cons]
      simp [hk]

theorem Registers.isSome (hr : Registers rank step get key val) (h : run step s es = some t)
    (hx : (get s k).isSome ∨ ∃ x, Arrives key val es k x) : (get t k).isSome := by
  induction es generalizing s with
  | nil =>
    obtain rfl := Option.some.inj h
    exact hx.resolve_right fun ⟨_, _, he, _⟩ => by cases he
  | cons e es ih =>
    obtain ⟨s₁, hs₁, hrest⟩ := foldlM_cons_some h
    refine ih hrest ?_
    rw [hr s e s₁ hs₁ k]
    split
    · exact Or.inl isSome_keepNewer
    · rename_i hk
      refine hx.imp_right fun ⟨x, harrives⟩ => ⟨x, ?_⟩
      exact (arrives_cons.mp harrives).resolve_left fun he => hk he.1

/-- What a register holds after a run. -/
theorem Registers.get_run_iff (hr : Registers rank step get key val) (h : run step s es = some t)
    (consistent : ∀ x y, Arrives key val es k x → Arrives key val es k y → rank x = rank y → x = y) :
    get t k = some x ↔ Newest rank (get s k) (Arrives key val es k) x := by
  constructor
  · exact hr.newest h
  · intro hx
    have hsome : (get t k).isSome := by
      refine hr.isSome h (hx.candidate.imp (fun hheld => ?_) fun harrives => ⟨x, harrives⟩)
      rw [hheld]
      rfl
    obtain ⟨y, hy⟩ := Option.isSome_iff_exists.mp hsome
    rw [hy, (hr.newest h hy).unique hx consistent]

/-- The same after any run in which the same values arrive. -/
theorem Registers.get_run_eq (hr : Registers rank step get key val) (h : run step s es = some t)
    (h' : run step s es' = some t')
    (same : ∀ x, Arrives key val es k x ↔ Arrives key val es' k x)
    (consistent : ∀ x y, Arrives key val es k x → Arrives key val es k y → rank x = rank y → x = y) :
    get t k = get t' k := by
  have consistent' : ∀ x y, Arrives key val es' k x → Arrives key val es' k y → rank x = rank y →
      x = y := by
    intro x y hx hy
    exact consistent x y ((same x).mpr hx) ((same y).mpr hy)
  refine Option.ext fun x => ?_
  rw [hr.get_run_iff h consistent, hr.get_run_iff h' consistent']
  exact ⟨fun hx => hx.congr same, fun hx => hx.congr fun y => (same y).symm⟩

end Registers

end Ns3Routing.Lib
