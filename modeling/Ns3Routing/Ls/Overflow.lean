import Ns3Routing.Ls.Dijkstra

/-! # Costs that wrap around

`Dijkstra` adds 32-bit costs and compares the sums, so a sum past 2³² comes
out small and may win. A node is only ever finished at a cost below 2³¹ - 1,
which leaves one kind of sum that wraps: a finished node at cost `d` that
lists another at a cost `w` with `2 ^ 32 ≤ d + w`. What is left of that sum is
less than `d`, so it loses only against a node that was finished before.

`Surveyed` is the search as long as no wrapped sum has won. Once one has, some
entry is cheaper than every route (`Undercut`), and it stays so, since costs
only go down. -/

namespace Ns3Routing.Ls

open Lib

section Wraps
variable (cfg : NodeConfig) (n : Node)

/-- A wrapped sum through `K`, reached at cost `d`, loses against a route. -/
def WrapsLose (K : String) (d : ℕ) : Prop :=
  ∀ L w, Link cfg n K L w → 2 ^ 32 ≤ d + w →
    ∃ c, Route (Link cfg n) cfg.thisNode L c ∧ c + 2 ^ 32 ≤ d + w

/-- Every sum that wraps at a node `Dijkstra` finishes, loses. -/
def NoWrapWins : Prop :=
  ∀ K d, K ≠ cfg.thisNode → Dist cfg n K d → d < 2 ^ 31 - 1 → WrapsLose cfg n K d

/-- Some entry is cheaper than every route. -/
def Undercut (rt : RoutingTable) : Prop :=
  ∃ (K : String) (e : RoutingTableEntry), rt[K]? = some e ∧
    ∀ c, Route (Link cfg n) cfg.thisNode K c → e.cost.toNat < c

/-- The cost `Dijkstra` compares a new one with. -/
def oldCost (rt : RoutingTable) (K : String) : UInt32 :=
  match rt[K]? with
  | some e => e.cost
  | none => intMax

/-- Entries stay, and no cost goes up. -/
def Lowers (rt rt' : RoutingTable) : Prop :=
  ∀ K : String, (K ∈ rt → K ∈ rt') ∧ (oldCost rt' K).toNat ≤ (oldCost rt K).toNat

end Wraps

section Relax
variable {cfg : NodeConfig} {n : Node} {rt rt' : RoutingTable} {K : String}

theorem oldCost_of_some {e : RoutingTableEntry} (h : rt[K]? = some e) : oldCost rt K = e.cost := by
  rw [oldCost, h]

theorem oldCost_of_none (h : rt[K]? = none) : oldCost rt K = intMax := by
  rw [oldCost, h]

theorem intMax_toNat : intMax.toNat = 2 ^ 31 - 1 := rfl

/-- A cost below the maximum is that of an entry. -/
theorem exists_of_oldCost_lt (h : (oldCost rt K).toNat < 2 ^ 31 - 1) :
    ∃ e, rt[K]? = some e ∧ e.cost = oldCost rt K := by
  cases hK : rt[K]? with
  | none =>
    rw [oldCost_of_none hK, intMax_toNat] at h
    omega
  | some e => exact ⟨e, rfl, (oldCost_of_some hK).symm⟩

theorem Lowers.refl (rt : RoutingTable) : Lowers rt rt := fun _ => ⟨id, le_rfl⟩

theorem Lowers.trans {rt'' : RoutingTable} (h : Lowers rt rt') (h' : Lowers rt' rt'') :
    Lowers rt rt'' := by
  intro K
  exact ⟨fun hK => (h' K).1 ((h K).1 hK), (h' K).2.trans (h K).2⟩

theorem Lowers.entry (h : Lowers rt rt') {e : RoutingTableEntry} (he : rt[K]? = some e) :
    ∃ e', rt'[K]? = some e' ∧ e'.cost.toNat ≤ e.cost.toNat := by
  obtain ⟨e', he'⟩ := mem_iff_getElem?.mp ((h K).1 (mem_iff_getElem?.mpr ⟨e, he⟩))
  refine ⟨e', he', ?_⟩
  rw [← oldCost_of_some he, ← oldCost_of_some he']
  exact (h K).2

theorem Undercut.lowers (hu : Undercut cfg n rt) (h : Lowers rt rt') : Undercut cfg n rt' := by
  obtain ⟨K, e, he, hlt⟩ := hu
  obtain ⟨e', he', hle⟩ := h.entry he
  exact ⟨K, e', he', fun c r => hle.trans_lt (hlt c r)⟩

/-- What one pass of the inner loop has done when it returns. -/
theorem relax_some {current : String} {a : Ipv4Address} (h : relax cfg n current rt a = some rt') :
    ∃ here w, rt[current]? = some here ∧
      distanceToNeighbor cfg n current (cfg.reverseLookup a) = some w ∧
      ((∃ entry, (∀ J : String, rt'[J]? = if cfg.reverseLookup a = J then some entry else rt[J]?) ∧
          entry.cost = here.cost + w ∧
          (here.cost + w).toNat < (oldCost rt (cfg.reverseLookup a)).toNat) ∨
        rt' = rt ∧ (oldCost rt (cfg.reverseLookup a)).toNat ≤ (here.cost + w).toNat) := by
  cases hcur : rt[current]? with
  | none => simp [relax, hcur] at h
  | some here =>
    cases hw : distanceToNeighbor cfg n current (cfg.reverseLookup a) with
    | none => simp [relax, hcur, hw] at h
    | some w =>
      refine ⟨here, w, rfl, rfl, ?_⟩
      have hbody : relax cfg n current rt a = some rt' := h
      unfold relax at h
      simp only [hcur, hw, Option.bind_eq_bind, Option.bind_some] at h
      change (if here.cost + w < oldCost rt (cfg.reverseLookup a) then _ else _) = _ at h
      by_cases hlt : here.cost + w < oldCost rt (cfg.reverseLookup a)
      · rw [if_pos hlt] at h
        cases hhop : n.neighborTable[cfg.reverseLookup here.nextHopAddr]? with
        | none => simp [hhop] at h
        | some hop =>
          obtain ⟨rt₁, hrt₁, ⟨entry, hget, _, _, hcost, _⟩ | ⟨rfl, hnone, hle⟩⟩ :=
            relax_cases hcur hw hhop
          · rw [hbody] at hrt₁
            obtain rfl := Option.some.inj hrt₁
            exact Or.inl ⟨entry, hget, hcost, UInt32.lt_iff_toNat_lt.mp hlt⟩
          · have hge : oldCost rt₁ (cfg.reverseLookup a) ≤ here.cost + w := by
              cases hold : rt₁[cfg.reverseLookup a]? with
              | none => rw [oldCost_of_none hold]; exact hnone hold
              | some e => rw [oldCost_of_some hold]; exact hle e hold
            exact absurd hlt (UInt32.not_lt.mpr hge)
      · rw [if_neg hlt] at h
        exact Or.inr ⟨(Option.some.inj h).symm, UInt32.le_iff_toNat_le.mp (UInt32.not_lt.mp hlt)⟩

/-- A cheaper entry in one place. -/
theorem Lowers.set {entry : RoutingTableEntry}
    (hget : ∀ J : String, rt'[J]? = if K = J then some entry else rt[J]?)
    (hlt : entry.cost.toNat < (oldCost rt K).toNat) : Lowers rt rt' := by
  intro J
  by_cases hJ : K = J
  · have hnew : rt'[J]? = some entry := by rw [hget, if_pos hJ]
    refine ⟨fun _ => mem_iff_getElem?.mpr ⟨entry, hnew⟩, ?_⟩
    rw [oldCost_of_some hnew, ← hJ]
    exact hlt.le
  · have hsame : rt'[J]? = rt[J]? := by rw [hget, if_neg hJ]
    refine ⟨fun hJ => ?_, by rw [oldCost, hsame, oldCost]⟩
    rw [mem_iff_getElem?] at hJ ⊢
    rw [hsame]; exact hJ

theorem relax_lowers {current : String} {a : Ipv4Address} (h : relax cfg n current rt a = some rt') :
    Lowers rt rt' := by
  obtain ⟨here, w, _, _, ⟨entry, hget, hcost, hlt⟩ | ⟨rfl, _⟩⟩ := relax_some h
  · exact Lowers.set hget (by rw [hcost]; exact hlt)
  · exact Lowers.refl _

theorem relaxAll_lowers {current : String} {l : List Ipv4Address}
    (h : l.foldlM (relax cfg n current) rt = some rt') : Lowers rt rt' :=
  foldlM_invariant (Lowers rt) (fun _ _ _ _ hs hx => hs.trans (relax_lowers hx)) h (Lowers.refl rt)

theorem finishNode_lowers {st st' : Search} (h : finishNode cfg n st = some st') :
    Lowers st.routingTable st'.routingTable := by
  simp only [finishNode, Option.bind_eq_bind, Option.bind_eq_some_iff] at h
  obtain ⟨current, _, _, _, rt, hrt, h⟩ := h
  obtain rfl := Option.some.inj h
  exact relaxAll_lowers hrt

theorem finishNodes_lowers {k : ℕ} {st st' : Search} (h : finishNodes cfg n k st = some st') :
    Lowers st.routingTable st'.routingTable := by
  induction k generalizing st with
  | zero =>
    obtain rfl := Option.some.inj h
    exact Lowers.refl _
  | succ k ih =>
    simp only [finishNodes, Option.bind_eq_bind, Option.bind_eq_some_iff] at h
    obtain ⟨st₁, h₁, h⟩ := h
    exact (finishNode_lowers h₁).trans (ih h)

/-! ### This node's own entry -/

/-- Nothing is cheaper than free. -/
theorem relaxAll_self {current : String} {l : List Ipv4Address}
    (h : l.foldlM (relax cfg n current) rt = some rt')
    (hself : rt[cfg.thisNode]? = some (selfEntry cfg)) :
    rt'[cfg.thisNode]? = some (selfEntry cfg) := by
  refine foldlM_invariant (fun rt : RoutingTable => rt[cfg.thisNode]? = some (selfEntry cfg)) ?_ h
    hself
  intro rt a rt' _ hself hrt
  obtain ⟨here, w, _, _, ⟨entry, hget, _, hlt⟩ | ⟨rfl, _⟩⟩ := relax_some hrt
  · rw [hget]
    by_cases ha : cfg.reverseLookup a = cfg.thisNode
    · rw [ha, oldCost_of_some hself] at hlt
      exact absurd hlt (Nat.not_lt_zero _)
    · rw [if_neg ha]
      exact hself
  · exact hself

theorem finishNodes_self {k : ℕ} {st st' : Search} (h : finishNodes cfg n k st = some st')
    (hself : st.routingTable[cfg.thisNode]? = some (selfEntry cfg)) :
    st'.routingTable[cfg.thisNode]? = some (selfEntry cfg) := by
  induction k generalizing st with
  | zero =>
    obtain rfl := Option.some.inj h
    exact hself
  | succ k ih =>
    simp only [finishNodes, finishNode, Option.bind_eq_bind, Option.bind_eq_some_iff] at h
    obtain ⟨st₁, ⟨current, _, _, _, rt, hrt, h₁⟩, h⟩ := h
    obtain rfl := Option.some.inj h₁
    exact ih h (relaxAll_self hrt hself)

/-- The entry of this node for itself stays. -/
theorem dijkstra_self (h : dijkstra cfg n = some rt) :
    rt[cfg.thisNode]? = some (selfEntry cfg) := by
  simp only [dijkstra, Option.bind_eq_bind, Option.bind_eq_some_iff] at h
  obtain ⟨st₀, hst₀, st, hst, h⟩ := h
  obtain rfl := Option.some.inj h
  exact finishNodes_self hst (initSearch_some hst₀).2.1.self

end Relax

/-! ## The inner loop -/

/-- The costs are those of routes, and least for the nodes in `F`. -/
structure Exact (cfg : NodeConfig) (n : Node) (F : Finset String) (rt : RoutingTable) : Prop where
  route : ∀ (K : String) e, rt[K]? = some e → Route (Link cfg n) cfg.thisNode K e.cost.toNat
  least : ∀ K ∈ F, ∃ e, rt[K]? = some e ∧ Dist cfg n K e.cost.toNat
  named : ∀ (K : String) e, rt[K]? = some e → K ≠ ""

section Inner
variable {cfg : NodeConfig} {n : Node} {F : Finset String} {rt rt' : RoutingTable}

theorem reverseLookup_ne_empty (a : Ipv4Address) : cfg.reverseLookup a ≠ "" := by
  unfold NodeConfig.reverseLookup
  cases cfg.addressNodeMap[a]? with
  | none => decide
  | some number =>
    intro h
    have hlist : (toString number.toNat).toList = [] := congrArg String.toList h
    rw [Nat.toString_eq_ofList_toDigits, String.toList_ofList] at hlist
    exact Nat.toDigits_ne_nil hlist

theorem Exact.set (h : Exact cfg n F rt) {a : Ipv4Address} {entry : RoutingTableEntry}
    (hget : ∀ J : String, rt'[J]? = if cfg.reverseLookup a = J then some entry else rt[J]?)
    (hF : cfg.reverseLookup a ∉ F)
    (hroute : Route (Link cfg n) cfg.thisNode (cfg.reverseLookup a) entry.cost.toNat) :
    Exact cfg n F rt' := by
  refine ⟨?_, ?_, ?_⟩
  · intro J e he
    rw [hget] at he
    by_cases hJ : cfg.reverseLookup a = J
    · rw [if_pos hJ] at he
      obtain rfl := Option.some.inj he
      exact hJ ▸ hroute
    · rw [if_neg hJ] at he
      exact h.route J e he
  · intro J hJ
    have hne : cfg.reverseLookup a ≠ J := fun hs => hF (hs ▸ hJ)
    rw [hget, if_neg hne]
    exact h.least J hJ
  · intro J e he
    rw [hget] at he
    by_cases hJ : cfg.reverseLookup a = J
    · exact hJ ▸ reverseLookup_ne_empty a
    · rw [if_neg hJ] at he
      exact h.named J e he

/-- What is left of a sum of two costs. -/
theorem toNat_add_cases (a b : UInt32) :
    (a.toNat + b.toNat < 2 ^ 32 ∧ (a + b).toNat = a.toNat + b.toNat) ∨
      2 ^ 32 ≤ a.toNat + b.toNat ∧ (a + b).toNat + 2 ^ 32 = a.toNat + b.toNat := by
  have ha := a.toNat_lt
  have hb := b.toNat_lt
  rw [UInt32.toNat_add]
  omega

/-- The way over a link of cost `w` from a node at cost `d` is counted: what
is kept costs no more, and if the sum wraps, it lost. -/
def Counted (cfg : NodeConfig) (n : Node) (rt : RoutingTable) (d : ℕ) (K : String) (w : ℕ) : Prop :=
  (oldCost rt K).toNat ≤ d + w ∧
    (2 ^ 32 ≤ d + w → ∃ c, Route (Link cfg n) cfg.thisNode K c ∧ c + 2 ^ 32 ≤ d + w)

theorem Counted.lowers {K : String} {d w : ℕ} (h : Counted cfg n rt d K w) (hlow : Lowers rt rt') :
    Counted cfg n rt' d K w :=
  ⟨(hlow K).2.trans h.1, h.2⟩

section Current
variable {current : String} {d : ℕ} {a : Ipv4Address} {here entry : RoutingTableEntry} {w : UInt32}

theorem Exact.cost_eq (h : Exact cfg n F rt) (hF : current ∈ F) (hdist : Dist cfg n current d)
    (hcur : rt[current]? = some here) : here.cost.toNat = d := by
  obtain ⟨e, he, hleast⟩ := h.least current hF
  rw [hcur] at he
  obtain rfl := Option.some.inj he
  exact hleast.unique hdist

/-- A sum that did not win is counted. -/
theorem Exact.counted (h : Exact cfg n F rt) {K : String} (hcost : here.cost.toNat = d)
    (hmax : d < 2 ^ 31 - 1) (hle : (oldCost rt K).toNat ≤ (here.cost + w).toNat) :
    Counted cfg n rt d K w.toNat := by
  rcases toNat_add_cases here.cost w with ⟨hfit, hadd⟩ | ⟨hwrap, hadd⟩
  · exact ⟨by omega, fun hover => by omega⟩
  · have hw := w.toNat_lt
    have hfound : (oldCost rt K).toNat < 2 ^ 31 - 1 := by omega
    obtain ⟨e, he, heq⟩ := exists_of_oldCost_lt hfound
    have hroute := h.route _ e he
    rw [heq] at hroute
    exact ⟨by omega, fun _ => ⟨_, hroute, by omega⟩⟩

variable (hF : current ∈ F) (hne : current ≠ cfg.thisNode)
  (hdist : Dist cfg n current d) (hmax : d < 2 ^ 31 - 1)
  (far : ∀ L ∉ F, ∀ c, Route (Link cfg n) cfg.thisNode L c → d ≤ c)

include hdist in
/-- A sum that fits and wins is that of a new route. -/
theorem Exact.taken (h : Exact cfg n F rt)
    (hlink : Link cfg n current (cfg.reverseLookup a) w.toNat)
    (hget : ∀ J : String, rt'[J]? = if cfg.reverseLookup a = J then some entry else rt[J]?)
    (hentry : entry.cost.toNat = d + w.toNat)
    (hlt : entry.cost.toNat < (oldCost rt (cfg.reverseLookup a)).toNat) : Exact cfg n F rt' := by
  have hroute : Route (Link cfg n) cfg.thisNode (cfg.reverseLookup a) entry.cost.toNat := by
    rw [hentry]
    exact hdist.1.tail hlink
  refine h.set hget ?_ hroute
  intro hmem
  obtain ⟨e, he, hleast⟩ := h.least _ hmem
  have hge := hleast.2 hroute
  rw [oldCost_of_some he] at hlt
  omega

include hne hdist hmax far in
/-- What is left of a sum that wraps and wins beats every route. -/
theorem Exact.undercut (h : Exact cfg n F rt)
    (hlink : Link cfg n current (cfg.reverseLookup a) w.toNat)
    (hnew : rt'[cfg.reverseLookup a]? = some entry)
    (hentry : entry.cost.toNat + 2 ^ 32 = d + w.toNat)
    (hlt : entry.cost.toNat < (oldCost rt (cfg.reverseLookup a)).toNat) :
    Undercut cfg n rt' ∧ ¬ NoWrapWins cfg n := by
  have hbeats : ∀ c, Route (Link cfg n) cfg.thisNode (cfg.reverseLookup a) c →
      entry.cost.toNat < c := by
    intro c r
    by_cases hmem : cfg.reverseLookup a ∈ F
    · obtain ⟨e, he, hleast⟩ := h.least _ hmem
      have hge := hleast.2 r
      rw [oldCost_of_some he] at hlt
      omega
    · have hge := far _ hmem c r
      have hw := w.toNat_lt
      omega
  refine ⟨⟨_, entry, hnew, hbeats⟩, fun hno => ?_⟩
  obtain ⟨c, r, hc⟩ := hno current d hne hdist hmax _ _ hlink (by omega)
  have hlt := hbeats c r
  omega

include hF hne hdist hmax far

/-- One pass of the inner loop: a wrapped sum has won, or the costs are as
exact as before and the way through `current` is counted. -/
theorem Exact.relax (h : Exact cfg n F rt) (ha : a ∈ getNeighbors n current)
    (hrt : Ls.relax cfg n current rt a = some rt') :
    (Exact cfg n F rt' ∧ ∀ w, Link cfg n current (cfg.reverseLookup a) w →
        Counted cfg n rt' d (cfg.reverseLookup a) w) ∨
      Undercut cfg n rt' ∧ ¬ NoWrapWins cfg n := by
  obtain ⟨here, w, hcur, hw, hcases⟩ := relax_some hrt
  have hcost := h.cost_eq hF hdist hcur
  by_cases hself : current = cfg.reverseLookup a
  · -- a node that lists itself gains nothing
    rw [distanceToNeighbor, if_pos hself] at hw
    obtain rfl := Option.some.inj hw
    rcases hcases with ⟨entry, _, _, hlt⟩ | ⟨rfl, _⟩
    · rw [← hself, oldCost_of_some hcur, UInt32.add_zero] at hlt
      exact absurd hlt (Nat.lt_irrefl _)
    · exact Or.inl ⟨h, fun _ hl => absurd hself hl.1⟩
  have hlink : Link cfg n current (cfg.reverseLookup a) w.toNat := ⟨hself, ⟨a, ha, rfl⟩, w, hw, rfl⟩
  rcases hcases with ⟨entry, hget, hentry, hlt⟩ | ⟨rfl, hle⟩
  · have hnew : rt'[cfg.reverseLookup a]? = some entry := by rw [hget, if_pos rfl]
    rw [← hentry] at hlt
    rcases toNat_add_cases here.cost w with ⟨hfit, hadd⟩ | ⟨hwrap, hadd⟩
    · rw [← hentry, hcost] at hadd
      refine Or.inl ⟨h.taken hdist hlink hget hadd hlt, fun c hl => ?_⟩
      rw [hl.cost_eq hw, Counted, oldCost_of_some hnew, hadd]
      exact ⟨le_rfl, fun hover => by omega⟩
    · rw [← hentry, hcost] at hadd
      exact Or.inr (h.undercut hne hdist hmax far hlink hnew hadd hlt)
  · refine Or.inl ⟨h, fun c hl => ?_⟩
    rw [hl.cost_eq hw]
    exact h.counted hcost hmax hle

/-- The inner loop. -/
theorem Exact.relaxAll (h : Exact cfg n F rt) {l : List Ipv4Address}
    (hl : ∀ a ∈ l, a ∈ getNeighbors n current)
    (hrt : l.foldlM (Ls.relax cfg n current) rt = some rt') :
    (Exact cfg n F rt' ∧ ∀ a ∈ l, ∀ w, Link cfg n current (cfg.reverseLookup a) w →
        Counted cfg n rt' d (cfg.reverseLookup a) w) ∨
      Undercut cfg n rt' ∧ ¬ NoWrapWins cfg n := by
  induction l generalizing rt with
  | nil =>
    obtain rfl := Option.some.inj hrt
    exact Or.inl ⟨h, nofun⟩
  | cons a l ih =>
    obtain ⟨rt₁, hrt₁, hrest⟩ := foldlM_cons_some hrt
    have hlow := relaxAll_lowers hrest
    rcases h.relax hF hne hdist hmax far (hl a List.mem_cons_self) hrt₁ with
      ⟨h₁, hdone⟩ | ⟨hunder, hwins⟩
    · rcases ih h₁ (fun b hb => hl b (List.mem_cons_of_mem _ hb)) hrest with
        ⟨h₂, hall⟩ | hbroken
      · refine Or.inl ⟨h₂, fun b hb w hlink => ?_⟩
        rcases List.mem_cons.mp hb with rfl | hb
        · exact (hdone w hlink).lowers hlow
        · exact hall b hb w hlink
      · exact Or.inr hbroken
    · exact Or.inr ⟨hunder.lowers hlow, hwins⟩

end Current

end Inner

/-! ## The main loop -/

/-- The search after the nodes in `F` are finished, as long as no wrapped sum
has won. The fallback name of `GetMinCostNode` is nobody's. -/
structure Surveyed (cfg : NodeConfig) (n : Node) (F : Finset String) (st : Search) : Prop where
  costs : Exact cfg n F st.routingTable
  self : cfg.thisNode ∈ F
  sub : ∀ K ∈ F, K ∈ n.lsTable
  found : ∀ K : String, K ≠ "" →
    st.leastCostFound[K]? = if K ∈ n.lsTable then some (decide (K ∈ F)) else none
  relaxed : ∀ K ∈ F, ∀ d L w, Dist cfg n K d → Link cfg n K L w →
    (oldCost st.routingTable L).toNat ≤ d + w
  lose : ∀ K ∈ F, K ≠ cfg.thisNode → ∀ d, Dist cfg n K d → WrapsLose cfg n K d

/-- Nothing outside `F` is near enough to be finished. -/
def Stuck (cfg : NodeConfig) (n : Node) (F : Finset String) : Prop :=
  ∀ L ∉ F, ∀ c, Route (Link cfg n) cfg.thisNode L c → 2 ^ 31 - 1 ≤ c

section Main
variable {cfg : NodeConfig} {n : Node} {F : Finset String} {rt : RoutingTable}
  {found : NameMap Bool}

theorem considerNodes_known {l : List (String × RoutingTableEntry)} {acc res : Closest}
    (h : l.foldlM (considerNode found) acc = some res) :
    ∀ i ∈ l, ∃ b, found[i.1]? = some b := by
  induction l generalizing acc with
  | nil => nofun
  | cons x l ih =>
    obtain ⟨acc', hx, hl⟩ := foldlM_cons_some h
    intro i hi
    rcases List.mem_cons.mp hi with rfl | hi
    · simp only [considerNode, Option.bind_eq_bind, Option.bind_eq_some_iff] at hx
      obtain ⟨b, hb, _⟩ := hx
      exact ⟨b, hb⟩
    · exact ih hl i hi

/-- What `GetMinCostNode` has found when it returns: the closest node that is
left, or no name at all. -/
theorem getMinCostNode_some {K : String} (h : getMinCostNode rt found = some K) :
    (∀ (J : String) e, rt[J]? = some e → ∃ b, found[J]? = some b) ∧
      ((K = "" ∧ ∀ (J : String) e, rt[J]? = some e → found[J]? = some false →
          2 ^ 31 - 1 ≤ e.cost.toNat) ∨
        ∃ e, rt[K]? = some e ∧ found[K]? = some false ∧ e.cost.toNat < 2 ^ 31 - 1 ∧
          ∀ (J : String) e', rt[J]? = some e' → found[J]? = some false →
            e.cost.toNat ≤ e'.cost.toNat) := by
  simp only [getMinCostNode, Option.map_eq_some_iff] at h
  obtain ⟨res, hres, rfl⟩ := h
  have known := considerNodes_known hres
  refine ⟨fun J e he => known (J, e) (mem_toList.mpr he), ?_⟩
  have sorted : rt.toList.Pairwise fun i j => i.1 < j.1 :=
    (Std.ExtTreeMap.ordered_keys_toList (t := rt)).imp compare_lt_iff_lt.mp
  obtain ⟨res', hres', hcases⟩ := considerNodes_spec ⟨intMax, ""⟩ sorted known
  rw [hres] at hres'
  obtain rfl := Option.some.inj hres'
  rcases hcases with ⟨rfl, hmin⟩ | ⟨i, hi, hfi, rfl, hlt, hfirst⟩
  · refine Or.inl ⟨rfl, fun J e he hfJ => ?_⟩
    exact UInt32.le_iff_toNat_le.mp (hmin (J, e) (mem_toList.mpr he) hfJ)
  · refine Or.inr ⟨i.2, mem_toList.mp hi, hfi, UInt32.lt_iff_toNat_lt.mp hlt, ?_⟩
    intro J e' he' hfJ
    by_cases hJ : J = i.1
    · subst hJ
      rw [mem_toList.mp hi] at he'
      obtain rfl := Option.some.inj he'
      exact le_rfl
    · rcases hfirst (J, e') (mem_toList.mpr he') hfJ hJ with hlt | ⟨heq, _⟩
      · exact hlt.le
      · exact heq.le

section Loop
variable {st st' : Search} (h : Surveyed cfg n F st)
include h

/-- A route to an unfinished node passes one whose way is counted. -/
theorem Surveyed.crossing {L : String} (hL : L ∉ F) {c : ℕ}
    (r : Route (Link cfg n) cfg.thisNode L c) :
    ∃ z ∉ F, (oldCost st.routingTable z).toNat ≤ c := by
  obtain ⟨x, z, c₁, a, c₂, hx, hz, rx, hxz, _, rfl⟩ := r.frontier (S := (· ∈ F)) h.self hL
  obtain ⟨e, _, hdist⟩ := h.costs.least x hx
  have hle := h.relaxed x hx _ z a hdist hxz
  have hge := hdist.2 rx
  exact ⟨z, hz, by omega⟩

/-- The search with `K` among the finished nodes, before and after its
neighbours are looked at. -/
theorem Surveyed.finish {K : String} {e : RoutingTableEntry} {rt' : RoutingTable}
    (he : st.routingTable[K]? = some e) (hK : K ∉ F) (hmem : K ∈ n.lsTable)
    (hmax : e.cost.toNat < 2 ^ 31 - 1)
    (hmin : ∀ z ∉ F, e.cost.toNat ≤ (oldCost st.routingTable z).toNat)
    (hrt : (getNeighbors n K).foldlM (relax cfg n K) st.routingTable = some rt') :
    Surveyed cfg n (insert K F) ⟨rt', st.leastCostFound.insert K true⟩ ∨
      Undercut cfg n rt' ∧ ¬ NoWrapWins cfg n := by
  have far : ∀ L ∉ F, ∀ c, Route (Link cfg n) cfg.thisNode L c → e.cost.toNat ≤ c := by
    intro L hL c r
    obtain ⟨z, hz, hle⟩ := h.crossing hL r
    exact (hmin z hz).trans hle
  have hdist : Dist cfg n K e.cost.toNat :=
    ⟨h.costs.route K e he, fun c r => far K hK c r⟩
  have hne : K ≠ cfg.thisNode := fun hs => hK (hs ▸ h.self)
  have hcosts : Exact cfg n (insert K F) st.routingTable := by
    refine ⟨h.costs.route, fun J hJ => ?_, h.costs.named⟩
    rcases Finset.mem_insert.mp hJ with rfl | hJ
    · exact ⟨e, he, hdist⟩
    · exact h.costs.least J hJ
  rcases hcosts.relaxAll (Finset.mem_insert_self K F) hne hdist hmax
      (fun L hL => far L fun hm => hL (Finset.mem_insert_of_mem hm)) (fun _ ha => ha) hrt with
    ⟨hcosts', hdone⟩ | hbroken
  · refine Or.inl ⟨hcosts', Finset.mem_insert_of_mem h.self, ?_, ?_, ?_, ?_⟩
    · exact (Finset.forall_mem_insert _ _ _).mpr ⟨hmem, h.sub⟩
    · intro J hJ
      exact found_insert hmem (h.found J hJ)
    · intro J hJ d L w hd hlink
      rcases Finset.mem_insert.mp hJ with rfl | hJ
      · obtain ⟨_, ⟨a, ha, rfl⟩, _⟩ := id hlink
        rw [hd.unique hdist]
        exact (hdone a ha w hlink).1
      · exact ((relaxAll_lowers hrt) L).2.trans (h.relaxed J hJ d L w hd hlink)
    · intro J hJ hJne d hd
      rcases Finset.mem_insert.mp hJ with rfl | hJ
      · intro L w hlink hwrap
        obtain ⟨_, ⟨a, ha, rfl⟩, _⟩ := id hlink
        rw [hd.unique hdist] at hwrap ⊢
        exact (hdone a ha w hlink).2 hwrap
      · exact h.lose J hJ hJne d hd
  · exact Or.inr hbroken

/-- The nodes with an entry, when `GetMinCostNode` returns. -/
theorem Surveyed.known {K : String} (hmin : getMinCostNode st.routingTable st.leastCostFound = some K)
    {J : String} {e : RoutingTableEntry} (he : st.routingTable[J]? = some e) :
    J ∈ n.lsTable ∧ st.leastCostFound[J]? = some (decide (J ∈ F)) := by
  obtain ⟨b, hb⟩ := (getMinCostNode_some hmin).1 J e he
  have hJ := h.found J (h.costs.named J e he)
  by_cases hmem : J ∈ n.lsTable
  · rw [if_pos hmem] at hJ
    exact ⟨hmem, hJ⟩
  · rw [if_neg hmem, hb] at hJ
    cases hJ

/-- When every unfinished entry is at the maximum, no route to an unfinished
node is shorter than that. -/
theorem Surveyed.stuck (hmin : getMinCostNode st.routingTable st.leastCostFound = some "")
    (hfar : ∀ (J : String) e, st.routingTable[J]? = some e → st.leastCostFound[J]? = some false →
      2 ^ 31 - 1 ≤ e.cost.toNat) : Stuck cfg n F := by
  intro L hL c r
  obtain ⟨z, hz, hle⟩ := h.crossing hL r
  cases hez : st.routingTable[z]? with
  | none =>
    rw [oldCost_of_none hez, intMax_toNat] at hle
    exact hle
  | some e =>
    rw [oldCost_of_some hez] at hle
    have hfz := (h.known hmin hez).2
    rw [decide_eq_false hz] at hfz
    exact (hfar z e hez hfz).trans hle

/-- The fallback name is not in the routing table, so with it the inner loop
has nothing to do. -/
theorem Surveyed.relaxAll_fallback {rt' : RoutingTable}
    (hrt : (getNeighbors n "").foldlM (relax cfg n "") st.routingTable = some rt') :
    rt' = st.routingTable := by
  cases hl : getNeighbors n "" with
  | nil =>
    rw [hl] at hrt
    exact (Option.some.inj hrt).symm
  | cons a l =>
    rw [hl] at hrt
    obtain ⟨_, hrelax, _⟩ := foldlM_cons_some hrt
    obtain ⟨here, _, hcur, _⟩ := relax_some hrelax
    exact absurd rfl (h.costs.named "" here hcur)

/-- One pass of the main loop: the next node is finished, none is left that
is near enough, or a wrapped sum has won. -/
theorem Surveyed.finishNode (hst : Ls.finishNode cfg n st = some st') :
    (∃ K ∉ F, Surveyed cfg n (insert K F) st') ∨ (Stuck cfg n F ∧ Surveyed cfg n F st') ∨
      Undercut cfg n st'.routingTable ∧ ¬ NoWrapWins cfg n := by
  simp only [Ls.finishNode, Option.bind_eq_bind, Option.bind_eq_some_iff] at hst
  obtain ⟨K, hmin, _, _, rt', hrt, hst⟩ := hst
  obtain rfl := Option.some.inj hst
  rcases (getMinCostNode_some hmin).2 with ⟨rfl, hfar⟩ | ⟨e, he, hfK, hmax, hfirst⟩
  · obtain rfl := h.relaxAll_fallback hrt
    refine Or.inr (Or.inl ⟨h.stuck hmin hfar, h.costs, h.self, h.sub, ?_, h.relaxed, h.lose⟩)
    intro J hJ
    rw [getElem?_insert_eq, if_neg (Ne.symm hJ), h.found J hJ]
  · obtain ⟨hmem, hdec⟩ := h.known hmin he
    have hK : K ∉ F := by
      rw [hdec] at hfK
      exact of_decide_eq_false (Option.some.inj hfK)
    have hleast : ∀ z ∉ F, e.cost.toNat ≤ (oldCost st.routingTable z).toNat := by
      intro z hz
      cases hez : st.routingTable[z]? with
      | none =>
        rw [oldCost_of_none hez, intMax_toNat]
        exact hmax.le
      | some ez =>
        rw [oldCost_of_some hez]
        have hfz := (h.known hmin hez).2
        rw [decide_eq_false hz] at hfz
        exact hfirst z ez hez hfz
    rcases h.finish he hK hmem hmax hleast hrt with hnext | hbroken
    · exact Or.inl ⟨K, hK, hnext⟩
    · exact Or.inr (Or.inr hbroken)

end Loop

theorem Stuck.mono {F' : Finset String} (h : Stuck cfg n F) (hsub : F ⊆ F') : Stuck cfg n F' :=
  fun L hL => h L fun hm => hL (hsub hm)

/-- The main loop. -/
theorem Surveyed.finishNodes {k : ℕ} {st st' : Search} (h : Surveyed cfg n F st)
    (hst : Ls.finishNodes cfg n k st = some st') :
    (∃ F', F ⊆ F' ∧ (F'.card = F.card + k ∨ Stuck cfg n F') ∧ Surveyed cfg n F' st') ∨
      Undercut cfg n st'.routingTable ∧ ¬ NoWrapWins cfg n := by
  induction k generalizing F st with
  | zero =>
    obtain rfl := Option.some.inj hst
    exact Or.inl ⟨F, Finset.Subset.refl F, Or.inl rfl, h⟩
  | succ k ih =>
    simp only [Ls.finishNodes, Option.bind_eq_bind, Option.bind_eq_some_iff] at hst
    obtain ⟨st₁, hst₁, hst⟩ := hst
    rcases h.finishNode hst₁ with ⟨K, hK, h₁⟩ | ⟨hstuck, h₁⟩ | ⟨hunder, hwins⟩
    · rcases ih h₁ hst with ⟨F', hsub, hcard, h'⟩ | hbroken
      · refine Or.inl ⟨F', (Finset.subset_insert K F).trans hsub, hcard.imp_left fun hc => ?_, h'⟩
        rw [hc, Finset.card_insert_of_notMem hK]
        omega
      · exact Or.inr hbroken
    · rcases ih h₁ hst with ⟨F', hsub, _, h'⟩ | hbroken
      · exact Or.inl ⟨F', hsub, Or.inr (hstuck.mono hsub), h'⟩
      · exact Or.inr hbroken
    · exact Or.inr ⟨hunder.lowers (finishNodes_lowers hst), hwins⟩

theorem initSearch_surveyed {st : Search} (h : initSearch cfg n = some st) :
    Surveyed cfg n {cfg.thisNode} st := by
  obtain ⟨hself, hinit, hall, hfound⟩ := initSearch_some h
  have hdist : Dist cfg n cfg.thisNode 0 := IsDistance.refl _
  refine ⟨⟨?_, ?_, ?_⟩, Finset.mem_singleton_self _, ?_, ?_, ?_, ?_⟩
  · intro K e he
    by_cases hK : K = cfg.thisNode
    · subst hK
      rw [hinit.self] at he
      obtain rfl := Option.some.inj he
      exact .refl
    · obtain ⟨hlists, hw, _⟩ := hinit.entry K e he hK
      exact .single ⟨Ne.symm hK, hlists, e.cost, hw, rfl⟩
  · intro K hK
    rw [Finset.mem_singleton.mp hK]
    exact ⟨_, hinit.self, hdist⟩
  · intro K e he
    by_cases hK : K = cfg.thisNode
    · rw [hK]
      exact reverseLookup_ne_empty _
    · obtain ⟨⟨a, _, rfl⟩, _⟩ := hinit.entry K e he hK
      exact reverseLookup_ne_empty a
  · intro K hK
    rw [Finset.mem_singleton.mp hK]
    exact hself
  · intro K _
    simp only [hfound, Finset.mem_singleton]
  · intro K hK d L w hd hlink
    rw [Finset.mem_singleton.mp hK] at hd hlink
    obtain ⟨hne, hlists, w', hw, rfl⟩ := hlink
    obtain ⟨e, he⟩ := mem_iff_getElem?.mp (hall L hlists)
    obtain ⟨_, hw', _⟩ := hinit.entry L e he (Ne.symm hne)
    rw [hw] at hw'
    rw [oldCost_of_some he, Option.some.inj hw']
    exact Nat.le_add_left _ _
  · intro K hK hne
    exact absurd (Finset.mem_singleton.mp hK) hne

/-- Once there are as many finished nodes as entries, all nodes are finished. -/
theorem Surveyed.all_of_card {st : Search} (h : Surveyed cfg n F st)
    (hcard : F.card = n.lsTable.size) (K : String) (hK : K ∈ n.lsTable) : K ∈ F := by
  have hsub : F ⊆ n.lsTable.keys.toFinset := by
    intro J hJ
    rw [List.mem_toFinset, Std.ExtTreeMap.mem_keys]
    exact h.sub J hJ
  have heq := Finset.eq_of_subset_of_card_le hsub (by
    rw [List.toFinset_card_of_nodup Std.ExtTreeMap.nodup_keys, Std.ExtTreeMap.length_keys, hcard])
  rw [heq, List.mem_toFinset, Std.ExtTreeMap.mem_keys]
  exact hK

/-- When the loop ends with no wrapped sum having won, none can. -/
theorem Surveyed.noWrapWins {st : Search} (h : Surveyed cfg n F st)
    (hdone : F.card = n.lsTable.size ∨ Stuck cfg n F) : NoWrapWins cfg n := by
  intro K d hne hd hmax
  by_cases hK : K ∈ F
  · exact h.lose K hK hne d hd
  rcases hdone with hcard | hstuck
  · -- a node without an entry lists nobody
    intro L w hlink
    exact absurd (h.all_of_card hcard K hlink.2.1.mem) hK
  · have hge := hstuck K hK d hd.1
    omega

/-- What `Dijkstra` has done when it returns: the search went through all
nodes, or through all that are near enough, or a wrapped sum has won. -/
theorem dijkstra_surveyed (h : dijkstra cfg n = some rt) :
    (∃ F st, st.routingTable = rt ∧ Surveyed cfg n F st ∧
      (F.card = n.lsTable.size ∨ Stuck cfg n F)) ∨
      Undercut cfg n rt ∧ ¬ NoWrapWins cfg n := by
  simp only [dijkstra, Option.bind_eq_bind, Option.bind_eq_some_iff] at h
  obtain ⟨st₀, hst₀, st, hst, h⟩ := h
  obtain rfl := Option.some.inj h
  have hpos : 0 < n.lsTable.size := by
    have hkeys := Std.ExtTreeMap.mem_keys.mpr (initSearch_some hst₀).1
    rw [← Std.ExtTreeMap.length_keys]
    exact List.length_pos_of_mem hkeys
  rcases (initSearch_surveyed hst₀).finishNodes hst with ⟨F, _, hdone, hsurveyed⟩ | hbroken
  · refine Or.inl ⟨F, st, rfl, hsurveyed, hdone.imp_left fun hc => ?_⟩
    rw [hc, Finset.card_singleton]
    omega
  · exact Or.inr hbroken

/-- **When path costs are exact.** The costs in the routing table are those of
routes exactly when no wrapped sum beats every route to the node it is for. -/
theorem costs_exact_iff (cfg : NodeConfig) (n : Node) (rt : RoutingTable)
    (h : dijkstra cfg n = some rt) :
    (∀ (K : String) e, rt[K]? = some e → Route (Link cfg n) cfg.thisNode K e.cost.toNat) ↔
      NoWrapWins cfg n := by
  rcases dijkstra_surveyed h with ⟨F, st, rfl, hsurveyed, hdone⟩ | ⟨hunder, hwins⟩
  · exact ⟨fun _ => hsurveyed.noWrapWins hdone, fun _ => hsurveyed.costs.route⟩
  · obtain ⟨K, e, he, hlt⟩ := hunder
    constructor
    · intro hall
      exact absurd (hlt _ (hall K e he)) (Nat.lt_irrefl _)
    · intro hno
      exact absurd hno hwins

/-- Without such a sum, a node near enough is at the cost of a shortest
route. -/
theorem dijkstra_least (h : dijkstra cfg n = some rt) (hno : NoWrapWins cfg n) {K : String}
    (hK : K ∈ n.lsTable) {c : ℕ} (r : Route (Link cfg n) cfg.thisNode K c) (hc : c < 2 ^ 31 - 1) :
    ∃ e, rt[K]? = some e ∧ Dist cfg n K e.cost.toNat := by
  rcases dijkstra_surveyed h with ⟨F, st, rfl, hsurveyed, hdone⟩ | ⟨_, hwins⟩
  · refine hsurveyed.costs.least K ?_
    rcases hdone with hcard | hstuck
    · exact hsurveyed.all_of_card hcard K hK
    · by_contra hF
      have hfar := hstuck K hF c r
      omega
  · exact absurd hno hwins

/-- Node 0 has a link of cost 1 to node 1, which has one of the largest cost to
node 2. -/
def heavy : Node where
  currentSequenceNumber := 9
  neighborTable := .ofList [("1", (⟨20, 10, 0⟩ : NeighborTableEntry))]
  lsTable := .ofList [("0", (⟨[(20, 1)], 1⟩ : LSTableEntry)), ("1", ⟨[(10, 1), (30, 0xFFFFFFFF)], 2⟩),
    ("2", ⟨[(20, 0xFFFFFFFF)], 3⟩)]
  routingTable := ∅

theorem heavy_one_le (K : String) (entry : LSTableEntry) (hK : heavy.lsTable[K]? = some entry) :
    ∀ x ∈ entry.neighborCosts, 1 ≤ x.2 := by
  intro x hx
  have hall : (heavy.lsTable.toList.all fun i => i.2.neighborCosts.all fun x => 1 ≤ x.2) = true := by
    decide +kernel
  have hentry := List.all_eq_true.mp hall (K, entry) (mem_toList.mpr hK)
  exact of_decide_eq_true (List.all_eq_true.mp hentry x hx)

/-- The routing table has node 2 at cost 0. -/
theorem heavy_dijkstra :
    ∃ rt, dijkstra sampleConfig heavy = some rt ∧ ∃ e, rt["2"]? = some e ∧ e.cost = 0 := by
  have hentry : (dijkstra sampleConfig heavy).bind (·["2"]?) = some ⟨30, 20, 20, 10, 0⟩ := by
    decide +kernel
  obtain ⟨rt, hrt, he⟩ := Option.bind_eq_some_iff.mp hentry
  exact ⟨rt, hrt, _, he, rfl⟩

theorem heavy_route {c : ℕ} (r : Route (Link sampleConfig heavy) sampleConfig.thisNode "2" c) :
    1 ≤ c :=
  r.pos (fun _ _ _ hlink => hlink.one_le heavy_one_le) (by decide +kernel)

/-- The sum 1 + (2³² - 1) wraps to 0, and node 2 is at the cost of no route. -/
theorem heavy_cost_wraps :
    ∃ rt e, dijkstra sampleConfig heavy = some rt ∧ rt["2"]? = some e ∧
      ¬ Route (Link sampleConfig heavy) sampleConfig.thisNode "2" e.cost.toNat := by
  obtain ⟨rt, hrt, e, he, hcost⟩ := heavy_dijkstra
  refine ⟨rt, e, hrt, he, fun r => ?_⟩
  have hpos := heavy_route r
  rw [hcost] at hpos
  exact absurd hpos (by decide)

theorem costs_exact_iff_heavy :
    (∃ rt, dijkstra sampleConfig heavy = some rt) ∧ ¬ NoWrapWins sampleConfig heavy := by
  obtain ⟨rt, hrt, e, he, hcost⟩ := heavy_dijkstra
  refine ⟨⟨rt, hrt⟩, fun hno => ?_⟩
  have hpos := heavy_route ((costs_exact_iff sampleConfig heavy rt hrt).mpr hno "2" e he)
  rw [hcost] at hpos
  exact absurd hpos (by decide)

end Main

end Ns3Routing.Ls
