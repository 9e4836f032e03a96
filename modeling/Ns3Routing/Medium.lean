import Ns3Routing.Host

/-! # Any medium

The same program on every node of a network of which nothing is known: a
message that was ever sent can arrive at any node, on any socket, at any time
and any number of times, or never. What holds of every run over such a medium
holds whatever the links are. `FaultyNet` is one of them (`medium_of_faulty`). -/

namespace Ns3Routing

open Lib Ns3Routing.Topology

/-- The state of every node and all messages sent so far. -/
structure Medium (ι σ M : Type) where
  node : ι → σ
  sent : List M

/-- The `k`-th message arrives at a node, or a node acts. -/
inductive MediumLabel (ι A : Type) where
  | deliver (i : ι) (k now socket : ℕ)
  | act (i : ι) (a : A)

namespace Medium

variable {ι σ M A : Type} [DecidableEq ι]

def start (node : ι → σ) : Medium ι σ M := ⟨node, []⟩

/-- Node `i` goes to a new state and sends its packets. -/
def apply (s : Medium ι σ M) (i : ι) (res : σ × List (Ipv4Address × M)) : Medium ι σ M where
  node := Function.update s.node i res.1
  sent := s.sent ++ res.2.map Prod.snd

end Medium

section Step
variable {ι σ M A : Type} [DecidableEq ι] (K : Machine σ M A) (config : ι → NodeConfig)

/-- A message that was not sent changes nothing. -/
def mediumStep (s : Medium ι σ M) : MediumLabel ι A → Option (Medium ι σ M)
  | .deliver i k now socket =>
    match s.sent[k]? with
    | none => some s
    | some m => (K.recv (config i) now socket m (s.node i)).map (s.apply i)
  | .act i a => (K.act (config i) a (s.node i)).map (s.apply i)

variable {K config} {s s' : Medium ι σ M} {lab : MediumLabel ι A}

/-- What a step does: nothing, or one node handles an event. -/
theorem mediumStep_cases (h : mediumStep K config s lab = some s') :
    s' = s ∨ ∃ i e res, K.handle (config i) (s.node i) e = some res ∧ s' = s.apply i res ∧
      ∀ now socket m, e = .recv now socket m → m ∈ s.sent := by
  cases lab with
  | deliver i k now socket =>
    simp only [mediumStep] at h
    split at h
    · exact Or.inl (Option.some.inj h).symm
    · rename_i m hm
      obtain ⟨res, hres, rfl⟩ := Option.map_eq_some_iff.mp h
      refine Or.inr ⟨i, .recv now socket m, res, hres, rfl, fun now' socket' m' he => ?_⟩
      obtain ⟨_, _, rfl⟩ := NodeEvent.recv.inj he
      exact List.mem_of_getElem? hm
  | act i a =>
    obtain ⟨res, hres, rfl⟩ := Option.map_eq_some_iff.mp h
    exact Or.inr ⟨i, .act a, res, hres, rfl, fun _ _ _ he => by cases he⟩

/-- Every node satisfies `N`, and every message sent so far `P`. -/
structure Holds (N : ι → σ → Prop) (P : M → Prop) (s : Medium ι σ M) : Prop where
  node : ∀ i, N i (s.node i)
  sent : ∀ m ∈ s.sent, P m

/-- An event whose message, if it has one, satisfies `P`. -/
def Brings (P : M → Prop) : NodeEvent M A → Prop
  | .recv _ _ m => P m
  | .act _ => True

/-- **The invariant rule** for any medium. -/
theorem Holds.step {N : ι → σ → Prop} {P : M → Prop}
    (keep : ∀ i n e n' out, N i n → Brings P e → K.handle (config i) n e = some (n', out) →
      N i n' ∧ ∀ x ∈ out, P x.2)
    (h : Holds N P s) (hst : mediumStep K config s lab = some s') : Holds N P s' := by
  rcases mediumStep_cases hst with rfl | ⟨i, e, ⟨n', out⟩, hres, rfl, hmem⟩
  · exact h
  · have hbrings : Brings P e := by
      cases e with
      | recv now socket m => exact h.sent m (hmem now socket m rfl)
      | act a => trivial
    obtain ⟨hn, hout⟩ := keep i _ e n' out (h.node i) hbrings hres
    refine ⟨fun j => ?_, fun m hm => ?_⟩
    · by_cases hj : j = i
      · subst hj
        simp only [Medium.apply, Function.update_self]
        exact hn
      · simp only [Medium.apply, Function.update_of_ne hj]
        exact h.node j
    · rcases List.mem_append.mp hm with hm | hm
      · exact h.sent m hm
      · obtain ⟨x, hx, rfl⟩ := List.mem_map.mp hm
        exact hout x hx

theorem Holds.run {N : ι → σ → Prop} {P : M → Prop}
    (keep : ∀ i n e n' out, N i n → Brings P e → K.handle (config i) n e = some (n', out) →
      N i n' ∧ ∀ x ∈ out, P x.2)
    {node : ι → σ} (start : ∀ i, N i (node i)) {labs : List (MediumLabel ι A)}
    (h : run (mediumStep K config) (.start node) labs = some s) : Holds N P s :=
  run_invariant (I := Holds N P) ⟨start, fun _ hm => by cases hm⟩
    (fun _ _ _ hs hst => hs.step keep hst) h

end Step

/-! ## Nodes with their pings -/

section Hosts
variable {ι σ M A : Type} [DecidableEq ι] {C : Control σ M A} {config : ι → NodeConfig}

/-- A message of the routing protocol satisfies `P`. -/
def ControlSays (P : M → Prop) (m : HostMessage M) : Prop := ∀ m₀, m = .control m₀ → P m₀

theorem Brings.control {P : M → Prop} {e : NodeEvent (HostMessage M) (HostAct A)}
    {e₀ : NodeEvent M A} (h : Brings (ControlSays P) e) (he : e.control? = some e₀) : Brings P e₀ := by
  cases e with
  | recv now socket m =>
    cases m with
    | control m =>
      obtain rfl := Option.some.inj he
      exact h m rfl
    | pingReq m => cases he
    | pingRsp m => cases he
  | act a =>
    cases a with
    | control a =>
      obtain rfl := Option.some.inj he
      trivial
    | ping _ _ _ => cases he
    | auditPings _ => cases he

/-- What the routing protocols keep over any medium, the nodes keep. -/
theorem Holds.hosts {N : ι → σ → Prop} {P : M → Prop}
    (keep : ∀ i n e n' out, N i n → Brings P e → C.handle (config i) n e = some (n', out) →
      N i n' ∧ ∀ x ∈ out, P x.2)
    (draw : ∀ i n q, N i n → N i (C.setSequenceNumber n q)) {node : ι → Host σ}
    (start : ∀ i, N i (node i).control) {labs : List (MediumLabel ι (HostAct A))}
    {s : Medium ι (Host σ) (HostMessage M)}
    (h : Lib.run (mediumStep (host C) config) (.start node) labs = some s) (i : ι) :
    N i (s.node i).control := by
  refine (Holds.run (N := fun i n => N i n.control) (P := ControlSays P) ?_ start h).node i
  intro i n e n' out hn he hh
  exact host_keeps_one (keep i) (draw i) hn (fun e₀ he₀ => he.control he₀) hh

end Hosts

/-! ## Lossy links are such a medium -/

section Faulty
variable {T : Topology} {σ M A : Type} {K : Machine σ M A}

/-- The nodes are in the same state, and what is in flight was sent. -/
structure Carries (s : FaultyNet T σ M) (t : Medium (Fin T.size) σ M) : Prop where
  node : s.node = t.node
  chan : ∀ p, ∀ m ∈ s.chan p, m ∈ t.sent

theorem Carries.step {s s' : FaultyNet T σ M} {t : Medium (Fin T.size) σ M} {lab : FaultyLabel T A}
    (h : Carries s t) (hst : faultyStep K s lab = some s') :
    ∃ labs t', run (mediumStep K T.config) t labs = some t' ∧ Carries s' t' := by
  rcases faultyStep_cases hst with ⟨i, e, out, _, ha⟩ | ⟨_, hstill⟩
  · have hnode : s'.node = Function.update s.node i (s'.node i) := by
      funext j
      by_cases hj : j = i
      · rw [hj, Function.update_self]
      · rw [Function.update_of_ne hj, ha.others j hj]
    have hcarries : Carries s' (t.apply i (s'.node i, out)) := by
      refine ⟨hnode.trans (by rw [h.node]; rfl), fun p m hm => List.mem_append.mpr ?_⟩
      rcases ha.chan p m hm with hm | ⟨_, x, hx, rfl⟩
      · exact Or.inl (h.chan p m hm)
      · exact Or.inr (List.mem_map_of_mem hx)
    have hhandled : K.handle (T.config i) (t.node i) e = some (s'.node i, out) := by
      rw [← h.node]
      exact ha.handled
    cases e with
    | recv now socket m =>
      obtain ⟨p, _, _, hm⟩ := ha.arrives now socket m rfl
      obtain ⟨k, hk⟩ := List.mem_iff_getElem?.mp (h.chan p m hm)
      refine ⟨[.deliver i k now socket], _, ?_, hcarries⟩
      have hrecv : K.recv (T.config i) now socket m (t.node i) = some (s'.node i, out) := hhandled
      simp [Lib.run, mediumStep, hk, hrecv]
    | act a =>
      have hact : K.act (T.config i) a (t.node i) = some (s'.node i, out) := hhandled
      exact ⟨[.act i a], _, by simp [Lib.run, mediumStep, hact], hcarries⟩
  · exact ⟨[], t, rfl, hstill.node.trans h.node, fun p m hm => h.chan p m (hstill.chan p m hm)⟩

/-- **What a network of lossy links can reach, any medium can.** -/
theorem medium_of_faulty {node : Fin T.size → σ} {labs : List (FaultyLabel T A)}
    {s : FaultyNet T σ M} (h : run (faultyStep K) (.start node) labs = some s) :
    ∃ labs' t, run (mediumStep K T.config) (.start node) labs' = some t ∧ s.node = t.node := by
  have hcarries : ∃ labs' t, run (mediumStep K T.config) (.start node) labs' = some t ∧
      Carries s t := by
    refine run_invariant (I := fun s : FaultyNet T σ M => ∃ labs' t,
      run (mediumStep K T.config) (.start node) labs' = some t ∧ Carries s t) ?_ ?_ h
    · exact ⟨[], _, rfl, rfl, fun p m hm => by cases hm⟩
    · rintro s lab s' ⟨labs₁, t, hrun, hs⟩ hst
      obtain ⟨labs₂, t', hrun', hs'⟩ := hs.step hst
      exact ⟨labs₁ ++ labs₂, t', run_append.mpr ⟨t, hrun, hrun'⟩, hs'⟩
  obtain ⟨labs', t, hrun, ht⟩ := hcarries
  exact ⟨labs', t, hrun, ht.node⟩

end Faulty

end Ns3Routing
