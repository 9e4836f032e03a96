import Mathlib.Algebra.Order.BigOperators.Ring.Finset
import Ns3Routing.Lib.Run
import Ns3Routing.Network

/-! # A network that loses, duplicates and reorders

The same program runs on every node of a topology. What is in flight on a
link can arrive in any order, get lost or be duplicated, and a link can go
down and come up again: nothing is sent on a link that is down, and what
would arrive on it is lost.

`faultyStep_cases` says what a step can do, by membership in the queues, and
`Faulty.step` is the rule for what holds in every run. -/

namespace Ns3Routing

open Lib Ns3Routing.Topology

/-- The program of a node: what it does with a message on one of its sockets,
and with a timer or a command. `none` where the source has no defined
result. -/
structure Machine (σ M A : Type) where
  recv : NodeConfig → (now socket : ℕ) → M → σ → Option (σ × List (Ipv4Address × M))
  act : NodeConfig → A → σ → Option (σ × List (Ipv4Address × M))

inductive NodeEvent (M A : Type) where
  | recv (now socket : ℕ) (m : M)
  | act (a : A)
  deriving DecidableEq

namespace Machine

variable {σ M A : Type} (K : Machine σ M A) (cfg : NodeConfig)

def handle (n : σ) : NodeEvent M A → Option (σ × List (Ipv4Address × M))
  | .recv now socket m => K.recv cfg now socket m n
  | .act a => K.act cfg a n

/-- The state after an event. -/
def step (n : σ) (e : NodeEvent M A) : Option σ := (K.handle cfg n e).map Prod.fst

end Machine

/-- What can happen in the network: the `k`-th message of a queue arrives, gets
lost or is duplicated, a node acts, or a link goes down or comes up. -/
inductive FaultyLabel (T : Topology) (A : Type) where
  | deliver (p : T.Port) (k : ℕ) (now : ℕ)
  | lose (p : T.Port) (k : ℕ)
  | duplicate (p : T.Port) (k : ℕ)
  | act (i : Fin T.size) (a : A)
  | linkDown (l : Fin T.links)
  | linkUp (l : Fin T.links)

structure FaultyNet (T : Topology) (σ M : Type) extends Net T σ M where
  up : Fin T.links → Bool

namespace FaultyNet

variable {T : Topology} {σ M A : Type}

/-- The nodes with these states, all links up and nothing in flight. -/
def start (node : Fin T.size → σ) : FaultyNet T σ M where
  node := node
  chan _ := []
  up _ := true

/-- Node `i` goes to a new state, and its packets go to its link ends that are
up. -/
def apply (s : FaultyNet T σ M) (i : Fin T.size) (res : σ × List (Ipv4Address × M)) :
    FaultyNet T σ M where
  node := Function.update s.node i res.1
  chan p := s.chan p ++ if s.up p.1 then Net.onPort T i res.2 p else []
  up := s.up

def setChan (s : FaultyNet T σ M) (p : T.Port) (msgs : List M) : FaultyNet T σ M :=
  { s with chan := Function.update s.chan p msgs }

/-- The `k`-th message of a queue is taken out. -/
def take (s : FaultyNet T σ M) (p : T.Port) (k : ℕ) : FaultyNet T σ M :=
  s.setChan p ((s.chan p).eraseIdx k)

def setUp (s : FaultyNet T σ M) (l : Fin T.links) (b : Bool) : FaultyNet T σ M :=
  { s with up := Function.update s.up l b }

end FaultyNet

section Step
variable {T : Topology} {σ M A : Type} (K : Machine σ M A)

/-- A label that does not apply changes nothing. -/
def faultyStep (s : FaultyNet T σ M) : FaultyLabel T A → Option (FaultyNet T σ M)
  | .deliver p k now =>
    match (s.chan p)[k]? with
    | none => some s
    | some m =>
      if s.up p.1 then
        (K.recv (T.config (T.owner (peer p))) now (T.socket (peer p)) m
          (s.node (T.owner (peer p)))).map ((s.take p k).apply (T.owner (peer p)))
      else some (s.take p k)
  | .lose p k => some (s.take p k)
  | .duplicate p k => some (s.setChan p (s.chan p ++ (s.chan p)[k]?.toList))
  | .act i a => (K.act (T.config i) a (s.node i)).map (s.apply i)
  | .linkDown l => some (s.setUp l false)
  | .linkUp l => some (s.setUp l true)

/-- Node `i` handles the event `e`, which is an act of its own or the arrival
of a message in flight, and sends `out`. -/
structure Acts (s : FaultyNet T σ M) (i : Fin T.size) (e : NodeEvent M A)
    (out : List (Ipv4Address × M)) (s' : FaultyNet T σ M) : Prop where
  handled : K.handle (T.config i) (s.node i) e = some (s'.node i, out)
  others : ∀ j, j ≠ i → s'.node j = s.node j
  /-- A message in flight was there before, or node `i` has sent it. -/
  chan : ∀ p m, m ∈ s'.chan p → m ∈ s.chan p ∨ T.owner p = i ∧ ∃ x ∈ out, x.2 = m
  arrives : ∀ now socket m, e = .recv now socket m →
    ∃ p, T.owner (peer p) = i ∧ socket = T.socket (peer p) ∧ m ∈ s.chan p

/-- No node does anything, and nothing new is in flight. -/
structure Still (s s' : FaultyNet T σ M) : Prop where
  node : s'.node = s.node
  chan : ∀ p m, m ∈ s'.chan p → m ∈ s.chan p

/-- The event a label stands for: the node and what it handles. -/
def FaultyLabel.event? (s : FaultyNet T σ M) :
    FaultyLabel T A → Option (Fin T.size × NodeEvent M A)
  | .deliver p k now =>
    match (s.chan p)[k]? with
    | some m =>
      if s.up p.1 then some (T.owner (peer p), .recv now (T.socket (peer p)) m) else none
    | none => none
  | .act i a => some (i, .act a)
  | .lose _ _ | .duplicate _ _ | .linkDown _ | .linkUp _ => none

end Step

section Cases
variable {T : Topology} {σ M A : Type} {K : Machine σ M A} {s s' : FaultyNet T σ M}
  {lab : FaultyLabel T A}

theorem of_mem_setChan {p q : T.Port} {msgs : List M} {m : M} (hm : m ∈ (s.setChan p msgs).chan q)
    (hsub : ∀ m ∈ msgs, m ∈ s.chan p) : m ∈ s.chan q := by
  unfold FaultyNet.setChan at hm
  dsimp only at hm
  by_cases hq : q = p
  · subst hq
    rw [Function.update_self] at hm
    exact hsub m hm
  · rwa [Function.update_of_ne hq] at hm

theorem FaultyNet.of_mem_take {p q : T.Port} {k : ℕ} {m : M} (hm : m ∈ (s.take p k).chan q) :
    m ∈ s.chan q :=
  of_mem_setChan hm fun _ => List.mem_of_mem_eraseIdx

theorem of_mem_apply {i : Fin T.size} {res : σ × List (Ipv4Address × M)} {p : T.Port} {m : M}
    (hm : m ∈ (s.apply i res).chan p) :
    m ∈ s.chan p ∨ T.owner p = i ∧ ∃ x ∈ res.2, x.2 = m := by
  rcases List.mem_append.mp hm with hm | hm
  · exact Or.inl hm
  · split at hm
    · exact Or.inr (Net.of_mem_onPort hm)
    · cases hm

/-- **What a step of the network does.** -/
theorem faultyStep_cases (h : faultyStep K s lab = some s') :
    (∃ i e out, lab.event? s = some (i, e) ∧ Acts K s i e out s') ∨
      lab.event? s = none ∧ Still s s' := by
  cases lab with
  | deliver p k now =>
    simp only [faultyStep, FaultyLabel.event?] at h ⊢
    split at h
    · rename_i hk
      obtain rfl := Option.some.inj h
      exact Or.inr ⟨by rw [hk], rfl, fun _ _ => id⟩
    · rename_i m hk
      split at h
      · rename_i hup
        obtain ⟨⟨n', out⟩, handled, rfl⟩ := Option.map_eq_some_iff.mp h
        refine Or.inl ⟨T.owner (peer p), .recv now (T.socket (peer p)) m, out, ?_, ?_⟩
        · simp only [hk, hup, if_true]
        · refine ⟨?_, ?_, ?_, ?_⟩
          · show K.recv _ _ _ _ _ = _
            rw [handled]
            simp [FaultyNet.apply]
          · intro j hj
            simp [FaultyNet.apply, hj, FaultyNet.take, FaultyNet.setChan]
          · intro q m' hm'
            exact (of_mem_apply hm').imp_left FaultyNet.of_mem_take
          · intro now' socket m' he
            obtain ⟨rfl, rfl, rfl⟩ := NodeEvent.recv.inj he
            exact ⟨p, rfl, rfl, List.mem_of_getElem? hk⟩
      · rename_i hup
        obtain rfl := Option.some.inj h
        exact Or.inr ⟨by simp only [hk, hup, if_false, Bool.false_eq_true], rfl,
          fun _ _ => FaultyNet.of_mem_take⟩
  | lose p k =>
    obtain rfl := Option.some.inj h
    exact Or.inr ⟨rfl, rfl, fun _ _ => FaultyNet.of_mem_take⟩
  | duplicate p k =>
    obtain rfl := Option.some.inj h
    refine Or.inr ⟨rfl, rfl, fun q m hm => of_mem_setChan hm fun m' hm' => ?_⟩
    rcases List.mem_append.mp hm' with hm' | hm'
    · exact hm'
    · exact List.mem_of_getElem? (Option.mem_toList.mp hm')
  | act i a =>
    obtain ⟨⟨n', out⟩, handled, rfl⟩ := Option.map_eq_some_iff.mp h
    refine Or.inl ⟨i, .act a, out, rfl, ?_, ?_, fun _ _ => of_mem_apply, ?_⟩
    · show K.act _ _ _ = _
      rw [handled]
      simp [FaultyNet.apply]
    · intro j hj
      simp [FaultyNet.apply, hj]
    · intro now socket m he
      cases he
  | linkDown l =>
    obtain rfl := Option.some.inj h
    exact Or.inr ⟨rfl, rfl, fun _ _ => id⟩
  | linkUp l =>
    obtain rfl := Option.some.inj h
    exact Or.inr ⟨rfl, rfl, fun _ _ => id⟩

end Cases

/-! ## Counting messages -/

section InFlight
variable {T : Topology} {σ M : Type} {s : FaultyNet T σ M}

/-- The number of messages in flight. -/
def FaultyNet.inFlight (s : FaultyNet T σ M) : ℕ := ∑ p, (s.chan p).length

theorem inFlight_take {p : T.Port} {k : ℕ} {m : M} (hk : (s.chan p)[k]? = some m) :
    (s.take p k).inFlight < s.inFlight := by
  have hlen : k < (s.chan p).length := (List.getElem?_eq_some_iff.mp hk).1
  unfold FaultyNet.inFlight FaultyNet.take FaultyNet.setChan
  refine Finset.sum_lt_sum (fun q _ => ?_) ⟨p, Finset.mem_univ p, ?_⟩
  · by_cases hq : q = p
    · subst hq
      simp [List.length_eraseIdx_of_lt hlen]
    · simp [hq]
  · simp [List.length_eraseIdx_of_lt hlen]
    omega

theorem inFlight_apply_nil {i : Fin T.size} {n : σ} : (s.apply i (n, [])).inFlight = s.inFlight := by
  unfold FaultyNet.inFlight FaultyNet.apply
  simp

end InFlight

/-! ## Invariants -/

section Invariants
variable {T : Topology} {σ M A : Type} {K : Machine σ M A}

/-- Every node satisfies `N`, and every message in flight `P`, which may depend
on who has sent it. -/
structure Faulty (N : Fin T.size → σ → Prop) (P : Fin T.size → M → Prop) (s : FaultyNet T σ M) :
    Prop where
  node : ∀ i, N i (s.node i)
  msg : ∀ p, ∀ m ∈ s.chan p, P (T.owner p) m

/-- An event that can come to node `i`: its messages are from the nodes it has
links to. -/
def Arrives (T : Topology) (P : Fin T.size → M → Prop) (i : Fin T.size) : NodeEvent M A → Prop
  | .recv _ socket m => ∃ p, T.owner p = i ∧ socket = T.socket p ∧ P (T.owner (peer p)) m
  | .act _ => True

theorem Faulty.arrives {N : Fin T.size → σ → Prop} {P : Fin T.size → M → Prop} {s s' : FaultyNet T σ M}
    (h : Faulty N P s) {i : Fin T.size} {e : NodeEvent M A} {out : List (Ipv4Address × M)}
    (ha : Acts K s i e out s') : Arrives T P i e := by
  cases e with
  | recv now socket m =>
    obtain ⟨p, hp, hsocket, hm⟩ := ha.arrives now socket m rfl
    exact ⟨peer p, hp, hsocket, by rw [peer_peer]; exact h.msg p m hm⟩
  | act _ => trivial

/-- **The invariant rule**: what every node keeps and sends. -/
theorem Faulty.step {N : Fin T.size → σ → Prop} {P : Fin T.size → M → Prop}
    (keep : ∀ i n e n' out, N i n → Arrives T P i e → K.handle (T.config i) n e = some (n', out) →
      N i n' ∧ ∀ x ∈ out, P i x.2)
    {s s' : FaultyNet T σ M} {lab : FaultyLabel T A} (h : Faulty N P s)
    (hst : faultyStep K s lab = some s') : Faulty N P s' := by
  rcases faultyStep_cases hst with ⟨i, e, out, _, ha⟩ | ⟨_, hstill⟩
  · obtain ⟨hn, hout⟩ := keep i (s.node i) e (s'.node i) out (h.node i) (h.arrives ha) ha.handled
    refine ⟨fun j => ?_, fun p m hm => ?_⟩
    · by_cases hj : j = i
      · rw [hj]; exact hn
      · rw [ha.others j hj]; exact h.node j
    · rcases ha.chan p m hm with hm | ⟨hp, x, hx, rfl⟩
      · exact h.msg p m hm
      · rw [hp]; exact hout x hx
  · exact ⟨hstill.node ▸ h.node, fun p m hm => h.msg p m (hstill.chan p m hm)⟩

theorem Faulty.start {N : Fin T.size → σ → Prop} {P : Fin T.size → M → Prop} {node : Fin T.size → σ}
    (h : ∀ i, N i (node i)) : Faulty N P (FaultyNet.start node) :=
  ⟨h, fun _ _ hm => by cases hm⟩

end Invariants

end Ns3Routing
