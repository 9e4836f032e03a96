import Ns3Routing.Hellos

/-! # A network with a clock

`Simulator::Now ()` counts nanoseconds; the protocols compare whole
milliseconds. A message takes a time within given bounds, the queue of a link
end is a FIFO, and `m_auditHellosTimer` fires `m_helloTimeout` after it was
scheduled: time does not pass what is due. All nodes start at time 0.

`Beat` is what a protocol does for its neighbours at every beat of the timer.
When a message takes at least a millisecond and less than `m_helloTimeout`, no
lease ever runs out (`Punctual.keeps`). -/

namespace Ns3Routing

open Lib Ns3Routing.Topology

/-- `Time::GetMilliSeconds`. -/
def getMilliSeconds (t : ℕ) : ℕ := t / 1000000

/-- `MilliSeconds (ms)`. -/
def milliSeconds (ms : ℕ) : ℕ := ms * 1000000

/-- The bounds on the time a message takes. -/
structure Delays where
  least : ℕ
  greatest : ℕ

/-- A network at a time: with every message, the time it was sent, and for
every node the time its hello timer fires. -/
structure TimedNet (T : Topology) (σ M : Type) where
  now : ℕ
  node : Fin T.size → σ
  chan : T.Port → List (ℕ × M)
  nextAudit : Fin T.size → ℕ

inductive TimedLabel (T : Topology) where
  | elapse (t : ℕ)
  | deliver (p : T.Port)
  | auditHellos (i : Fin T.size)

namespace TimedNet

variable {T : Topology} {σ M : Type}

/-- The network without its times. -/
def net (s : TimedNet T σ M) : Net T σ M where
  node := s.node
  chan p := (s.chan p).map Prod.snd

/-- `DoStart` has scheduled the hello timers of these nodes. -/
def start (T : Topology) (node : Fin T.size → σ) : TimedNet T σ M where
  now := 0
  node := node
  chan _ := []
  nextAudit i := milliSeconds (T.config i).helloTimeout

/-- Node `i` goes to a new state and its packets go to its link ends. -/
def apply (s : TimedNet T σ M) (i : Fin T.size) (res : σ × List (Ipv4Address × M)) :
    TimedNet T σ M :=
  { s with
    node := Function.update s.node i res.1
    chan := fun p => s.chan p ++ (Net.onPort T i res.2 p).map fun m => (s.now, m) }

def setChan (s : TimedNet T σ M) (p : T.Port) (msgs : List (ℕ × M)) : TimedNet T σ M :=
  { s with chan := Function.update s.chan p msgs }

/-- `m_auditHellosTimer.Schedule (m_helloTimeout)`. -/
def schedule (s : TimedNet T σ M) (i : Fin T.size) : TimedNet T σ M :=
  { s with
    nextAudit := Function.update s.nextAudit i (s.now + milliSeconds (T.config i).helloTimeout) }

/-- Nothing is due before the time `now + t`. -/
def MayElapse (D : Delays) (s : TimedNet T σ M) (t : ℕ) : Prop :=
  (∀ p, ∀ x ∈ s.chan p, s.now + t ≤ x.1 + D.greatest) ∧ ∀ i, s.now + t ≤ s.nextAudit i

instance (D : Delays) (s : TimedNet T σ M) (t : ℕ) : Decidable (s.MayElapse D t) :=
  inferInstanceAs (Decidable (_ ∧ _))

@[simp] theorem net_node (s : TimedNet T σ M) : s.net.node = s.node := rfl

theorem net_chan (s : TimedNet T σ M) (p : T.Port) : s.net.chan p = (s.chan p).map Prod.snd := rfl

theorem net_apply (s : TimedNet T σ M) (i : Fin T.size) (res : σ × List (Ipv4Address × M)) :
    (s.apply i res).net = s.net.apply i res := by
  simp [net, apply, Net.apply, Function.comp_def]

theorem net_setChan (s : TimedNet T σ M) (p : T.Port) (msgs : List (ℕ × M)) :
    (s.setChan p msgs).net = s.net.setChan p (msgs.map Prod.snd) := by
  simp only [net, setChan, Net.setChan, Net.mk.injEq, true_and]
  funext q
  by_cases hq : q = p
  · subst hq
    simp
  · simp [hq]

theorem apply_node_self (s : TimedNet T σ M) (i : Fin T.size) (res : σ × List (Ipv4Address × M)) :
    (s.apply i res).node i = res.1 := by simp [apply]

theorem apply_node_ne (s : TimedNet T σ M) {i j : Fin T.size} (res : σ × List (Ipv4Address × M))
    (h : j ≠ i) : (s.apply i res).node j = s.node j := by simp [apply, h]

theorem setChan_self (s : TimedNet T σ M) (p : T.Port) (msgs : List (ℕ × M)) :
    (s.setChan p msgs).chan p = msgs := by simp [setChan]

theorem setChan_ne (s : TimedNet T σ M) {p q : T.Port} (msgs : List (ℕ × M)) (h : q ≠ p) :
    (s.setChan p msgs).chan q = s.chan q := by simp [setChan, h]

/-- Taking a message out leaves the others. -/
theorem mem_setChan_or {s : TimedNet T σ M} {p q : T.Port} {msg x : ℕ × M} {rest : List (ℕ × M)}
    (head : s.chan q = msg :: rest) (hx : x ∈ s.chan p) :
    x ∈ (s.setChan q rest).chan p ∨ p = q ∧ x = msg := by
  by_cases hp : p = q
  · subst hp
    rw [head] at hx
    rw [setChan_self]
    rcases List.mem_cons.mp hx with rfl | hx
    · exact Or.inr ⟨rfl, rfl⟩
    · exact Or.inl hx
  · rw [setChan_ne _ _ hp]
    exact Or.inl hx

/-- What a node posts is of this time and on its own ports. -/
theorem of_mem_apply {s : TimedNet T σ M} {i : Fin T.size} {res : σ × List (Ipv4Address × M)}
    {p : T.Port} {x : ℕ × M} (hx : x ∈ (s.apply i res).chan p) :
    x ∈ s.chan p ∨ x.1 = s.now ∧ x.2 ∈ Net.onPort T i res.2 p := by
  rcases List.mem_append.mp hx with hx | hx
  · exact Or.inl hx
  · obtain ⟨m, hm, rfl⟩ := List.mem_map.mp hx
    exact Or.inr ⟨rfl, hm⟩

/-- Taking a message out adds none. -/
theorem of_mem_setChan {s : TimedNet T σ M} {p q : T.Port} {msg x : ℕ × M} {rest : List (ℕ × M)}
    (head : s.chan q = msg :: rest) (hx : x ∈ (s.setChan q rest).chan p) : x ∈ s.chan p := by
  by_cases hp : p = q
  · subst hp
    rw [setChan_self] at hx
    rw [head]
    exact List.mem_cons_of_mem _ hx
  · rwa [setChan_ne _ _ hp] at hx

theorem apply_setChan (s : TimedNet T σ M) {i : Fin T.size} {p : T.Port} (hp : T.owner p ≠ i)
    (msgs : List (ℕ × M)) (res : σ × List (Ipv4Address × M)) :
    (s.setChan p msgs).apply i res = (s.apply i res).setChan p msgs := by
  simp only [apply, setChan, mk.injEq, true_and, and_true]
  funext q
  by_cases hq : q = p
  · subst hq
    simp [Net.onPort_other hp]
  · simp [hq]

theorem net_schedule (s : TimedNet T σ M) (i : Fin T.size) : (s.schedule i).net = s.net := rfl

end TimedNet

section Step
variable {T : Topology} {σ M A : Type} (C : Control σ M A) (auditHellos : ℕ → A) (D : Delays)

/-- `none` where the handler has no defined result; a label that does not
apply changes nothing. -/
def timedStep (s : TimedNet T σ M) : TimedLabel T → Option (TimedNet T σ M)
  | .elapse t => if s.MayElapse D t then some { s with now := s.now + t } else some s
  | .deliver p =>
    match s.chan p with
    | [] => some s
    | (sent, m) :: rest =>
      if sent + D.least ≤ s.now then
        (C.recv (T.config (T.owner (peer p))) (getMilliSeconds s.now) (T.socket (peer p)) m
          (s.node (T.owner (peer p)))).map ((s.setChan p rest).apply (T.owner (peer p)))
      else some s
  | .auditHellos i =>
    if s.nextAudit i = s.now then
      (C.act (T.config i) (auditHellos (getMilliSeconds s.now)) (s.node i)).map
        fun res => (s.apply i res).schedule i
    else some s

inductive TimedStep (s : TimedNet T σ M) : TimedNet T σ M → Prop where
  | idle : TimedStep s s
  | elapse {t : ℕ} (may : s.MayElapse D t) : TimedStep s { s with now := s.now + t }
  | deliver {p : T.Port} {sent : ℕ} {m : M} {rest : List (ℕ × M)} {n' : σ}
      {out : List (Ipv4Address × M)} (head : s.chan p = (sent, m) :: rest)
      (due : sent + D.least ≤ s.now)
      (handled : C.recv (T.config (T.owner (peer p))) (getMilliSeconds s.now) (T.socket (peer p)) m
        (s.node (T.owner (peer p))) = some (n', out)) :
      TimedStep s ((s.setChan p rest).apply (T.owner (peer p)) (n', out))
  | audit {i : Fin T.size} {n' : σ} {out : List (Ipv4Address × M)} (due : s.nextAudit i = s.now)
      (handled : C.act (T.config i) (auditHellos (getMilliSeconds s.now)) (s.node i) =
        some (n', out)) :
      TimedStep s ((s.apply i (n', out)).schedule i)

theorem timedStep_cases {C : Control σ M A} {auditHellos : ℕ → A} {D : Delays}
    {s s' : TimedNet T σ M} {lab : TimedLabel T} (h : timedStep C auditHellos D s lab = some s') :
    TimedStep C auditHellos D s s' := by
  cases lab with
  | elapse t =>
    simp only [timedStep] at h
    split at h
    · rename_i may
      obtain rfl := Option.some.inj h
      exact .elapse may
    · obtain rfl := Option.some.inj h
      exact .idle
  | deliver p =>
    simp only [timedStep] at h
    split at h
    · obtain rfl := Option.some.inj h
      exact .idle
    · rename_i head
      split at h
      · rename_i due
        obtain ⟨⟨n', out⟩, handled, rfl⟩ := Option.map_eq_some_iff.mp h
        exact .deliver head due handled
      · obtain rfl := Option.some.inj h
        exact .idle
  | auditHellos i =>
    simp only [timedStep] at h
    split at h
    · rename_i due
      obtain ⟨⟨n', out⟩, handled, rfl⟩ := Option.map_eq_some_iff.mp h
      exact .audit due handled
    · obtain rfl := Option.some.inj h
      exact .idle

/-- Time does not go back. -/
theorem TimedStep.le {C : Control σ M A} {auditHellos : ℕ → A} {D : Delays} {s s' : TimedNet T σ M}
    (h : TimedStep C auditHellos D s s') : s.now ≤ s'.now := by
  cases h with
  | idle => exact le_rfl
  | elapse _ => exact Nat.le_add_right _ _
  | deliver _ _ _ => exact le_rfl
  | audit _ _ => exact le_rfl

end Step

/-! ## Hellos in time -/

section Beat
variable {σ M A : Type} {C : Control σ M A}

/-- A message that every node hears as one of node `i`. -/
def Hearing.HelloOf (H : Hearing C) (T : Topology) (i : Fin T.size) (m : M) : Prop :=
  ∀ j n, H.hears (T.config j) n m = some (T.name i)

/-- A message that no node hears as one of another node than `i`. -/
def Hearing.OnlyOf (H : Hearing C) (T : Topology) (i : Fin T.size) (m : M) : Prop :=
  ∀ j n K, H.hears (T.config j) n m = some K → K = T.name i

/-- What a protocol sends to be heard. -/
structure Beat (H : Hearing C) where
  auditHellos : ℕ → A
  audit_eq : ∀ now, H.audit (auditHellos now) = some now
  /-- The hello timer puts a hello on every link end. -/
  hello : ∀ {T : Topology} {i now n n' out}, H.inv (T.config i) n →
    C.act (T.config i) (auditHellos now) n = some (n', out) →
    ∀ p, T.owner p = i → ∃ m ∈ Net.onPort T i out p, H.HelloOf T i m
  only : ∀ {T : Topology} {i e n n' out}, H.inv (T.config i) n →
    C.handle (T.config i) n e = some (n', out) → ∀ x ∈ out, H.OnlyOf T i x.2

/-- Nothing is late, and the hellos of every beat so far have been heard or
are on their way. -/
structure Punctual (H : Hearing C) (T : Topology) (P : ℕ) (D : Delays) (s : TimedNet T σ M) :
    Prop where
  inv : ∀ i, H.inv (T.config i) (s.node i)
  timer : ∀ i, s.now ≤ s.nextAudit i ∧ s.nextAudit i ≤ s.now + P ∧ ∃ k, s.nextAudit i = (k + 1) * P
  sent : ∀ p, ∀ x ∈ s.chan p, P ≤ x.1 ∧ x.1 ≤ s.now ∧ s.now ≤ x.1 + D.greatest
  ordered : ∀ p, (s.chan p).Pairwise fun x y => x.1 ≤ y.1
  only : ∀ p, ∀ x ∈ s.chan p, H.OnlyOf T (T.owner p) x.2
  lease : ∀ i K x, H.neighbors (s.node i) K = some x →
    getMilliSeconds (P + D.least) ≤ x.2 ∧ x.2 ≤ getMilliSeconds s.now ∧
      ∃ p, T.owner (peer p) = i ∧ K = T.name (T.owner p)
  beat : ∀ p k, (k + 1) * P < s.nextAudit (T.owner p) →
    (∃ m, ((k + 1) * P, m) ∈ s.chan p ∧ H.HelloOf T (T.owner p) m) ∨
    ∃ x, H.neighbors (s.node (T.owner (peer p))) (T.name (T.owner p)) = some x ∧
      getMilliSeconds ((k + 1) * P + D.least) ≤ x.2

section Times

theorem getMilliSeconds_mono {t t' : ℕ} (h : t ≤ t') : getMilliSeconds t ≤ getMilliSeconds t' :=
  Nat.div_le_div_right h

@[simp] theorem getMilliSeconds_milliSeconds (ms : ℕ) : getMilliSeconds (milliSeconds ms) = ms :=
  Nat.mul_div_cancel ms (by simp)

theorem mul_milliSeconds (k ms : ℕ) : k * milliSeconds ms = milliSeconds (k * ms) :=
  (Nat.mul_assoc k ms 1000000).symm

/-- A millisecond later is a greater number of milliseconds. -/
theorem lt_getMilliSeconds_add (ms : ℕ) {t : ℕ} (h : milliSeconds 1 ≤ t) :
    ms < getMilliSeconds (milliSeconds ms + t) := by
  simp only [getMilliSeconds, milliSeconds] at h ⊢
  omega

end Times

section Punctual
variable {H : Hearing C} {T : Topology} {D : Delays} {ms : ℕ} {s s' : TimedNet T σ M}

theorem Punctual.start (period : ∀ i, (T.config i).helloTimeout = ms) {node : Fin T.size → σ}
    (inv : ∀ i, H.inv (T.config i) (node i)) (fresh : ∀ i K, H.neighbors (node i) K = none) :
    Punctual H T (milliSeconds ms) D (.start T node) where
  inv := inv
  timer i := by
    simp only [TimedNet.start, period i]
    exact ⟨Nat.zero_le _, (Nat.zero_add _).ge, 0, by simp⟩
  sent p x hx := by cases hx
  ordered p := List.Pairwise.nil
  only p x hx := by cases hx
  lease i K x hx := by
    simp only [TimedNet.start, fresh i K] at hx
    cases hx
  beat p k hk := by
    simp only [TimedNet.start, period] at hk
    exact absurd hk (not_lt.mpr (Nat.le_mul_of_pos_left _ (Nat.succ_pos k)))

/-- **No lease runs out** when the hello timer of a node fires. -/
theorem Punctual.keeps (h : Punctual H T (milliSeconds ms) D s) (least : milliSeconds 1 ≤ D.least)
    (greatest : D.greatest < milliSeconds ms) {i : Fin T.size} (due : s.nextAudit i = s.now)
    {K : String} {x : Ipv4Address × ℕ} (hx : H.neighbors (s.node i) K = some x) :
    getMilliSeconds s.now < x.2 + ms := by
  obtain ⟨hlease, _, p, hp, rfl⟩ := h.lease i K x hx
  subst hp
  obtain ⟨_, _, k, hk⟩ := h.timer (T.owner (peer p))
  have hnow : s.now = milliSeconds ((k + 1) * ms) := by rw [← due, hk, mul_milliSeconds]
  rw [hnow, getMilliSeconds_milliSeconds]
  cases k with
  | zero =>
    -- the first beat: whoever is there was heard after it
    have := (lt_getMilliSeconds_add ms least).trans_le hlease
    omega
  | succ k =>
    have hbefore : (k + 1) * milliSeconds ms + milliSeconds ms = s.now := by
      rw [hnow, ← mul_milliSeconds]
      ring
    have hlt : (k + 1) * milliSeconds ms < s.nextAudit (T.owner p) :=
      lt_of_lt_of_le (by omega) (h.timer (T.owner p)).1
    rcases h.beat p k hlt with ⟨m, hm, _⟩ | ⟨y, hy, hle⟩
    · -- the hello of the beat before cannot still be on its way
      have := (h.sent p _ hm).2.2
      dsimp only at this
      omega
    · obtain rfl := Option.some.inj (hy.symm.trans hx)
      rw [mul_milliSeconds] at hle
      have := (lt_getMilliSeconds_add ((k + 1) * ms) least).trans_le hle
      rw [Nat.succ_mul]
      exact Nat.add_lt_add_right this ms

theorem Punctual.elapse (h : Punctual H T (milliSeconds ms) D s) {t : ℕ} (may : s.MayElapse D t) :
    Punctual H T (milliSeconds ms) D { s with now := s.now + t } where
  inv := h.inv
  timer i := by
    obtain ⟨_, hnext, hbeat⟩ := h.timer i
    exact ⟨may.2 i, by dsimp only; omega, hbeat⟩
  sent p x hx := by
    obtain ⟨hP, hpast, _⟩ := h.sent p x hx
    exact ⟨hP, by dsimp only; omega, may.1 p x hx⟩
  ordered := h.ordered
  only := h.only
  lease i K x hx := by
    obtain ⟨hfirst, hpast, hfrom⟩ := h.lease i K x hx
    exact ⟨hfirst, hpast.trans (getMilliSeconds_mono (Nat.le_add_right _ _)), hfrom⟩
  beat := h.beat

/-- A node handles an event, keeps its leases, and posts. -/
theorem Punctual.apply (h : Punctual H T (milliSeconds ms) D s) (started : milliSeconds ms ≤ s.now)
    {i : Fin T.size} {n' : σ} {out : List (Ipv4Address × M)} (inv : H.inv (T.config i) n')
    (only : ∀ x ∈ out, H.OnlyOf T i x.2)
    (kept : ∀ K x, H.neighbors (s.node i) K = some x → ∃ y, H.neighbors n' K = some y ∧ x.2 ≤ y.2)
    (lease : ∀ K x, H.neighbors n' K = some x →
      getMilliSeconds (milliSeconds ms + D.least) ≤ x.2 ∧ x.2 ≤ getMilliSeconds s.now ∧
        ∃ p, T.owner (peer p) = i ∧ K = T.name (T.owner p)) :
    Punctual H T (milliSeconds ms) D (s.apply i (n', out)) := by
  have posted : ∀ p x, x ∈ (s.apply i (n', out)).chan p → x ∈ s.chan p ∨
      x.1 = s.now ∧ T.owner p = i ∧ ∃ y ∈ out, y.2 = x.2 := by
    intro p x hx
    exact (TimedNet.of_mem_apply hx).imp_right fun hnew => ⟨hnew.1, Net.of_mem_onPort hnew.2⟩
  refine ⟨?_, h.timer, ?_, ?_, ?_, ?_, ?_⟩
  · intro j
    by_cases hj : j = i
    · subst hj
      rw [TimedNet.apply_node_self]
      exact inv
    · rw [TimedNet.apply_node_ne _ _ hj]
      exact h.inv j
  · intro p x hx
    rcases posted p x hx with hx | ⟨hnow, _⟩
    · exact h.sent p x hx
    · rw [hnow]
      exact ⟨started, le_rfl, Nat.le_add_right _ _⟩
  · intro p
    refine List.pairwise_append.mpr ⟨h.ordered p, ?_, ?_⟩
    · exact List.pairwise_map.mpr (List.pairwise_of_forall fun _ _ => le_rfl)
    · intro x hx y hy
      obtain ⟨m, _, rfl⟩ := List.mem_map.mp hy
      exact (h.sent p x hx).2.1
  · intro p x hx
    rcases posted p x hx with hx | ⟨_, rfl, y, hy, hyx⟩
    · exact h.only p x hx
    · exact hyx ▸ only y hy
  · intro j K x hx
    by_cases hj : j = i
    · subst hj
      rw [TimedNet.apply_node_self] at hx
      exact lease K x hx
    · rw [TimedNet.apply_node_ne _ _ hj] at hx
      exact h.lease j K x hx
  · intro p k hk
    rcases h.beat p k hk with ⟨m, hm, hhello⟩ | ⟨x, hx, hle⟩
    · exact Or.inl ⟨m, List.mem_append_left _ hm, hhello⟩
    · by_cases hj : T.owner (peer p) = i
      · subst hj
        obtain ⟨y, hy, hxy⟩ := kept _ x hx
        rw [TimedNet.apply_node_self]
        exact Or.inr ⟨y, hy, hle.trans hxy⟩
      · rw [TimedNet.apply_node_ne _ _ hj]
        exact Or.inr ⟨x, hx, hle⟩

/-- The oldest message of a queue is taken; its hello has been heard. -/
theorem Punctual.pop (h : Punctual H T (milliSeconds ms) D s) {p : T.Port} {x : ℕ × M}
    {rest : List (ℕ × M)} (head : s.chan p = x :: rest)
    (heard : H.HelloOf T (T.owner p) x.2 → ∃ y,
      H.neighbors (s.node (T.owner (peer p))) (T.name (T.owner p)) = some y ∧
        getMilliSeconds (x.1 + D.least) ≤ y.2) :
    Punctual H T (milliSeconds ms) D (s.setChan p rest) := by
  have kept : ∀ q y, y ∈ (s.setChan p rest).chan q → y ∈ s.chan q :=
    fun _ _ => TimedNet.of_mem_setChan head
  refine ⟨h.inv, h.timer, fun q y hy => h.sent q y (kept q y hy), ?_,
    fun q y hy => h.only q y (kept q y hy), h.lease, ?_⟩
  · intro q
    by_cases hq : q = p
    · subst hq
      have hordered := head ▸ h.ordered q
      rw [TimedNet.setChan_self]
      exact (List.pairwise_cons.mp hordered).2
    · rw [TimedNet.setChan_ne _ _ hq]
      exact h.ordered q
  · intro q k hk
    rcases h.beat q k hk with ⟨m, hm, hhello⟩ | hheard
    · by_cases hq : q = p
      · subst hq
        rw [head] at hm
        rcases List.mem_cons.mp hm with rfl | hm
        · exact Or.inr (heard hhello)
        · rw [TimedNet.setChan_self]
          exact Or.inl ⟨m, hm, hhello⟩
      · rw [TimedNet.setChan_ne _ _ hq]
        exact Or.inl ⟨m, hm, hhello⟩
    · exact Or.inr hheard

theorem Punctual.deliver (h : Punctual H T (milliSeconds ms) D s) (B : Beat H) {p : T.Port}
    {sent : ℕ} {m : M} {rest : List (ℕ × M)} {n' : σ} {out : List (Ipv4Address × M)}
    (head : s.chan p = (sent, m) :: rest) (due : sent + D.least ≤ s.now)
    (handled : C.recv (T.config (T.owner (peer p))) (getMilliSeconds s.now) (T.socket (peer p)) m
      (s.node (T.owner (peer p))) = some (n', out)) :
    Punctual H T (milliSeconds ms) D ((s.setChan p rest).apply (T.owner (peer p)) (n', out)) := by
  have hmem : (sent, m) ∈ s.chan p := head ▸ List.mem_cons_self
  obtain ⟨hfirst, hpast, _⟩ := h.sent p _ hmem
  have hinv := h.inv (T.owner (peer p))
  have hother : T.owner p ≠ T.owner (peer p) := (owner_peer_ne p).symm
  have hevent : C.handle (T.config (T.owner (peer p))) (s.node (T.owner (peer p)))
      (.recv (getMilliSeconds s.now) (T.socket (peer p)) m) = some (n', out) := handled
  have hnew := H.neighbors_recv hinv handled
  have hlater : getMilliSeconds (sent + D.least) ≤ getMilliSeconds s.now :=
    getMilliSeconds_mono due
  rw [TimedNet.apply_setChan s hother]
  refine Punctual.pop (x := (sent, m)) (h.apply (hfirst.trans hpast) (H.inv_handle hinv hevent)
    (B.only hinv hevent) ?_ ?_) ?_ ?_
  · -- a lease stays or is renewed
    intro K x hx
    rw [hnew]
    cases hK : H.hears (T.config (T.owner (peer p))) (s.node (T.owner (peer p))) m with
    | none => exact ⟨x, hx, le_rfl⟩
    | some K' =>
      by_cases hKK : K = K'
      · subst hKK
        exact ⟨_, renew_self, (h.lease _ K x hx).2.1⟩
      · exact ⟨x, (renew_ne hKK).trans hx, le_rfl⟩
  · intro K x hx
    rw [hnew] at hx
    cases hK : H.hears (T.config (T.owner (peer p))) (s.node (T.owner (peer p))) m with
    | none => exact h.lease _ K x (by rwa [hK] at hx)
    | some K' =>
      rw [hK] at hx
      by_cases hKK : K = K'
      · subst hKK
        obtain rfl := Option.some.inj (renew_self.symm.trans hx)
        exact ⟨(getMilliSeconds_mono (Nat.add_le_add_right hfirst _)).trans hlater, le_rfl, p, rfl,
          h.only p _ hmem _ _ K hK⟩
      · exact h.lease _ K x ((renew_ne hKK).symm.trans hx)
  · simp [TimedNet.apply, Net.onPort_other hother, head]
  · intro hhello
    have hfrom := hhello (T.owner (peer p)) (s.node (T.owner (peer p)))
    simp only [TimedNet.apply, Function.update_self, hnew, hfrom]
    exact ⟨_, renew_self, hlater⟩

theorem Punctual.audit (h : Punctual H T (milliSeconds ms) D s) (B : Beat H)
    (period : ∀ i, (T.config i).helloTimeout = ms) (least : milliSeconds 1 ≤ D.least)
    (greatest : D.greatest < milliSeconds ms) {i : Fin T.size} {n' : σ}
    {out : List (Ipv4Address × M)} (due : s.nextAudit i = s.now)
    (handled : C.act (T.config i) (B.auditHellos (getMilliSeconds s.now)) (s.node i) =
      some (n', out)) :
    Punctual H T (milliSeconds ms) D ((s.apply i (n', out)).schedule i) := by
  have hinv := h.inv i
  have hevent : C.handle (T.config i) (s.node i) (.act (B.auditHellos (getMilliSeconds s.now))) =
      some (n', out) := handled
  obtain ⟨_, _, k, hk⟩ := h.timer i
  have hnow : s.now = (k + 1) * milliSeconds ms := due.symm.trans hk
  have hsame : H.neighbors n' = H.neighbors (s.node i) := by
    have hnew := H.neighbors_act hinv handled
    rw [B.audit_eq] at hnew
    rw [hnew, period i]
    funext K
    refine Option.ext fun x => expire_some.trans (and_iff_left_of_imp ?_)
    exact h.keeps least greatest due
  have hposted := h.apply
    (hnow ▸ Nat.le_mul_of_pos_left _ (Nat.succ_pos k)) (H.inv_handle hinv hevent)
    (B.only hinv hevent) (fun K x hx => ⟨x, hsame ▸ hx, le_rfl⟩)
    (fun K x hx => h.lease i K x (hsame ▸ hx))
  refine ⟨hposted.inv, ?_, hposted.sent, hposted.ordered, hposted.only, hposted.lease, ?_⟩
  · intro j
    by_cases hj : j = i
    · subst hj
      simp only [TimedNet.schedule, TimedNet.apply, Function.update_self, period j]
      refine ⟨Nat.le_add_right _ _, le_rfl, k + 1, ?_⟩
      rw [hnow, Nat.succ_mul (k + 1)]
    · simpa [TimedNet.schedule, hj] using hposted.timer j
  · intro p k' hk'
    by_cases hp : T.owner p = i
    · subst hp
      simp only [TimedNet.schedule, TimedNet.apply, Function.update_self, period, hnow] at hk'
      rcases Nat.lt_or_ge k' k with hlt | hge
      · refine hposted.beat p k' ?_
        have hlt : (k' + 1) * milliSeconds ms < (k + 1) * milliSeconds ms :=
          Nat.mul_lt_mul_of_pos_right (by omega) (by omega)
        exact hlt.trans_eq hk.symm
      · -- the hello of this beat
        have hle : k' ≤ k := by
          rw [← Nat.succ_mul] at hk'
          have := Nat.lt_of_mul_lt_mul_right hk'
          omega
        obtain rfl := le_antisymm hle hge
        obtain ⟨m, hm, hhello⟩ := B.hello hinv handled p rfl
        refine Or.inl ⟨m, List.mem_append_right _ (List.mem_map.mpr ⟨m, hm, ?_⟩), hhello⟩
        rw [hnow]
    · refine hposted.beat p k' ?_
      simpa [TimedNet.schedule, hp] using hk'

/-- **Every step is in time.** -/
theorem Punctual.step (h : Punctual H T (milliSeconds ms) D s) (B : Beat H)
    (period : ∀ i, (T.config i).helloTimeout = ms) (least : milliSeconds 1 ≤ D.least)
    (greatest : D.greatest < milliSeconds ms) (hst : TimedStep C B.auditHellos D s s') :
    Punctual H T (milliSeconds ms) D s' := by
  cases hst with
  | idle => exact h
  | elapse may => exact h.elapse may
  | deliver head due handled => exact h.deliver B head due handled
  | audit due handled => exact h.audit B period least greatest due handled

/-- After the first beat and the time a message takes, neighbours are known. -/
theorem Punctual.known (h : Punctual H T (milliSeconds ms) D s)
    (hnow : milliSeconds ms + D.greatest < s.now) (p : T.Port) :
    ∃ x, H.neighbors (s.node (T.owner (peer p))) (T.name (T.owner p)) = some x := by
  have hlt : (0 + 1) * milliSeconds ms < s.nextAudit (T.owner p) :=
    lt_of_lt_of_le (by omega) (h.timer (T.owner p)).1
  rcases h.beat p 0 hlt with ⟨m, hm, _⟩ | ⟨x, hx, _⟩
  · have := (h.sent p _ hm).2.2
    dsimp only at this
    omega
  · exact ⟨x, hx⟩

end Punctual

end Beat

/-- The time until which the first hellos have arrived, and then news travels
`d` hops: the first beat, and the time `d + 1` messages take. -/
def hopTime (ms : ℕ) (D : Delays) (d : ℕ) : ℕ := milliSeconds ms + (d + 1) * D.greatest

section HopTime
variable (ms : ℕ) (D : Delays) (d : ℕ)

theorem first_le_hopTime : milliSeconds ms + D.greatest ≤ hopTime ms D d :=
  Nat.add_le_add_left (Nat.le_mul_of_pos_left _ (Nat.succ_pos d)) _

theorem hopTime_succ : hopTime ms D (d + 1) = hopTime ms D d + D.greatest := by
  simp only [hopTime]
  ring

theorem hopTime_mono {d d' : ℕ} (h : d ≤ d') : hopTime ms D d ≤ hopTime ms D d' :=
  Nat.add_le_add_left (Nat.mul_le_mul_right _ (Nat.succ_le_succ h)) _

end HopTime

/-! ## The first beat -/

section Waking
variable {σ M A : Type} {C : Control σ M A} {auditHellos : ℕ → A} {T : Topology} {D : Delays}
  {ms : ℕ} {node₀ node₁ : Fin T.size → σ} {hello : T.Port → List M} {s s' : TimedNet T σ M}

/-- The hello timer of node `i` has not fired yet. -/
structure Asleep (P : ℕ) (node₀ : Fin T.size → σ) (s : TimedNet T σ M) (i : Fin T.size) : Prop where
  next : s.nextAudit i = P
  node : s.node i = node₀ i
  chan : ∀ p, T.owner p = i → s.chan p = []

/-- The hello timer of node `i` has just fired for the first time. -/
structure Awake (P : ℕ) (node₁ : Fin T.size → σ) (hello : T.Port → List M) (s : TimedNet T σ M)
    (i : Fin T.size) : Prop where
  now : s.now = P
  next : s.nextAudit i = P + P
  node : s.node i = node₁ i
  chan : ∀ p, T.owner p = i → s.chan p = (hello p).map fun m => (P, m)

structure Waking (T : Topology) (P : ℕ) (node₀ node₁ : Fin T.size → σ) (hello : T.Port → List M)
    (s : TimedNet T σ M) : Prop where
  now : s.now ≤ P
  node : ∀ i, Asleep P node₀ s i ∨ Awake P node₁ hello s i

theorem Waking.start (period : ∀ i, (T.config i).helloTimeout = ms) :
    Waking T (milliSeconds ms) node₀ node₁ hello (.start T node₀) where
  now := Nat.zero_le _
  node i := Or.inl ⟨congrArg milliSeconds (period i), rfl, fun _ _ => rfl⟩

/-- Nothing arrives before all nodes have fired their timers. -/
theorem Waking.not_due (h : Waking T (milliSeconds ms) node₀ node₁ hello s) (least : 0 < D.least)
    {p : T.Port} {sent : ℕ} {m : M} {rest : List (ℕ × M)} (head : s.chan p = (sent, m) :: rest) :
    ¬ sent + D.least ≤ s.now := by
  rcases h.node (T.owner p) with ha | ha
  · rw [ha.chan p rfl] at head
    cases head
  · have hmem : (sent, m) ∈ (hello p).map fun m => (milliSeconds ms, m) :=
      ha.chan p rfl ▸ head ▸ List.mem_cons_self
    obtain ⟨_, _, he⟩ := List.mem_map.mp hmem
    obtain rfl := (Prod.mk.inj he).1
    have hnow := ha.now
    omega

/-- When all nodes have fired their timers, the network is this one. -/
theorem net_of_awake {P : ℕ} (h : ∀ i, Awake P node₁ hello s i) : s.net = ⟨node₁, hello⟩ := by
  have hnode : s.node = node₁ := funext fun i => (h i).node
  have hchan : (fun p => (s.chan p).map Prod.snd) = hello := by
    funext p
    rw [(h (T.owner p)).chan p rfl]
    simp
  rw [TimedNet.net, hnode, hchan]

theorem Waking.audit (h : Waking T (milliSeconds ms) node₀ node₁ hello s)
    (period : ∀ i, (T.config i).helloTimeout = ms) {i : Fin T.size}
    {out : List (Ipv4Address × M)} (asleep : Asleep (milliSeconds ms) node₀ s i)
    (due : s.nextAudit i = s.now)
    (sends : ∀ p, T.owner p = i → Net.onPort T i out p = hello p) :
    Waking T (milliSeconds ms) node₀ node₁ hello ((s.apply i (node₁ i, out)).schedule i) := by
  have hnow : s.now = milliSeconds ms := due.symm.trans asleep.next
  refine ⟨h.now, fun j => ?_⟩
  by_cases hj : j = i
  · subst hj
    refine Or.inr ⟨hnow, ?_, ?_, fun p hp => ?_⟩
    · simp [TimedNet.schedule, TimedNet.apply, hnow, period j]
    · simp [TimedNet.schedule, TimedNet.apply]
    · simp [TimedNet.schedule, TimedNet.apply, asleep.chan p hp, sends p hp, hnow]
  · have hchan : ∀ p, T.owner p = j →
        ((s.apply i (node₁ i, out)).schedule i).chan p = s.chan p := by
      intro p hp
      have hother : T.owner p ≠ i := hp ▸ hj
      simp [TimedNet.schedule, TimedNet.apply, Net.onPort_other hother]
    rcases h.node j with ha | ha
    · refine Or.inl ⟨?_, ?_, fun p hp => (hchan p hp).trans (ha.chan p hp)⟩
      · simpa [TimedNet.schedule, TimedNet.apply, hj] using ha.next
      · simpa [TimedNet.schedule, TimedNet.apply, hj] using ha.node
    · refine Or.inr ⟨ha.now, ?_, ?_, fun p hp => (hchan p hp).trans (ha.chan p hp)⟩
      · simpa [TimedNet.schedule, TimedNet.apply, hj] using ha.next
      · simpa [TimedNet.schedule, TimedNet.apply, hj] using ha.node

/-- The first beat lasts until all nodes have sent their first hello. -/
theorem Waking.step (h : Waking T (milliSeconds ms) node₀ node₁ hello s) (hms : 0 < ms)
    (least : 0 < D.least) (period : ∀ i, (T.config i).helloTimeout = ms)
    (first : ∀ i, ∃ out, C.act (T.config i) (auditHellos ms) (node₀ i) = some (node₁ i, out) ∧
      ∀ p, T.owner p = i → Net.onPort T i out p = hello p)
    (hst : TimedStep C auditHellos D s s') :
    Waking T (milliSeconds ms) node₀ node₁ hello s' ∨ s'.net = ⟨node₁, hello⟩ := by
  have hP : 0 < milliSeconds ms := Nat.mul_pos hms (by decide)
  cases hst with
  | idle => exact Or.inl h
  | deliver head due _ => exact absurd due (h.not_due least head)
  | @elapse t may =>
    by_cases hall : ∀ i, Awake (milliSeconds ms) node₁ hello s i
    · exact Or.inr (show s.net = _ from net_of_awake hall)
    · obtain ⟨i, hi⟩ := not_forall.mp hall
      have hnext := may.2 i
      rw [((h.node i).resolve_right hi).next] at hnext
      refine Or.inl ⟨hnext, fun j => ?_⟩
      rcases h.node j with ha | ha
      · exact Or.inl ⟨ha.next, ha.node, ha.chan⟩
      · exact Or.inr ⟨le_antisymm hnext (ha.now ▸ Nat.le_add_right _ _), ha.next, ha.node, ha.chan⟩
  | @audit i n' out due handled =>
    rcases h.node i with ha | ha
    · obtain ⟨out₀, hact, hsends⟩ := first i
      have hnow : s.now = milliSeconds ms := due.symm.trans ha.next
      rw [ha.node, hnow, getMilliSeconds_milliSeconds, hact] at handled
      obtain ⟨rfl, rfl⟩ := Prod.mk.inj (Option.some.inj handled)
      exact Or.inl (h.audit period ha due hsends)
    · have hnext := ha.next
      have hnow := ha.now
      omega

end Waking

/-! ## The line in time -/

/-- On the line every message takes two milliseconds. -/
def lineDelays : Delays := ⟨milliSeconds 2, milliSeconds 2⟩

/-- The first beat, and then `hops` times what a message takes, with at most
`most` messages waiting on a link end. -/
def lineTimes (hops most : ℕ) : List (TimedLabel lineTopology) :=
  [.elapse (milliSeconds 2000), .auditHellos (lineNode 0), .auditHellos (lineNode 1),
    .auditHellos (lineNode 2)] ++
  (List.replicate hops (.elapse (milliSeconds 2) :: (List.replicate most [.deliver (linePort 0 false),
    .deliver (linePort 0 true), .deliver (linePort 1 false), .deliver (linePort 1 true)]).flatten)).flatten

end Ns3Routing
