import Ns3Routing.Lib.Log
import Ns3Routing.TestApp

/-! # Traffic generation

`TestApp` pings every node of `m_trafficSet` once in a period: `SendTraffic`
schedules itself again as long as `m_trafficRunning` is set. `Traffic` is the
application with the `SendTraffic` events that are scheduled.

`StopTraffic` clears the flag when nodes are left, and leaves the event
scheduled. So traffic to the others stops with the next event, or doubles when
a `StartTraffic` comes before it. `Undisturbed` is the condition on a command
under which neither happens. -/

namespace Ns3Routing.TestApp

open Lib Codec

structure Traffic where
  app : App
  /-- How many `SendTraffic` events are scheduled. -/
  pending : ℕ

/-- What can happen: a command, a scheduled `SendTraffic`, a datagram, or the
timer of the pings. -/
inductive TrafficEvent where
  | command (now : ℕ) (c : Command)
  | sendTraffic (now : ℕ)
  | recvMessage (message : TestAppMessage) (sourceAddress : Ipv4Address)
  | auditPings (now : ℕ)

section Steps
variable (cfg : NodeConfig)

/-- `StartTraffic` accepts the node number. -/
def ValidNode (nodeNumber : UInt32) : Prop :=
  cfg.resolveNodeIpAddress nodeNumber ≠ Ipv4Address.getAny

instance (nodeNumber : UInt32) : Decidable (ValidNode cfg nodeNumber) :=
  inferInstanceAs (Decidable (_ ≠ _))

/-- `StartTraffic`, with what it schedules. -/
def startScheduled (nodeNumber : UInt32) (t : Traffic) : Traffic where
  app := startTraffic cfg nodeNumber t.app
  pending := if ValidNode cfg nodeNumber ∧ t.app.trafficRunning = false then t.pending + 1
    else t.pending

def processScheduled (now : ℕ) (c : Command) (t : Traffic) : Traffic :=
  match c with
  | .startTraffic nodeNumber => startScheduled cfg nodeNumber t
  | .startTrafficAll => cfg.nodeAddressMap.keys.foldl (fun t k => startScheduled cfg k t) t
  | .ping _ _ | .pingAll _ | .stopTraffic _ | .stopTrafficAll =>
    { t with app := (processCommand cfg now c t.app).1 }

/-- `SendTraffic` is called when it is scheduled, and may schedule itself. -/
def trafficStep (t : Traffic) : TrafficEvent → Option Traffic
  | .command now c => some (processScheduled cfg now c t)
  | .sendTraffic now =>
    if t.pending = 0 then none
    else some
      { app := (TestApp.sendTraffic cfg now t.app).1
        pending := if t.app.trafficRunning then t.pending else t.pending - 1 }
  | .recvMessage message sourceAddress =>
    some { t with app := (TestApp.recvMessage message sourceAddress t.app).1 }
  | .auditPings now => some { t with app := TestApp.auditPings now t.app }

end Steps

/-! ## What a command does to the traffic -/

section Effects
variable (cfg : NodeConfig)

theorem sendPings_traffic (now : ℕ) (pingMessage : Text) (nodes : List UInt32) (a : App) :
    (sendPings cfg now pingMessage nodes a).1.trafficSet = a.trafficSet ∧
      (sendPings cfg now pingMessage nodes a).1.trafficRunning = a.trafficRunning := by
  induction nodes generalizing a with
  | nil => exact ⟨rfl, rfl⟩
  | cons k nodes ih =>
    obtain ⟨hset, hrunning⟩ := ih (sendPing cfg now pingMessage k a).1
    have hone : (sendPing cfg now pingMessage k a).1.trafficSet = a.trafficSet ∧
        (sendPing cfg now pingMessage k a).1.trafficRunning = a.trafficRunning := by
      unfold sendPing
      dsimp only
      split
      · exact ⟨rfl, rfl⟩
      · exact ⟨rfl, rfl⟩
    exact ⟨hset.trans hone.1, hrunning.trans hone.2⟩

/-- One ping to every node. -/
theorem sendPings_valid {now : ℕ} {pingMessage : Text} {nodes : List UInt32} (a : App)
    (valid : ∀ k ∈ nodes, ValidNode cfg k) :
    (sendPings cfg now pingMessage nodes a).2.map (fun x => (x.1, x.2.payload)) =
      nodes.map fun k => (cfg.resolveNodeIpAddress k, .pingReq pingMessage) := by
  induction nodes generalizing a with
  | nil => rfl
  | cons k nodes ih =>
    have hk : cfg.resolveNodeIpAddress k ≠ Ipv4Address.getAny := valid k List.mem_cons_self
    have hrest := ih (sendPing cfg now pingMessage k a).1 fun j hj =>
      valid j (List.mem_cons_of_mem _ hj)
    have hone : (sendPing cfg now pingMessage k a).2.map (fun x => (x.1, x.2.payload)) =
        [(cfg.resolveNodeIpAddress k, .pingReq pingMessage)] := by
      unfold sendPing
      dsimp only
      rw [if_neg hk]
      rfl
    simp only [sendPings, List.map_append, hone, hrest, List.map_cons, List.singleton_append]

theorem startScheduled_set (k j : UInt32) (t : Traffic) :
    j ∈ (startScheduled cfg k t).app.trafficSet ↔
      j ∈ t.app.trafficSet ∨ j = k ∧ ValidNode cfg k := by
  show j ∈ (startTraffic cfg k t.app).trafficSet ↔ _
  unfold startTraffic
  by_cases hk : cfg.resolveNodeIpAddress k = Ipv4Address.getAny
  · rw [if_pos hk]
    simp [ValidNode, hk]
  · rw [if_neg hk]
    simp only [Std.ExtTreeSet.mem_insert, Std.LawfulEqCmp.compare_eq_iff_eq, ValidNode, ne_eq, hk,
      not_false_eq_true, and_true]
    rw [or_comm, eq_comm]

theorem startScheduled_running (k : UInt32) (t : Traffic) :
    (startScheduled cfg k t).app.trafficRunning = true ↔
      t.app.trafficRunning = true ∨ ValidNode cfg k := by
  show (startTraffic cfg k t.app).trafficRunning = true ↔ _
  unfold startTraffic
  by_cases hk : cfg.resolveNodeIpAddress k = Ipv4Address.getAny
  · simp [ValidNode, hk]
  · simp [ValidNode, hk]

/-- The nodes a `START` starts. -/
theorem startAll_spec (l : List UInt32) (t : Traffic) :
    (∀ j, j ∈ (l.foldl (fun t k => startScheduled cfg k t) t).app.trafficSet ↔
        j ∈ t.app.trafficSet ∨ j ∈ l ∧ ValidNode cfg j) ∧
      ((l.foldl (fun t k => startScheduled cfg k t) t).app.trafficRunning = true ↔
        t.app.trafficRunning = true ∨ ∃ j ∈ l, ValidNode cfg j) ∧
      (l.foldl (fun t k => startScheduled cfg k t) t).pending =
        if t.app.trafficRunning = false ∧ ∃ j ∈ l, ValidNode cfg j then t.pending + 1
        else t.pending := by
  induction l generalizing t with
  | nil => simp
  | cons k l ih =>
    obtain ⟨hset, hrunning, hpending⟩ := ih (startScheduled cfg k t)
    refine ⟨fun j => ?_, ?_, ?_⟩
    · rw [List.foldl_cons, hset, startScheduled_set, List.mem_cons]
      constructor
      · rintro ((h | ⟨rfl, hv⟩) | ⟨hj, hv⟩)
        · exact Or.inl h
        · exact Or.inr ⟨Or.inl rfl, hv⟩
        · exact Or.inr ⟨Or.inr hj, hv⟩
      · rintro (h | ⟨rfl | hj, hv⟩)
        · exact Or.inl (Or.inl h)
        · exact Or.inl (Or.inr ⟨rfl, hv⟩)
        · exact Or.inr ⟨hj, hv⟩
    · rw [List.foldl_cons, hrunning, startScheduled_running, List.exists_mem_cons_iff, or_assoc]
    · rw [List.foldl_cons, hpending]
      have hflag := startScheduled_running cfg k t
      by_cases hk : ValidNode cfg k
      · have hup : (startScheduled cfg k t).app.trafficRunning = true := hflag.mpr (Or.inr hk)
        have hex : ∃ j ∈ k :: l, ValidNode cfg j := ⟨k, List.mem_cons_self, hk⟩
        rw [if_neg (by simp [hup])]
        simp only [startScheduled, hk, hex, true_and, and_true]
      · have hsame : (startScheduled cfg k t).app.trafficRunning = t.app.trafficRunning := by
          rw [Bool.eq_iff_iff, hflag]
          simp [hk]
        have hkeep : (startScheduled cfg k t).pending = t.pending := by simp [startScheduled, hk]
        have hex : (∃ j ∈ k :: l, ValidNode cfg j) ↔ ∃ j ∈ l, ValidNode cfg j := by simp [hk]
        rw [hsame, hkeep]
        simp only [hex]

theorem mem_stopTraffic (k j : UInt32) (a : App) :
    j ∈ (stopTraffic k a).trafficSet ↔ j ∈ a.trafficSet ∧ j ≠ k := by
  unfold stopTraffic
  by_cases hk : k ∈ a.trafficSet
  · rw [if_pos hk]
    simp only [Std.ExtTreeSet.mem_erase, ne_eq, Std.LawfulEqCmp.compare_eq_iff_eq]
    rw [and_comm, eq_comm]
  · rw [if_neg hk]
    refine ⟨fun hj => ⟨hj, ?_⟩, fun hj => hj.1⟩
    intro hjk
    exact hk (hjk ▸ hj)

/-- The flag is cleared when a node was stopped and others are left. -/
theorem stopTraffic_running (k : UInt32) (a : App) :
    (stopTraffic k a).trafficRunning = true ↔
      a.trafficRunning = true ∧ ¬ (k ∈ a.trafficSet ∧ ∃ j ∈ a.trafficSet, j ≠ k) := by
  have hleft : (∃ j ∈ a.trafficSet, j ≠ k) ↔ (a.trafficSet.erase k).size ≠ 0 := by
    rw [ne_eq, ← Std.ExtTreeSet.eq_empty_iff_size_eq_zero,
      Std.ExtTreeSet.eq_empty_iff_forall_not_mem]
    simp only [Std.ExtTreeSet.mem_erase, ne_eq, Std.LawfulEqCmp.compare_eq_iff_eq, not_forall,
      not_not]
    exact ⟨fun ⟨j, hj, hne⟩ => ⟨j, fun h => hne h.symm, hj⟩,
      fun ⟨j, hne, hj⟩ => ⟨j, hj, fun h => hne h.symm⟩⟩
  rw [hleft]
  unfold stopTraffic
  by_cases hk : k ∈ a.trafficSet
  · by_cases hsize : (a.trafficSet.erase k).size = 0
    · simp [hk, hsize]
    · simp [hk, hsize]
  · simp [hk]

theorem stopAll_spec (l : List UInt32) (a : App) :
    (∀ j, j ∈ (l.foldl (fun a k => stopTraffic k a) a).trafficSet ↔ j ∈ a.trafficSet ∧ j ∉ l) ∧
      ((l.foldl (fun a k => stopTraffic k a) a).trafficRunning = true → a.trafficRunning = true) := by
  induction l generalizing a with
  | nil => simp
  | cons k l ih =>
    obtain ⟨hset, hrunning⟩ := ih (stopTraffic k a)
    refine ⟨fun j => ?_, fun h => ?_⟩
    · rw [List.foldl_cons, hset, mem_stopTraffic, List.mem_cons, not_or, and_assoc]
    · exact ((stopTraffic_running k a).mp (hrunning h)).1

end Effects

/-! ## Started and not stopped since -/

section History
variable (cfg : NodeConfig)

/-- The event starts traffic to the node. -/
def Starts (k : UInt32) : TrafficEvent → Prop
  | .command _ (.startTraffic nodeNumber) => nodeNumber = k ∧ ValidNode cfg k
  | .command _ .startTrafficAll => k ∈ cfg.nodeAddressMap ∧ ValidNode cfg k
  | _ => False

/-- The event stops traffic to the node. -/
def Stops (k : UInt32) : TrafficEvent → Prop
  | .command _ (.stopTraffic nodeNumber) => nodeNumber = k
  | .command _ .stopTrafficAll => k ∈ cfg.nodeAddressMap
  | _ => False

/-- The node has been started, and not stopped since. -/
def Active (log : List TrafficEvent) (k : UInt32) : Prop :=
  Since (fun e => ¬ Stops cfg k e) (Starts cfg k) log

/-- What a `SendTraffic` that fires now sends: one ping to every active node,
and nothing else. -/
def PingsActive (now : ℕ) (t : Traffic) (log : List TrafficEvent) : Prop :=
  ∃ nodes : List UInt32, nodes.Nodup ∧ (∀ k, k ∈ nodes ↔ Active cfg log k) ∧
    (sendTraffic cfg now t.app).2.map (fun x => (x.1, x.2.payload)) =
      nodes.map fun k => (cfg.resolveNodeIpAddress k, .pingReq trafficMsg)

/-- Each active node is pinged once in a period. -/
structure OncePerPeriod (st : Traffic × List TrafficEvent) : Prop where
  atMostOne : st.1.pending ≤ 1
  kept : ∀ k, Active cfg st.2 k → 1 ≤ st.1.pending
  fires : 1 ≤ st.1.pending → ∀ now, PingsActive cfg now st.1 st.2

/-- A `STOP` of one node leaves no other, and a `START` does not come while an
event is left that an earlier `STOP` has disarmed. -/
def Undisturbed (st : Traffic × List TrafficEvent) : TrafficEvent → Prop
  | .command _ (.startTraffic nodeNumber) =>
    ValidNode cfg nodeNumber → st.1.pending = 0 ∨ st.1.app.trafficRunning = true
  | .command _ .startTrafficAll => (∃ k ∈ cfg.nodeAddressMap, ValidNode cfg k) →
    st.1.pending = 0 ∨ st.1.app.trafficRunning = true
  | .command _ (.stopTraffic nodeNumber) =>
    nodeNumber ∈ st.1.app.trafficSet → ∀ k ∈ st.1.app.trafficSet, k = nodeNumber
  | _ => True

/-- The application with the events that happened. -/
abbrev loggedTraffic : Traffic × List TrafficEvent → TrafficEvent →
    Option (Traffic × List TrafficEvent) :=
  logged (fun _ e => [e]) (trafficStep cfg)

/-- The state with the log it is the result of. -/
structure TrafficInv (st : Traffic × List TrafficEvent) : Prop where
  valid : ∀ k ∈ st.1.app.trafficSet, ValidNode cfg k
  active : ∀ k, k ∈ st.1.app.trafficSet ↔ Active cfg st.2 k
  running : st.1.app.trafficRunning = true → 1 ≤ st.1.pending

end History

section Invariant
variable {cfg : NodeConfig} {t t' : Traffic} {e : TrafficEvent}

theorem ValidNode.mem {k : UInt32} (h : ValidNode cfg k) : k ∈ cfg.nodeAddressMap := by
  by_contra hno
  refine h ?_
  unfold NodeConfig.resolveNodeIpAddress
  rw [Std.ExtTreeMap.getElem?_eq_none hno]
  rfl

/-- What an event does to the traffic: it starts nodes, stops one or all, or
fires a scheduled `SendTraffic`; others have nothing to do with it. -/
theorem trafficStep_cases (h : trafficStep cfg t e = some t') :
    (∃ l : List UInt32, (∀ k, Starts cfg k e ↔ k ∈ l ∧ ValidNode cfg k) ∧
        (∀ k, ¬ Stops cfg k e) ∧
        (∀ log, Undisturbed cfg (t, log) e ↔
          ((∃ k ∈ l, ValidNode cfg k) → t.pending = 0 ∨ t.app.trafficRunning = true)) ∧
        t' = l.foldl (fun t k => startScheduled cfg k t) t) ∨
      (∀ k, ¬ Starts cfg k e) ∧
        ((∃ now k, e = .command now (.stopTraffic k) ∧
            t' = { t with app := stopTraffic k t.app }) ∨
          (∃ now, e = .command now .stopTrafficAll ∧
            t' = { t with app := cfg.nodeAddressMap.keys.foldl (fun a k => stopTraffic k a) t.app }) ∨
          (∀ k, ¬ Stops cfg k e) ∧ (∀ log, Undisturbed cfg (t, log) e) ∧
            t'.app.trafficSet = t.app.trafficSet ∧ t'.app.trafficRunning = t.app.trafficRunning ∧
            t'.pending ≤ t.pending ∧ (t.app.trafficRunning = true → t'.pending = t.pending)) := by
  cases e with
  | command now c =>
    obtain rfl := Option.some.inj h
    cases c with
    | startTraffic nodeNumber =>
      refine Or.inl ⟨[nodeNumber], fun k => ?_, fun _ => id, fun log => ?_, rfl⟩
      · show nodeNumber = k ∧ _ ↔ _
        rw [List.mem_singleton, eq_comm]
      · simp [Undisturbed]
    | startTrafficAll =>
      refine Or.inl ⟨cfg.nodeAddressMap.keys, fun k => ?_, fun _ => id, fun log => ?_, rfl⟩
      · rw [Std.ExtTreeMap.mem_keys]
        rfl
      · simp only [Undisturbed, Std.ExtTreeMap.mem_keys]
    | stopTraffic nodeNumber => exact Or.inr ⟨fun _ => id, Or.inl ⟨now, nodeNumber, rfl, rfl⟩⟩
    | stopTrafficAll => exact Or.inr ⟨fun _ => id, Or.inr (Or.inl ⟨now, rfl, rfl⟩)⟩
    | ping nodeNumber pingMessage =>
      obtain ⟨hset, hrunning⟩ := sendPings_traffic cfg now pingMessage [nodeNumber] t.app
      exact Or.inr ⟨fun _ => id, Or.inr (Or.inr ⟨fun _ => id, fun _ => trivial, hset, hrunning,
        le_rfl, fun _ => rfl⟩)⟩
    | pingAll pingMessage =>
      obtain ⟨hset, hrunning⟩ := sendPings_traffic cfg now pingMessage
        cfg.nodeAddressMap.keys t.app
      exact Or.inr ⟨fun _ => id, Or.inr (Or.inr ⟨fun _ => id, fun _ => trivial, hset, hrunning,
        le_rfl, fun _ => rfl⟩)⟩
  | sendTraffic now =>
    simp only [trafficStep] at h
    split at h
    · cases h
    · obtain rfl := Option.some.inj h
      obtain ⟨hset, hrunning⟩ := sendPings_traffic cfg now trafficMsg (trafficNodes t.app)
        t.app
      refine Or.inr ⟨fun _ => id, Or.inr (Or.inr ⟨fun _ => id, fun _ => trivial, hset, hrunning, ?_,
        fun hup => if_pos hup⟩)⟩
      dsimp only
      split
      · exact le_rfl
      · exact Nat.sub_le _ _
  | recvMessage message sourceAddress =>
    obtain rfl := Option.some.inj h
    refine Or.inr ⟨fun _ => id, Or.inr (Or.inr ⟨fun _ => id, fun _ => trivial, ?_⟩)⟩
    unfold recvMessage
    cases message.payload with
    | pingReq pingMessage => exact ⟨rfl, rfl, le_rfl, fun _ => rfl⟩
    | pingRsp pingMessage => exact ⟨rfl, rfl, le_rfl, fun _ => rfl⟩
  | auditPings now =>
    obtain rfl := Option.some.inj h
    exact Or.inr ⟨fun _ => id, Or.inr (Or.inr ⟨fun _ => id, fun _ => trivial, rfl, rfl, le_rfl,
      fun _ => rfl⟩)⟩

/-- The nodes with traffic after an event. -/
theorem trafficStep_set (h : trafficStep cfg t e = some t') (k : UInt32) :
    k ∈ t'.app.trafficSet ↔ k ∈ t.app.trafficSet ∧ ¬ Stops cfg k e ∨ Starts cfg k e := by
  rcases trafficStep_cases h with ⟨l, hstarts, hstops, _, rfl⟩ |
    ⟨hno, ⟨now, j, rfl, rfl⟩ | ⟨now, rfl, rfl⟩ | ⟨hstops, _, hset, _⟩⟩
  · rw [(startAll_spec cfg l t).1, hstarts]
    simp [hstops k]
  · simp only [mem_stopTraffic, hno k, or_false, Stops]
    rw [eq_comm]
  · simp only [(stopAll_spec _ t.app).1, Std.ExtTreeMap.mem_keys, hno k, or_false, Stops]
  · rw [hset]
    simp [hstops k, hno k]

theorem active_snoc {log : List TrafficEvent} {k : UInt32} :
    Active cfg (log ++ [e]) k ↔ Active cfg log k ∧ ¬ Stops cfg k e ∨ Starts cfg k e := since_snoc

theorem trafficInv_step {st st' : Traffic × List TrafficEvent} (hI : TrafficInv cfg st)
    (h : loggedTraffic cfg st e = some st') : TrafficInv cfg st' := by
  obtain ⟨t', ht, rfl⟩ := Option.map_eq_some_iff.mp h
  refine ⟨fun k hk => ?_, fun k => ?_, fun hup => ?_⟩
  · rcases (trafficStep_set ht k).mp hk with ⟨hk, _⟩ | hstart
    · exact hI.valid k hk
    · rcases trafficStep_cases ht with ⟨l, hstarts, _⟩ | ⟨hno, _⟩
      · exact ((hstarts k).mp hstart).2
      · exact absurd hstart (hno k)
  · dsimp only
    rw [trafficStep_set ht, active_snoc, hI.active]
  · dsimp only at hup ⊢
    rcases trafficStep_cases ht with ⟨l, _, _, _, rfl⟩ |
      ⟨_, ⟨now, j, rfl, rfl⟩ | ⟨now, rfl, rfl⟩ | ⟨_, _, _, hrunning, _, hpending⟩⟩
    · obtain ⟨_, hflag, hpending⟩ := startAll_spec cfg l st.1
      rw [hpending]
      cases hf : st.1.app.trafficRunning with
      | true =>
        have hold := hI.running hf
        simp [hold]
      | false =>
        rw [hflag, hf] at hup
        have hex := hup.resolve_left (by simp)
        simp [hex]
    · exact hI.running ((stopTraffic_running j st.1.app).mp hup).1
    · exact hI.running ((stopAll_spec _ st.1.app).2 hup)
    · rw [hrunning] at hup
      rw [hpending hup]
      exact hI.running hup

/-- The property in terms of the state. -/
theorem oncePerPeriod_iff {st : Traffic × List TrafficEvent} (hI : TrafficInv cfg st) :
    OncePerPeriod cfg st ↔ st.1.pending ≤ 1 ∧
      ∀ k ∈ st.1.app.trafficSet, 1 ≤ st.1.pending ∧ st.1.app.trafficRunning = true := by
  have hmem : ∀ k, k ∈ st.1.app.trafficSet.toList ↔ k ∈ st.1.app.trafficSet := by
    intro k
    rw [Std.ExtTreeSet.mem_toList]
  constructor
  · intro h
    refine ⟨h.atMostOne, fun k hk => ?_⟩
    have hone := h.kept k ((hI.active k).mp hk)
    refine ⟨hone, ?_⟩
    by_contra hdown
    -- a disarmed event pings nobody
    obtain ⟨nodes, _, hnodes, hsent⟩ := h.fires hone 0
    have hnone : trafficNodes st.1.app = [] := if_neg hdown
    rw [sendTraffic, hnone] at hsent
    have hempty : nodes = [] := List.map_eq_nil_iff.mp hsent.symm
    have hk' := (hnodes k).mpr ((hI.active k).mp hk)
    rw [hempty] at hk'
    cases hk'
  · intro ⟨hle, hset⟩
    refine ⟨hle, fun k hk => (hset k ((hI.active k).mpr hk)).1, fun _ now => ?_⟩
    refine ⟨st.1.app.trafficSet.toList, ?_, fun k => ?_, ?_⟩
    · refine List.Pairwise.imp ?_ Std.ExtTreeSet.distinct_toList
      intro a b hne hab
      exact hne (hab ▸ Std.ReflCmp.compare_self)
    · rw [hmem, hI.active]
    · have hnodes : trafficNodes st.1.app = st.1.app.trafficSet.toList := by
        unfold trafficNodes
        split
        · rfl
        · rename_i hdown
          symm
          rw [List.eq_nil_iff_forall_not_mem]
          intro k hk
          exact hdown (hset k ((hmem k).mp hk)).2
      rw [sendTraffic, hnodes]
      exact sendPings_valid cfg st.1.app fun k hk => hI.valid k ((hmem k).mp hk)

/-- One event keeps the property exactly when it is not disturbed. -/
theorem oncePerPeriod_step_iff {st st' : Traffic × List TrafficEvent} (hI : TrafficInv cfg st)
    (hP : OncePerPeriod cfg st) (h : loggedTraffic cfg st e = some st') :
    OncePerPeriod cfg st' ↔ Undisturbed cfg st e := by
  have hI' := trafficInv_step hI h
  rw [oncePerPeriod_iff hI']
  obtain ⟨hle, hset⟩ := (oncePerPeriod_iff hI).mp hP
  obtain ⟨t, log⟩ := st
  obtain ⟨t', ht, rfl⟩ := Option.map_eq_some_iff.mp h
  dsimp only at hle hset ⊢
  rcases trafficStep_cases ht with ⟨l, _, _, hundisturbed, rfl⟩ |
    ⟨_, ⟨now, j, rfl, rfl⟩ | ⟨now, rfl, rfl⟩ | ⟨_, hundisturbed, hset', hrunning, hless, hsame⟩⟩
  · obtain ⟨hset', hflag, hpending⟩ := startAll_spec cfg l t
    rw [hundisturbed log, hpending, hflag]
    by_cases hex : ∃ k ∈ l, ValidNode cfg k
    · have hnew : ∃ k, k ∈ (l.foldl (fun t k => startScheduled cfg k t) t).app.trafficSet := by
        obtain ⟨k, hk⟩ := hex
        exact ⟨k, (hset' k).mpr (Or.inr hk)⟩
      simp only [hex, and_true, or_true, true_imp_iff]
      cases hf : t.app.trafficRunning with
      | true =>
        have hone := hI.running hf
        simp only [Bool.true_eq_false, if_false, or_true, iff_true]
        exact ⟨hle, fun _ _ => hone⟩
      | false =>
        simp only [if_true, Bool.false_eq_true, or_false]
        constructor
        · intro hx
          omega
        · intro hzero
          exact ⟨by omega, fun _ _ => by omega⟩
    · simp only [hex, and_false, if_false, or_false, false_imp_iff, iff_true]
      refine ⟨hle, fun k hk => hset k ?_⟩
      exact ((hset' k).mp hk).resolve_right fun hx => hex ⟨k, hx⟩
  · -- one node is stopped
    simp only [mem_stopTraffic, stopTraffic_running, Undisturbed]
    constructor
    · intro hx hj k hk
      by_contra hne
      exact (hx.2 k ⟨hk, hne⟩).2.2 ⟨hj, k, hk, hne⟩
    · intro hx
      refine ⟨hle, fun k hk => ⟨(hset k hk.1).1, (hset k hk.1).2, ?_⟩⟩
      intro hj
      exact hk.2 (hx hj.1 k hk.1)
  · simp only [(stopAll_spec _ t.app).1, Undisturbed, iff_true]
    refine ⟨hle, fun k hk => absurd ?_ hk.2⟩
    rw [Std.ExtTreeMap.mem_keys]
    exact (hI.valid k hk.1).mem
  · rw [iff_true_right (hundisturbed log), hset', hrunning]
    refine ⟨hless.trans hle, fun k hk => ?_⟩
    obtain ⟨hone, hup⟩ := hset k hk
    rw [hsame hup]
    exact ⟨hone, hup⟩

end Invariant

/-- **When each destination is pinged once in a period**: in every state of a
run exactly when no event of it is disturbed. -/
theorem oncePerPeriod_along_iff (cfg : NodeConfig) (transactionId : UInt32) (pingTimeout : ℕ)
    (es : List TrafficEvent) :
    Along (loggedTraffic cfg) (OncePerPeriod cfg) (⟨start transactionId pingTimeout, 0⟩, []) es ↔
      Meets (loggedTraffic cfg) (Undisturbed cfg) (⟨start transactionId pingTimeout, 0⟩, []) es := by
  have hempty : ∀ k, ¬ k ∈ (start transactionId pingTimeout).trafficSet := by
    intro k
    exact Std.ExtTreeSet.not_mem_empty
  have hinit : TrafficInv cfg (⟨start transactionId pingTimeout, 0⟩, []) := by
    refine ⟨fun k hk => absurd hk (hempty k), fun k => ?_, nofun⟩
    exact iff_of_false (hempty k) since_nil
  refine along_iff_meets es hinit (fun _ _ _ hI h => trafficInv_step hI h) ?_
    fun _ _ _ hI hP h => oncePerPeriod_step_iff hI hP h
  exact (oncePerPeriod_iff hinit).mpr ⟨Nat.zero_le 1, fun k hk => absurd hk (hempty k)⟩

/-- Nodes 1 and 2 are started, and node 1 is stopped: the next `SendTraffic`
pings nobody, though node 2 was not stopped. -/
theorem stop_silences_others :
    ¬ ∀ es, Along (loggedTraffic sampleConfig) (OncePerPeriod sampleConfig)
      (⟨start 7 2000, 0⟩, []) es := by
  intro h
  have hrun : ∃ t, run (loggedTraffic sampleConfig) (⟨start 7 2000, 0⟩, [])
      [.command 0 (.startTraffic 1), .command 0 (.startTraffic 2), .command 1 (.stopTraffic 1)] =
        some (t, [.command 0 (.startTraffic 1), .command 0 (.startTraffic 2),
          .command 1 (.stopTraffic 1)]) ∧
      t.pending = 1 ∧ (sendTraffic sampleConfig 2 t.app).2 = [] := by
    refine ⟨_, rfl, ?_, ?_⟩
    · decide +kernel
    · decide +kernel
  obtain ⟨t, hrun, hpending, hsent⟩ := hrun
  have hstate := h _ _ _ (List.prefix_refl _) hrun
  obtain ⟨nodes, _, hnodes, hpings⟩ := hstate.fires hpending.ge 2
  rw [hsent] at hpings
  have hempty : nodes = [] := List.map_eq_nil_iff.mp hpings.symm
  have hactive : (2 : UInt32) ∈ nodes := by
    refine (hnodes 2).mpr ⟨[.command 0 (.startTraffic 1)], .command 0 (.startTraffic 2),
      [.command 1 (.stopTraffic 1)], rfl, ⟨rfl, by decide +kernel⟩, ?_⟩
    intro e he hstop
    rw [List.mem_singleton.mp he] at hstop
    exact absurd (show (1 : UInt32) = 2 from hstop) (by decide)
  rw [hempty] at hactive
  cases hactive

end Ns3Routing.TestApp
