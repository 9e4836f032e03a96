import Ns3Routing.Ls.Messages
import Ns3Routing.Lib.Newest

/-! # The order of announcements

`ProcessLSTableMessage` keeps one entry for each originator and replaces it
only by one with a greater sequence number (`registers_processStep`), so
`m_lsTable` depends on the announcements that arrive, and not on their order
or on how often each comes. `m_routingTable` is computed from `m_lsTable`
after the last announcement that was new (`run_recomputed`), and whether any
is new does not depend on the order either. -/

namespace Ns3Routing.Ls

open Lib

/-- An LS_TABLE_MSG. -/
structure Announcement where
  lsMessage : LSMessage
  neighborCosts : NbrCostsVec
  payload : lsMessage.payload = .lsTableMsg neighborCosts

namespace Announcement

variable (cfg : NodeConfig) (m : Announcement)

/-- The originator, under the name its entry has in `m_lsTable`. -/
def fromNode : String := cfg.reverseLookup m.lsMessage.originatorAddress

/-- The entry it stores. -/
def newEntry : LSTableEntry := ⟨m.neighborCosts, m.lsMessage.sequenceNumber⟩

end Announcement

section Process
variable (recompute : NodeConfig → Node → Option RoutingTable) (cfg : NodeConfig)

/-- `ProcessLSTableMessage`. -/
def processStep (n : Node) (m : Announcement) : Option Node :=
  (processLSTableMessage recompute cfg m.lsMessage m.neighborCosts n).map Prod.fst

/-- The announcement is new. -/
def News (n : Node) (m : Announcement) : Prop :=
  isNew n (m.fromNode cfg) m.lsMessage.sequenceNumber = true

/-- An announcement with the entry `entry` of the originator `K` is among the
messages. -/
abbrev Announced (ms : List Announcement) (K : String) (entry : LSTableEntry) : Prop :=
  Arrives (Announcement.fromNode cfg) Announcement.newEntry ms K entry

end Process

/-- Entries are compared by sequence number. -/
def LSTableEntry.rank (entry : LSTableEntry) : ℕ := entry.sequenceNumber.toNat

section Step
variable {recompute : NodeConfig → Node → Option RoutingTable} {cfg : NodeConfig} {n n' : Node}
  {m : Announcement} {ms : List Announcement}

/-- What one message does. -/
theorem processStep_cases (h : processStep recompute cfg n m = some n') :
    (News cfg n m ∧ ∃ routingTable,
      recompute cfg (storeEntry (m.fromNode cfg) m.neighborCosts m.lsMessage.sequenceNumber n) =
        some routingTable ∧
      n' = { storeEntry (m.fromNode cfg) m.neighborCosts m.lsMessage.sequenceNumber n with
        routingTable }) ∨
    (¬ News cfg n m ∧ n' = n) := by
  obtain ⟨⟨n', out⟩, hp, rfl⟩ := Option.map_eq_some_iff.mp h
  unfold processLSTableMessage at hp
  dsimp only at hp
  split at hp
  · rename_i hnew
    obtain ⟨n₁, hrun, hp⟩ := Option.bind_eq_some_iff.mp hp
    obtain ⟨routingTable, hrt, rfl⟩ := Option.map_eq_some_iff.mp hrun
    obtain ⟨rfl, _⟩ := Prod.mk.inj (Option.some.inj hp)
    exact Or.inl ⟨hnew, routingTable, hrt, rfl⟩
  · rename_i hold
    obtain ⟨rfl, _⟩ := Prod.mk.inj (Option.some.inj hp)
    exact Or.inr ⟨hold, rfl⟩

theorem news_iff : News cfg n m ↔
    ∀ entry, n.lsTable[m.fromNode cfg]? = some entry → entry.rank < m.newEntry.rank := by
  rw [News, isNew_iff]
  constructor
  · intro h entry he
    exact UInt32.lt_iff_toNat_lt.mp (h _ (heldSeq_eq_some.mpr ⟨entry, he, rfl⟩))
  · intro h q hq
    obtain ⟨entry, he, rfl⟩ := heldSeq_eq_some.mp hq
    exact UInt32.lt_iff_toNat_lt.mpr (h entry he)

/-- `m_lsTable` is a register for each originator. -/
theorem registers_processStep : Registers LSTableEntry.rank (processStep recompute cfg)
    (fun n (K : String) => n.lsTable[K]?) (Announcement.fromNode cfg) Announcement.newEntry := by
  intro n m n' h K
  dsimp only
  rcases processStep_cases h with ⟨hnew, routingTable, _, rfl⟩ | ⟨hold, rfl⟩
  · show (n.lsTable.insert (m.fromNode cfg) m.newEntry)[K]? = _
    rw [getElem?_insert_eq]
    split
    · rename_i hK
      rw [keepNewer_of_lt]
      rw [← hK]
      exact news_iff.mp hnew
    · rfl
  · split
    · rename_i hK
      rw [news_iff, hK] at hold
      push Not at hold
      obtain ⟨entry, he, hle⟩ := hold
      rw [he, keepNewer_of_le hle]
    · rfl

theorem processStep_neighborTable (h : processStep recompute cfg n m = some n') :
    n'.neighborTable = n.neighborTable := by
  rcases processStep_cases h with ⟨_, routingTable, _, rfl⟩ | ⟨_, rfl⟩
  · rfl
  · rfl

end Step

/-! ## The routing table -/

section Dijkstra
variable {cfg : NodeConfig} {n n' : Node}

theorem finishNodes_congr (ls : n'.lsTable = n.lsTable) (nt : n'.neighborTable = n.neighborTable)
    (k : ℕ) (st : Search) : finishNodes cfg n' k st = finishNodes cfg n k st := by
  obtain ⟨c, neighborTable, lsTable, r⟩ := n
  obtain ⟨c', neighborTable', lsTable', r'⟩ := n'
  dsimp only at ls nt
  subst ls nt
  induction k generalizing st with
  | zero => rfl
  | succ k ih =>
    unfold finishNodes
    exact congrArg (Option.bind (finishNode cfg _ st)) (funext fun st => ih st)

/-- `Dijkstra` reads the other two tables. -/
theorem dijkstra_congr (ls : n'.lsTable = n.lsTable) (nt : n'.neighborTable = n.neighborTable) :
    dijkstra cfg n' = dijkstra cfg n := by
  have hinit : initSearch cfg n' = initSearch cfg n := by
    obtain ⟨c, neighborTable, lsTable, r⟩ := n
    obtain ⟨c', neighborTable', lsTable', r'⟩ := n'
    dsimp only at ls nt
    subst ls nt
    rfl
  unfold dijkstra
  rw [hinit, ls]
  simp only [finishNodes_congr ls nt]

end Dijkstra

section Recomputed
variable {cfg : NodeConfig} {n n' n₁ n₂ : Node} {m : Announcement} {ms ms' : List Announcement}

/-- The routing table is the one `Dijkstra` computes from the other tables. -/
def Recomputed (cfg : NodeConfig) (n : Node) : Prop := dijkstra cfg n = some n.routingTable

theorem recomputed_of_news (h : processStep dijkstra cfg n m = some n') (hnew : News cfg n m) :
    Recomputed cfg n' := by
  rcases processStep_cases h with ⟨_, routingTable, hrt, rfl⟩ | ⟨hold, _⟩
  · refine Eq.trans ?_ hrt
    exact dijkstra_congr rfl rfl
  · exact absurd hnew hold

theorem Recomputed.step (hr : Recomputed cfg n) (h : processStep dijkstra cfg n m = some n') :
    Recomputed cfg n' := by
  by_cases hnew : News cfg n m
  · exact recomputed_of_news h hnew
  · rcases processStep_cases h with ⟨hnew', _⟩ | ⟨_, rfl⟩
    · exact absurd hnew' hnew
    · exact hr

/-- None of the messages is new. -/
theorem run_stale (h : run (processStep dijkstra cfg) n ms = some n')
    (hno : ∀ m ∈ ms, ¬ News cfg n m) : n' = n := by
  induction ms with
  | nil => exact (Option.some.inj h).symm
  | cons m ms ih =>
    obtain ⟨hm, hms⟩ := List.forall_mem_cons.mp hno
    obtain ⟨n₁, hn₁, hrest⟩ := foldlM_cons_some h
    rcases processStep_cases hn₁ with ⟨hnew, _⟩ | ⟨_, rfl⟩
    · exact absurd hnew hm
    · exact ih hrest hms

/-- Some message is new: at least the first that is. -/
theorem run_recomputed (h : run (processStep dijkstra cfg) n ms = some n')
    (hnew : ∃ m ∈ ms, News cfg n m) : Recomputed cfg n' := by
  induction ms with
  | nil =>
    obtain ⟨m, hm, _⟩ := hnew
    cases hm
  | cons m ms ih =>
    obtain ⟨n₁, hn₁, hrest⟩ := foldlM_cons_some h
    by_cases hm : News cfg n m
    · exact run_invariant (recomputed_of_news hn₁ hm) (fun _ _ _ hr hstep => hr.step hstep) hrest
    · rcases processStep_cases hn₁ with ⟨hm', _⟩ | ⟨_, rfl⟩
      · exact absurd hm' hm
      · exact ih hrest (((List.exists_mem_cons_iff _ _ _).mp hnew).resolve_left hm)

theorem run_neighborTable (h : run (processStep dijkstra cfg) n ms = some n') :
    n'.neighborTable = n.neighborTable :=
  run_invariant (I := fun n' => n'.neighborTable = n.neighborTable) rfl
    (fun _ _ _ hI hstep => (processStep_neighborTable hstep).trans hI) h

/-- Whether a message is new shows in its entry. -/
theorem exists_news_iff : (∃ m ∈ ms, News cfg n m) ↔ ∃ (K : String) (entry : LSTableEntry),
    Announced cfg ms K entry ∧ ∀ held, n.lsTable[K]? = some held → held.rank < entry.rank := by
  constructor
  · intro ⟨m, hm, hnew⟩
    exact ⟨_, _, ⟨m, hm, rfl, rfl⟩, news_iff.mp hnew⟩
  · intro ⟨K, entry, ⟨m, hm, hK, hentry⟩, hlt⟩
    refine ⟨m, hm, news_iff.mpr ?_⟩
    rw [hK, hentry]
    exact hlt

end Recomputed

/-- **Which announcements arrived decides the tables**, not their order or how
often each came: `m_lsTable` whatever `Dijkstra` does, and `m_routingTable`
when no lookup of `Dijkstra` fails. An entry is the one with the greatest
sequence number, the one held before if it has that number. -/
theorem announcements_orderFree (cfg : NodeConfig) (n : Node) (ms ms' : List Announcement)
    (same : ∀ (K : String) entry, Announced cfg ms K entry ↔ Announced cfg ms' K entry)
    (consistent : ∀ (K : String) entry entry', Announced cfg ms K entry →
      Announced cfg ms K entry' → entry.sequenceNumber = entry'.sequenceNumber → entry = entry') :
    (∀ recompute n₁ n₂, run (processStep recompute cfg) n ms = some n₁ →
      run (processStep recompute cfg) n ms' = some n₂ →
      n₁.lsTable = n₂.lsTable ∧
      ∀ (K : String) entry, n₁.lsTable[K]? = some entry ↔
        Newest LSTableEntry.rank n.lsTable[K]? (Announced cfg ms K) entry) ∧
    ∀ n₁ n₂, run (processStep dijkstra cfg) n ms = some n₁ →
      run (processStep dijkstra cfg) n ms' = some n₂ → n₁.routingTable = n₂.routingTable := by
  have consistent' : ∀ (K : String) entry entry', Announced cfg ms K entry →
      Announced cfg ms K entry' → entry.rank = entry'.rank → entry = entry' := by
    intro K entry entry' h h' hrank
    exact consistent K entry entry' h h' (UInt32.toNat_inj.mp hrank)
  have htable : ∀ recompute n₁ n₂, run (processStep recompute cfg) n ms = some n₁ →
      run (processStep recompute cfg) n ms' = some n₂ → n₁.lsTable = n₂.lsTable := by
    intro recompute n₁ n₂ h₁ h₂
    refine Std.ExtTreeMap.ext_getElem? fun K => ?_
    exact registers_processStep.get_run_eq h₁ h₂ (same K) (consistent' K)
  refine ⟨fun recompute n₁ n₂ h₁ h₂ => ⟨htable recompute n₁ n₂ h₁ h₂, fun K entry => ?_⟩, ?_⟩
  · exact registers_processStep.get_run_iff h₁ (consistent' K)
  · intro n₁ n₂ h₁ h₂
    have hnews : (∃ m ∈ ms, News cfg n m) ↔ ∃ m ∈ ms', News cfg n m := by
      rw [exists_news_iff, exists_news_iff]
      simp only [same]
    by_cases hnew : ∃ m ∈ ms, News cfg n m
    · have hr₁ := run_recomputed h₁ hnew
      have hr₂ := run_recomputed h₂ (hnews.mp hnew)
      unfold Recomputed at hr₁ hr₂
      rw [dijkstra_congr (htable dijkstra n₁ n₂ h₁ h₂)
        ((run_neighborTable h₁).trans (run_neighborTable h₂).symm), hr₂] at hr₁
      exact (Option.some.inj hr₁).symm
    · have hnew' : ¬ ∃ m ∈ ms', News cfg n m := fun h => hnew (hnews.mpr h)
      push Not at hnew hnew'
      rw [run_stale h₁ hnew, run_stale h₂ hnew']

/-! ### Two announcements of a neighbour and one of the node itself -/

/-- The neighbour, node 1, announces its link to node 0 and then one to
node 2; an announcement of node 0 comes back. -/
def floodedBack : List Announcement :=
  [⟨⟨6, 16, 20, _⟩, [(10, 1)], rfl⟩, ⟨⟨7, 16, 20, _⟩, [(10, 1), (30, 1)], rfl⟩,
    ⟨⟨8, 15, 10, _⟩, [(20, 1)], rfl⟩]

/-- In the other order, and the second of node 1 twice. -/
def floodedBack' : List Announcement :=
  [⟨⟨8, 15, 10, _⟩, [(20, 1)], rfl⟩, ⟨⟨7, 14, 20, _⟩, [(10, 1), (30, 1)], rfl⟩,
    ⟨⟨6, 16, 20, _⟩, [(10, 1)], rfl⟩, ⟨⟨7, 16, 20, _⟩, [(10, 1), (30, 1)], rfl⟩]

theorem floodedBack_same (K : String) (entry : LSTableEntry) :
    Announced sampleConfig floodedBack K entry ↔ Announced sampleConfig floodedBack' K entry := by
  simp only [Arrives, floodedBack, floodedBack', List.exists_mem_cons_iff, List.not_mem_nil,
    false_and, exists_false, or_false, Announcement.newEntry, Announcement.fromNode]
  tauto

theorem floodedBack_consistent (K : String) (entry entry' : LSTableEntry)
    (h : Announced sampleConfig floodedBack K entry)
    (h' : Announced sampleConfig floodedBack K entry')
    (hseq : entry.sequenceNumber = entry'.sequenceNumber) : entry = entry' := by
  obtain ⟨m, hm, _, rfl⟩ := h
  obtain ⟨m', hm', _, rfl⟩ := h'
  simp only [floodedBack, List.mem_cons, List.not_mem_nil, or_false] at hm hm'
  rcases hm with rfl | rfl | rfl <;> rcases hm' with rfl | rfl | rfl <;>
    first | rfl | exact absurd hseq (by decide)

theorem announcements_orderFree_floodedBack :
    ∃ n n₁ n₂, run (step dijkstra sampleConfig) (doStart 100)
        [.recv 0 0 ⟨5, 1, 20, .helloReq 10 "hello"⟩] = some n ∧
      run (processStep dijkstra sampleConfig) n floodedBack = some n₁ ∧
      run (processStep dijkstra sampleConfig) n floodedBack' = some n₂ ∧
      n₁.lsTable = n₂.lsTable ∧ n₁.routingTable = n₂.routingTable := by
  have hrun : ((run (step dijkstra sampleConfig) (doStart 100)
      [.recv 0 0 ⟨5, 1, 20, .helloReq 10 "hello"⟩]).bind fun n =>
        (run (processStep dijkstra sampleConfig) n floodedBack).bind fun _ =>
          (run (processStep dijkstra sampleConfig) n floodedBack').map fun _ => ()) = some () := by
    decide +kernel
  obtain ⟨n, hn, hrun⟩ := Option.bind_eq_some_iff.mp hrun
  obtain ⟨n₁, h₁, hrun⟩ := Option.bind_eq_some_iff.mp hrun
  obtain ⟨n₂, h₂, _⟩ := Option.map_eq_some_iff.mp hrun
  obtain ⟨htable, hroutes⟩ := announcements_orderFree sampleConfig n floodedBack floodedBack'
    floodedBack_same floodedBack_consistent
  exact ⟨n, n₁, n₂, hn, h₁, h₂, (htable dijkstra n₁ n₂ h₁ h₂).1, hroutes n₁ n₂ h₁ h₂⟩

end Ns3Routing.Ls
