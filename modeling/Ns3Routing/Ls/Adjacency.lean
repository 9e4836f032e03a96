import Ns3Routing.Ls.Flooding

/-! # Databases across a link that comes up

When two nodes find each other they announce their own neighbours, and
nothing else: what either of them has stored of a third node stays where it
is. From the moment the link is up, what one end newly stores of a third node
is sent to the other, so entries that agreed then agree ever after; entries
that did not, need not, until the third node makes a new announcement. -/

namespace Ns3Routing.Ls

open Lib Ns3Routing.Topology

/-- What the ends of link `l` have of node `o` in state `s`, when the link has
been up since `s₀`. -/
structure Since (T : Topology) (l : Fin T.links) (o : Fin T.size) (s₀ : LsNet T)
    (log : Fin T.size → List (UInt32 × NbrCostsVec)) (s : LsNet T) : Prop where
  logged : Logged T log s
  up : s.up l = true
  mono : ∀ b q₀, heldSeq (s₀.node (T.owner (l, b))) (T.name o) = some q₀ →
    ∃ q, heldSeq (s.node (T.owner (l, b))) (T.name o) = some q ∧ q₀ ≤ q
  covered : ∀ b q, heldSeq (s.node (T.owner (l, b))) (T.name o) = some q →
    heldSeq (s₀.node (T.owner (l, b))) (T.name o) = some q ∨ Covered T s (l, b) o q

/-- An entry for `o` at an end of `l` is the one of `s₀`, or a later
announcement of `o`. -/
def Genuine (T : Topology) (l : Fin T.links) (o : Fin T.size) (s₀ : LsNet T)
    (log : Fin T.size → List (UInt32 × NbrCostsVec)) (s : LsNet T) : Prop :=
  ∀ b entry, (s.node (T.owner (l, b))).lsTable[T.name o]? = some entry →
    (s₀.node (T.owner (l, b))).lsTable[T.name o]? = some entry ∨
    ((entry.sequenceNumber, entry.neighborCosts) ∈ log o ∧
      ∀ q₀, heldSeq (s₀.node (T.owner (l, b))) (T.name o) = some q₀ → q₀ < entry.sequenceNumber)

/-- Neither end of `l` times out `o`, which would edit its entry. -/
def KeepsEntry (T : Topology) (l : Fin T.links) (o : Fin T.size) (s : LsNet T) : Label T → Prop
  | .auditHellos i now => (∃ b, T.owner (l, b) = i) → ¬ Expires (T.config i) now (s.node i) (T.name o)
  | _ => True

section Since
variable {dijkstra : NodeConfig → Node → Option RoutingTable} {T : Topology} {l : Fin T.links}
  {o : Fin T.size} {s₀ s s' : LsNet T} {log : Fin T.size → List (UInt32 × NbrCostsVec)}
  {lab : Label T}

theorem Since.start (h : Logged T log s₀) (hup : s₀.up l = true) : Since T l o s₀ log s₀ :=
  ⟨h, hup, fun _ q₀ hq => ⟨q₀, hq, UInt32.le_refl _⟩, fun _ _ hq => Or.inl hq⟩

theorem Since.still (h : Since T l o s₀ log s) (hst : Still T s s') (hup : s'.up l = true) :
    Since T l o s₀ log s' := by
  refine ⟨h.logged.still hst, hup, ?_, ?_⟩
  · rw [hst.node]; exact h.mono
  · intro b q hq
    rw [hst.node] at hq
    exact (h.covered b q hq).imp_right fun hc => hc.still hst h.up

section Act
variable {i : Fin T.size} {e : Event} {out : Packets} {ann : Option (UInt32 × NbrCostsVec)}

theorem Since.act (h : Since T l o s₀ log s) (ho : ∀ b, T.owner (l, b) ≠ o)
    (hact : Act T s i e out ann s')
    (hwrap : (s.node i).currentSequenceNumber ≤ (s'.node i).currentSequenceNumber) :
    Since T l o s₀ (record log i ann) s' := by
  have hk := h.logged.keyed i
  refine ⟨h.logged.act hact hwrap, by rw [hact.up]; exact h.up, ?_, ?_⟩
  · intro b q₀ hq₀
    obtain ⟨q, hq, hle⟩ := h.mono b q₀ hq₀
    by_cases hi : T.owner (l, b) = i
    · subst hi
      obtain ⟨q', hq', hle'⟩ := hact.handled.held_mono hk hq
      exact ⟨q', hq', UInt32.le_trans hle hle'⟩
    · exact ⟨q, by rw [hact.others _ hi]; exact hq, hle⟩
  · intro b q hq
    have before : heldSeq (s.node (T.owner (l, b))) (T.name o) = some q →
        heldSeq (s₀.node (T.owner (l, b))) (T.name o) = some q ∨ Covered T s' (l, b) o q :=
      fun hq => (h.covered b q hq).imp_right fun hc => hc.act hk hact
    by_cases hi : T.owner (l, b) = i
    · subst hi
      rcases h.logged.relay (p := (l, b)) hact h.up (ho b).symm hq with hheld | hc
      · exact before hheld
      · exact Or.inr hc
    · rw [hact.others _ hi] at hq
      exact before hq

theorem Genuine.act (hg : Genuine T l o s₀ log s) (h : Since T l o s₀ log s)
    (ho : ∀ b, T.owner (l, b) ≠ o) (hact : Act T s i e out ann s')
    (keeps : ∀ now, e = .auditHellos now → (∃ b, T.owner (l, b) = i) →
      ¬ Expires (T.config i) now (s.node i) (T.name o)) :
    Genuine T l o s₀ (record log i ann) s' := by
  intro b entry hentry
  have before : (s.node (T.owner (l, b))).lsTable[T.name o]? = some entry →
      (s₀.node (T.owner (l, b))).lsTable[T.name o]? = some entry ∨
      ((entry.sequenceNumber, entry.neighborCosts) ∈ record log i ann o ∧
        ∀ q₀, heldSeq (s₀.node (T.owner (l, b))) (T.name o) = some q₀ → q₀ < entry.sequenceNumber) :=
    fun he => (hg b entry he).imp_right fun hm => ⟨mem_record.mpr (Or.inl hm.1), hm.2⟩
  by_cases hi : T.owner (l, b) = i
  · subst hi
    have hne : T.name o ≠ (T.config (T.owner (l, b))).thisNode := by
      rw [thisNode_eq]
      exact fun hn => ho b (name_inj.mp hn).symm
    rcases hact.handled.entry (h.logged.keyed _) hne with
      hsame | ⟨now, socket, m, nc, he, hl, hname, hnew, hget, _⟩ | ⟨now, he, hx, _⟩
    · rw [hsame] at hentry
      exact before hentry
    · obtain ⟨p, _, _, hm⟩ := hact.arrives now socket m he
      obtain ⟨o', ho', hmem⟩ := h.logged.announced p m hm nc hl
      rw [ho', reverseLookup_main, name_inj] at hname
      subst hname
      rw [hget] at hentry
      obtain rfl := Option.some.inj hentry
      refine Or.inr ⟨mem_record.mpr (Or.inl hmem), fun q₀ hq₀ => ?_⟩
      obtain ⟨q, hq, hle⟩ := h.mono b q₀ hq₀
      exact UInt32.lt_of_le_of_lt hle (isNew_iff.mp hnew q hq)
    · exact absurd hx (keeps now he ⟨b, rfl⟩)
  · rw [hact.others _ hi] at hentry
    exact before hentry

end Act

theorem Since.step (h : Since T l o s₀ log s) (ho : ∀ b, T.owner (l, b) ≠ o)
    (hst : netStep dijkstra T s lab = some s') (hwrap : NoWrap dijkstra T s lab)
    (hlab : lab ≠ .linkDown l) :
    ∃ log', Since T l o s₀ log' s' ∧
      (Genuine T l o s₀ log s → KeepsEntry T l o s lab → Genuine T l o s₀ log' s') := by
  cases netStep_cases h.logged.keyed hst with
  | act hact audit =>
    refine ⟨_, h.act ho hact (hwrap s' hst _), fun hg hkeeps => hg.act h ho hact ?_⟩
    intro now he
    rw [audit now he] at hkeeps
    exact hkeeps
  | still hstill hup =>
    refine ⟨log, h.still hstill (hup l hlab h.up), fun hg _ b entry hentry => ?_⟩
    rw [hstill.node] at hentry
    exact hg b entry hentry

/-- With nothing in flight on the link, what one end has newly stored the other
has too. -/
theorem Since.told (h : Since T l o s₀ log s) (quiet : ∀ b, s.chan (l, b) = []) (b : Bool)
    {q : UInt32} (hq : heldSeq (s.node (T.owner (l, b))) (T.name o) = some q) :
    heldSeq (s₀.node (T.owner (l, b))) (T.name o) = some q ∨
      ∃ q', heldSeq (s.node (T.owner (l, !b))) (T.name o) = some q' ∧ q ≤ q' := by
  refine (h.covered b q hq).imp_right ?_
  rintro (⟨m, hm, _⟩ | hheld)
  · rw [quiet] at hm; cases hm
  · exact hheld

theorem Since.held_eq (h : Since T l o s₀ log s) (quiet : ∀ b, s.chan (l, b) = [])
    (agreed : (s₀.node (T.owner (l, false))).lsTable[T.name o]? =
      (s₀.node (T.owner (l, true))).lsTable[T.name o]?) :
    heldSeq (s.node (T.owner (l, false))) (T.name o) =
      heldSeq (s.node (T.owner (l, true))) (T.name o) := by
  have agreed' : ∀ b, heldSeq (s₀.node (T.owner (l, b))) (T.name o) =
      heldSeq (s₀.node (T.owner (l, !b))) (T.name o) := by
    intro b
    cases b
    · exact heldSeq_congr agreed
    · exact (heldSeq_congr agreed).symm
  -- what one end holds the other has reached
  have hle : ∀ b q, heldSeq (s.node (T.owner (l, b))) (T.name o) = some q →
      ∃ q', heldSeq (s.node (T.owner (l, !b))) (T.name o) = some q' ∧ q ≤ q' := by
    intro b q hq
    rcases h.told quiet b hq with hq₀ | hq'
    · exact h.mono (!b) q ((agreed' b).symm.trans hq₀)
    · exact hq'
  cases hA : heldSeq (s.node (T.owner (l, false))) (T.name o) with
  | none =>
    cases hB : heldSeq (s.node (T.owner (l, true))) (T.name o) with
    | none => rfl
    | some q =>
      obtain ⟨q', hq', _⟩ := hle true q hB
      rw [Bool.not_true, hA] at hq'; cases hq'
  | some q =>
    obtain ⟨q', hB, hqq'⟩ := hle false q hA
    obtain ⟨q'', hA', hq'q⟩ := hle true q' hB
    rw [Bool.not_true, hA] at hA'
    obtain rfl := Option.some.inj hA'
    rw [Bool.not_false] at hB
    rw [hB, UInt32.le_antisymm hqq' hq'q]

theorem Since.entry_eq (h : Since T l o s₀ log s) (hg : Genuine T l o s₀ log s)
    (quiet : ∀ b, s.chan (l, b) = [])
    (agreed : (s₀.node (T.owner (l, false))).lsTable[T.name o]? =
      (s₀.node (T.owner (l, true))).lsTable[T.name o]?) :
    (s.node (T.owner (l, false))).lsTable[T.name o]? =
      (s.node (T.owner (l, true))).lsTable[T.name o]? := by
  have hheld := h.held_eq quiet agreed
  cases hA : (s.node (T.owner (l, false))).lsTable[T.name o]? with
  | none =>
    rw [heldSeq, hA] at hheld
    exact (Option.map_eq_none_iff.mp hheld.symm).symm
  | some entryA =>
    rw [heldSeq, hA, Option.map_some] at hheld
    obtain ⟨entryB, hB, hseq⟩ := heldSeq_eq_some.mp hheld.symm
    -- an entry of `s₀` has the number of `s₀`, later ones have greater numbers
    have hmixed : ∀ {u v : Fin T.size} {entry entry' : LSTableEntry},
        (s₀.node u).lsTable[T.name o]? = (s₀.node v).lsTable[T.name o]? →
        (s₀.node u).lsTable[T.name o]? = some entry →
        (∀ q₀, heldSeq (s₀.node v) (T.name o) = some q₀ → q₀ < entry'.sequenceNumber) →
        entry'.sequenceNumber ≠ entry.sequenceNumber := by
      intro u v entry entry' huv hu hlt hne
      refine absurd (hlt entry.sequenceNumber ?_) (by rw [hne]; exact UInt32.lt_irrefl _)
      exact heldSeq_eq_some.mpr ⟨entry, huv.symm.trans hu, rfl⟩
    rw [hB]
    rcases hg false entryA hA with hA₀ | ⟨hA₀, hltA⟩
    · rcases hg true entryB hB with hB₀ | ⟨_, hltB⟩
      · rw [← hA₀, agreed, hB₀]
      · exact absurd hseq (hmixed agreed hA₀ hltB)
    · rcases hg true entryB hB with hB₀ | ⟨hB₀, _⟩
      · exact absurd hseq.symm (hmixed agreed.symm hB₀ hltA)
      · rw [← hseq] at hA₀
        have hcosts := h.logged.unique hA₀ hB₀
        obtain ⟨costsA, seqA⟩ := entryA
        obtain ⟨costsB, seqB⟩ := entryB
        dsimp only at hcosts hseq
        rw [hcosts, hseq]

end Since

/-- **What the ends of a link share.** Once a link has come up and as long as it
does not go down again: with nothing in flight on it, whatever number one end
has newly stored for a third node is reached at the other end. If their
entries for it agreed when the link came up, they have the same number, and
the same list unless one end has timed out that node meanwhile. -/
theorem adjacency_agrees (dijkstra : NodeConfig → Node → Option RoutingTable) (T : Topology)
    (sequenceNumber : Fin T.size → UInt32) (l : Fin T.links) (pre post : List (Label T))
    (s₀ s : LsNet T)
    (h₀ : run (netStep dijkstra T) (netStart T sequenceNumber) (pre ++ [.linkUp l]) = some s₀)
    (h : run (netStep dijkstra T) s₀ post = some s)
    (nowrap : Allows (netStep dijkstra T) (NoWrap dijkstra T) (netStart T sequenceNumber)
      (pre ++ [.linkUp l] ++ post))
    (stays : .linkDown l ∉ post) (quiet : ∀ b, s.chan (l, b) = []) (o : Fin T.size)
    (ho : ∀ b, T.owner (l, b) ≠ o) :
    (∀ b q, heldSeq (s.node (T.owner (l, b))) (T.name o) = some q →
      heldSeq (s₀.node (T.owner (l, b))) (T.name o) = some q ∨
        ∃ q', heldSeq (s.node (T.owner (l, !b))) (T.name o) = some q' ∧ q ≤ q') ∧
    ((s₀.node (T.owner (l, false))).lsTable[T.name o]? =
        (s₀.node (T.owner (l, true))).lsTable[T.name o]? →
      heldSeq (s.node (T.owner (l, false))) (T.name o) =
        heldSeq (s.node (T.owner (l, true))) (T.name o) ∧
      (Allows (netStep dijkstra T) (KeepsEntry T l o) s₀ post →
        (s.node (T.owner (l, false))).lsTable[T.name o]? =
          (s.node (T.owner (l, true))).lsTable[T.name o]?)) := by
  obtain ⟨log₀, hlogged⟩ := along_of_meets (P := fun s => ∃ log, Logged T log s)
    ⟨_, Logged.start T sequenceNumber⟩
    (by
      intro _ _ _ hlog hst hC
      obtain ⟨_, h⟩ := hlog
      exact h.step hst hC)
    nowrap.front.meets _ s₀ (List.prefix_refl _) h₀
  have hup : s₀.up l = true := by
    obtain ⟨s₁, _, hlink⟩ := run_snoc.mp h₀
    obtain rfl := Option.some.inj hlink
    simp [LsNet.setUp]
  have hstart : Since T l o s₀ log₀ s₀ := .start hlogged hup
  have hpost : Allows (netStep dijkstra T)
      (fun s lab => NoWrap dijkstra T s lab ∧ lab ≠ .linkDown l) s₀ post := by
    intro pre' lab t hp ht
    refine ⟨nowrap.rest h₀ pre' lab t hp ht, ?_⟩
    intro he
    obtain rfl := he
    exact stays (mem_of_prefix_snoc hp)
  obtain ⟨log, hsince⟩ := along_of_meets (P := fun s => ∃ log, Since T l o s₀ log s) ⟨_, hstart⟩
    (by
      intro t lab t' hlog hst hC
      obtain ⟨_, ht⟩ := hlog
      obtain ⟨log', ht', _⟩ := ht.step ho hst hC.1 hC.2
      exact ⟨log', ht'⟩)
    hpost.meets post s (List.prefix_refl _) h
  refine ⟨fun b q hq => hsince.told quiet b hq, fun agreed => ⟨hsince.held_eq quiet agreed, ?_⟩⟩
  intro keeps
  obtain ⟨log, hsince, hg⟩ := along_of_meets
    (P := fun s => ∃ log, Since T l o s₀ log s ∧ Genuine T l o s₀ log s)
    ⟨_, hstart, fun _ _ => Or.inl⟩
    (C := fun s lab => (NoWrap dijkstra T s lab ∧ lab ≠ .linkDown l) ∧ KeepsEntry T l o s lab)
    (by
      intro t lab t' h₁ hst h₂
      obtain ⟨log, ht, hg⟩ := h₁
      obtain ⟨⟨hwrap, hlab⟩, hkeeps⟩ := h₂
      obtain ⟨log', ht', hg'⟩ := ht.step ho hst hwrap hlab
      exact ⟨log', ht', hg' hg hkeeps⟩)
    (Allows.meets fun pre' lab t hp ht => ⟨hpost pre' lab t hp ht, keeps pre' lab t hp ht⟩)
    post s (List.prefix_refl _) h
  exact hsince.entry_eq hg quiet agreed

/-- The first link of the line is up before any message arrives on it. -/
theorem adjacency_agrees_line :
    ∃ s₀ s, run (netStep dijkstraOrEmpty lineTopology) (netStart lineTopology fun _ => 7)
        ([.linkDown (lineLink 0)] ++ [.linkUp (lineLink 0)]) = some s₀ ∧
      run (netStep dijkstraOrEmpty lineTopology) s₀ (deliverLine 1) = some s ∧
      (s.node (lineNode 0)).lsTable["2"]?.isSome ∧
      (s.node (lineNode 0)).lsTable["2"]? = (s.node (lineNode 1)).lsTable["2"]? := by
  have hwrap : Allows (netStep dijkstraOrEmpty lineTopology)
      (NoWrap dijkstraOrEmpty lineTopology) (netStart lineTopology fun _ => 7)
      ([.linkDown (lineLink 0)] ++ [.linkUp (lineLink 0)] ++ deliverLine 1) :=
    allows_of_checkRun (c := noWrapCheck dijkstraOrEmpty lineTopology)
      (fun _ _ => noWrap_of_check) (by decide +kernel)
  have hfirst : (run (netStep dijkstraOrEmpty lineTopology) (netStart lineTopology fun _ => 7)
      ([.linkDown (lineLink 0)] ++ [.linkUp (lineLink 0)])).map
      (fun s => decide ((s.node (lineNode 0)).lsTable["2"]? = (s.node (lineNode 1)).lsTable["2"]?)) =
        some true := by decide +kernel
  have hend : (run (netStep dijkstraOrEmpty lineTopology) (netStart lineTopology fun _ => 7)
      ([.linkDown (lineLink 0)] ++ [.linkUp (lineLink 0)] ++ deliverLine 1)).map
      (fun s => decide (∀ p, s.chan p = []) && (s.node (lineNode 0)).lsTable["2"]?.isSome) =
        some true := by decide +kernel
  obtain ⟨s, hs, hend⟩ := Option.map_eq_some_iff.mp hend
  obtain ⟨s₀, hs₀, hrest⟩ := run_append.mp hs
  rw [hs₀, Option.map_some] at hfirst
  obtain ⟨hquiet, hsome⟩ := Bool.and_eq_true_iff.mp hend
  have hkeeps : Allows (netStep dijkstraOrEmpty lineTopology)
      (KeepsEntry lineTopology (lineLink 0) (lineNode 2)) s₀ (deliverLine 1) := by
    intro pre lab t hp _
    obtain ⟨p, k, rfl⟩ := of_mem_deliverLine (mem_of_prefix_snoc hp)
    trivial
  have hagree := (adjacency_agrees dijkstraOrEmpty lineTopology (fun _ => 7) (lineLink 0)
    [.linkDown (lineLink 0)] (deliverLine 1) s₀ s hs₀ hrest hwrap (by decide +kernel)
    (fun b => of_decide_eq_true hquiet (lineLink 0, b)) (lineNode 2) (by decide)).2
    (of_decide_eq_true (Option.some.inj hfirst))
  exact ⟨s₀, s, hs₀, hrest, hsome, hagree.2 hkeeps⟩

/-- The hello timers of all nodes fire. -/
def auditLine (now : ℕ) : List (Label lineTopology) :=
  [.auditHellos (lineNode 0) now, .auditHellos (lineNode 1) now, .auditHellos (lineNode 2) now]

/-- Both links of the line go down for longer than the hello timeout, the
second comes up again, and nodes 1 and 2 find each other. -/
def apartLine : List (Label lineTopology) :=
  deliverLine 1 ++ [.linkDown (lineLink 0), .linkDown (lineLink 1)] ++ auditLine 2000 ++
    auditLine 4000 ++ [.linkUp (lineLink 1)] ++ auditLine 6000 ++ deliverLine 6001

/-- Then the first link comes up, nodes 0 and 1 find each other, and all
messages arrive. But node 0 has not heard what node 2 announced while they
were apart. -/
theorem healed_not_synchronised :
    ∃ s₀ s, run (netStep dijkstraOrEmpty lineTopology) (netStart lineTopology fun _ => 7)
        (apartLine ++ [.linkUp (lineLink 0)]) = some s₀ ∧
      run (netStep dijkstraOrEmpty lineTopology) s₀ (auditLine 8000 ++ deliverLine 8001) = some s ∧
      Allows (netStep dijkstraOrEmpty lineTopology) (NoWrap dijkstraOrEmpty lineTopology)
        (netStart lineTopology fun _ => 7)
        (apartLine ++ [.linkUp (lineLink 0)] ++ (auditLine 8000 ++ deliverLine 8001)) ∧
      ((s₀.node (lineNode 0)).neighborTable["1"]? = none ∧
        (s₀.node (lineNode 1)).neighborTable["0"]? = none) ∧
      ((s.node (lineNode 0)).neighborTable["1"]?.isSome ∧
        (s.node (lineNode 1)).neighborTable["0"]?.isSome) ∧
      (∀ p, s.chan p = []) ∧
      ¬ ∀ o, o ≠ lineNode 0 → o ≠ lineNode 1 →
        (s.node (lineNode 0)).lsTable[lineTopology.name o]? =
          (s.node (lineNode 1)).lsTable[lineTopology.name o]? := by
  have hwrap : Allows (netStep dijkstraOrEmpty lineTopology)
      (NoWrap dijkstraOrEmpty lineTopology) (netStart lineTopology fun _ => 7)
      (apartLine ++ [.linkUp (lineLink 0)] ++ (auditLine 8000 ++ deliverLine 8001)) :=
    allows_of_checkRun (c := noWrapCheck dijkstraOrEmpty lineTopology)
      (fun _ _ => noWrap_of_check) (by decide +kernel)
  have hfirst : (run (netStep dijkstraOrEmpty lineTopology) (netStart lineTopology fun _ => 7)
      (apartLine ++ [.linkUp (lineLink 0)])).map
      (fun s => (s.node (lineNode 0)).neighborTable["1"]?.isNone &&
        (s.node (lineNode 1)).neighborTable["0"]?.isNone) = some true := by decide +kernel
  have hend : (run (netStep dijkstraOrEmpty lineTopology) (netStart lineTopology fun _ => 7)
      (apartLine ++ [.linkUp (lineLink 0)] ++ (auditLine 8000 ++ deliverLine 8001))).map
      (fun s => (s.node (lineNode 0)).neighborTable["1"]?.isSome &&
        (s.node (lineNode 1)).neighborTable["0"]?.isSome && decide (∀ p, s.chan p = []) &&
        decide ((s.node (lineNode 0)).lsTable["2"]? ≠ (s.node (lineNode 1)).lsTable["2"]?)) =
        some true := by decide +kernel
  obtain ⟨s, hs, hend⟩ := Option.map_eq_some_iff.mp hend
  obtain ⟨s₀, hs₀, hrest⟩ := run_append.mp hs
  rw [hs₀, Option.map_some] at hfirst
  simp only [Bool.and_eq_true, Option.isNone_iff_eq_none, decide_eq_true_eq,
    Option.some.injEq] at hfirst hend
  obtain ⟨⟨hfound, hquiet⟩, hdiff⟩ := hend
  exact ⟨s₀, s, hs₀, hrest, hwrap, hfirst, hfound, hquiet,
    fun hsame => hdiff (hsame (lineNode 2) (by decide) (by decide))⟩

end Ns3Routing.Ls
