import Ns3Routing.Lib.Log
import Ns3Routing.Host

/-! # Pings end to end

What happens to pings, as a log of events of all nodes. An event has its
reason in earlier ones: who accepts a response had it on its way, and what is
on its way as a response answers a request that was sent. `Books` is a log
with the trackers and counters of all nodes beside it; there is one rule for
each event. From a log with its reasons, `matched_of_accept` and
`accepted_once` read off that pings are matched end to end.

The nodes of a network of a routing protocol keep such books
(`hosts_endToEnd`). -/

namespace Ns3Routing

open Lib

/-- A request or response between two endpoints. -/
structure Ping (ε : Type) where
  sequenceNumber : UInt32
  source : ε
  destination : ε
  pingMessage : List UInt8
  deriving DecidableEq

/-- What nodes `ν` do with pings. -/
inductive PingEvent (ν ε : Type) where
  /-- Numbers are drawn for other messages. -/
  | draw (i : ν) (count : ℕ)
  | issue (i : ν) (pingRequest : PingRequest) (req : Ping ε)
  | answer (k : ν) (req rsp : Ping ε)
  | accept (i : ν) (rsp : Ping ε)
  | audit (i : ν) (now : ℕ)
  deriving DecidableEq

namespace PingEvent

variable {ν ε : Type} [DecidableEq ν]

/-- How many numbers node `i` draws. -/
def draws (i : ν) : PingEvent ν ε → ℕ
  | .draw j count => if j = i then count else 0
  | .issue j _ _ => if j = i then 1 else 0
  | .answer _ _ _ | .accept _ _ | .audit _ _ => 0

/-- Node `i` sends a ping with number `q`. -/
def issues (i : ν) (q : UInt32) : PingEvent ν ε → Bool
  | .issue j pingRequest _ => j = i ∧ pingRequest.sequenceNumber = q
  | .draw _ _ | .answer _ _ _ | .accept _ _ | .audit _ _ => false

/-- Node `i` accepts a response with number `q`. -/
def accepts (i : ν) (q : UInt32) : PingEvent ν ε → Bool
  | .accept j rsp => j = i ∧ rsp.sequenceNumber = q
  | .draw _ _ | .issue _ _ _ | .answer _ _ _ | .audit _ _ => false

/-- Node `i` no longer waits for the response to `r`. -/
def Closes (pingTimeout : ℕ) (i : ν) (r : PingRequest) : PingEvent ν ε → Prop
  | .accept j rsp => j = i ∧ rsp.sequenceNumber = r.sequenceNumber
  | .audit j now => j = i ∧ r.timestamp + pingTimeout ≤ now
  | .draw _ _ | .issue _ _ _ | .answer _ _ _ => False

theorem issues_iff {i : ν} {q : UInt32} {e : PingEvent ν ε} :
    e.issues i q = true ↔ ∃ r req, e = .issue i r req ∧ r.sequenceNumber = q := by
  cases e <;> simp [issues]

theorem accepts_iff {i : ν} {q : UInt32} {e : PingEvent ν ε} :
    e.accepts i q = true ↔ ∃ rsp, e = .accept i rsp ∧ rsp.sequenceNumber = q := by
  cases e <;> simp [accepts]

end PingEvent

/-- Nodes with addresses: who is at an endpoint, and the endpoints that pings
of a node to an address go to. `start` are the counters at the beginning. -/
structure PingSystem (ν ε : Type) where
  owns : ν → ε → Prop
  owns_unique : ∀ {i j e}, owns i e → owns j e → i = j
  reaches : ν → Ipv4Address → ε → Prop
  start : ν → UInt32
  pingTimeout : ν → ℕ

namespace PingSystem

variable {ν ε : Type} (S : PingSystem ν ε)

/-- Node `i` has sent the ping `r`, and neither has it accepted the response
since, nor was there an audit late enough. -/
def Pending (i : ν) (r : PingRequest) : List (PingEvent ν ε) → Prop :=
  Since (fun e => ¬ e.Closes (S.pingTimeout i) i r) fun e => ∃ req, e = .issue i r req

/-! ## Trackers -/

section Trackers
variable {S} {log : List (PingEvent ν ε)} {i : ν} {P : Pinger} {e : PingEvent ν ε}

/-- `m_pingTracker` of node `i` holds the pings that are pending. -/
structure Tracks (S : PingSystem ν ε) (i : ν) (P : Pinger) (log : List (PingEvent ν ε)) : Prop where
  pingTimeout : P.pingTimeout = S.pingTimeout i
  tracker : ∀ q r, P.pingTracker[q]? = some r ↔ r.sequenceNumber = q ∧ S.Pending i r log

theorem issued_of_pending {r : PingRequest} (h : S.Pending i r log) :
    ∃ req, .issue i r req ∈ log := by
  obtain ⟨pre, e, post, rfl, ⟨req, rfl⟩, _⟩ := h
  exact ⟨req, List.mem_append_right _ List.mem_cons_self⟩

theorem pending_snoc {r : PingRequest} : S.Pending i r (log ++ [e]) ↔
    S.Pending i r log ∧ ¬ e.Closes (S.pingTimeout i) i r ∨ ∃ req, e = .issue i r req := since_snoc

/-- Events that are not about the pings node `i` has sent. -/
theorem Tracks.other (h : Tracks S i P log) (hopen : ∀ r, ¬ e.Closes (S.pingTimeout i) i r)
    (hissue : ∀ r req, e ≠ .issue i r req) : Tracks S i P (log ++ [e]) := by
  refine ⟨h.pingTimeout, fun q r => ?_⟩
  rw [h.tracker, pending_snoc]
  simp [hopen r, hissue r]

theorem Tracks.issue (h : Tracks S i P log) {r : PingRequest} {req : Ping ε}
    (hfresh : ∀ r' req', .issue i r' req' ∈ log → r'.sequenceNumber ≠ r.sequenceNumber) :
    Tracks S i (P.track r) (log ++ [.issue i r req]) := by
  have unused : P.pingTracker[r.sequenceNumber]? = none := by
    by_contra hne
    obtain ⟨r', hr'⟩ := Option.ne_none_iff_exists'.mp hne
    obtain ⟨hnum, hpending⟩ := (h.tracker _ r').mp hr'
    obtain ⟨req', hissue⟩ := issued_of_pending hpending
    exact hfresh r' req' hissue hnum
  refine ⟨h.pingTimeout, fun q r' => ?_⟩
  simp only [Pinger.track, getElem?_insertIfNew_eq, unused, and_true, pending_snoc,
    PingEvent.Closes, not_false_eq_true, PingEvent.issue.injEq, true_and, exists_and_left,
    exists_eq', and_true]
  by_cases hq : r.sequenceNumber = q
  · subst hq
    rw [if_pos rfl]
    constructor
    · intro he
      obtain rfl := Option.some.inj he
      exact ⟨rfl, Or.inr rfl⟩
    · intro ⟨hnum, hpending⟩
      rcases hpending with hpending | rfl
      · obtain ⟨req', hissue⟩ := issued_of_pending hpending
        exact absurd hnum (hfresh r' req' hissue)
      · rfl
  · rw [if_neg hq, h.tracker]
    refine and_congr_right fun hnum => (or_iff_left ?_).symm
    intro he
    obtain rfl := he
    exact hq hnum

theorem Tracks.accept (h : Tracks S i P log) {rsp : Ping ε}
    (hacc : P.accepts rsp.sequenceNumber = true) :
    Tracks S i (P.settle rsp.sequenceNumber) (log ++ [.accept i rsp]) := by
  unfold Pinger.settle
  rw [if_pos hacc]
  refine ⟨h.pingTimeout, fun q r => ?_⟩
  simp only [getElem?_erase_eq, pending_snoc, PingEvent.Closes, true_and, reduceCtorEq,
    exists_false, or_false]
  by_cases hq : rsp.sequenceNumber = q
  · subst hq
    rw [if_pos rfl]
    refine iff_of_false (by simp) ?_
    intro ⟨hnum, _, hne⟩
    exact hne hnum.symm
  · rw [if_neg hq, h.tracker]
    refine and_congr_right fun hnum => (and_iff_left ?_).symm
    rw [hnum]
    exact hq

theorem Tracks.audit (h : Tracks S i P log) (now : ℕ) :
    Tracks S i (P.auditPings now) (log ++ [.audit i now]) := by
  refine ⟨h.pingTimeout, fun q r => ?_⟩
  simp only [Pinger.auditPings, Std.ExtTreeMap.getElem?_filter', Option.filter_eq_some_iff,
    h.tracker, pending_snoc, PingEvent.Closes, true_and, Pinger.expired, h.pingTimeout,
    reduceCtorEq, exists_false, or_false, Bool.not_eq_true', decide_eq_false_iff_not, and_assoc]

end Trackers

variable [DecidableEq ν]

/-- The numbers node `i` has drawn. -/
def drawsOf (i : ν) (log : List (PingEvent ν ε)) : ℕ := (log.map (PingEvent.draws i)).sum

/-- `rsp` answers `req`. -/
def Answers (req rsp : Ping ε) : Prop :=
  rsp.sequenceNumber = req.sequenceNumber ∧ rsp.destination = req.source ∧
    rsp.pingMessage = req.pingMessage

/-- The reason for an event. -/
def Reason (before : List (PingEvent ν ε)) : PingEvent ν ε → Prop
  | .issue i r req =>
    r.sequenceNumber = S.start i + UInt32.ofNat (drawsOf i before) ∧ S.owns i req.source ∧
      S.reaches i r.destinationAddress req.destination ∧
      req.sequenceNumber = r.sequenceNumber ∧ req.pingMessage = r.pingMessage
  | .answer k req rsp =>
    (∃ i r, .issue i r req ∈ before) ∧ S.owns k req.destination ∧ Answers req rsp
  | .accept i rsp =>
    (∃ k req, .answer k req rsp ∈ before) ∧ S.owns i rsp.destination ∧
      ∃ r, r.sequenceNumber = rsp.sequenceNumber ∧ S.Pending i r before
  | .draw _ _ | .audit _ _ => True

/-! ## Numbers -/

section Numbers
variable {S} {log : List (PingEvent ν ε)} {i : ν}

@[simp] theorem drawsOf_append (log' : List (PingEvent ν ε)) :
    drawsOf i (log ++ log') = drawsOf i log + drawsOf i log' := by
  simp [drawsOf]

@[simp] theorem drawsOf_singleton (e : PingEvent ν ε) : drawsOf i [e] = e.draws i := by
  simp [drawsOf]

/-- The number of a ping is one that was drawn. -/
theorem number_of_issued (h : Justified S.Reason log) {r : PingRequest} {req : Ping ε}
    (hr : .issue i r req ∈ log) :
    ∃ k < drawsOf i log, r.sequenceNumber = S.start i + UInt32.ofNat k := by
  obtain ⟨pre, post, rfl⟩ := List.append_of_mem hr
  refine ⟨drawsOf i pre, ?_, (h pre _ post rfl).1⟩
  rw [← List.singleton_append, drawsOf_append, drawsOf_append, drawsOf_singleton]
  simp only [PingEvent.draws, if_true]
  omega

theorem ofNat_inj {a b : ℕ} (ha : a < 2 ^ 32) (hb : b < 2 ^ 32)
    (h : UInt32.ofNat a = UInt32.ofNat b) : a = b := by
  have hnat := congrArg UInt32.toNat h
  rwa [UInt32.toNat_ofNat', UInt32.toNat_ofNat', Nat.mod_eq_of_lt ha, Nat.mod_eq_of_lt hb] at hnat

/-- The next number is new while fewer than 2^32 were drawn. -/
theorem number_fresh (h : Justified S.Reason log) (hdraws : drawsOf i log < 2 ^ 32)
    {r : PingRequest} {req : Ping ε} (hr : .issue i r req ∈ log) :
    r.sequenceNumber ≠ S.start i + UInt32.ofNat (drawsOf i log) := by
  obtain ⟨k, hk, hnum⟩ := number_of_issued h hr
  intro he
  rw [hnum] at he
  have := ofNat_inj (by omega) hdraws (UInt32.add_right_inj (S.start i) |>.mp he)
  omega

/-- **A number is used for one ping.** -/
theorem issued_once (h : Justified S.Reason log) (hdraws : drawsOf i log ≤ 2 ^ 32) (q : UInt32) :
    log.countP (PingEvent.issues i q) ≤ 1 := by
  refine countP_le_one fun pre e post hlog he e' hmem he' => ?_
  obtain ⟨r, req, rfl, rfl⟩ := PingEvent.issues_iff.mp he
  obtain ⟨r', req', rfl, hq⟩ := PingEvent.issues_iff.mp he'
  subst hlog
  have hlt : drawsOf i pre < 2 ^ 32 := by
    rw [drawsOf_append, ← List.singleton_append, drawsOf_append, drawsOf_singleton] at hdraws
    simp only [PingEvent.draws, if_true] at hdraws
    omega
  exact number_fresh h.front hlt hmem (hq.trans (h pre _ post rfl).1)

end Numbers

/-! ## Matching -/

section Matching
variable {S} {log pre post : List (PingEvent ν ε)} {i : ν} {rsp : Ping ε}

theorem filter_eq_singleton {α : Type} {p : α → Bool} {l : List α} {a : α} (hcount : l.countP p ≤ 1)
    (ha : a ∈ l) (hp : p a = true) : l.filter p = [a] := by
  rw [List.countP_eq_length_filter] at hcount
  have hmem : a ∈ l.filter p := List.mem_filter.mpr ⟨ha, hp⟩
  match hl : l.filter p with
  | [] => rw [hl] at hmem; cases hmem
  | [b] =>
    rw [hl, List.mem_singleton] at hmem
    rw [hmem]
  | _ :: _ :: _ =>
    rw [hl] at hcount
    simp at hcount

/-- The response `rsp` is a match for node `i` after the events `before`: it
has sent exactly one ping with that number, and the node at the endpoint this
went to has sent `rsp` in answer to it, with the same text. -/
def Matched (S : PingSystem ν ε) (before : List (PingEvent ν ε)) (i : ν) (rsp : Ping ε) : Prop :=
  ∃ r req k, before.filter (PingEvent.issues i rsp.sequenceNumber) = [.issue i r req] ∧
    S.reaches i r.destinationAddress req.destination ∧ .answer k req rsp ∈ before ∧
    S.owns k req.destination ∧ rsp.pingMessage = r.pingMessage

/-- **Accepted responses match.** -/
theorem matched_of_accept (h : Justified S.Reason log) (hdraws : drawsOf i log ≤ 2 ^ 32)
    (hlog : log = pre ++ .accept i rsp :: post) : S.Matched pre i rsp := by
  subst hlog
  obtain ⟨⟨k, req, hanswer⟩, howns, _⟩ := h pre _ post rfl
  obtain ⟨before, hsub, ⟨i', r, hissue⟩, hk, hnum, hdest, htext⟩ := h.front.of_mem hanswer
  obtain ⟨_, _, _, hsource, hreach, hnum', htext'⟩ := h.front.of_mem (hsub _ hissue)
  -- the request is from node `i`, since the response goes there
  obtain rfl : i' = i := S.owns_unique hsource (hdest ▸ howns)
  refine ⟨r, req, k, ?_, hreach, hanswer, hk, htext.trans htext'⟩
  rw [drawsOf_append] at hdraws
  exact filter_eq_singleton (issued_once h.front (by omega) _) (hsub _ hissue)
    (PingEvent.issues_iff.mpr ⟨r, req, rfl, (hnum.trans hnum').symm⟩)

/-- **A ping is accepted once.** -/
theorem accepted_once (h : Justified S.Reason log) (hdraws : drawsOf i log ≤ 2 ^ 32) (q : UInt32) :
    log.countP (PingEvent.accepts i q) ≤ 1 := by
  refine countP_le_one fun pre e post hlog he e' hmem he' => ?_
  obtain ⟨rsp, rfl, rfl⟩ := PingEvent.accepts_iff.mp he
  obtain ⟨rsp', rfl, hq⟩ := PingEvent.accepts_iff.mp he'
  subst hlog
  -- the ping that is accepted now was sent after the first one was accepted
  obtain ⟨_, _, r, hr, before, _, after, hpre, ⟨req, rfl⟩, hopen⟩ := h pre _ post rfl
  have honce := issued_once h hdraws rsp.sequenceNumber
  have hfront := h.front
  subst hpre
  rcases List.mem_append.mp hmem with hmem | hmem
  · obtain ⟨before', hsub, _, _, r', hr', hpending⟩ := hfront.front.of_mem hmem
    obtain ⟨req', hissue⟩ := issued_of_pending hpending
    have hpos : 0 < before.countP (PingEvent.issues i rsp.sequenceNumber) := by
      rw [List.countP_pos_iff]
      exact ⟨_, hsub _ hissue, PingEvent.issues_iff.mpr ⟨r', req', rfl, hr'.trans hq⟩⟩
    have hnow : PingEvent.issues i rsp.sequenceNumber (.issue i r req) = true :=
      PingEvent.issues_iff.mpr ⟨r, req, rfl, hr⟩
    rw [List.countP_append, List.countP_append, List.countP_cons_of_pos hnow] at honce
    omega
  · rcases List.mem_cons.mp hmem with hmem | hmem
    · cases hmem
    · exact hopen _ hmem ⟨rfl, hq.trans hr.symm⟩

end Matching

/-! ## Books -/

/-- A log with the trackers and the counters of all nodes. -/
structure Books (S : PingSystem ν ε) (pings : ν → Pinger) (counter : ν → UInt32)
    (log : List (PingEvent ν ε)) : Prop where
  justified : Justified S.Reason log
  tracks : ∀ i, Tracks S i (pings i) log
  counter : ∀ i, counter i = S.start i + UInt32.ofNat (drawsOf i log)

section Books
variable {S} {log : List (PingEvent ν ε)} {pings pings' : ν → Pinger} {counter counter' : ν → UInt32}
  {i : ν}

/-- An event of node `i`: what is left to say is about node `i`. -/
theorem Books.snoc (h : Books S pings counter log) {e : PingEvent ν ε} (hreason : S.Reason log e)
    (hi : Tracks S i (pings' i) (log ++ [e]))
    (hc : counter' i = S.start i + UInt32.ofNat (drawsOf i log + e.draws i))
    (hpings : ∀ j, j ≠ i → pings' j = pings j) (hcounter : ∀ j, j ≠ i → counter' j = counter j)
    (hother : ∀ j, j ≠ i → e.draws j = 0 ∧ (∀ t r, ¬ e.Closes t j r) ∧
      ∀ r req, e ≠ .issue j r req) : Books S pings' counter' (log ++ [e]) := by
  refine ⟨h.justified.snoc hreason, fun j => ?_, fun j => ?_⟩
  · by_cases hj : j = i
    · rw [hj]; exact hi
    · rw [hpings j hj]
      exact (h.tracks j).other (fun r => (hother j hj).2.1 _ r) (hother j hj).2.2
  · rw [drawsOf_append, drawsOf_singleton]
    by_cases hj : j = i
    · rw [hj]; exact hc
    · rw [hcounter j hj, h.counter j, (hother j hj).1, Nat.add_zero]

theorem Books.start (hpings : ∀ i, pings i = Pinger.start (S.pingTimeout i))
    (hcounter : ∀ i, counter i = S.start i) : Books S pings counter [] := by
  refine ⟨Justified.nil, fun i => ⟨?_, fun q r => ?_⟩, fun i => ?_⟩
  · rw [hpings]; rfl
  · refine iff_of_false ?_ fun hr => since_nil hr.2
    rw [hpings]
    simp [Pinger.start]
  · simp [hcounter, drawsOf]

theorem Books.congr (h : Books S pings counter log) (hpings : ∀ i, pings' i = pings i)
    (hcounter : ∀ i, counter' i = counter i) : Books S pings' counter' log := by
  rwa [funext hpings, funext hcounter]

variable (hpings : ∀ j, j ≠ i → pings' j = pings j) (hcounter : ∀ j, j ≠ i → counter' j = counter j)
include hpings hcounter

theorem Books.draw (h : Books S pings counter log) {count : ℕ} (hp : pings' i = pings i)
    (hc : counter' i = counter i + UInt32.ofNat count) :
    Books S pings' counter' (log ++ [.draw i count]) := by
  refine h.snoc trivial ?_ ?_ hpings hcounter fun j hj => ?_
  · rw [hp]
    exact (h.tracks i).other (fun r => id) fun r req he => by cases he
  · rw [hc, h.counter i, UInt32.add_assoc, ← UInt32.ofNat_add]
    simp [PingEvent.draws]
  · exact ⟨if_neg (Ne.symm hj), fun _ _ => id, fun r req he => by cases he⟩

theorem Books.issue (h : Books S pings counter log) (hdraws : drawsOf i log < 2 ^ 32)
    {r : PingRequest} {req : Ping ε} (hp : pings' i = (pings i).track r)
    (hc : counter' i = counter i + 1) (hr : r.sequenceNumber = counter i)
    (hsource : S.owns i req.source) (hreach : S.reaches i r.destinationAddress req.destination)
    (hnum : req.sequenceNumber = r.sequenceNumber) (htext : req.pingMessage = r.pingMessage) :
    Books S pings' counter' (log ++ [.issue i r req]) := by
  rw [h.counter i] at hr
  refine h.snoc ⟨hr, hsource, hreach, hnum, htext⟩ ?_ ?_ hpings hcounter fun j hj => ?_
  · rw [hp]
    exact (h.tracks i).issue fun r' req' hissue => hr ▸ number_fresh h.justified hdraws hissue
  · rw [hc, h.counter i, UInt32.add_assoc, ← UInt32.ofNat_one, ← UInt32.ofNat_add]
    simp [PingEvent.draws]
  · refine ⟨if_neg (Ne.symm hj), fun _ _ => id, fun r' req' he => ?_⟩
    exact hj (PingEvent.issue.inj he).1.symm

theorem Books.answer (h : Books S pings counter log) {req rsp : Ping ε} (hp : pings' i = pings i)
    (hc : counter' i = counter i) (hissue : ∃ j r, .issue j r req ∈ log)
    (howns : S.owns i req.destination) (hrsp : Answers req rsp) :
    Books S pings' counter' (log ++ [.answer i req rsp]) := by
  refine h.snoc ⟨hissue, howns, hrsp⟩ ?_ ?_ hpings hcounter fun j hj => ?_
  · rw [hp]
    exact (h.tracks i).other (fun r => id) fun r req he => by cases he
  · rw [hc, h.counter i]
    simp [PingEvent.draws]
  · exact ⟨rfl, fun _ _ => id, fun r req he => by cases he⟩

theorem Books.accept (h : Books S pings counter log) {rsp : Ping ε}
    (hp : pings' i = (pings i).settle rsp.sequenceNumber) (hc : counter' i = counter i)
    (hanswer : ∃ k req, .answer k req rsp ∈ log) (howns : S.owns i rsp.destination)
    (hacc : (pings i).accepts rsp.sequenceNumber = true) :
    Books S pings' counter' (log ++ [.accept i rsp]) := by
  have hpending : ∃ r, r.sequenceNumber = rsp.sequenceNumber ∧ S.Pending i r log := by
    obtain ⟨r, hr⟩ := mem_iff_getElem?.mp (Std.ExtTreeMap.contains_iff_mem.mp hacc)
    exact ⟨r, ((h.tracks i).tracker _ r).mp hr⟩
  refine h.snoc ⟨hanswer, howns, hpending⟩ ?_ ?_ hpings hcounter fun j hj => ?_
  · rw [hp]
    exact (h.tracks i).accept hacc
  · rw [hc, h.counter i]
    simp [PingEvent.draws]
  · exact ⟨rfl, fun _ r hr => hj hr.1.symm, fun r req he => by cases he⟩

theorem Books.audit (h : Books S pings counter log) {now : ℕ}
    (hp : pings' i = (pings i).auditPings now) (hc : counter' i = counter i) :
    Books S pings' counter' (log ++ [.audit i now]) := by
  refine h.snoc trivial ?_ ?_ hpings hcounter fun j hj => ?_
  · rw [hp]
    exact (h.tracks i).audit now
  · rw [hc, h.counter i]
    simp [PingEvent.draws]
  · exact ⟨rfl, fun _ r hr => hj hr.1.symm, fun r req he => by cases he⟩

end Books

/-- What is to hold of a log and the trackers beside it: accepted responses
match, each ping is accepted at most once, and the trackers hold exactly the
pings that are pending. -/
structure EndToEnd (S : PingSystem ν ε) (pings : ν → Pinger) (log : List (PingEvent ν ε)) :
    Prop where
  matched : ∀ pre i rsp post, log = pre ++ .accept i rsp :: post → S.Matched pre i rsp
  once : ∀ i q, log.countP (PingEvent.accepts i q) ≤ 1
  tracker : ∀ i q r, (pings i).pingTracker[q]? = some r ↔
    r.sequenceNumber = q ∧ S.Pending i r log

theorem Books.endToEnd {S : PingSystem ν ε} {pings : ν → Pinger} {counter : ν → UInt32}
    {log : List (PingEvent ν ε)} (h : Books S pings counter log)
    (hdraws : ∀ i, drawsOf i log ≤ 2 ^ 32) : S.EndToEnd pings log where
  matched _ i _ _ hlog := matched_of_accept h.justified (hdraws i) hlog
  once i q := accepted_once h.justified (hdraws i) q
  tracker i := (h.tracks i).tracker

/-- The invariant rule for runs with a log: a step may use that no node has
drawn more than 2^32 numbers. -/
theorem run_keeps {σ α : Type} {events : σ → α → List (PingEvent ν ε)} {step : σ → α → Option σ}
    {I : σ → List (PingEvent ν ε) → Prop} {s s' : σ} (init : I s [])
    (keep : ∀ s lab s' log, I s log → step s lab = some s' →
      (∀ i, drawsOf i (log ++ events s lab) ≤ 2 ^ 32) → I s' (log ++ events s lab))
    {labs : List α} {log : List (PingEvent ν ε)}
    (h : run (logged events step) (s, []) labs = some (s', log))
    (hdraws : ∀ i, drawsOf i log ≤ 2 ^ 32) : I s' log := by
  refine run_invariant (I := fun st : σ × List (PingEvent ν ε) =>
    (∀ i, drawsOf i st.2 ≤ 2 ^ 32) → I st.1 st.2) (fun _ => init) ?_ h hdraws
  intro st lab st' hst hstep hdraws
  obtain ⟨t, ht, rfl⟩ := Option.map_eq_some_iff.mp hstep
  refine keep st.1 lab t st.2 (hst fun i => ?_) ht hdraws
  have hi := hdraws i
  rw [drawsOf_append] at hi
  omega

end PingSystem

/-! ## The nodes of a routing protocol -/

/-- The addresses of a node. -/
def Topology.Owns (T : Topology) (i : Fin T.size) (a : Ipv4Address) : Prop :=
  a = (T.config i).mainAddress ∨ (T.config i).isOwnAddress a = true

theorem Topology.Owns.number {T : Topology} {i : Fin T.size} {a : Ipv4Address} (h : T.Owns i a) :
    (T.config i).addressNodeMap[a]? = some (UInt32.ofNat i) := by
  rcases h with rfl | h
  · exact T.addressNodeMap i i
  · obtain ⟨x, hx, ha⟩ := List.any_eq_true.mp h
    obtain ⟨p, rfl, rfl⟩ := T.of_mem_sockets i x hx
    rw [beq_iff_eq.mp ha]
    exact T.addressNodeMap_address _ p

theorem Topology.Owns.unique {T : Topology} {i j : Fin T.size} {a : Ipv4Address} (hi : T.Owns i a)
    (hj : T.Owns j a) : i = j := by
  have hnum := hi.number
  rw [T.addressNodeMap_eq i j, hj.number] at hnum
  exact (Topology.number_inj (Option.some.inj hnum)).symm

/-- The pings of a network of a routing protocol. A ping goes to the address
it is for. -/
def hostSystem (T : Topology) (sequenceNumber : Fin T.size → UInt32) (pingTimeout : Fin T.size → ℕ) :
    PingSystem (Fin T.size) Ipv4Address where
  owns := T.Owns
  owns_unique := Topology.Owns.unique
  reaches _ a e := e = a
  start := sequenceNumber
  pingTimeout := pingTimeout

/-- The message without its TTL. -/
def PingMessage.ping (m : PingMessage) : Ping Ipv4Address where
  sequenceNumber := m.sequenceNumber
  source := m.originatorAddress
  destination := m.destinationAddress
  pingMessage := m.pingMessage

section Hosts
variable {σ M A : Type} (C : Control σ M A)

/-- What node `i` does with pings in an event. -/
def hostEvents {ν : Type} (cfg : NodeConfig) (i : ν) (n : Host σ)
    (e : NodeEvent (HostMessage M) (HostAct A)) : List (PingEvent ν Ipv4Address) :=
  match e with
  | .recv _ _ (.pingReq m) =>
    if cfg.isOwnAddress m.destinationAddress then [.answer i m.ping (pingResponse cfg m).ping] else []
  | .recv _ _ (.pingRsp m) =>
    if cfg.isOwnAddress m.destinationAddress ∧ n.pings.accepts m.sequenceNumber then
      [.accept i m.ping]
    else []
  | .act (.ping now nodeNumber pingMessage) =>
    let destAddress := cfg.resolveNodeIpAddress nodeNumber
    let sequenceNumber := C.currentSequenceNumber n.control
    if destAddress = Ipv4Address.getAny then []
    else [.issue i ⟨sequenceNumber, now, destAddress, pingMessage⟩
      ⟨sequenceNumber, cfg.mainAddress, destAddress, pingMessage⟩]
  | .act (.auditPings now) => [.audit i now]
  | .recv _ _ (.control _) | .act (.control _) =>
    match (host C).step cfg n e with
    | some n' => [.draw i (drawn C n n')]
    | none => []

def pingEvents {T : Topology} (s : FaultyNet T (Host σ) (HostMessage M))
    (lab : FaultyLabel T (HostAct A)) : List (PingEvent (Fin T.size) Ipv4Address) :=
  match lab.event? s with
  | some (i, e) => hostEvents C (T.config i) i (s.node i) e
  | none => []

variable {C}

/-- What an event does to the pings of node `i`, the packets it sends, and its
entry in the log. -/
inductive PingHandled {ν : Type} (C : Control σ M A) (cfg : NodeConfig) (i : ν) (n n' : Host σ) :
    NodeEvent (HostMessage M) (HostAct A) → List (Ipv4Address × HostMessage M) →
      List (PingEvent ν Ipv4Address) → Prop where
  | control {e out} (pings : n'.pings = n.pings) (out_control : ∀ x ∈ out, ∃ m, x.2 = .control m) :
      PingHandled C cfg i n n' e out [.draw i (drawn C n n')]
  | nothing {e} (same : n' = n) : PingHandled C cfg i n n' e [] []
  | answer {now socket m} (own : cfg.isOwnAddress m.destinationAddress = true) (same : n' = n) :
      PingHandled C cfg i n n' (.recv now socket (.pingReq m))
        (cfg.broadcastPacket (.pingRsp (pingResponse cfg m)))
        [.answer i m.ping (pingResponse cfg m).ping]
  | accept {now socket m} (own : cfg.isOwnAddress m.destinationAddress = true)
      (accepts : n.pings.accepts m.sequenceNumber = true) (control : n'.control = n.control)
      (pings : n'.pings = n.pings.settle m.sequenceNumber) :
      PingHandled C cfg i n n' (.recv now socket (.pingRsp m)) [] [.accept i m.ping]
  | issue {e} {m : PingMessage} {r : PingRequest}
      (number : r.sequenceNumber = C.currentSequenceNumber n.control)
      (req : m.ping = ⟨r.sequenceNumber, cfg.mainAddress, r.destinationAddress, r.pingMessage⟩)
      (counter : C.currentSequenceNumber n'.control = C.currentSequenceNumber n.control + 1)
      (pings : n'.pings = n.pings.track r) :
      PingHandled C cfg i n n' e (cfg.broadcastPacket (.pingReq m)) [.issue i r m.ping]
  | audit {now} (control : n'.control = n.control) (pings : n'.pings = n.pings.auditPings now) :
      PingHandled C cfg i n n' (.act (.auditPings now)) [] [.audit i now]

theorem pingHandled {ν : Type} {cfg : NodeConfig} (i : ν) {n n' : Host σ}
    {e : NodeEvent (HostMessage M) (HostAct A)} {out : List (Ipv4Address × HostMessage M)}
    (h : (host C).handle cfg n e = some (n', out)) :
    PingHandled C cfg i n n' e out (hostEvents C cfg i n e) := by
  -- events of the routing protocol
  have control : ∀ e₀, e.control? = some e₀ →
      PingHandled C cfg i n n' e out [.draw i (drawn C n n')] := by
    intro e₀ he₀
    rcases host_cases h with ⟨_, out₀, _, _, rfl, hpings⟩ | ⟨hnone, _⟩
    · exact .control hpings fun x hx => (of_mem_controlPackets hx).imp fun _ hm => hm.2
    · rw [hnone] at he₀
      cases he₀
  cases e with
  | recv now socket m =>
    cases m with
    | control m =>
      simp only [hostEvents, Machine.step, h]
      exact control _ rfl
    | pingReq m =>
      obtain ⟨rfl, rfl⟩ := Prod.mk.inj (Option.some.inj h)
      unfold hostEvents processPingReq
      by_cases hown : cfg.isOwnAddress m.destinationAddress = true
      · simp only [hown, if_true]
        exact .answer hown rfl
      · simp only [hown]
        exact .nothing rfl
    | pingRsp m =>
      obtain ⟨rfl, rfl⟩ := Prod.mk.inj (Option.some.inj h)
      unfold hostEvents
      by_cases hacc : cfg.isOwnAddress m.destinationAddress = true ∧
          n.pings.accepts m.sequenceNumber = true
      · simp only [hacc, and_self, if_true]
        refine .accept hacc.1 hacc.2 rfl ?_
        simp only [processPingRsp, hacc.1, if_true]
      · dsimp only
        rw [if_neg hacc]
        refine .nothing ?_
        unfold processPingRsp Pinger.settle
        by_cases hown : cfg.isOwnAddress m.destinationAddress = true
        · have hno : n.pings.accepts m.sequenceNumber = false := by
            simpa [hown] using hacc
          simp [hno]
        · simp [hown]
  | act a =>
    cases a with
    | control a =>
      simp only [hostEvents, Machine.step, h]
      exact control _ rfl
    | ping now nodeNumber pingMessage =>
      have h := Option.some.inj h
      unfold sendPing at h
      unfold hostEvents
      dsimp only at h ⊢
      split at h
      · rename_i hany
        rw [if_pos hany]
        obtain ⟨rfl, rfl⟩ := Prod.mk.inj h
        exact .nothing rfl
      · rename_i hany
        rw [if_neg hany]
        obtain ⟨rfl, rfl⟩ := Prod.mk.inj h
        exact .issue rfl rfl (C.current_set _ _) rfl
    | auditPings now =>
      obtain ⟨rfl, rfl⟩ := Prod.mk.inj (Option.some.inj h)
      exact .audit rfl rfl

/-! ### A network of them -/

variable {T : Topology} {sequenceNumber : Fin T.size → UInt32} {pingTimeout : Fin T.size → ℕ}

/-- The books of a network: the log is also about everything in flight. -/
structure HostBooks (C : Control σ M A) (T : Topology) (sequenceNumber : Fin T.size → UInt32)
    (pingTimeout : Fin T.size → ℕ) (s : FaultyNet T (Host σ) (HostMessage M))
    (log : List (PingEvent (Fin T.size) Ipv4Address)) : Prop where
  books : (hostSystem T sequenceNumber pingTimeout).Books (fun i => (s.node i).pings)
    (fun i => C.currentSequenceNumber (s.node i).control) log
  requests : ∀ p m, .pingReq m ∈ s.chan p → ∃ i r, .issue i r m.ping ∈ log
  responses : ∀ p m, .pingRsp m ∈ s.chan p → ∃ k req, .answer k req m.ping ∈ log

section Step
variable {s s' : FaultyNet T (Host σ) (HostMessage M)} {i : Fin T.size}
  {e : NodeEvent (HostMessage M) (HostAct A)} {out : List (Ipv4Address × HostMessage M)}
  {log : List (PingEvent (Fin T.size) Ipv4Address)}

/-- A node keeps the books. -/
theorem HostBooks.acts (h : HostBooks C T sequenceNumber pingTimeout s log)
    (ha : Acts (host C) s i e out s')
    (hdraws : PingSystem.drawsOf i (log ++ hostEvents C (T.config i) i (s.node i) e) ≤ 2 ^ 32) :
    (hostSystem T sequenceNumber pingTimeout).Books (fun i => (s'.node i).pings)
      (fun i => C.currentSequenceNumber (s'.node i).control)
      (log ++ hostEvents C (T.config i) i (s.node i) e) := by
  have hpings : ∀ j, j ≠ i → (s'.node j).pings = (s.node j).pings := by
    intro j hj
    rw [ha.others j hj]
  have hcounter : ∀ j, j ≠ i → C.currentSequenceNumber (s'.node j).control =
      C.currentSequenceNumber (s.node j).control := by
    intro j hj
    rw [ha.others j hj]
  have hcase := pingHandled i ha.handled
  generalize hostEvents C (T.config i) i (s.node i) e = events at hcase hdraws ⊢
  cases hcase with
  | control pings _ =>
    exact h.books.draw hpings hcounter pings (current_add_drawn (s.node i) (s'.node i)).symm
  | nothing same =>
    rw [List.append_nil]
    refine h.books.congr (fun j => ?_) fun j => ?_
    · by_cases hj : j = i
      · rw [hj, same]
      · exact hpings j hj
    · by_cases hj : j = i
      · rw [hj, same]
      · exact hcounter j hj
  | @answer now socket m own same =>
    obtain ⟨p, _, _, hmem⟩ := ha.arrives now socket _ rfl
    refine h.books.answer hpings hcounter (by rw [same]) (by rw [same]) (h.requests p m hmem) ?_ ?_
    · exact Or.inr own
    · exact ⟨rfl, rfl, rfl⟩
  | @accept now socket m own accepts control pings =>
    obtain ⟨p, _, _, hmem⟩ := ha.arrives now socket _ rfl
    exact h.books.accept hpings hcounter pings (by rw [control]) (h.responses p m hmem) (Or.inr own)
      accepts
  | @issue _ m r number req counter pings =>
    have hlt : PingSystem.drawsOf i log < 2 ^ 32 := by
      rw [PingSystem.drawsOf_append, PingSystem.drawsOf_singleton] at hdraws
      simp only [PingEvent.draws, if_true] at hdraws
      omega
    refine h.books.issue hpings hcounter hlt pings counter number ?_ ?_ ?_ ?_
    · rw [req]; exact Or.inl rfl
    · rw [req]; rfl
    · rw [req]
    · rw [req]
  | audit control pings =>
    exact h.books.audit hpings hcounter pings (by rw [control])

/-- What it sends is in the log. -/
theorem sent_logged (hh : (host C).handle (T.config i) (s.node i) e = some (s'.node i, out)) :
    ∀ x ∈ out, (∀ m, x.2 = .pingReq m →
        ∃ r, .issue i r m.ping ∈ hostEvents C (T.config i) i (s.node i) e) ∧
      ∀ m, x.2 = .pingRsp m →
        ∃ req, .answer i req m.ping ∈ hostEvents C (T.config i) i (s.node i) e := by
  intro x hx
  have hcase := pingHandled i hh
  generalize hostEvents C (T.config i) i (s.node i) e = events at hcase ⊢
  cases hcase with
  | control _ out_control =>
    obtain ⟨m, hm⟩ := out_control x hx
    refine ⟨fun m' hm' => ?_, fun m' hm' => ?_⟩
    · rw [hm] at hm'; cases hm'
    · rw [hm] at hm'; cases hm'
  | nothing _ => cases hx
  | answer _ _ =>
    rw [of_mem_broadcastPacket hx]
    refine ⟨?_, ?_⟩
    · intro m' hm'
      cases hm'
    · intro m' hm'
      obtain rfl := HostMessage.pingRsp.inj hm'
      exact ⟨_, List.mem_singleton.mpr rfl⟩
  | accept _ _ _ _ => cases hx
  | issue _ _ _ _ =>
    rw [of_mem_broadcastPacket hx]
    refine ⟨?_, ?_⟩
    · intro m' hm'
      obtain rfl := HostMessage.pingReq.inj hm'
      exact ⟨_, List.mem_singleton.mpr rfl⟩
    · intro m' hm'
      cases hm'
  | audit _ _ => cases hx

/-- **Every step of the network keeps the books.** -/
theorem HostBooks.step {lab : FaultyLabel T (HostAct A)}
    (h : HostBooks C T sequenceNumber pingTimeout s log) (hst : faultyStep (host C) s lab = some s')
    (hdraws : ∀ i, PingSystem.drawsOf i (log ++ pingEvents C s lab) ≤ 2 ^ 32) :
    HostBooks C T sequenceNumber pingTimeout s' (log ++ pingEvents C s lab) := by
  rcases faultyStep_cases hst with ⟨i, e, out, hev, ha⟩ | ⟨hev, hstill⟩
  · have hevents : pingEvents C s lab = hostEvents C (T.config i) i (s.node i) e := by
      simp only [pingEvents, hev]
    rw [hevents] at hdraws ⊢
    refine ⟨h.acts ha (hdraws i), fun p m hm => ?_, fun p m hm => ?_⟩
    · rcases ha.chan p _ hm with hm | ⟨_, x, hx, hxm⟩
      · obtain ⟨j, r, hr⟩ := h.requests p m hm
        exact ⟨j, r, List.mem_append_left _ hr⟩
      · obtain ⟨r, hr⟩ := (sent_logged ha.handled x hx).1 m hxm
        exact ⟨i, r, List.mem_append_right _ hr⟩
    · rcases ha.chan p _ hm with hm | ⟨_, x, hx, hxm⟩
      · obtain ⟨k, req, hreq⟩ := h.responses p m hm
        exact ⟨k, req, List.mem_append_left _ hreq⟩
      · obtain ⟨req, hreq⟩ := (sent_logged ha.handled x hx).2 m hxm
        exact ⟨i, req, List.mem_append_right _ hreq⟩
  · have hevents : pingEvents C s lab = [] := by simp only [pingEvents, hev]
    rw [hevents, List.append_nil]
    refine ⟨h.books.congr (fun i => ?_) (fun i => ?_), fun p m hm => ?_, fun p m hm => ?_⟩
    · rw [hstill.node]
    · rw [hstill.node]
    · exact h.requests p m (hstill.chan p _ hm)
    · exact h.responses p m (hstill.chan p _ hm)

end Step

/-- **In every run, pings are matched end to end**, as long as no node draws
more than 2^32 numbers. -/
theorem hosts_endToEnd {node : Fin T.size → Host σ}
    (hnode : ∀ i, C.currentSequenceNumber (node i).control = sequenceNumber i ∧
      (node i).pings = Pinger.start (pingTimeout i))
    {labs : List (FaultyLabel T (HostAct A))} {s : FaultyNet T (Host σ) (HostMessage M)}
    {log : List (PingEvent (Fin T.size) Ipv4Address)}
    (h : run (logged (pingEvents C) (faultyStep (host C))) (FaultyNet.start node, []) labs =
      some (s, log))
    (hdraws : ∀ i, PingSystem.drawsOf i log ≤ 2 ^ 32) :
    (hostSystem T sequenceNumber pingTimeout).EndToEnd (fun i => (s.node i).pings) log := by
  have hbooks : HostBooks C T sequenceNumber pingTimeout s log := by
    refine PingSystem.run_keeps (I := HostBooks C T sequenceNumber pingTimeout) ?_
      (fun _ _ _ _ hI => hI.step) h hdraws
    refine ⟨PingSystem.Books.start (fun i => (hnode i).2) fun i => (hnode i).1, ?_, ?_⟩
    · intro p m hm
      cases hm
    · intro p m hm
      cases hm
  exact hbooks.books.endToEnd hdraws

end Hosts

end Ns3Routing
