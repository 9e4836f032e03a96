import Mathlib.Algebra.Group.Nat.Defs
import Mathlib.Algebra.Group.Int.Defs
import Ns3Routing.Schedulers
import Ns3Routing.Lib.Run
import Ns3Routing.Lib.Log

/-! # The simulator

`DefaultSimulatorImpl`, as what the program calls: the functions of the public
interface, in any order, and `ProcessOneEvent`, which the loop of `Run` calls
and which starts an event. What an event does are calls again, so a run of the
program is a list of calls.

Left out is `ScheduleDestroy`, and with it the branches of `Remove` and
`IsExpired` for its events, the only ones with the `m_uid` 2. The count
`m_unscheduledEvents` is an `int` in the source: the same number for fewer than
2^31 events. -/

namespace Ns3Routing.Sim

open Lib

/-- An `EventImpl`: what it notifies, and `m_cancel`. -/
structure EventImpl (α : Type) where
  notify : α
  cancel : Bool

/-- An `EventId`; without `m_eventImpl` it is the default one. -/
structure EventId where
  eventImpl : Option ℕ
  ts : UInt64
  context : UInt32
  uid : UInt32
deriving DecidableEq, Repr

/-- The members of `DefaultSimulatorImpl`. A pointer to an `EventImpl` is its
place among those made so far. -/
structure DefaultSimulatorImpl (S α : Type) where
  events : S
  impls : List (EventImpl α)
  stop : Bool
  uid : UInt32
  currentUid : UInt32
  currentTs : UInt64
  currentContext : UInt32
  unscheduledEvents : ℤ

/-- The constructor, with `SetScheduler`. -/
def create {S : Type} (C : Scheduler S) (α : Type) : DefaultSimulatorImpl S α where
  events := C.create
  impls := []
  stop := false
  uid := 4
  currentUid := 0
  currentTs := 0
  currentContext := 0xffffffff
  unscheduledEvents := 0

def Event.id (ev : Event) : EventId := ⟨some ev.impl, ev.key.ts, ev.key.context, ev.key.uid⟩

section Functions
variable {S α : Type} (C : Scheduler S)

/-- The event that is scheduled next. -/
def nextEvent (s : DefaultSimulatorImpl S α) (ts : UInt64) (context : UInt32) : Event :=
  ⟨s.impls.length, ⟨ts, s.uid, context⟩⟩

/-- What all ways of scheduling do. -/
def insertEvent (ts : UInt64) (context : UInt32) (event : α) (s : DefaultSimulatorImpl S α) :
    Option (DefaultSimulatorImpl S α) := do
  let events ← C.insert s.events (nextEvent s ts context)
  some { s with
    events
    impls := s.impls ++ [⟨event, false⟩]
    uid := s.uid + 1
    unscheduledEvents := s.unscheduledEvents + 1 }

/-- `time + TimeStep (m_currentTs)`; `none` when an assertion fails or the sum
is no `Time`. -/
def absolute (time : ℤ) (s : DefaultSimulatorImpl S α) : Option UInt64 :=
  let tAbsolute := time + s.currentTs.toNat
  if 0 ≤ tAbsolute ∧ s.currentTs.toNat ≤ tAbsolute ∧ tAbsolute < 2 ^ 63 then
    some (UInt64.ofNat tAbsolute.toNat)
  else none

def schedule (time : ℤ) (event : α) (s : DefaultSimulatorImpl S α) :
    Option (DefaultSimulatorImpl S α) := do
  insertEvent C (← absolute time s) s.currentContext event s

def scheduleNow (event : α) (s : DefaultSimulatorImpl S α) : Option (DefaultSimulatorImpl S α) :=
  insertEvent C s.currentTs s.currentContext event s

def scheduleWithContext (context : UInt32) (time : ℤ) (event : α) (s : DefaultSimulatorImpl S α) :
    Option (DefaultSimulatorImpl S α) :=
  insertEvent C (s.currentTs + UInt64.ofInt time) context event s

def isCancelled (impl : ℕ) (s : DefaultSimulatorImpl S α) : Option Bool :=
  s.impls[impl]?.map (·.cancel)

def isExpired (ev : EventId) (s : DefaultSimulatorImpl S α) : Option Bool :=
  match ev.eventImpl with
  | none => some true
  | some impl =>
    if ev.ts < s.currentTs || (ev.ts == s.currentTs && ev.uid ≤ s.currentUid) then some true
    else isCancelled impl s

/-- `EventImpl::Cancel`. -/
def cancelImpl (impl : ℕ) (s : DefaultSimulatorImpl S α) : DefaultSimulatorImpl S α :=
  { s with impls := s.impls.modify impl fun e => { e with cancel := true } }

def cancel (id : EventId) (s : DefaultSimulatorImpl S α) : Option (DefaultSimulatorImpl S α) := do
  if ← isExpired id s then some s
  else some (cancelImpl (← id.eventImpl) s)

def remove (id : EventId) (s : DefaultSimulatorImpl S α) : Option (DefaultSimulatorImpl S α) := do
  if ← isExpired id s then some s
  else
    let impl ← id.eventImpl
    let events ← C.remove s.events ⟨impl, ⟨id.ts, id.uid, id.context⟩⟩
    some { cancelImpl impl s with events, unscheduledEvents := s.unscheduledEvents - 1 }

/-- The event `next` has been taken from the event list, and runs. -/
def DefaultSimulatorImpl.started (s : DefaultSimulatorImpl S α) (next : Event) (events : S) :
    DefaultSimulatorImpl S α :=
  { s with
    events
    unscheduledEvents := s.unscheduledEvents - 1
    currentTs := next.key.ts
    currentContext := next.key.context
    currentUid := next.key.uid }

/-- `ProcessOneEvent`, up to the body of the event. -/
def processOneEvent (s : DefaultSimulatorImpl S α) : Option (Event × DefaultSimulatorImpl S α) := do
  let (next, events) ← C.removeNext s.events
  if next.key.ts < s.currentTs then none
  else some (next, s.started next events)

/-- `EventImpl::Invoke`: what is notified. -/
def invoke (impl : ℕ) (s : DefaultSimulatorImpl S α) : Option α :=
  s.impls[impl]?.bind fun e => if e.cancel then none else some e.notify

/-- The loop of `Run` goes on. -/
def running (s : DefaultSimulatorImpl S α) : Bool := !C.isEmpty s.events && !s.stop

end Functions

/-! ## Runs -/

inductive Call (α : Type) where
  | run
  | schedule (time : ℤ) (event : α)
  | scheduleNow (event : α)
  | scheduleWithContext (context : UInt32) (time : ℤ) (event : α)
  | cancel (id : EventId)
  | remove (id : EventId)
  | stop
  | processOneEvent

/-- What happens in a run. An event that is processed notifies, or has been
cancelled. -/
inductive Entry (α : Type) where
  | scheduled (ev : Event) (event : α)
  | cancelled (id : EventId)
  | removed (ev : Event)
  | processed (ev : Event) (notified : Option α)

section Runs
variable {S α : Type} (C : Scheduler S)

def callStep (s : DefaultSimulatorImpl S α) : Call α → Option (DefaultSimulatorImpl S α)
  | .schedule time event => schedule C time event s
  | .scheduleNow event => scheduleNow C event s
  | .scheduleWithContext context time event => scheduleWithContext C context time event s
  | .cancel id => cancel id s
  | .remove id => remove C id s
  | .run => some { s with stop := false }
  | .stop => some { s with stop := true }
  | .processOneEvent => if running C s then (processOneEvent C s).map Prod.snd else none

def entries (s : DefaultSimulatorImpl S α) : Call α → List (Entry α)
  | .schedule time event =>
    (absolute time s).toList.map fun ts => .scheduled (nextEvent s ts s.currentContext) event
  | .scheduleNow event => [.scheduled (nextEvent s s.currentTs s.currentContext) event]
  | .scheduleWithContext context time event =>
    [.scheduled (nextEvent s (s.currentTs + UInt64.ofInt time) context) event]
  | .cancel id => [.cancelled id]
  | .remove id =>
    if isExpired id s = some false then
      id.eventImpl.toList.map fun impl => .removed ⟨impl, ⟨id.ts, id.uid, id.context⟩⟩
    else []
  | .run | .stop => []
  | .processOneEvent =>
    (C.removeNext s.events).toList.map fun next => .processed next.1 (invoke next.1.impl s)

/-- The simulator with what happened so far. -/
abbrev loggedStep : DefaultSimulatorImpl S α × List (Entry α) → Call α →
    Option (DefaultSimulatorImpl S α × List (Entry α)) :=
  logged (entries C) (callStep C)

end Runs

/-! ## What happened -/

section Log
variable {α : Type}

/-- The event has been scheduled, and neither processed nor removed. -/
structure Pending (log : List (Entry α)) (ev : Event) : Prop where
  scheduled : ∃ event, .scheduled ev event ∈ log
  processed : ∀ notified, .processed ev notified ∉ log
  removed : .removed ev ∉ log

/-- `Schedule` has returned the `EventId`, or it is the default one. -/
def Issued (log : List (Entry α)) (id : EventId) : Prop :=
  id.eventImpl = none ∨ ∃ ev event, .scheduled ev event ∈ log ∧ id = ev.id

/-- What there is to be found in the log before an entry: an event is
scheduled behind all that have been processed, is processed when it is the
first of those pending, and notifies unless it has been cancelled. -/
def Reason (before : List (Entry α)) : Entry α → Prop
  | .scheduled ev _ => (∀ e event, .scheduled e event ∈ before → e.key.uid < ev.key.uid) ∧
    ∀ e notified, .processed e notified ∈ before → e.rank < ev.rank
  | .cancelled _ => True
  | .removed ev => Pending before ev ∧ .cancelled ev.id ∉ before
  | .processed ev notified => Pending before ev ∧ (∀ e, Pending before e → e = ev ∨ ev.rank < e.rank) ∧
    (.cancelled ev.id ∈ before → notified = none) ∧
    (.cancelled ev.id ∉ before → ∃ event, notified = some event ∧ .scheduled ev event ∈ before)

variable {log : List (Entry α)} {ev e : Event}

theorem pending_scheduled {event : α} (fresh : ∀ e event, .scheduled e event ∈ log → e ≠ ev)
    (known : ∀ e notified, .processed e notified ∈ log → ∃ event, .scheduled e event ∈ log)
    (known' : ∀ e, .removed e ∈ log → ∃ event, .scheduled e event ∈ log) :
    Pending (log ++ [.scheduled ev event]) e ↔ e = ev ∨ Pending log e := by
  constructor
  · rintro ⟨⟨event', hs⟩, hp, hr⟩
    rcases List.mem_append.mp hs with hs | hs
    · exact Or.inr ⟨⟨event', hs⟩, fun n hn => hp n (List.mem_append_left _ hn),
        fun hn => hr (List.mem_append_left _ hn)⟩
    · cases List.mem_singleton.mp hs
      exact Or.inl rfl
  · rintro (rfl | h)
    · refine ⟨⟨event, by simp⟩, fun n hn => ?_, fun hn => ?_⟩
      · obtain ⟨event', hs⟩ := known e n (by simpa using hn)
        exact fresh e event' hs rfl
      · obtain ⟨event', hs⟩ := known' e (by simpa using hn)
        exact fresh e event' hs rfl
    · obtain ⟨event', hs⟩ := h.scheduled
      exact ⟨⟨event', List.mem_append_left _ hs⟩, by simpa using h.processed, by simpa using h.removed⟩

theorem pending_cancelled {id : EventId} : Pending (log ++ [.cancelled id]) e ↔ Pending log e := by
  constructor <;> rintro ⟨hs, hp, hr⟩ <;>
    exact ⟨by simpa using hs, by simpa using hp, by simpa using hr⟩

theorem pending_removed : Pending (log ++ [.removed ev]) e ↔ Pending log e ∧ e ≠ ev := by
  constructor
  · rintro ⟨hs, hp, hr⟩
    simp only [List.mem_append, List.mem_singleton, Entry.removed.injEq, not_or] at hr
    exact ⟨⟨by simpa using hs, by simpa using hp, hr.1⟩, hr.2⟩
  · rintro ⟨⟨hs, hp, hr⟩, hne⟩
    exact ⟨by simpa using hs, by simpa using hp, by simp [hr, hne]⟩

theorem pending_processed {notified : Option α} :
    Pending (log ++ [.processed ev notified]) e ↔ Pending log e ∧ e ≠ ev := by
  constructor
  · rintro ⟨hs, hp, hr⟩
    refine ⟨⟨by simpa using hs, fun n hn => hp n (List.mem_append_left _ hn), by simpa using hr⟩, ?_⟩
    rintro rfl
    exact hp notified (by simp)
  · rintro ⟨⟨hs, hp, hr⟩, hne⟩
    exact ⟨by simpa using hs, fun n hn => by simp [hp n, hne] at hn, by simpa using hr⟩

end Log

/-! ## The invariant -/

/-- The key of the event that runs. -/
def current {S α : Type} (s : DefaultSimulatorImpl S α) : ℕ ×ₗ ℕ :=
  toLex (s.currentTs.toNat, s.currentUid.toNat)

/-- A simulator, with the events of its event list, after what happened. -/
structure Consistent {S α : Type} (s : DefaultSimulatorImpl S α) (l : List Event)
    (log : List (Entry α)) :
    Prop where
  agenda : Agenda l
  pending : ∀ ev, ev ∈ l ↔ Pending log ev
  uid : s.uid.toNat = s.impls.length + 4
  currentUid : s.currentUid.toNat < s.impls.length + 4
  ts : s.currentTs.toNat < 2 ^ 63
  scheduled : ∀ ev event, .scheduled ev event ∈ log → ev.key.uid.toNat = ev.impl + 4 ∧
    ev.key.ts.toNat < 2 ^ 63 ∧ ∃ i, s.impls[ev.impl]? = some i ∧ i.notify = event
  unique : ∀ ev ev' event event', .scheduled ev event ∈ log → .scheduled ev' event' ∈ log →
    ev.impl = ev'.impl → ev = ev'
  known : ∀ ev notified, .processed ev notified ∈ log → ∃ event, .scheduled ev event ∈ log
  known' : ∀ ev, .removed ev ∈ log → ∃ event, .scheduled ev event ∈ log
  issued : ∀ id, .cancelled id ∈ log → Issued log id
  past : ∀ ev notified, .processed ev notified ∈ log → ev.rank ≤ current s
  future : ∀ ev ∈ l, current s < ev.rank
  flags : ∀ ev event, .scheduled ev event ∈ log → (∀ notified, .processed ev notified ∉ log) →
    (isCancelled ev.impl s = some true ↔ .removed ev ∈ log ∨ .cancelled ev.id ∈ log)
  unscheduled : s.unscheduledEvents = l.length
  reasons : Justified Reason log

section Consistent
variable {S α : Type} {s s' : DefaultSimulatorImpl S α} {l : List Event} {log : List (Entry α)}
    {ev : Event}

theorem Consistent.create (C : Scheduler S) : Consistent (create C α) [] [] where
  agenda := .nil
  pending ev := ⟨fun h => (by cases h), fun h => by obtain ⟨_, h⟩ := h.scheduled; cases h⟩
  uid := rfl
  currentUid := show 0 < 0 + 4 by omega
  ts := show 0 < 2 ^ 63 by decide
  scheduled _ _ h := by cases h
  unique _ _ _ _ h := by cases h
  known _ _ h := by cases h
  known' _ h := by cases h
  issued _ h := by cases h
  past _ _ h := by cases h
  future _ h := by cases h
  flags _ _ h := by cases h
  unscheduled := rfl
  reasons := .nil

theorem Event.ext_id {a b : Event} (h : a.id = b.id) : a = b := by
  obtain ⟨i, ⟨ts, uid, context⟩⟩ := a
  obtain ⟨i', ⟨ts', uid', context'⟩⟩ := b
  simp only [Event.id, EventId.mk.injEq, Option.some.injEq] at h
  obtain ⟨rfl, rfl, rfl, rfl⟩ := h
  rfl

/-- `IsExpired` is whether the event will still be notified. -/
theorem Consistent.isExpired (h : Consistent s l log) {event : α} (hev : .scheduled ev event ∈ log) :
    ∃ expired, isExpired ev.id s = some expired ∧
      (expired = false ↔ Pending log ev ∧ .cancelled ev.id ∉ log) := by
  obtain ⟨_, _, i, hi, _⟩ := h.scheduled ev event hev
  have hflag : isCancelled ev.impl s = some i.cancel := by rw [isCancelled, hi, Option.map_some]
  have hexpired : Sim.isExpired ev.id s = if ev.rank ≤ current s then some true else some i.cancel := by
    rw [← hflag, Event.rank, current]
    refine if_congr ?_ rfl rfl
    simp [Event.id, Prod.Lex.toLex_le_toLex, UInt64.lt_iff_toNat_lt, UInt32.le_iff_toNat_le,
      ← UInt64.toNat_inj]
  by_cases hle : ev.rank ≤ current s
  · refine ⟨true, by rw [hexpired, if_pos hle], ?_⟩
    refine iff_of_false (by decide) fun hpending => ?_
    exact absurd (h.future ev ((h.pending ev).mpr hpending.1)) (not_lt.mpr hle)
  · refine ⟨i.cancel, by rw [hexpired, if_neg hle], ?_⟩
    have hnot : ∀ notified, .processed ev notified ∉ log := fun n hn => hle (h.past ev n hn)
    have hiff := h.flags ev event hev hnot
    rw [hflag, Option.some_inj] at hiff
    rw [← Bool.not_eq_true, hiff, not_or]
    exact ⟨fun hr => ⟨⟨⟨event, hev⟩, hnot, hr.1⟩, hr.2⟩, fun hp => ⟨hp.1.removed, hp.2⟩⟩

theorem Consistent.impl_lt (h : Consistent s l log) {event : α} (hev : .scheduled ev event ∈ log) :
    ev.impl < s.impls.length := by
  obtain ⟨_, _, i, hi, _⟩ := h.scheduled ev event hev
  exact (List.getElem?_eq_some_iff.mp hi).1

/-- A number and a place that no event has yet. -/
theorem Consistent.fresh (h : Consistent s l log) {event : α} (hev : .scheduled ev event ∈ log)
    (ts : UInt64) (context : UInt32) :
    ev.key.uid < (nextEvent s ts context).key.uid ∧ ev.impl ≠ (nextEvent s ts context).impl := by
  have hlt := h.impl_lt hev
  obtain ⟨huid, _⟩ := h.scheduled ev event hev
  refine ⟨UInt32.lt_iff_toNat_lt.mpr ?_, Nat.ne_of_lt hlt⟩
  rw [nextEvent, huid, h.uid]
  omega

/-- It comes after the event processed last. -/
theorem Consistent.current_lt (h : Consistent s l log) {ts : UInt64} (hts : s.currentTs ≤ ts)
    (context : UInt32) : current s < (nextEvent s ts context).rank := by
  rw [current, Event.rank, Prod.Lex.toLex_lt_toLex]
  have huid := h.uid
  have hcurrent := h.currentUid
  rcases Nat.lt_or_eq_of_le (UInt64.le_iff_toNat_le.mp hts) with hlt | heq
  · exact Or.inl hlt
  · exact Or.inr ⟨heq, show s.currentUid.toNat < s.uid.toNat by omega⟩

/-- No two events have one place. -/
theorem Consistent.unique_insert (h : Consistent s l log) (ts : UInt64) (context : UInt32) (event : α)
    {a b : Event} {eventA eventB : α}
    (ha : .scheduled a eventA ∈ log ++ [.scheduled (nextEvent s ts context) event])
    (hb : .scheduled b eventB ∈ log ++ [.scheduled (nextEvent s ts context) event])
    (hab : a.impl = b.impl) : a = b := by
  rcases List.mem_append.mp ha with ha | ha <;> rcases List.mem_append.mp hb with hb | hb
  · exact h.unique a b eventA eventB ha hb hab
  · cases List.mem_singleton.mp hb
    exact absurd hab (h.fresh ha ts context).2
  · cases List.mem_singleton.mp ha
    exact absurd hab.symm (h.fresh hb ts context).2
  · cases List.mem_singleton.mp ha
    cases List.mem_singleton.mp hb
    rfl

/-- Nothing has been said of the new event yet. -/
theorem Consistent.not_mentioned (h : Consistent s l log) (ts : UInt64) (context : UInt32) :
    ¬ (.removed (nextEvent s ts context) ∈ log ∨ .cancelled (nextEvent s ts context).id ∈ log) := by
  have hne : ∀ e event, .scheduled e event ∈ log → e ≠ nextEvent s ts context := fun e event he heq =>
    (h.fresh he ts context).2 (congrArg Event.impl heq)
  rintro (hr | hc)
  · obtain ⟨event, hs⟩ := h.known' _ hr
    exact hne _ event hs rfl
  · rcases h.issued _ hc with hnone | ⟨e, event, hs, he⟩
    · cases hnone
    · exact hne e event hs (Event.ext_id he.symm)

theorem Consistent.insert (h : Consistent s l log) (room : s.impls.length + 5 < 2 ^ 32)
    {ts : UInt64} (hts : s.currentTs ≤ ts) (hbound : ts.toNat < 2 ^ 63) (context : UInt32) (event : α)
    {S' : Type} (events : S') :
    Consistent (S := S') { s with
      events
      impls := s.impls ++ [⟨event, false⟩]
      uid := s.uid + 1
      unscheduledEvents := s.unscheduledEvents + 1 } (ListScheduler.insert l (nextEvent s ts context))
      (log ++ [.scheduled (nextEvent s ts context) event]) := by
  have hne : ∀ e event, .scheduled e event ∈ log → e ≠ nextEvent s ts context := fun e event' he heq =>
    (h.fresh he ts context).2 (congrArg Event.impl heq)
  have hfuture := h.current_lt hts context
  have hnew : (s.impls ++ [(⟨event, false⟩ : EventImpl α)])[s.impls.length]? = some ⟨event, false⟩ := by
    simp
  constructor
  · refine h.agenda.insert fun e he => ?_
    obtain ⟨event', hs⟩ := ((h.pending e).mp he).scheduled
    exact UInt32.ne_of_lt (h.fresh hs ts context).1
  · intro ev
    rw [(insert_perm _ _).mem_iff, List.mem_cons, pending_scheduled hne h.known h.known', h.pending]
  · have huid := h.uid
    show (s.uid + 1).toNat = _
    rw [UInt32.toNat_add, List.length_append, List.length_singleton]
    show (s.uid.toNat + 1) % 2 ^ 32 = _
    omega
  · have hcurrent := h.currentUid
    rw [List.length_append, List.length_singleton]
    show s.currentUid.toNat < _
    omega
  · exact h.ts
  · intro ev event' hev
    rcases List.mem_append.mp hev with hev | hev
    · obtain ⟨huid, hbound, i, hi, hnotify⟩ := h.scheduled ev event' hev
      refine ⟨huid, hbound, i, ?_, hnotify⟩
      rw [List.getElem?_append_left (h.impl_lt hev)]
      exact hi
    · cases List.mem_singleton.mp hev
      exact ⟨h.uid, hbound, _, hnew, rfl⟩
  · exact fun a b eventA eventB ha hb hab => h.unique_insert ts context event ha hb hab
  · intro e n he
    obtain ⟨event', hs⟩ := h.known e n (by simpa using he)
    exact ⟨event', List.mem_append_left _ hs⟩
  · intro e he
    obtain ⟨event', hs⟩ := h.known' e (by simpa using he)
    exact ⟨event', List.mem_append_left _ hs⟩
  · intro id hid
    refine (h.issued id (by simpa using hid)).imp_right ?_
    rintro ⟨e, event', hs, he⟩
    exact ⟨e, event', List.mem_append_left _ hs, he⟩
  · intro e n he
    exact h.past e n (by simpa using he)
  · intro e he
    rcases List.mem_cons.mp ((insert_perm _ _).subset he) with rfl | he
    · exact hfuture
    · exact h.future e he
  · intro e event' he hp
    simp only [List.mem_append, List.mem_singleton, reduceCtorEq, or_false] at he hp ⊢
    rcases he with he | he
    · rw [← h.flags e event' he hp]
      show Option.map _ (s.impls ++ [_])[e.impl]? = _ ↔ _
      rw [List.getElem?_append_left (h.impl_lt he)]
      rfl
    · cases he
      refine iff_of_false ?_ (h.not_mentioned ts context)
      show ¬ Option.map _ (s.impls ++ [_])[s.impls.length]? = _
      simp
  · rw [(insert_perm _ _).length_eq, List.length_cons]
    show s.unscheduledEvents + 1 = _
    rw [h.unscheduled]
    rfl
  · refine h.reasons.snoc ⟨fun e event' he => (h.fresh he ts context).1, fun e n he => ?_⟩
    exact (h.past e n he).trans_lt hfuture

@[simp] theorem cancelImpl_current (impl : ℕ) : current (cancelImpl impl s) = current s := rfl

theorem getElem?_cancelImpl (impl k : ℕ) : (cancelImpl impl s).impls[k]? =
    if impl = k then s.impls[k]?.map fun e => { e with cancel := true } else s.impls[k]? := by
  rw [cancelImpl, List.getElem?_modify]
  by_cases hk : impl = k <;> simp [hk]

theorem isCancelled_cancelImpl (impl k : ℕ) : isCancelled k (cancelImpl impl s) =
    if impl = k then (isCancelled k s).map fun _ => true else isCancelled k s := by
  rw [isCancelled, getElem?_cancelImpl]
  by_cases hk : impl = k
  · cases hi : s.impls[k]? <;> simp [hk, hi, isCancelled]
  · simp [hk, isCancelled]

theorem Consistent.cancelled_iff (h : Consistent s l log) {event : α} (hev : .scheduled ev event ∈ log)
    {impl : ℕ} : isCancelled ev.impl (cancelImpl impl s) = some true ↔
      impl = ev.impl ∨ isCancelled ev.impl s = some true := by
  obtain ⟨_, _, i, hi, _⟩ := h.scheduled ev event hev
  rw [isCancelled_cancelImpl]
  by_cases heq : impl = ev.impl
  · simp [heq, isCancelled, hi]
  · simp [heq]

/-- What does not touch the event list. -/
theorem Consistent.flag (h : Consistent s l log) {id : EventId} (issued : Issued log id)
    (hs' : s' = s ∨ ∃ impl, s' = cancelImpl impl s)
    (flags : ∀ ev event, .scheduled ev event ∈ log → (∀ notified, .processed ev notified ∉ log) →
      (isCancelled ev.impl s' = some true ↔ .removed ev ∈ log ∨ .cancelled ev.id ∈ log ∨ ev.id = id)) :
    Consistent s' l (log ++ [.cancelled id]) := by
  have hfields : s'.uid = s.uid ∧ s'.impls.length = s.impls.length ∧ s'.currentUid = s.currentUid ∧
      s'.currentTs = s.currentTs ∧ s'.unscheduledEvents = s.unscheduledEvents ∧
      ∀ (k : ℕ) (i : EventImpl α), s.impls[k]? = some i →
        ∃ i' : EventImpl α, s'.impls[k]? = some i' ∧ i'.notify = i.notify := by
    rcases hs' with rfl | ⟨impl, rfl⟩
    · exact ⟨rfl, rfl, rfl, rfl, rfl, fun k i hi => ⟨i, hi, rfl⟩⟩
    · refine ⟨rfl, List.length_modify .., rfl, rfl, rfl, fun k i hi => ?_⟩
      rw [getElem?_cancelImpl, hi]
      by_cases hk : impl = k <;> simp [hk]
  obtain ⟨huid, hlen, hcurrent, hts, hcount, himpls⟩ := hfields
  have hcur : current s' = current s := by rw [current, hts, hcurrent, current]
  constructor
  · exact h.agenda
  · intro ev
    rw [pending_cancelled, h.pending]
  · rw [huid, hlen, h.uid]
  · rw [hcurrent, hlen]
    exact h.currentUid
  · rw [hts]
    exact h.ts
  · intro ev event hev
    obtain ⟨huid, hbound, i, hi, hnotify⟩ := h.scheduled ev event (by simpa using hev)
    obtain ⟨i', hi', hsame⟩ := himpls _ i hi
    exact ⟨huid, hbound, i', hi', hsame.trans hnotify⟩
  · intro a b eventA eventB ha hb
    exact h.unique a b eventA eventB (by simpa using ha) (by simpa using hb)
  · intro e n he
    simpa using h.known e n (by simpa using he)
  · intro e he
    simpa using h.known' e (by simpa using he)
  · intro id' hid
    have hmono : ∀ id, Issued log id → Issued (log ++ [.cancelled id']) id := fun id =>
      Or.imp_right fun ⟨e, event, hs, he⟩ => ⟨e, event, List.mem_append_left _ hs, he⟩
    simp only [List.mem_append, List.mem_singleton, Entry.cancelled.injEq] at hid
    rcases hid with hid | rfl
    · have := h.issued id' hid
      exact this.imp_right fun ⟨e, event, hs, he⟩ => ⟨e, event, List.mem_append_left _ hs, he⟩
    · exact hmono _ issued
  · intro e n he
    rw [hcur]
    exact h.past e n (by simpa using he)
  · rw [hcur]
    exact h.future
  · intro ev event hev hp
    rw [flags ev event (by simpa using hev) (by simpa using hp)]
    simp
  · rw [hcount]
    exact h.unscheduled
  · exact h.reasons.snoc trivial

theorem Consistent.cancel (h : Consistent s l log) {id : EventId} (issued : Issued log id) :
    ∃ s', Sim.cancel id s = some s' ∧ Consistent s' l (log ++ [.cancelled id]) ∧
      (s' = s ∨ ∃ impl, s' = cancelImpl impl s) := by
  rcases issued with hnone | ⟨e, event, he, rfl⟩
  · have hexpired : Sim.isExpired id s = some true := by rw [Sim.isExpired, hnone]
    refine ⟨s, by simp [Sim.cancel, hexpired], h.flag (Or.inl hnone) (Or.inl rfl) ?_, Or.inl rfl⟩
    intro ev event hev hp
    rw [h.flags ev event hev hp]
    have hne : ev.id ≠ id := fun heq => by
      rw [← heq] at hnone
      cases hnone
    simp [hne]
  · obtain ⟨expired, hexpired, hiff⟩ := h.isExpired he
    have hissued : Issued log e.id := Or.inr ⟨e, event, he, rfl⟩
    cases expired with
    | true =>
      refine ⟨s, by simp [Sim.cancel, hexpired], h.flag hissued (Or.inl rfl) ?_, Or.inl rfl⟩
      intro ev event' hev hp
      rw [h.flags ev event' hev hp]
      refine ⟨fun hr => hr.imp_right Or.inl, ?_⟩
      rintro (hr | hc | heq)
      · exact Or.inl hr
      · exact Or.inr hc
      · obtain rfl := Event.ext_id heq
        by_contra hnot
        rw [not_or] at hnot
        have hfalse := hiff.mpr ⟨⟨⟨event', hev⟩, hp, hnot.1⟩, hnot.2⟩
        cases hfalse
    | false =>
      refine ⟨cancelImpl e.impl s, by rw [Sim.cancel, hexpired]; rfl, h.flag hissued
        (Or.inr ⟨_, rfl⟩) ?_, Or.inr ⟨_, rfl⟩⟩
      intro ev event' hev hp
      rw [h.cancelled_iff hev, h.flags ev event' hev hp]
      constructor
      · rintro (heq | hr | hc)
        · exact Or.inr (Or.inr (congrArg Event.id (h.unique ev e _ _ hev he heq.symm)))
        · exact Or.inl hr
        · exact Or.inr (Or.inl hc)
      · rintro (hr | hc | heq)
        · exact Or.inr (Or.inl hr)
        · exact Or.inr (Or.inr hc)
        · exact Or.inl (congrArg Event.impl (Event.ext_id heq)).symm

theorem mem_erase_iff {a : Event} (h : Consistent s l log) :
    a ∈ l.erase ev ↔ Pending log a ∧ a ≠ ev := by
  rw [h.agenda.nodup.mem_erase_iff, h.pending, and_comm]

theorem Consistent.erase (h : Consistent s l log) (pending : Pending log ev)
    (uncancelled : .cancelled ev.id ∉ log) {S' : Type} (events : S') :
    Consistent (S := S') { cancelImpl ev.impl s with
      events
      unscheduledEvents := s.unscheduledEvents - 1 } (l.erase ev) (log ++ [.removed ev]) := by
  obtain ⟨event, hev⟩ := pending.scheduled
  have himpls : ∀ (k : ℕ) (i : EventImpl α), s.impls[k]? = some i → ∃ i' : EventImpl α,
      (cancelImpl ev.impl s).impls[k]? = some i' ∧ i'.notify = i.notify := fun k i hi => by
    rw [getElem?_cancelImpl, hi]
    by_cases hk : ev.impl = k <;> simp [hk]
  have hlen : (cancelImpl ev.impl s).impls.length = s.impls.length := List.length_modify ..
  constructor
  · exact h.agenda.erase ev
  · intro a
    rw [pending_removed, mem_erase_iff h]
  · exact hlen ▸ h.uid
  · exact hlen ▸ h.currentUid
  · exact h.ts
  · intro a eventA ha
    obtain ⟨huid, hbound, i, hi, hnotify⟩ := h.scheduled a eventA (by simpa using ha)
    obtain ⟨i', hi', hsame⟩ := himpls _ i hi
    exact ⟨huid, hbound, i', hi', hsame.trans hnotify⟩
  · intro a b eventA eventB ha hb
    exact h.unique a b eventA eventB (by simpa using ha) (by simpa using hb)
  · intro e n he
    simpa using h.known e n (by simpa using he)
  · intro e he
    simp only [List.mem_append, List.mem_singleton, Entry.removed.injEq] at he
    rcases he with he | rfl
    · simpa using h.known' e he
    · exact ⟨event, List.mem_append_left _ hev⟩
  · intro id hid
    refine (h.issued id (by simpa using hid)).imp_right ?_
    rintro ⟨e, event', hs, he⟩
    exact ⟨e, event', List.mem_append_left _ hs, he⟩
  · intro e n he
    exact h.past e n (by simpa using he)
  · intro e he
    exact h.future e (List.mem_of_mem_erase he)
  · intro a eventA ha hp
    have ha' : .scheduled a eventA ∈ log := by simpa using ha
    have hflag : isCancelled a.impl (cancelImpl ev.impl s) = some true ↔
        .removed a ∈ log ++ [.removed ev] ∨ .cancelled a.id ∈ log ++ [.removed ev] := by
      rw [h.cancelled_iff ha', h.flags a eventA ha' (by simpa using hp)]
      simp only [List.mem_append, List.mem_singleton, Entry.removed.injEq, reduceCtorEq, or_false]
      constructor
      · rintro (heq | hr | hc)
        · exact Or.inl (Or.inr (h.unique a ev _ _ ha' hev heq.symm))
        · exact Or.inl (Or.inl hr)
        · exact Or.inr hc
      · rintro ((hr | heq) | hc)
        · exact Or.inr (Or.inl hr)
        · exact Or.inl (congrArg Event.impl heq).symm
        · exact Or.inr (Or.inr hc)
    exact hflag
  · have hmem := (h.pending ev).mpr pending
    have hpos := List.length_pos_of_mem hmem
    rw [List.length_erase_of_mem hmem]
    show s.unscheduledEvents - 1 = _
    rw [h.unscheduled]
    omega
  · exact h.reasons.snoc ⟨pending, uncancelled⟩

theorem Consistent.process {e : Event} (h : Consistent s (e :: l) log) (events : S) :
    Consistent (s.started e events) l (log ++ [.processed e (invoke e.impl s)]) := by
  have hpending : Pending log e := (h.pending e).mp List.mem_cons_self
  have hfirst := h.agenda.first
  have hnot := hpending.processed
  obtain ⟨event, hev⟩ := hpending.scheduled
  obtain ⟨huid, hbound, i, hi, hnotify⟩ := h.scheduled e event hev
  have hflag : i.cancel = true ↔ .cancelled e.id ∈ log := by
    have hiff := h.flags e event hev hnot
    rw [isCancelled, hi, Option.map_some, Option.some_inj] at hiff
    rw [hiff]
    exact or_iff_right hpending.removed
  have hinvoke : invoke e.impl s = if i.cancel then none else some event := by
    rw [invoke, hi, Option.bind_some, hnotify]
  constructor
  · exact h.agenda.tail
  · intro a
    rw [pending_processed, ← h.pending, List.mem_cons]
    constructor
    · intro ha
      exact ⟨Or.inr ha, fun heq => absurd (heq ▸ hfirst a ha) (lt_irrefl _)⟩
    · rintro ⟨heq | ha, hne⟩
      · exact absurd heq hne
      · exact ha
  · exact h.uid
  · show e.key.uid.toNat < s.impls.length + 4
    have hlt := h.impl_lt hev
    omega
  · exact hbound
  · intro a eventA ha
    exact h.scheduled a eventA (by simpa using ha)
  · intro a b eventA eventB ha hb
    exact h.unique a b eventA eventB (by simpa using ha) (by simpa using hb)
  · intro a n ha
    simp only [List.mem_append, List.mem_singleton, Entry.processed.injEq] at ha
    rcases ha with ha | ⟨rfl, _⟩
    · simpa using h.known a n ha
    · exact ⟨event, List.mem_append_left _ hev⟩
  · intro a ha
    simpa using h.known' a (by simpa using ha)
  · intro id hid
    refine (h.issued id (by simpa using hid)).imp_right ?_
    rintro ⟨a, event', hs, ha⟩
    exact ⟨a, event', List.mem_append_left _ hs, ha⟩
  · intro a n ha
    simp only [List.mem_append, List.mem_singleton, Entry.processed.injEq] at ha
    rcases ha with ha | ⟨rfl, _⟩
    · exact (h.past a n ha).trans (h.future e List.mem_cons_self).le
    · exact le_rfl
  · exact hfirst
  · intro a eventA ha hp
    have hiff := h.flags a eventA (by simpa using ha) fun n hn => hp n (List.mem_append_left _ hn)
    show isCancelled a.impl s = some true ↔ _
    simpa using hiff
  · show s.unscheduledEvents - 1 = _
    rw [h.unscheduled, List.length_cons]
    omega
  · refine h.reasons.snoc ⟨hpending, fun a ha => ?_, fun hc => ?_, fun hc => ⟨event, ?_, hev⟩⟩
    · exact (List.mem_cons.mp ((h.pending a).mpr ha)).imp_right (hfirst a)
    · rw [hinvoke, if_pos (hflag.mpr hc)]
    · rw [hinvoke, if_neg (fun hi => hc (hflag.mp hi))]

end Consistent

/-! ## Every run -/

/-- What the program has to see to: it schedules for a time that comes and is
a `Time`, only so many events that all numbers are different, and does not
make up an `EventId`. -/
def Proper {S α : Type} (C : Scheduler S) (st : DefaultSimulatorImpl S α × List (Entry α)) :
    Call α → Prop
  | .run | .stop => True
  | .schedule time _ | .scheduleWithContext _ time _ =>
    0 ≤ time ∧ time + st.1.currentTs.toNat < 2 ^ 63 ∧ st.1.impls.length + 5 < 2 ^ 32
  | .scheduleNow _ => st.1.impls.length + 5 < 2 ^ 32
  | .cancel id | .remove id => Issued st.2 id
  | .processOneEvent => running C st.1 = true

/-- A simulator in a run: its event list stands for the events of `l`. -/
structure Simulates {S α : Type} (Lists : ℕ → S → List Event → Prop) (s : DefaultSimulatorImpl S α)
    (l : List Event) (log : List (Entry α)) : Prop where
  lists : ∃ t ≤ s.currentTs.toNat, Lists t s.events l
  consistent : Consistent s l log

/-- The simulator with the plain list for its event list. -/
def view {S α : Type} (s : DefaultSimulatorImpl S α) (l : List Event) :
    DefaultSimulatorImpl (List Event) α := { s with events := l }

/-- A call does what it would do with a plain list. -/
structure Stepped {S α : Type} (C : Scheduler S) (Lists : ℕ → S → List Event → Prop)
    (s : DefaultSimulatorImpl S α) (l : List Event) (log : List (Entry α)) (c : Call α)
    (s' : DefaultSimulatorImpl S α) (l' : List Event) : Prop where
  step : callStep C s c = some s'
  viewStep : callStep listScheduler (view s l) c = some (view s' l')
  sees : entries listScheduler (view s l) c = entries C s c
  simulates : Simulates Lists s' l' (log ++ entries C s c)

section Steps
variable {S α : Type} {C : Scheduler S} {Lists : ℕ → S → List Event → Prop}
  {s : DefaultSimulatorImpl S α} {l : List Event} {log : List (Entry α)}

theorem Consistent.setStop (h : Consistent s l log) (stop : Bool) :
    Consistent { s with stop } l log := by
  obtain ⟨h₁, h₂, h₃, h₄, h₅, h₆, h₇, h₈, h₉, h₁₀, h₁₁, h₁₂, h₁₃, h₁₄, h₁₅⟩ := h
  exact ⟨h₁, h₂, h₃, h₄, h₅, h₆, h₇, h₈, h₉, h₁₀, h₁₁, h₁₂, h₁₃, h₁₄, h₁₅⟩

theorem Simulates.insert (serves : C.Serves Lists) (h : Simulates Lists s l log)
    (room : s.impls.length + 5 < 2 ^ 32) {ts : UInt64} (hts : s.currentTs ≤ ts)
    (hbound : ts.toNat < 2 ^ 63) (context : UInt32) (event : α) :
    ∃ s', insertEvent C ts context event s = some s' ∧
      insertEvent listScheduler ts context event (view s l) =
        some (view s' (ListScheduler.insert l (nextEvent s ts context))) ∧
      Simulates Lists s' (ListScheduler.insert l (nextEvent s ts context))
        (log ++ [.scheduled (nextEvent s ts context) event]) := by
  obtain ⟨⟨t, ht, hlists⟩, hconsistent⟩ := h
  have hfresh : ∀ e ∈ l, e.key.uid ≠ (nextEvent s ts context).key.uid := fun e he => by
    obtain ⟨event', hs⟩ := ((hconsistent.pending e).mp he).scheduled
    exact UInt32.ne_of_lt (hconsistent.fresh hs ts context).1
  have hlater : t ≤ (nextEvent s ts context).key.ts.toNat := ht.trans (UInt64.le_iff_toNat_le.mp hts)
  obtain ⟨events, hinsert, hlists'⟩ := serves.insert hlists hlater hfresh
  refine ⟨{ s with
    events
    impls := s.impls ++ [⟨event, false⟩]
    uid := s.uid + 1
    unscheduledEvents := s.unscheduledEvents + 1 }, ?_, rfl, ⟨t, ht, hlists'⟩, ?_⟩
  · rw [insertEvent, hinsert]
    rfl
  · exact hconsistent.insert room hts hbound context event events

theorem absolute_eq {time : ℤ} (htime : 0 ≤ time) (hbound : time + s.currentTs.toNat < 2 ^ 63) :
    ∃ ts, absolute time s = some ts ∧ s.currentTs ≤ ts ∧ ts.toNat < 2 ^ 63 ∧
      s.currentTs + UInt64.ofInt time = ts ∧ (ts.toNat : ℤ) = s.currentTs.toNat + time := by
  obtain ⟨n, rfl⟩ := Int.eq_ofNat_of_zero_le htime
  have hlt : n + s.currentTs.toNat < 2 ^ 63 := by omega
  have hnat : (UInt64.ofNat (n + s.currentTs.toNat)).toNat = n + s.currentTs.toNat :=
    UInt64.toNat_ofNat_of_lt' (show _ < 2 ^ 64 by omega)
  refine ⟨UInt64.ofNat (n + s.currentTs.toNat), ?_, UInt64.le_iff_toNat_le.mpr (by omega), by omega, ?_,
    by omega⟩
  · rw [absolute, if_pos ⟨by omega, by omega, by omega⟩]
    rfl
  · refine UInt64.toNat_inj.mp ?_
    have hofInt : (UInt64.ofInt (n : ℤ)).toNat = n := by
      rw [UInt64.ofInt, UInt64.toNat_ofNat_of_lt' (show _ < 2 ^ 64 by omega)]
      omega
    rw [UInt64.toNat_add, hofInt, hnat]
    omega

theorem cancel_view (id : EventId) : cancel id (view s l) = (cancel id s).map fun s' => view s' l := by
  have hexpired : isExpired id (view s l) = isExpired id s := rfl
  rw [cancel, cancel, hexpired]
  cases isExpired id s with
  | none => rfl
  | some expired =>
    cases expired with
    | true => rfl
    | false => cases id.eventImpl <;> simp [view, cancelImpl]

/-- The first event is not in the past. -/
theorem Simulates.not_before {e : Event} (h : Simulates Lists s (e :: l) log) :
    ¬ e.key.ts < s.currentTs := by
  have hlt := h.consistent.future e List.mem_cons_self
  rw [current, Event.rank, Prod.Lex.toLex_lt_toLex] at hlt
  rw [UInt64.lt_iff_toNat_lt]
  simp only at hlt
  omega

theorem Simulates.next (serves : C.Serves Lists) (h : Simulates Lists s l log)
    (hrunning : running C s = true) : ∃ e l', l = e :: l' := by
  obtain ⟨t, _, hlists⟩ := h.lists
  rw [running, serves.isEmpty hlists, Bool.and_eq_true] at hrunning
  cases l with
  | nil => cases hrunning.1
  | cons e l => exact ⟨e, l, rfl⟩

theorem Simulates.process (serves : C.Serves Lists) {e : Event} (h : Simulates Lists s (e :: l) log) :
    ∃ events, C.removeNext s.events = some (e, events) ∧
      processOneEvent C s = some (e, s.started e events) ∧
      Simulates Lists (s.started e events) l (log ++ [.processed e (invoke e.impl s)]) := by
  obtain ⟨t, _, hlists⟩ := h.lists
  obtain ⟨events, hremove, hlists'⟩ := serves.removeNext hlists
  refine ⟨events, hremove, ?_, ⟨_, le_rfl, hlists'⟩, h.consistent.process events⟩
  rw [processOneEvent, hremove]
  exact if_neg h.not_before

/-- `Remove`: nothing happens to an event that has expired. -/
theorem Simulates.removed (h : Simulates Lists s l log) {id : EventId}
    (proper : Proper C (s, log) (.remove id)) (refines : C.Refines Lists) :
    ∃ s' l', Stepped C Lists s l log (.remove id) s' l' := by
  have hlists := h.lists
  have hconsistent := h.consistent
  have hexpired' : isExpired id (view s l) = isExpired id s := rfl
  have stay : isExpired id s = some true → ∃ s' l', Stepped C Lists s l log (.remove id) s' l' := by
    intro hexpired
    refine ⟨s, l, ?_, ?_, ?_, hlists, ?_⟩
    · rw [callStep, remove, hexpired]
      rfl
    · rw [callStep, remove, hexpired', hexpired]
      rfl
    · rw [entries, entries, hexpired']
    · rw [entries, hexpired]
      simpa using hconsistent
  rcases proper with hnone | ⟨e, event, he, rfl⟩
  · exact stay (by rw [isExpired, hnone])
  · obtain ⟨expired, hexpired, hiff⟩ := hconsistent.isExpired he
    cases expired with
    | true => exact stay hexpired
    | false =>
      obtain ⟨hpending, huncancelled⟩ := hiff.mp rfl
      obtain ⟨t, ht, hlists⟩ := hlists
      have hmem := (hconsistent.pending e).mpr hpending
      obtain ⟨events, hremove, hlists'⟩ := refines.remove hlists hmem
      refine ⟨{ cancelImpl e.impl s with
        events
        unscheduledEvents := s.unscheduledEvents - 1 }, l.erase e, ?_, ?_, ?_, ⟨t, ht, hlists'⟩, ?_⟩
      · rw [callStep, remove, hexpired]
        show (C.remove s.events e).bind _ = _
        rw [hremove]
        rfl
      · rw [callStep, remove, hexpired', hexpired]
        show (ListScheduler.remove l e).bind _ = _
        rw [removeList_eq hconsistent.agenda hmem]
        rfl
      · rw [entries, entries, hexpired']
      · rw [entries, if_pos hexpired]
        exact hconsistent.erase hpending huncancelled events

/-- `ProcessOneEvent`, while the loop of `Run` goes on. -/
theorem Simulates.processed (serves : C.Serves Lists) (h : Simulates Lists s l log)
    (hrunning : running C s = true) : ∃ s' l', Stepped C Lists s l log .processOneEvent s' l' := by
  obtain ⟨e, l', rfl⟩ := h.next serves hrunning
  obtain ⟨events, hremove, hprocess, hsim⟩ := h.process serves
  have hrun' : running listScheduler (view s (e :: l')) = true := by
    rw [running, Bool.and_eq_true] at hrunning ⊢
    exact ⟨rfl, hrunning.2⟩
  have hentries : entries C s .processOneEvent = [.processed e (invoke e.impl s)] := by
    rw [entries, hremove]
    rfl
  refine ⟨s.started e events, l', ?_, ?_, ?_, ?_⟩
  · rw [callStep, if_pos hrunning, hprocess, Option.map_some]
  · rw [callStep, if_pos hrun']
    exact congrArg _ (if_neg h.not_before)
  · rw [hentries]
    rfl
  · rw [hentries]
    exact hsim

/-- One call. -/
theorem Simulates.step (serves : C.Serves Lists) (h : Simulates Lists s l log) {c : Call α}
    (proper : Proper C (s, log) c) (removes : (∀ id, c ≠ .remove id) ∨ C.Refines Lists) :
    ∃ s' l', Stepped C Lists s l log c s' l' := by
  have hlists := h.lists
  have hconsistent := h.consistent
  cases c with
  | run =>
    refine ⟨{ s with stop := false }, l, rfl, rfl, rfl, hlists, ?_⟩
    rw [entries, List.append_nil]
    exact hconsistent.setStop false
  | stop =>
    refine ⟨{ s with stop := true }, l, rfl, rfl, rfl, hlists, ?_⟩
    rw [entries, List.append_nil]
    exact hconsistent.setStop true
  | schedule time event =>
    obtain ⟨htime, hbound, room⟩ := proper
    obtain ⟨ts, habs, hts, hlt, _⟩ := absolute_eq htime hbound
    have habs' : absolute time (view s l) = some ts := habs
    obtain ⟨s', hs', hview, hsim⟩ := h.insert serves room hts hlt s.currentContext event
    refine ⟨s', ListScheduler.insert l (nextEvent s ts s.currentContext), ?_, ?_, ?_, ?_⟩
    · rw [callStep, schedule, habs]
      exact hs'
    · rw [callStep, schedule, habs']
      exact hview
    · rw [entries, entries, habs, habs']
      rfl
    · rw [entries, habs]
      exact hsim
  | scheduleNow event =>
    obtain ⟨s', hs', hview, hsim⟩ :=
      h.insert serves proper (UInt64.le_refl _) hconsistent.ts s.currentContext event
    exact ⟨s', _, hs', hview, rfl, hsim⟩
  | scheduleWithContext context time event =>
    obtain ⟨htime, hbound, room⟩ := proper
    obtain ⟨ts, _, hts, hlt, hsum, _⟩ := absolute_eq htime hbound
    obtain ⟨s', hs', hview, hsim⟩ := h.insert serves room hts hlt context event
    refine ⟨s', ListScheduler.insert l (nextEvent s ts context), ?_, ?_, rfl, ?_⟩
    · rw [callStep, scheduleWithContext, hsum]
      exact hs'
    · rw [callStep, scheduleWithContext]
      show insertEvent listScheduler (s.currentTs + UInt64.ofInt time) _ _ _ = _
      rw [hsum]
      exact hview
    · rw [entries, hsum]
      exact hsim
  | cancel id =>
    obtain ⟨s', hs', hconsistent', hflag⟩ := hconsistent.cancel proper
    refine ⟨s', l, hs', ?_, rfl, ?_, hconsistent'⟩
    · rw [callStep, cancel_view, hs']
      rfl
    · rcases hflag with rfl | ⟨_, rfl⟩ <;> exact hlists
  | remove id => exact h.removed proper (removes.resolve_left fun h => h _ rfl)
  | processOneEvent => exact h.processed serves proper

end Steps

/-- **The simulator.** In every run of calls, with any event list that does
what it should (a heap, if nothing is removed), no assertion fails and nothing
is undefined. What happens is what happens with a plain list: an event is
processed when it is the first of those scheduled and neither processed nor
removed before it, and is then notified unless it has been cancelled; so every
event comes in the order of times, and of calls for one time, and is still
pending, or processed once, or removed. `IsExpired` is exact, and the count that
`Run` asserts to be zero in the end is the number of events pending. -/
theorem simulator_runs {S α : Type} (C : Scheduler S) (Lists : ℕ → S → List Event → Prop)
    (serves : C.Serves Lists) (calls : List (Call α))
    (removes : (∀ id, .remove id ∉ calls) ∨ C.Refines Lists)
    (proper : Allows (loggedStep C) (Proper C) (create C α, []) calls) :
    ∃ s log, run (loggedStep C) (create C α, []) calls = some (s, log) ∧
      (∃ s₀, run (loggedStep listScheduler) (create listScheduler α, []) calls = some (s₀, log)) ∧
      Justified Reason log ∧
      (∃ l, (∃ t, Lists t s.events l) ∧ Agenda l ∧ (∀ ev, ev ∈ l ↔ Pending log ev) ∧
        s.unscheduledEvents = l.length) ∧
      ∀ ev event, .scheduled ev event ∈ log → ∃ expired, isExpired ev.id s = some expired ∧
        (expired = false ↔ Pending log ev ∧ .cancelled ev.id ∉ log) := by
  have start : Simulates Lists (create C α) [] [] :=
    ⟨⟨0, Nat.zero_le _, serves.create⟩, .create C⟩
  obtain ⟨⟨s, log⟩, hrun, l, hview, hsim⟩ : ∃ st, run (loggedStep C) (create C α, []) calls = some st ∧
      ∃ l, run (loggedStep listScheduler) (create listScheduler α, []) calls =
        some (view st.1 l, st.2) ∧
        Simulates Lists st.1 l st.2 := by
    induction calls using List.reverseRecOn with
    | nil => exact ⟨_, rfl, [], rfl, start⟩
    | append_singleton calls c ih =>
      obtain ⟨⟨s, log⟩, hrun, l, hview, hsim⟩ := ih
        (removes.imp_left fun hno id hid => hno id (List.mem_append_left _ hid))
        fun pre e t hp => proper pre e t (hp.trans (List.prefix_append calls [c]))
      obtain ⟨s', l', hstep⟩ := hsim.step serves (proper calls c (s, log) (List.prefix_refl _) hrun)
        (removes.imp_left fun hno id hid => hno id (by simp [hid]))
      refine ⟨(s', log ++ entries C s c), run_snoc.mpr ⟨_, hrun, ?_⟩, l',
        run_snoc.mpr ⟨_, hview, ?_⟩, hstep.simulates⟩
      · rw [loggedStep, logged, hstep.step, Option.map_some]
      · rw [loggedStep, logged, hstep.viewStep, Option.map_some, hstep.sees]
  have hconsistent := hsim.consistent
  obtain ⟨t, _, hlists⟩ := hsim.lists
  exact ⟨s, log, hrun, ⟨_, hview⟩, hconsistent.reasons, ⟨l, ⟨t, hlists⟩, hconsistent.agenda,
    hconsistent.pending, hconsistent.unscheduled⟩, fun ev event hev => hconsistent.isExpired hev⟩

/-! ## A run -/

section Check
variable {S α : Type} (C : Scheduler S)

/-- `Proper`, to be evaluated. -/
def properCheck (st : DefaultSimulatorImpl S α × List (Entry α)) : Call α → Bool
  | .run | .stop => true
  | .schedule time _ | .scheduleWithContext _ time _ =>
    decide (0 ≤ time ∧ time + st.1.currentTs.toNat < 2 ^ 63 ∧ st.1.impls.length + 5 < 2 ^ 32)
  | .scheduleNow _ => decide (st.1.impls.length + 5 < 2 ^ 32)
  | .cancel id | .remove id => id.eventImpl.isNone || st.2.any fun
    | .scheduled ev _ => decide (id = ev.id)
    | _ => false
  | .processOneEvent => running C st.1

theorem proper_of_check {st : DefaultSimulatorImpl S α × List (Entry α)} {c : Call α}
    (h : properCheck C st c = true) : Proper C st c := by
  have issued : ∀ id : EventId, (id.eventImpl.isNone || st.2.any fun
      | .scheduled ev _ => decide (id = ev.id)
      | _ => false) = true → Issued st.2 id := by
    intro id hid
    rcases Bool.or_eq_true_iff.mp hid with hnone | hany
    · exact Or.inl (Option.isNone_iff_eq_none.mp hnone)
    · obtain ⟨entry, hentry, hmatch⟩ := List.any_eq_true.mp hany
      cases entry with
      | scheduled ev event => exact Or.inr ⟨ev, event, hentry, of_decide_eq_true hmatch⟩
      | cancelled _ => cases hmatch
      | removed _ => cases hmatch
      | processed _ _ => cases hmatch
  cases c with
  | run => trivial
  | stop => trivial
  | schedule _ _ => simpa only [properCheck, Proper, decide_eq_true_eq] using h
  | scheduleNow _ => simpa only [properCheck, Proper, decide_eq_true_eq] using h
  | scheduleWithContext _ _ _ => simpa only [properCheck, Proper, decide_eq_true_eq] using h
  | cancel id => exact issued id h
  | remove id => exact issued id h
  | processOneEvent => exact h

end Check

/-- Three events; one is cancelled, and one removed. -/
def threeEvents : List (Call ℕ) :=
  [.schedule 10 0, .scheduleWithContext 1 5 1, .scheduleNow 2, .cancel ⟨some 1, 5, 1, 5⟩, .run,
    .processOneEvent, .processOneEvent, .remove ⟨some 0, 10, 0xffffffff, 4⟩]

theorem simulator_runs_three : ∃ s log,
    run (loggedStep mapScheduler) (create mapScheduler ℕ, []) threeEvents = some (s, log) ∧
      Justified Reason log ∧ s.unscheduledEvents = 0 := by
  obtain ⟨s, log, hrun, _, hreasons, _⟩ := simulator_runs mapScheduler _ mapScheduler_refines.toServes
    threeEvents (Or.inr mapScheduler_refines) (allows_of_checkRun (c := properCheck mapScheduler)
      (fun _ _ => proper_of_check mapScheduler) (by decide +kernel))
  have hcount : ((run (loggedStep mapScheduler) (create mapScheduler ℕ, []) threeEvents).map fun st =>
      st.1.unscheduledEvents) = some 0 := by decide +kernel
  rw [hrun, Option.map_some, Option.some_inj] at hcount
  exact ⟨s, log, hrun, hreasons, hcount⟩

/-! ## `HeapScheduler::Remove` -/

/-- Seven events in their order. -/
def sevenEvents : List Event :=
  [⟨0, ⟨1, 4, 0⟩⟩, ⟨2, ⟨2, 6, 0⟩⟩, ⟨6, ⟨3, 10, 0⟩⟩, ⟨1, ⟨10, 5, 0⟩⟩, ⟨3, ⟨11, 7, 0⟩⟩, ⟨4, ⟨12, 8, 0⟩⟩,
    ⟨5, ⟨20, 9, 0⟩⟩]

/-- The heap they make when they are inserted in the order of their numbers. -/
def sevenHeap : List Event :=
  [⟨0, ⟨0, 0, 0⟩⟩, ⟨0, ⟨1, 4, 0⟩⟩, ⟨1, ⟨10, 5, 0⟩⟩, ⟨2, ⟨2, 6, 0⟩⟩, ⟨3, ⟨11, 7, 0⟩⟩, ⟨4, ⟨12, 8, 0⟩⟩,
    ⟨5, ⟨20, 9, 0⟩⟩, ⟨6, ⟨3, 10, 0⟩⟩]

theorem sevenHeap_lists : HeapScheduler.Lists sevenHeap sevenEvents := by
  have hparents : ∀ c < 8, 2 ≤ c → ∀ a ∈ sevenHeap[c / 2]?, ∀ b ∈ sevenHeap[c]?,
      b.key.less a.key = false := by decide
  have hsorted : sevenEvents.Pairwise fun a b => a.key.less b.key = true := by decide
  refine ⟨fun c hc a b ha hb => ?_, ⟨_, _, rfl, by decide⟩, hsorted.imp less_iff.mp, by decide⟩
  obtain ⟨hlt, _⟩ := List.getElem?_eq_some_iff.mp hb
  exact not_less_iff.mp (hparents c hlt hc a ha b hb)

/-- Seven events, of which the fourth is removed. -/
def removedFromHeap : List (Call ℕ) :=
  [.schedule 1 0, .schedule 10 1, .schedule 2 2, .schedule 11 3, .schedule 12 4, .schedule 20 5,
    .schedule 3 6, .remove ⟨some 3, 11, 0xffffffff, 7⟩, .run] ++ List.replicate 4 .processOneEvent

/-- **`HeapScheduler`.** It does what it should as long as nothing is removed.
`Remove` takes out its event and no other, but puts the last event in the place
and looks only downwards: what is left is a heap if and only if that event does
not come before the parent of the place. -/
theorem heap_remove : heapScheduler.Serves (fun _ => HeapScheduler.Lists) ∧
    ∀ (heap l : List Event) (ev : Event) (i : ℕ), HeapScheduler.Lists heap l → 1 ≤ i →
      heap[i]? = some ev → ∃ heap', heapScheduler.remove heap ev = some heap' ∧
        heap'.tail.Perm (l.erase ev) ∧
        (HeapScheduler.Lists heap' (l.erase ev) ↔ (2 ≤ i → ∀ parent moved,
          heap[i / 2]? = some parent → heap.getLast? = some moved → parent.rank ≤ moved.rank)) :=
  ⟨heapScheduler_serves, fun _ _ _ _ h hi hev => HeapScheduler.remove_lists h hi hev⟩

theorem heap_remove_seven : ∃ heap', heapScheduler.remove sevenHeap ⟨3, ⟨11, 7, 0⟩⟩ = some heap' ∧
    heap'.tail.Perm (sevenEvents.erase ⟨3, ⟨11, 7, 0⟩⟩) ∧
    ¬ HeapScheduler.Lists heap' (sevenEvents.erase ⟨3, ⟨11, 7, 0⟩⟩) := by
  obtain ⟨_, hremove⟩ := heap_remove
  obtain ⟨heap', hheap', hperm, hlists⟩ :=
    hremove sevenHeap sevenEvents ⟨3, ⟨11, 7, 0⟩⟩ 4 sevenHeap_lists (by decide) rfl
  refine ⟨heap', hheap', hperm, fun h => ?_⟩
  -- the last event comes before the parent of the place
  have hle := hlists.mp h (by decide) ⟨1, ⟨10, 5, 0⟩⟩ ⟨6, ⟨3, 10, 0⟩⟩ rfl rfl
  have hless : (⟨3, 10, 0⟩ : EventKey).less ⟨10, 5, 0⟩ = false := not_less_iff.mpr hle
  cases hless

/-- With a heap, the events then come in the wrong order, and an assertion of
`ProcessOneEvent` fails. -/
example : run (callStep heapScheduler) (create heapScheduler ℕ) removedFromHeap = none ∧
    (run (callStep mapScheduler) (create mapScheduler ℕ) removedFromHeap).isSome = true := by
  constructor
  · decide +kernel
  · decide +kernel

end Ns3Routing.Sim
