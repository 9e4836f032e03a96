import Ns3Routing.Lib.Heap
import Mathlib.Data.Prod.Lex
import Mathlib.Data.List.Sort
import Mathlib.Data.List.Pairwise

/-! # The simulator's event lists

`Scheduler` is the virtual class. An event list stands for the list of its
events in the order of their keys (`Agenda`); `Scheduler.Refines` says that the
operations do what they should to that list. -/

namespace Ns3Routing.Sim

open Lib

structure EventKey where
  ts : UInt64
  uid : UInt32
  context : UInt32
deriving DecidableEq, Repr

/-- `operator <`. -/
def EventKey.less (a b : EventKey) : Bool :=
  if a.ts < b.ts then true
  else if a.ts == b.ts && a.uid < b.uid then true
  else false

/-- An event; `impl` is the pointer to its `EventImpl`. -/
structure Event where
  impl : ℕ
  key : EventKey
deriving DecidableEq, Repr

/-- What the keys are compared by. -/
def Event.rank (ev : Event) : ℕ ×ₗ ℕ := toLex (ev.key.ts.toNat, ev.key.uid.toNat)

theorem less_iff {a b : Event} : a.key.less b.key = true ↔ a.rank < b.rank := by
  rw [Event.rank, Event.rank, Prod.Lex.toLex_lt_toLex, EventKey.less]
  by_cases hlt : a.key.ts < b.key.ts
  · simp [hlt, UInt64.lt_iff_toNat_lt.mp hlt]
  · have hnot : ¬ a.key.ts.toNat < b.key.ts.toNat := fun h => hlt (UInt64.lt_iff_toNat_lt.mpr h)
    simp [hlt, hnot, UInt64.toNat_inj, UInt32.lt_iff_toNat_lt]

theorem not_less_iff {a b : Event} : a.key.less b.key = false ↔ b.rank ≤ a.rank := by
  rw [← not_lt, ← less_iff, Bool.not_eq_true]

/-- The virtual class `Scheduler`. -/
structure Scheduler (S : Type) where
  create : S
  insert : S → Event → Option S
  isEmpty : S → Bool
  peekNext : S → Option Event
  removeNext : S → Option (Event × S)
  remove : S → Event → Option S

/-! ## `ListScheduler` -/

namespace ListScheduler

def insert : List Event → Event → List Event
  | [], ev => [ev]
  | i :: events, ev => if ev.key.less i.key then ev :: i :: events else i :: insert events ev

def remove : List Event → Event → Option (List Event)
  | [], _ => none
  | i :: events, ev =>
    if i.key.uid == ev.key.uid then
      if ev.impl == i.impl then some events else none
    else (remove events ev).map (i :: ·)

end ListScheduler

def listScheduler : Scheduler (List Event) where
  create := []
  insert events ev := some (ListScheduler.insert events ev)
  isEmpty events := events.isEmpty
  peekNext events := events.head?
  removeNext
    | [] => none
    | next :: events => some (next, events)
  remove := ListScheduler.remove

/-! ## `MapScheduler`

The map is the list of its entries, in the order of the keys. -/

namespace MapScheduler

/-- `std::map::insert`; `none` when the key is there. -/
def insert : List Event → Event → Option (List Event)
  | [], ev => some [ev]
  | i :: map, ev =>
    if ev.key.less i.key then some (ev :: i :: map)
    else if i.key.less ev.key then (insert map ev).map (i :: ·)
    else none

/-- `std::map::find` and `erase`. -/
def remove : List Event → Event → Option (List Event)
  | [], _ => none
  | i :: map, ev =>
    if i.key.less ev.key then (remove map ev).map (i :: ·)
    else if ev.key.less i.key then none
    else if i.impl == ev.impl then some map
    else none

end MapScheduler

def mapScheduler : Scheduler (List Event) where
  create := []
  insert := MapScheduler.insert
  isEmpty map := map.isEmpty
  peekNext map := map.head?
  removeNext
    | [] => none
    | next :: map => some (next, map)
  remove := MapScheduler.remove

/-! ## `HeapScheduler`

The indices are `uint32_t` in the source, and no index is greater than
`2 * id + 1` for a place `id` of the heap: these are the same numbers for a heap
of fewer than 2^31 events. -/

namespace HeapScheduler

def parent (id : ℕ) : ℕ := id / 2

def leftChild (id : ℕ) : ℕ := id * 2

def rightChild (id : ℕ) : ℕ := id * 2 + 1

def root : ℕ := 1

def isRoot (id : ℕ) : Bool := id == root

def last (heap : List Event) : ℕ := heap.length - 1

def isBottom (heap : List Event) (id : ℕ) : Bool := decide (heap.length ≤ id)

def isLessStrictly (heap : List Event) (a b : ℕ) : Option Bool := do
  let x ← heap[a]?
  let y ← heap[b]?
  some (x.key.less y.key)

def smallest (heap : List Event) (a b : ℕ) : Option ℕ :=
  (isLessStrictly heap a b).map fun less => if less then a else b

/-- The loop of `BottomUp`, from `index`. -/
def bottomUpFrom : ℕ → List Event → ℕ → Option (List Event)
  | 0, _, _ => none
  | fuel + 1, heap, index =>
    if isRoot index then some heap
    else do
      if ← isLessStrictly heap index (parent index) then
        bottomUpFrom fuel (← exchange heap index (parent index)) (parent index)
      else some heap

def bottomUp (heap : List Event) : Option (List Event) :=
  bottomUpFrom heap.length heap (last heap)

/-- `TopDown` with its loop at `index`. -/
def topDownFrom : ℕ → List Event → ℕ → Option (List Event)
  | 0, _, _ => none
  | fuel + 1, heap, index =>
    if isBottom heap (rightChild index) then
      if isBottom heap index then some heap
      else if isBottom heap (leftChild index) then some heap
      else do
        if ← isLessStrictly heap index (leftChild index) then some heap
        else exchange heap index (leftChild index)
    else do
      let tmp ← smallest heap (leftChild index) (rightChild index)
      if ← isLessStrictly heap index tmp then some heap
      else topDownFrom fuel (← exchange heap index tmp) tmp

def topDown (heap : List Event) (start : ℕ) : Option (List Event) :=
  topDownFrom (heap.length + 1) heap start

def insert (heap : List Event) (ev : Event) : Option (List Event) :=
  bottomUp (heap ++ [ev])

def removeNext (heap : List Event) : Option (Event × List Event) := do
  let next ← heap[root]?
  let heap ← exchange heap root (last heap)
  let heap ← topDown heap.dropLast root
  some (next, heap)

/-- The place `Remove` finds the event at, from place `i` on. -/
def findFrom (uid : UInt32) : ℕ → List Event → Option (ℕ × Event)
  | _, [] => none
  | i, e :: heap => if uid == e.key.uid then some (i, e) else findFrom uid (i + 1) heap

def remove (heap : List Event) (ev : Event) : Option (List Event) := do
  let (i, e) ← findFrom ev.key.uid 1 heap.tail
  if e.impl == ev.impl then
    let heap ← exchange heap i (last heap)
    topDown heap.dropLast i
  else none

end HeapScheduler

def heapScheduler : Scheduler (List Event) where
  create := [⟨0, ⟨0, 0, 0⟩⟩]
  insert := HeapScheduler.insert
  isEmpty heap := heap.length == 1
  peekNext heap := heap[HeapScheduler.root]?
  removeNext := HeapScheduler.removeNext
  remove := HeapScheduler.remove

/-! ## What an event list stands for -/

/-- Events in the order of their keys, each with its own number. -/
structure Agenda (l : List Event) : Prop where
  sorted : l.Pairwise fun a b => a.rank < b.rank
  numbered : l.Pairwise fun a b => a.key.uid ≠ b.key.uid

/-- An event list, related to its events and the time of the event taken last,
does what it should as long as nothing is removed. -/
structure Scheduler.Serves {S : Type} (C : Scheduler S) (Lists : ℕ → S → List Event → Prop) : Prop where
  agenda : ∀ {t s l}, Lists t s l → Agenda l
  create : Lists 0 C.create []
  insert : ∀ {t s l ev}, Lists t s l → t ≤ ev.key.ts.toNat → (∀ e ∈ l, e.key.uid ≠ ev.key.uid) →
    ∃ s', C.insert s ev = some s' ∧ Lists t s' (ListScheduler.insert l ev)
  isEmpty : ∀ {t s l}, Lists t s l → C.isEmpty s = l.isEmpty
  peekNext : ∀ {t s e l}, Lists t s (e :: l) → C.peekNext s = some e
  removeNext : ∀ {t s e l}, Lists t s (e :: l) →
    ∃ s', C.removeNext s = some (e, s') ∧ Lists e.key.ts.toNat s' l

/-- An event list that does what it should. -/
structure Scheduler.Refines {S : Type} (C : Scheduler S) (Lists : ℕ → S → List Event → Prop) : Prop
    extends C.Serves Lists where
  remove : ∀ {t s l ev}, Lists t s l → ev ∈ l →
    ∃ s', C.remove s ev = some s' ∧ Lists t s' (l.erase ev)

section Agenda
variable {l : List Event} {ev e : Event}

theorem insert_eq (l : List Event) (ev : Event) :
    ListScheduler.insert l ev = l.orderedInsert (fun a b => a.key.less b.key = true) ev := by
  induction l with
  | nil => rfl
  | cons i l ih => rw [ListScheduler.insert, List.orderedInsert, ih]

theorem insert_perm (l : List Event) (ev : Event) : (ListScheduler.insert l ev).Perm (ev :: l) := by
  rw [insert_eq]
  exact List.perm_orderedInsert _ _ _

theorem Agenda.nil : Agenda [] := ⟨.nil, .nil⟩

theorem Agenda.tail (h : Agenda (e :: l)) : Agenda l := ⟨h.sorted.tail, h.numbered.tail⟩

theorem Agenda.first (h : Agenda (e :: l)) : ∀ x ∈ l, e.rank < x.rank :=
  (List.pairwise_cons.mp h.sorted).1

theorem Agenda.erase (h : Agenda l) (ev : Event) : Agenda (l.erase ev) :=
  ⟨h.sorted.sublist List.erase_sublist, h.numbered.sublist List.erase_sublist⟩

theorem Agenda.nodup (h : Agenda l) : l.Nodup :=
  h.sorted.imp fun hlt heq => absurd (heq ▸ hlt) (lt_irrefl _)

/-- Events with one number are one event. -/
theorem Agenda.eq_of_uid (h : Agenda l) {a b : Event} (ha : a ∈ l) (hb : b ∈ l)
    (huid : a.key.uid = b.key.uid) : a = b := by
  by_contra hne
  have : Std.Symm fun a b : Event => a.key.uid ≠ b.key.uid := ⟨fun _ _ => Ne.symm⟩
  exact h.numbered.forall ha hb hne huid

theorem rank_ne_of_uid {a b : Event} (h : a.key.uid ≠ b.key.uid) : a.rank ≠ b.rank := by
  intro heq
  have huid := congrArg (fun r => (ofLex r).2) heq
  exact h (UInt32.toNat_inj.mp huid)

theorem Agenda.insert (h : Agenda l) (fresh : ∀ e ∈ l, e.key.uid ≠ ev.key.uid) :
    Agenda (ListScheduler.insert l ev) := by
  have hnumbered : (ev :: l).Pairwise fun a b => a.key.uid ≠ b.key.uid :=
    List.pairwise_cons.mpr ⟨fun e he => (fresh e he).symm, h.numbered⟩
  refine ⟨?_, ((insert_perm l ev).pairwise_iff fun hne => hne.symm).mpr hnumbered⟩
  induction l with
  | nil => exact List.pairwise_singleton _ _
  | cons i l ih =>
    rw [ListScheduler.insert]
    split
    · rename_i hless
      have hlt := less_iff.mp hless
      refine List.pairwise_cons.mpr ⟨fun x hx => ?_, h.sorted⟩
      rcases List.mem_cons.mp hx with rfl | hx
      · exact hlt
      · exact hlt.trans (h.first x hx)
    · rename_i hless
      have hle := not_less_iff.mp (Bool.not_eq_true _ ▸ hless)
      have hlt := lt_of_le_of_ne hle (rank_ne_of_uid (fresh i List.mem_cons_self))
      have hrest := List.pairwise_cons.mp hnumbered
      refine List.pairwise_cons.mpr ⟨fun x hx => ?_, ih h.tail (fun e he =>
        fresh e (List.mem_cons_of_mem _ he)) (List.pairwise_cons.mpr ⟨fun x hx =>
          hrest.1 x (List.mem_cons_of_mem _ hx), hrest.2.tail⟩)⟩
      rcases List.mem_cons.mp ((insert_perm l ev).subset hx) with rfl | hx
      · exact hlt
      · exact h.first x hx

end Agenda

/-! ## Lists and maps -/

theorem removeList_eq {l : List Event} {ev : Event} (h : Agenda l) (hev : ev ∈ l) :
    ListScheduler.remove l ev = some (l.erase ev) := by
  induction l with
  | nil => cases hev
  | cons i l ih =>
    rw [ListScheduler.remove]
    by_cases huid : i.key.uid = ev.key.uid
    · obtain rfl := h.eq_of_uid List.mem_cons_self hev huid
      simp
    · have hne : i ≠ ev := fun heq => huid (heq ▸ rfl)
      have hmem : ev ∈ l := (List.mem_cons.mp hev).resolve_left (Ne.symm hne)
      simp [huid, ih h.tail hmem, List.erase_cons_tail, hne]

theorem listScheduler_refines : listScheduler.Refines fun _ events l => events = l ∧ Agenda l where
  agenda h := h.2
  create := ⟨rfl, .nil⟩
  insert h _ fresh := by
    obtain ⟨rfl, hl⟩ := h
    exact ⟨_, rfl, rfl, hl.insert fresh⟩
  isEmpty h := by rw [h.1]; rfl
  peekNext h := by rw [h.1]; rfl
  removeNext h := by
    obtain ⟨rfl, hl⟩ := h
    exact ⟨_, rfl, rfl, hl.tail⟩
  remove h hev := by
    obtain ⟨rfl, hl⟩ := h
    exact ⟨_, removeList_eq hl hev, rfl, hl.erase _⟩

theorem insertMap_eq {l : List Event} {ev : Event} (fresh : ∀ e ∈ l, e.key.uid ≠ ev.key.uid) :
    MapScheduler.insert l ev = some (ListScheduler.insert l ev) := by
  induction l with
  | nil => rfl
  | cons i l ih =>
    rw [MapScheduler.insert, ListScheduler.insert]
    by_cases hless : ev.key.less i.key = true
    · simp [hless]
    · have hle := not_less_iff.mp (Bool.not_eq_true _ ▸ hless)
      have hlt : i.key.less ev.key = true :=
        less_iff.mpr (lt_of_le_of_ne hle (rank_ne_of_uid (fresh i List.mem_cons_self)))
      simp [hless, hlt, ih fun e he => fresh e (List.mem_cons_of_mem _ he)]

theorem removeMap_eq {l : List Event} {ev : Event} (h : Agenda l) (hev : ev ∈ l) :
    MapScheduler.remove l ev = some (l.erase ev) := by
  induction l with
  | nil => cases hev
  | cons i l ih =>
    rw [MapScheduler.remove]
    rcases List.mem_cons.mp hev with rfl | hmem
    · have hnot : ev.key.less ev.key = false := not_less_iff.mpr le_rfl
      simp [hnot]
    · have hlt := h.first ev hmem
      have hne : i ≠ ev := fun heq => absurd (heq ▸ hlt) (lt_irrefl _)
      simp [less_iff.mpr hlt, ih h.tail hmem, List.erase_cons_tail, hne]

theorem mapScheduler_refines : mapScheduler.Refines fun _ map l => map = l ∧ Agenda l where
  agenda h := h.2
  create := ⟨rfl, .nil⟩
  insert h _ fresh := by
    obtain ⟨rfl, hl⟩ := h
    exact ⟨_, insertMap_eq fresh, rfl, hl.insert fresh⟩
  isEmpty h := by rw [h.1]; rfl
  peekNext h := by rw [h.1]; rfl
  removeNext h := by
    obtain ⟨rfl, hl⟩ := h
    exact ⟨_, rfl, rfl, hl.tail⟩
  remove h hev := by
    obtain ⟨rfl, hl⟩ := h
    exact ⟨_, removeMap_eq hl hev, rfl, hl.erase _⟩

/-! ## Heaps -/

namespace HeapScheduler

theorem isLessStrictly_eq {heap : List Event} {a b : ℕ} {x y : Event} (hx : heap[a]? = some x)
    (hy : heap[b]? = some y) : isLessStrictly heap a b = some (x.key.less y.key) := by
  simp [isLessStrictly, hx, hy]

theorem getElem?_some {heap : List Event} {i : ℕ} (h : i < heap.length) : ∃ x, heap[i]? = some x :=
  ⟨_, List.getElem?_eq_getElem h⟩

theorem bottomUpFrom_spec (fuel : ℕ) {heap : List Event} {index : ℕ}
    (h : RisesAt Event.rank heap index) (hpos : 1 ≤ index) (hlt : index < heap.length)
    (hfuel : index ≤ fuel) : ∃ heap', bottomUpFrom fuel heap index = some heap' ∧
      IsHeap Event.rank heap' ∧ heap'.Perm heap ∧ heap'[0]? = heap[0]? := by
  induction fuel generalizing heap index with
  | zero => omega
  | succ fuel ih =>
    rw [bottomUpFrom]
    by_cases hroot : index = 1
    · subst hroot
      exact ⟨heap, rfl, h.isHeap fun htwo => absurd htwo (by omega), List.Perm.refl _, rfl⟩
    · obtain ⟨x, hx⟩ := getElem?_some hlt
      obtain ⟨p, hp⟩ : ∃ p, heap[index / 2]? = some p := getElem?_some (by omega)
      have hp' : heap[parent index]? = some p := hp
      rw [isRoot, root, if_neg (by simpa using hroot), isLessStrictly_eq hx hp']
      cases hless : x.key.less p.key with
      | false =>
        refine ⟨heap, rfl, h.isHeap fun _ a b ha hb => ?_, List.Perm.refl _, rfl⟩
        obtain rfl := Option.some.inj (hp.symm.trans ha)
        obtain rfl := Option.some.inj (hx.symm.trans hb)
        exact not_less_iff.mp hless
      | true =>
        obtain ⟨up, hup⟩ := exchange_isSome hlt (show parent index < heap.length by
          rw [parent]; omega)
        have hrises : RisesAt Event.rank up (index / 2) := h.up (by omega) (fun a b ha hb => by
          obtain rfl := Option.some.inj (hp.symm.trans ha)
          obtain rfl := Option.some.inj (hx.symm.trans hb)
          exact less_iff.mp hless) hup
        have hlen := length_exchange hup
        obtain ⟨heap', hrun, hheap, hperm, hzero⟩ := ih hrises (by omega) (by omega) (by omega)
        refine ⟨heap', ?_, hheap, hperm.trans (exchange_perm hup), hzero.trans ?_⟩
        · simp only [Option.bind_eq_bind, Option.bind_some, if_true, hup]
          exact hrun
        · rw [getElem?_exchange hup, if_neg (by rw [parent]; omega), if_neg (by omega)]

/-- What `TopDown` leaves at the place it starts from. -/
def Sunk (heap heap' : List Event) (hole : ℕ) : Prop :=
  heap'[hole]? = heap[hole]? ∨ ∃ c x y, c / 2 = hole ∧ heap[hole]? = some x ∧ heap[c]? = some y ∧
    y.rank ≤ x.rank ∧ heap'[hole]? = some y

theorem child_iff {c hole : ℕ} : c / 2 = hole ↔ c = leftChild hole ∨ c = rightChild hole := by
  rw [leftChild, rightChild]
  omega

theorem parentFirst_of_bottom {heap : List Event} {c : ℕ} (h : heap.length ≤ c) :
    ParentFirst Event.rank heap c := by
  intro a b _ hb
  rw [List.getElem?_eq_none h] at hb
  cases hb

theorem smallest_spec {heap : List Event} {hole : ℕ} (h : rightChild hole < heap.length) :
    ∃ c y, smallest heap (leftChild hole) (rightChild hole) = some c ∧ c / 2 = hole ∧
      heap[c]? = some y ∧ ∀ d, d / 2 = hole → ∀ b, heap[d]? = some b → y.rank ≤ b.rank := by
  obtain ⟨l, hl⟩ : ∃ l, heap[leftChild hole]? = some l :=
    getElem?_some (by rw [leftChild]; rw [rightChild] at h; omega)
  obtain ⟨r, hr⟩ := getElem?_some h
  have hsmallest : smallest heap (leftChild hole) (rightChild hole) =
      some (if l.key.less r.key then leftChild hole else rightChild hole) := by
    rw [smallest, isLessStrictly_eq hl hr, Option.map_some]
  have both : ∀ y : Event, y.rank ≤ l.rank → y.rank ≤ r.rank →
      ∀ d, d / 2 = hole → ∀ b, heap[d]? = some b → y.rank ≤ b.rank := by
    intro y hyl hyr d hd b hb
    rcases child_iff.mp hd with rfl | rfl
    · obtain rfl := Option.some.inj (hl.symm.trans hb)
      exact hyl
    · obtain rfl := Option.some.inj (hr.symm.trans hb)
      exact hyr
  cases hless : l.key.less r.key with
  | true =>
    refine ⟨leftChild hole, l, by rw [hsmallest, hless]; rfl, child_iff.mpr (Or.inl rfl), hl, ?_⟩
    exact both l le_rfl (less_iff.mp hless).le
  | false =>
    refine ⟨rightChild hole, r, by rw [hsmallest, hless]; rfl, child_iff.mpr (Or.inr rfl), hr, ?_⟩
    exact both r (not_less_iff.mp hless) le_rfl

/-- The steps of `TopDown` that exchange. -/
theorem SinksAt.exchange {heap : List Event} {start hole c : ℕ} {x y : Event}
    (h : SinksAt Event.rank heap start hole) (hpos : 1 ≤ hole) (hx : heap[hole]? = some x)
    (hchild : c / 2 = hole) (hy : heap[c]? = some y)
    (first : ∀ d, d / 2 = hole → ∀ b, heap[d]? = some b → y.rank ≤ b.rank)
    (hless : x.key.less y.key = false) :
    ∃ down, exchange heap hole c = some down ∧ SinksAt Event.rank down start c ∧
      down[hole]? = some y ∧ ∀ k < hole, down[k]? = heap[k]? := by
  obtain ⟨hlt, _⟩ := List.getElem?_eq_some_iff.mp hx
  obtain ⟨hltc, _⟩ := List.getElem?_eq_some_iff.mp hy
  obtain ⟨down, hdown⟩ := exchange_isSome hlt hltc
  refine ⟨down, hdown, h.down hchild hpos (fun d hd a b ha hb => ?_) (fun a b ha hb => ?_) hdown, ?_,
    fun k hk => ?_⟩
  · obtain rfl := Option.some.inj (hy.symm.trans ha)
    exact first d hd b hb
  · obtain rfl := Option.some.inj (hx.symm.trans ha)
    obtain rfl := Option.some.inj (hy.symm.trans hb)
    exact not_less_iff.mp hless
  · rw [getElem?_exchange hdown, if_neg (by omega), if_pos rfl, hy]
  · rw [getElem?_exchange hdown, if_neg (by omega), if_neg (by omega)]

theorem topDownFrom_spec (fuel : ℕ) {heap : List Event} {start hole : ℕ}
    (h : SinksAt Event.rank heap start hole) (hpos : 1 ≤ hole) (hfuel : 0 < fuel)
    (henough : heap.length < fuel + hole) : ∃ heap', topDownFrom fuel heap hole = some heap' ∧
      (∀ c, 2 ≤ c → c ≠ start → ParentFirst Event.rank heap' c) ∧ heap'.Perm heap ∧
      (∀ k < hole, heap'[k]? = heap[k]?) ∧ Sunk heap heap' hole := by
  induction fuel generalizing heap hole with
  | zero => omega
  | succ fuel ih =>
    rw [topDownFrom]
    have stay : (∀ c, c / 2 = hole → ParentFirst Event.rank heap c) →
        (∀ c, 2 ≤ c → c ≠ start → ParentFirst Event.rank heap c) ∧ heap.Perm heap ∧
          (∀ k < hole, heap[k]? = heap[k]?) ∧ Sunk heap heap hole := fun stop =>
      ⟨fun c hc hne => h.parentFirst stop hc hne, List.Perm.refl _, fun _ _ => rfl, Or.inl rfl⟩
    by_cases hright : heap.length ≤ rightChild hole
    · rw [if_pos (by simpa [isBottom] using hright)]
      by_cases hindex : heap.length ≤ hole
      · refine ⟨heap, by simp [isBottom, hindex], stay fun c hc => parentFirst_of_bottom ?_⟩
        omega
      by_cases hleft : heap.length ≤ leftChild hole
      · refine ⟨heap, by simp [isBottom, hleft], stay fun c hc => parentFirst_of_bottom ?_⟩
        rw [leftChild] at hleft
        omega
      -- the last of all has no sibling
      obtain ⟨x, hx⟩ := getElem?_some (not_le.mp hindex)
      obtain ⟨l, hl⟩ := getElem?_some (not_le.mp hleft)
      have only : ∀ d, d / 2 = hole → ∀ b, heap[d]? = some b → b = l := by
        intro d hd b hb
        rcases child_iff.mp hd with rfl | rfl
        · exact Option.some.inj (hb.symm.trans hl)
        · rw [List.getElem?_eq_none hright] at hb
          cases hb
      simp only [isBottom, hindex, hleft, decide_false, Bool.false_eq_true, if_false,
        isLessStrictly_eq hx hl, Option.bind_eq_bind, Option.bind_some]
      cases hless : x.key.less l.key with
      | true =>
        refine ⟨heap, rfl, stay fun c hc a b ha hb => ?_⟩
        obtain rfl := Option.some.inj (hx.symm.trans (hc ▸ ha))
        rw [only c hc b hb]
        exact (less_iff.mp hless).le
      | false =>
        obtain ⟨down, hdown, hsinks, hat, hbelow⟩ := SinksAt.exchange h hpos hx
          (child_iff.mpr (Or.inl rfl)) hl (fun d hd b hb => (only d hd b hb ▸ le_rfl)) hless
        have hlen := length_exchange hdown
        refine ⟨down, hdown, fun c hc hne => hsinks.parentFirst (fun d hd => ?_) hc hne,
          exchange_perm hdown, hbelow, Or.inr ⟨_, x, l, child_iff.mpr (Or.inl rfl), hx, hl,
            not_less_iff.mp hless, hat⟩⟩
        refine parentFirst_of_bottom ?_
        rw [leftChild] at hd
        rw [rightChild] at hright
        omega
    · rw [if_neg (by simpa [isBottom] using hright)]
      obtain ⟨x, hx⟩ : ∃ x, heap[hole]? = some x := getElem?_some (by
        rw [rightChild] at hright; omega)
      obtain ⟨c, y, hsmallest, hchild, hy, first⟩ := smallest_spec (not_le.mp hright)
      simp only [hsmallest, isLessStrictly_eq hx hy, Option.bind_eq_bind, Option.bind_some]
      cases hless : x.key.less y.key with
      | true =>
        refine ⟨heap, rfl, stay fun d hd a b ha hb => ?_⟩
        obtain rfl := Option.some.inj (hx.symm.trans (hd ▸ ha))
        exact (less_iff.mp hless).le.trans (first d hd b hb)
      | false =>
        obtain ⟨down, hdown, hsinks, hat, hbelow⟩ := SinksAt.exchange h hpos hx hchild hy first hless
        obtain ⟨hltc, _⟩ := List.getElem?_eq_some_iff.mp hy
        have hlen := length_exchange hdown
        obtain ⟨heap', hrun, hheap, hperm, hsame, _⟩ := ih hsinks (by omega) (by omega) (by omega)
        refine ⟨heap', ?_, hheap, hperm.trans (exchange_perm hdown), fun k hk => ?_, Or.inr
          ⟨c, x, y, hchild, hx, hy, not_less_iff.mp hless, (hsame hole (by omega)).trans hat⟩⟩
        · simp only [Bool.false_eq_true, if_false, hdown, Option.bind_some]
          exact hrun
        · exact (hsame k (by omega)).trans (hbelow k hk)

/-- What the heap is after place `i` has been taken out of it: the last event
is there instead. -/
structure Vacated (heap : List Event) (i : ℕ) (e : Event) (rest : List Event) : Prop where
  perm : (rest ++ [e]).Perm heap
  length : rest.length = last heap
  moved : i < last heap → rest[i]? = heap[last heap]?
  same : ∀ k, k ≠ i → k < last heap → rest[k]? = heap[k]?

theorem exists_vacated {heap : List Event} {i : ℕ} {e : Event} (he : heap[i]? = some e) :
    ∃ swapped, exchange heap i (last heap) = some swapped ∧ Vacated heap i e swapped.dropLast := by
  obtain ⟨hi, _⟩ := List.getElem?_eq_some_iff.mp he
  have hlast : last heap < heap.length := by rw [last]; omega
  obtain ⟨swapped, hswap⟩ := exchange_isSome hi hlast
  have hlen := length_exchange hswap
  have hget := getElem?_exchange hswap
  have hne : swapped ≠ [] := by
    rintro rfl
    rw [List.length_nil] at hlen
    omega
  have hend : swapped.getLast hne = e := by
    have hat := hget (last heap)
    rw [if_pos rfl, he] at hat
    rw [List.getLast_eq_getElem]
    obtain ⟨_, hval⟩ := List.getElem?_eq_some_iff.mp hat
    rw [← hval]
    congr 1
    rw [hlen, last]
  have hdrop : ∀ k, k < last heap → swapped.dropLast[k]? = swapped[k]? := by
    intro k hk
    rw [List.getElem?_dropLast, if_pos (by rw [hlen]; exact hk)]
  refine ⟨swapped, hswap, ?_, by rw [List.length_dropLast, hlen, last], fun hlt => ?_,
    fun k hk hlt => ?_⟩
  · have happend := List.dropLast_append_getLast hne
    rw [hend] at happend
    rw [happend]
    exact exchange_perm hswap
  · rw [hdrop i hlt, hget, if_neg (by omega), if_pos rfl]
  · rw [hdrop k hlt, hget, if_neg (by omega), if_neg hk]

theorem Vacated.none_of_le {heap rest : List Event} {i : ℕ} {e : Event} (h : Vacated heap i e rest)
    {k : ℕ}
    (hk : last heap ≤ k) : rest[k]? = none :=
  List.getElem?_eq_none (h.length ▸ hk)

theorem Vacated.sinksAt {heap rest : List Event} {i : ℕ} {e : Event} (h : Vacated heap i e rest)
    (hheap : IsHeap Event.rank heap) (he : heap[i]? = some e) : SinksAt Event.rank rest i i := by
  obtain ⟨hi, _⟩ := List.getElem?_eq_some_iff.mp he
  refine ⟨le_rfl, fun c hc hci hpi => ?_, fun htwo c hc a b ha hb => ?_⟩
  · rcases Nat.lt_or_ge c (last heap) with hlt | hge
    · exact (hheap c hc).congr (h.same _ hpi (by omega)) (h.same c hci hlt)
    · intro a b _ hb
      rw [h.none_of_le hge] at hb
      cases hb
  · rcases Nat.lt_or_ge c (last heap) with hlt | hge
    · rw [h.same _ (by omega) (by omega)] at ha
      rw [h.same c (by omega) hlt] at hb
      exact (hheap i htwo a e ha he).trans (hheap c (by omega) e b (hc ▸ he) hb)
    · rw [h.none_of_le hge] at hb
      cases hb

/-- Taking out place `i`. -/
structure TakenOut (heap : List Event) (i : ℕ) (e : Event) (heap' : List Event) : Prop where
  perm : (heap' ++ [e]).Perm heap
  zero : heap'[0]? = heap[0]?
  others : ∀ c, 2 ≤ c → c ≠ i → ParentFirst Event.rank heap' c
  here : 2 ≤ i → (ParentFirst Event.rank heap' i ↔ ∀ parent moved, heap[i / 2]? = some parent →
    heap[last heap]? = some moved → parent.rank ≤ moved.rank)

theorem takeOut {heap : List Event} {i : ℕ} {e : Event} (hheap : IsHeap Event.rank heap) (hi : 1 ≤ i)
    (he : heap[i]? = some e) : ∃ swapped heap', exchange heap i (last heap) = some swapped ∧
      topDown swapped.dropLast i = some heap' ∧ TakenOut heap i e heap' := by
  obtain ⟨hlt, _⟩ := List.getElem?_eq_some_iff.mp he
  have hle : i ≤ last heap := by rw [last]; omega
  obtain ⟨swapped, hswap, hvacated⟩ := exists_vacated he
  have hsinks := hvacated.sinksAt hheap he
  have hlen := hvacated.length
  obtain ⟨heap', hrun, hothers, hperm, hbelow, hsunk⟩ :=
    topDownFrom_spec (swapped.dropLast.length + 1) hsinks hi (by omega) (by omega)
  refine ⟨swapped, heap', hswap, hrun, ?_, ?_, hothers, fun htwo => ?_⟩
  · exact (hperm.append_right [e]).trans hvacated.perm
  · rw [hbelow 0 (by omega), hvacated.same 0 (by omega) (by omega)]
  have hparent : heap'[i / 2]? = heap[i / 2]? := by
    rw [hbelow _ (by omega), hvacated.same _ (by omega) (by omega)]
  rcases Nat.lt_or_ge i (last heap) with hinside | hend
  · have hmoved := hvacated.moved hinside
    rw [Sunk, hmoved] at hsunk
    obtain ⟨m, hm⟩ : ∃ m, heap[last heap]? = some m := getElem?_some (by rw [last]; omega)
    constructor
    · intro h p m' hp hm'
      rcases hsunk with hsame | ⟨c, x, y, _, hx, _, hle', hat⟩
      · exact h p m' (hparent ▸ hp) (hsame.trans hm')
      · obtain rfl := Option.some.inj (hx.symm.trans hm')
        exact (h p y (hparent ▸ hp) hat).trans hle'
    · intro h p b hp hb
      rw [hparent] at hp
      rcases hsunk with hsame | ⟨c, x, y, hc, _, hy, _, hat⟩
      · exact h p b hp (hsame.symm.trans hb)
      · obtain rfl := Option.some.inj (hat.symm.trans hb)
        refine hsinks.grand htwo c hc p _ ?_ hy
        rw [hvacated.same _ (by omega) (by omega), hp]
  · -- the last place itself
    obtain rfl : i = last heap := le_antisymm hle hend
    constructor
    · intro _ p m hp hm
      exact hheap _ htwo p m hp hm
    · intro _ p b _ hb
      have hnone : heap'[last heap]? = none :=
        List.getElem?_eq_none (by rw [hperm.length_eq, hlen])
      rw [hnone] at hb
      cases hb

theorem TakenOut.isHeap_iff {heap heap' : List Event} {i : ℕ} {e : Event}
    (h : TakenOut heap i e heap') :
    IsHeap Event.rank heap' ↔ (2 ≤ i → ∀ parent moved, heap[i / 2]? = some parent →
      heap[last heap]? = some moved → parent.rank ≤ moved.rank) := by
  constructor
  · intro hheap htwo
    exact (h.here htwo).mp (hheap i htwo)
  · intro hmoved c hc
    by_cases hci : c = i
    · subst hci
      exact (h.here hc).mpr (hmoved hc)
    · exact h.others c hc hci

/-! ### What a heap stands for -/

/-- The heap holds the events from place one on. -/
structure Lists (heap l : List Event) : Prop where
  ordered : IsHeap Event.rank heap
  contents : ∃ d events, heap = d :: events ∧ events.Perm l
  agenda : Agenda l

theorem tail_perm {d : Event} {heap events : List Event} (hzero : heap[0]? = some d)
    (hperm : heap.Perm (d :: events)) : ∃ events', heap = d :: events' ∧ events'.Perm events := by
  cases heap with
  | nil => cases hzero
  | cons x events' =>
    obtain rfl := Option.some.inj hzero
    exact ⟨events', rfl, (List.perm_cons _).mp hperm⟩

theorem TakenOut.contents {heap heap' l : List Event} {i : ℕ} {e : Event} (h : TakenOut heap i e heap')
    (hl : Lists heap (e :: l)) : ∃ d events, heap' = d :: events ∧ events.Perm l := by
  obtain ⟨d, events, rfl, hperm⟩ := hl.contents
  have hswap : (heap' ++ [e]).Perm (d :: l ++ [e]) :=
    h.perm.trans ((hperm.cons d).trans (((List.perm_append_singleton e l).symm).cons d))
  exact ⟨d, tail_perm h.zero ((List.perm_append_right_iff [e]).mp hswap)⟩

theorem insert_lists {heap l : List Event} {ev : Event} (h : Lists heap l)
    (fresh : ∀ e ∈ l, e.key.uid ≠ ev.key.uid) :
    ∃ heap', insert heap ev = some heap' ∧ Lists heap' (ListScheduler.insert l ev) := by
  obtain ⟨hheap, ⟨d, events, rfl, hperm⟩, hagenda⟩ := h
  have hlast : last (d :: events ++ [ev]) = events.length + 1 := by simp [last]
  have inside : ∀ k, k ≤ events.length → (d :: events ++ [ev])[k]? = (d :: events)[k]? := fun k hk =>
    List.getElem?_append_left (by simp; omega)
  have outside : ∀ k, events.length + 1 < k → (d :: events ++ [ev])[k]? = none := fun k hk =>
    List.getElem?_eq_none (by simp; omega)
  have hrises : RisesAt Event.rank (d :: events ++ [ev]) (events.length + 1) := by
    refine ⟨fun c hc hne => ?_, fun _ c hc a b _ hb => ?_⟩
    · rcases Nat.lt_or_ge c (events.length + 1) with hlt | hge
      · exact (hheap c hc).congr (inside _ (by omega)) (inside c (by omega))
      · intro a b _ hb
        rw [outside c (by omega)] at hb
        cases hb
    · rw [outside c (by omega)] at hb
      cases hb
  obtain ⟨heap', hrun, hheap', hperm', hzero⟩ := bottomUpFrom_spec
    (d :: events ++ [ev]).length hrises (by omega) (by simp) (by simp)
  have hcontents : heap'.Perm (d :: (events ++ [ev])) := hperm'
  obtain ⟨events', rfl, hevents⟩ := tail_perm hzero hcontents
  refine ⟨_, by rw [insert, bottomUp, hlast, hrun], hheap', ⟨d, events', rfl, ?_⟩, hagenda.insert fresh⟩
  calc events'.Perm (events ++ [ev]) := hevents
    List.Perm _ (ev :: events) := List.perm_append_singleton ev events
    List.Perm _ (ev :: l) := hperm.cons ev
    List.Perm _ (ListScheduler.insert l ev) := (insert_perm l ev).symm

/-- The first event is at the root. -/
theorem Lists.root {heap l : List Event} {e : Event} (h : Lists heap (e :: l)) :
    heap[root]? = some e := by
  obtain ⟨hheap, ⟨d, events, rfl, hperm⟩, hagenda⟩ := h
  have he : e ∈ events := hperm.symm.subset List.mem_cons_self
  obtain ⟨k, hk⟩ := List.mem_iff_getElem?.mp he
  obtain ⟨r, hr⟩ : ∃ r, (d :: events)[1]? = some r :=
    getElem?_some (by have := List.length_pos_of_mem he; simp; omega)
  have hle := hheap.root_le hr (show 1 ≤ k + 1 by omega) (b := e) hk
  have hmem : r ∈ e :: l := hperm.subset (List.mem_of_getElem? (List.getElem?_cons_succ ▸ hr))
  rcases List.mem_cons.mp hmem with rfl | hmem
  · exact hr
  · exact absurd (hagenda.first r hmem) (not_lt.mpr hle)

theorem removeNext_lists {heap l : List Event} {e : Event} (h : Lists heap (e :: l)) :
    ∃ heap', removeNext heap = some (e, heap') ∧ Lists heap' l := by
  obtain ⟨swapped, heap', hswap, hrun, htaken⟩ := takeOut h.ordered le_rfl h.root
  have hroot : heap[1]? = some e := h.root
  refine ⟨heap', ?_, ?_, htaken.contents h, h.agenda.tail⟩
  · simp [removeNext, root, hroot, hswap, hrun]
  · exact htaken.isHeap_iff.mpr fun htwo => absurd htwo (by omega)

theorem findFrom_eq {events : List Event} {ev : Event} {k : ℕ} (i : ℕ)
    (numbered : events.Pairwise fun a b => a.key.uid ≠ b.key.uid) (hev : events[k]? = some ev) :
    findFrom ev.key.uid i events = some (i + k, ev) := by
  induction events generalizing i k with
  | nil => cases hev
  | cons e events ih =>
    obtain ⟨hfirst, hrest⟩ := List.pairwise_cons.mp numbered
    cases k with
    | zero =>
      obtain rfl := Option.some.inj hev
      simp [findFrom]
    | succ k =>
      have hne := hfirst ev (List.mem_of_getElem? hev)
      rw [findFrom, if_neg (by simpa using hne.symm), ih (i + 1) hrest hev]
      congr 2
      omega

/-- `Remove` takes out the event, and what is left is a heap if and only if
the last event may stand under the parent of the event taken out. -/
theorem remove_lists {heap l : List Event} {ev : Event} {i : ℕ} (h : Lists heap l) (hi : 1 ≤ i)
    (hev : heap[i]? = some ev) :
    ∃ heap', remove heap ev = some heap' ∧ heap'.tail.Perm (l.erase ev) ∧
      (Lists heap' (l.erase ev) ↔ (2 ≤ i → ∀ parent moved, heap[i / 2]? = some parent →
        heap.getLast? = some moved → parent.rank ≤ moved.rank)) := by
  obtain ⟨hheap, ⟨d, events, rfl, hperm⟩, hagenda⟩ := h
  obtain ⟨swapped, heap', hswap, hrun, htaken⟩ := takeOut hheap hi hev
  have hnumbered : events.Pairwise fun a b => a.key.uid ≠ b.key.uid :=
    (hperm.pairwise_iff fun hne => hne.symm).mpr hagenda.numbered
  obtain ⟨k, rfl⟩ : ∃ k, i = 1 + k := ⟨i - 1, by omega⟩
  rw [Nat.add_comm, List.getElem?_cons_succ] at hev
  have hfind := findFrom_eq 1 hnumbered hev
  have hmem : ev ∈ l := hperm.subset (List.mem_of_getElem? hev)
  -- the list with the event in front is another order of the same events
  obtain ⟨d', events', rfl, hevents⟩ : ∃ d' events',
      heap' = d' :: events' ∧ events'.Perm (l.erase ev) := by
    have hswap' : (heap' ++ [ev]).Perm (d :: l.erase ev ++ [ev]) :=
      htaken.perm.trans ((hperm.trans ((List.perm_cons_erase hmem).trans
        (List.perm_append_singleton ev _).symm)).cons d)
    exact ⟨d, tail_perm htaken.zero ((List.perm_append_right_iff [ev]).mp hswap')⟩
  have hiff := htaken.isHeap_iff
  rw [last, ← List.getLast?_eq_getElem?] at hiff
  refine ⟨d' :: events', ?_, hevents,
    ⟨fun h => hiff.mp h.ordered, fun h => ⟨hiff.mpr h, ⟨d', events', rfl, hevents⟩,
    hagenda.erase ev⟩⟩⟩
  simp [remove, hfind, hswap, hrun]

end HeapScheduler

/-- The heap does what it should as long as nothing is removed. -/
theorem heapScheduler_serves : heapScheduler.Serves fun _ => HeapScheduler.Lists where
  agenda h := h.agenda
  create := by
    refine ⟨fun c hc a b _ hb => ?_, ⟨_, [], rfl, .nil⟩, .nil⟩
    rw [List.getElem?_eq_none (by simp [heapScheduler]; omega)] at hb
    cases hb
  insert h _ fresh := HeapScheduler.insert_lists h fresh
  isEmpty {t s l} h := by
    obtain ⟨_, ⟨d, events, rfl, hperm⟩, _⟩ := h
    have hlen := hperm.length_eq
    cases l with
    | nil => rw [List.perm_nil.mp hperm]; rfl
    | cons e l =>
      rw [List.length_cons] at hlen
      simp [heapScheduler, hlen]
  peekNext h := h.root
  removeNext h := HeapScheduler.removeNext_lists h

end Ns3Routing.Sim
