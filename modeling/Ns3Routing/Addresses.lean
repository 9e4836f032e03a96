import Mathlib.Data.List.Nodup
import Ns3Routing.AddressMaps

/-! # The addresses of the links

`Ipv4AddressHelper` counts networks, and addresses in a network;
`Ipv4AddressGenerator` remembers what has been handed out, in blocks, and stops
the program when an address comes a second time. -/

namespace Ns3Routing.SimulatorMain

/-! ## Ipv4AddressGenerator -/

namespace Ipv4AddressGenerator

/-- A block of addresses. -/
structure Entry where
  addrLow : UInt32
  addrHigh : UInt32
deriving DecidableEq, Repr

/-- The loop over `m_entries`; `none` is an address collision. -/
def addEntry (addr : UInt32) : List Entry → Option (List Entry)
  | [] => some [⟨addr, addr⟩]
  | i :: entries =>
    if i.addrLow ≤ addr ∧ addr ≤ i.addrHigh then none
    else if addr < i.addrLow - 1 then some (⟨addr, addr⟩ :: i :: entries)
    else if addr = i.addrHigh + 1 then
      match entries with
      | [] => some [{ i with addrHigh := addr }]
      | j :: rest => if addr = j.addrLow then none else some ({ i with addrHigh := addr } :: j :: rest)
    else if addr = i.addrLow - 1 then some ({ i with addrLow := addr } :: entries)
    else (addEntry addr entries).map (i :: ·)

/-- `AddAllocated`. A collision is fatal, unless `m_test` is set. -/
def addAllocated (test : Bool) (addr : UInt32) (entries : List Entry) : Option (Bool × List Entry) :=
  if addr = 0 then none
  else
    match addEntry addr entries with
    | some entries => some (true, entries)
    | none => if test then some (false, entries) else none

/-- The address lies in a block. -/
def Allocated (entries : List Entry) (addr : UInt32) : Prop :=
  ∃ e ∈ entries, e.addrLow.toNat ≤ addr.toNat ∧ addr.toNat ≤ e.addrHigh.toNat

/-- The blocks are not empty, and each ends before the next begins. -/
structure Blocks (entries : List Entry) : Prop where
  proper : ∀ e ∈ entries, 0 < e.addrLow.toNat ∧ e.addrLow.toNat ≤ e.addrHigh.toNat
  apart : entries.Pairwise fun a b => a.addrHigh.toNat < b.addrLow.toNat

section Spec
variable {entries : List Entry} {addr a : UInt32} {e : Entry}

theorem not_allocated_nil : ¬ Allocated [] a := by
  rintro ⟨_, he, _⟩
  cases he

theorem allocated_cons : Allocated (e :: entries) a ↔
    (e.addrLow.toNat ≤ a.toNat ∧ a.toNat ≤ e.addrHigh.toNat) ∨ Allocated entries a := by
  simp [Allocated]

theorem Blocks.nil : Blocks [] where
  proper _ he := by cases he
  apart := List.Pairwise.nil

/-- The blocks behind the first. -/
theorem Blocks.after (h : Blocks (e :: entries)) (ha : Allocated entries a) :
    e.addrHigh.toNat < a.toNat := by
  obtain ⟨x, hx, hlow, _⟩ := ha
  exact lt_of_lt_of_le ((List.pairwise_cons.mp h.apart).1 x hx) hlow

theorem Blocks.tail (h : Blocks (e :: entries)) : Blocks entries where
  proper x hx := h.proper x (List.mem_cons_of_mem _ hx)
  apart := (List.pairwise_cons.mp h.apart).2

/-- Nothing is allocated below the first block. -/
theorem Blocks.lowest (h : Blocks (e :: entries)) (ha : Allocated (e :: entries) a) :
    e.addrLow.toNat ≤ a.toNat := by
  rcases allocated_cons.mp ha with ⟨hge, _⟩ | ha
  · exact hge
  · exact (h.proper e List.mem_cons_self).2.trans (h.after ha).le

/-- A block in front of others. -/
theorem Blocks.cons (h : Blocks entries) (hlow : 0 < e.addrLow.toNat)
    (hle : e.addrLow.toNat ≤ e.addrHigh.toNat)
    (hafter : ∀ a, Allocated entries a → e.addrHigh.toNat < a.toNat) : Blocks (e :: entries) := by
  refine ⟨fun x hx => ?_, List.pairwise_cons.mpr ⟨fun x hx => ?_, h.apart⟩⟩
  · rcases List.mem_cons.mp hx with rfl | hx
    · exact ⟨hlow, hle⟩
    · exact h.proper x hx
  · exact hafter x.addrLow ⟨x, hx, le_rfl, (h.proper x hx).2⟩

theorem toNat_pred (h : 0 < addr.toNat) : (addr - 1).toNat = addr.toNat - 1 := by
  rw [UInt32.toNat_sub_of_le]
  · rfl
  · rw [UInt32.le_iff_toNat_le]
    exact h

/-- Nothing wraps, as address 0 is not handed out. -/
theorem eq_succ_iff (h : 0 < addr.toNat) : addr = a + 1 ↔ addr.toNat = a.toNat + 1 := by
  have hlt := addr.toNat_lt
  have hlt' := a.toNat_lt
  rw [← UInt32.toNat_inj, UInt32.toNat_add, UInt32.toNat_one]
  omega

/-- One block, in numbers that do not wrap. -/
theorem addEntry_cons {i : Entry} (hpos : 0 < addr.toNat) (hlow : 0 < i.addrLow.toNat) :
    addEntry addr (i :: entries) =
      if i.addrLow.toNat ≤ addr.toNat ∧ addr.toNat ≤ i.addrHigh.toNat then none
      else if addr.toNat < i.addrLow.toNat - 1 then some (⟨addr, addr⟩ :: i :: entries)
      else if addr.toNat = i.addrHigh.toNat + 1 then
        match entries with
        | [] => some [{ i with addrHigh := addr }]
        | j :: rest =>
          if addr.toNat = j.addrLow.toNat then none else some ({ i with addrHigh := addr } :: j :: rest)
      else if addr.toNat = i.addrLow.toNat - 1 then some ({ i with addrLow := addr } :: entries)
      else (addEntry addr entries).map (i :: ·) := by
  rw [addEntry.eq_def]
  simp only [eq_succ_iff hpos, UInt32.le_iff_toNat_le, UInt32.lt_iff_toNat_lt, ← UInt32.toNat_inj,
    toNat_pred hlow]

/-- `entries'` are proper blocks of the addresses of `entries` and of `addr`, which is new. -/
structure Adds (entries : List Entry) (addr : UInt32) (entries' : List Entry) : Prop where
  free : ¬ Allocated entries addr
  blocks : Blocks entries'
  exact : ∀ a, Allocated entries' a ↔ a = addr ∨ Allocated entries a

/-- A block of its own, in front of the others. -/
theorem Adds.front (h : Blocks entries) (hpos : 0 < addr.toNat)
    (hbefore : ∀ a, Allocated entries a → addr.toNat < a.toNat) :
    Adds entries addr (⟨addr, addr⟩ :: entries) where
  free ha := absurd (hbefore _ ha) (lt_irrefl _)
  blocks := h.cons hpos le_rfl hbefore
  exact a := by
    rw [allocated_cons, ← UInt32.toNat_inj]
    dsimp only
    refine or_congr_left ?_
    omega

/-- The block that ends before the address grows by it. -/
theorem Adds.grow_up {i : Entry} (h : Blocks (i :: entries))
    (hend : addr.toNat = i.addrHigh.toNat + 1)
    (hbefore : ∀ a, Allocated entries a → addr.toNat < a.toNat) :
    Adds (i :: entries) addr ({ i with addrHigh := addr } :: entries) := by
  obtain ⟨hlow, hle⟩ := h.proper i List.mem_cons_self
  refine ⟨?_, h.tail.cons hlow ?_ hbefore, fun a => ?_⟩
  · rw [allocated_cons]
    rintro (⟨_, hin⟩ | ha)
    · omega
    · exact lt_irrefl _ (hbefore _ ha)
  · show i.addrLow.toNat ≤ addr.toNat
    omega
  · rw [allocated_cons, allocated_cons (e := i), ← UInt32.toNat_inj, ← or_assoc]
    dsimp only
    refine or_congr_left ?_
    omega

/-- The block that begins behind the address grows by it. -/
theorem Adds.grow_down {i : Entry} (h : Blocks (i :: entries)) (hpos : 0 < addr.toNat)
    (hstart : addr.toNat + 1 = i.addrLow.toNat) :
    Adds (i :: entries) addr ({ i with addrLow := addr } :: entries) := by
  obtain ⟨_, hle⟩ := h.proper i List.mem_cons_self
  refine ⟨?_, h.tail.cons hpos ?_ fun a => h.after, fun a => ?_⟩
  · rw [allocated_cons]
    rintro (⟨hin, _⟩ | ha)
    · omega
    · have := h.after ha
      omega
  · show addr.toNat ≤ i.addrHigh.toNat
    omega
  · rw [allocated_cons, allocated_cons (e := i), ← UInt32.toNat_inj, ← or_assoc]
    dsimp only
    refine or_congr_left ?_
    omega

/-- The address belongs behind the first block. -/
theorem Adds.behind {i : Entry} {entries' : List Entry} (h : Blocks (i :: entries))
    (hafter : i.addrHigh.toNat < addr.toNat) (hadds : Adds entries addr entries') :
    Adds (i :: entries) addr (i :: entries') := by
  obtain ⟨hlow, hle⟩ := h.proper i List.mem_cons_self
  refine ⟨?_, hadds.blocks.cons hlow hle fun a ha => ?_, fun a => ?_⟩
  · rw [allocated_cons]
    rintro (⟨_, hin⟩ | ha)
    · omega
    · exact hadds.free ha
  · rcases (hadds.exact a).mp ha with rfl | ha
    · exact hafter
    · exact h.after ha
  · rw [allocated_cons, allocated_cons, hadds.exact]
    exact or_left_comm

/-- **Exactly the new address is added**, unless it lies in a block. -/
theorem addEntry_spec (h : Blocks entries) (hpos : 0 < addr.toNat) :
    (Allocated entries addr ∧ addEntry addr entries = none) ∨
    ∃ entries', addEntry addr entries = some entries' ∧ Adds entries addr entries' := by
  induction entries with
  | nil => exact Or.inr ⟨_, rfl, Adds.front h hpos fun a ha => absurd ha not_allocated_nil⟩
  | cons i entries ih =>
    obtain ⟨hlow, _⟩ := h.proper i List.mem_cons_self
    rw [addEntry_cons hpos hlow]
    by_cases hin : i.addrLow.toNat ≤ addr.toNat ∧ addr.toNat ≤ i.addrHigh.toNat
    · rw [if_pos hin]
      exact Or.inl ⟨allocated_cons.mpr (Or.inl hin), rfl⟩
    rw [if_neg hin]
    by_cases hbefore : addr.toNat < i.addrLow.toNat - 1
    · rw [if_pos hbefore]
      refine Or.inr ⟨_, rfl, Adds.front h hpos fun a ha => ?_⟩
      have := h.lowest ha
      omega
    rw [if_neg hbefore]
    by_cases hend : addr.toNat = i.addrHigh.toNat + 1
    · rw [if_pos hend]
      cases entries with
      | nil => exact Or.inr ⟨_, rfl, Adds.grow_up h hend fun a ha => absurd ha not_allocated_nil⟩
      | cons j rest =>
        obtain ⟨_, hjle⟩ := h.tail.proper j List.mem_cons_self
        have hj := h.after ⟨j, List.mem_cons_self, le_rfl, hjle⟩
        dsimp only
        by_cases hnext : addr.toNat = j.addrLow.toNat
        · rw [if_pos hnext]
          refine Or.inl ⟨?_, rfl⟩
          rw [allocated_cons, allocated_cons]
          exact Or.inr (Or.inl ⟨hnext.ge, hnext.trans_le hjle⟩)
        · rw [if_neg hnext]
          refine Or.inr ⟨_, rfl, Adds.grow_up h hend fun a ha => ?_⟩
          have := h.tail.lowest ha
          omega
    rw [if_neg hend]
    by_cases hdown : addr.toNat = i.addrLow.toNat - 1
    · rw [if_pos hdown]
      exact Or.inr ⟨_, rfl, Adds.grow_down h hpos (by omega)⟩
    rw [if_neg hdown]
    rcases ih h.tail with ⟨hallocated, hnone⟩ | ⟨entries', hsome, hadds⟩
    · rw [hnone]
      exact Or.inl ⟨allocated_cons.mpr (Or.inr hallocated), rfl⟩
    · rw [hsome]
      exact Or.inr ⟨_, rfl, hadds.behind h (by omega)⟩

/-- One call. -/
theorem addAllocated_spec (test : Bool) (h : Blocks entries) (hne : addr ≠ 0) :
    (Allocated entries addr ∧ addAllocated test addr entries = if test then some (false, entries)
      else none) ∨
    (¬ Allocated entries addr ∧ ∃ entries', addAllocated test addr entries = some (true, entries') ∧
      Blocks entries' ∧ ∀ a, Allocated entries' a ↔ a = addr ∨ Allocated entries a) := by
  have hpos : 0 < addr.toNat := Nat.pos_of_ne_zero fun h0 => hne (UInt32.toNat_inj.mp h0)
  rw [addAllocated, if_neg hne]
  rcases addEntry_spec h hpos with ⟨hallocated, hnone⟩ | ⟨entries', hsome, hadds⟩
  · rw [hnone]
    exact Or.inl ⟨hallocated, rfl⟩
  · rw [hsome]
    exact Or.inr ⟨hadds.free, entries', rfl, hadds.blocks, hadds.exact⟩

end Spec

/-- The results of calls, one after the other, and the blocks then. -/
def addAll (test : Bool) : List UInt32 → List Entry → Option (List Bool × List Entry)
  | [], entries => some ([], entries)
  | addr :: addrs, entries => do
    let (added, entries) ← addAllocated test addr entries
    let (rest, entries) ← addAll test addrs entries
    some (added :: rest, entries)

section Runs
variable {entries : List Entry} {addrs : List UInt32}

/-- With `m_test`, every call tells whether the address is new. -/
theorem addAll_test (h : Blocks entries) (hne : 0 ∉ addrs) : ∃ added entries',
    addAll true addrs entries = some (added, entries') ∧ Blocks entries' ∧
      (∀ a, Allocated entries' a ↔ a ∈ addrs ∨ Allocated entries a) ∧
      ∀ k addr, addrs[k]? = some addr → ∃ new, added[k]? = some new ∧
        (new = true ↔ addr ∉ addrs.take k ∧ ¬ Allocated entries addr) := by
  induction addrs generalizing entries with
  | nil => exact ⟨[], entries, rfl, h, fun a => by simp, fun k addr hk => by simp at hk⟩
  | cons first addrs ih =>
    rw [List.mem_cons, not_or] at hne
    rcases addAllocated_spec true h (Ne.symm hne.1) with
      ⟨hallocated, hadd⟩ | ⟨hfree, entries₁, hadd, hblocks, hexact⟩
    · obtain ⟨added, entries', hrest, hblocks, hexact, htold⟩ := ih h hne.2
      refine ⟨false :: added, entries', by simp [addAll, hadd, hrest], hblocks, fun a => ?_,
        fun k addr hk => ?_⟩
      · rw [hexact, List.mem_cons, or_assoc]
        refine (or_iff_right_of_imp ?_).symm
        rintro rfl
        exact Or.inr hallocated
      · cases k with
        | zero =>
          obtain rfl := Option.some.inj hk
          exact ⟨false, rfl, by simp [hallocated]⟩
        | succ k =>
          obtain ⟨new, hnew, hiff⟩ := htold k addr hk
          refine ⟨new, hnew, hiff.trans ?_⟩
          rw [List.take_succ_cons, List.mem_cons, not_or]
          refine and_congr_left fun hfree => (and_iff_right ?_).symm
          rintro rfl
          exact hfree hallocated
    · obtain ⟨added, entries', hrest, hblocks', hexact', htold⟩ := ih hblocks hne.2
      refine ⟨true :: added, entries', by simp [addAll, hadd, hrest], hblocks', fun a => ?_,
        fun k addr hk => ?_⟩
      · rw [hexact', hexact, List.mem_cons, ← or_assoc, or_comm (a := a ∈ addrs)]
      · cases k with
        | zero =>
          obtain rfl := Option.some.inj hk
          exact ⟨true, rfl, by simp [hfree]⟩
        | succ k =>
          obtain ⟨new, hnew, hiff⟩ := htold k addr hk
          refine ⟨new, hnew, hiff.trans ?_⟩
          rw [List.take_succ_cons, List.mem_cons, not_or, hexact, not_or]
          exact and_left_comm.trans and_assoc.symm

/-- Otherwise the calls go through as long as all addresses are new. -/
theorem addAll_some (h : Blocks entries) : (∃ r, addAll false addrs entries = some r) ↔
    0 ∉ addrs ∧ addrs.Nodup ∧ ∀ a ∈ addrs, ¬ Allocated entries a := by
  induction addrs generalizing entries with
  | nil => simp [addAll]
  | cons first addrs ih =>
    by_cases hzero : first = 0
    · subst hzero
      simp [addAll, addAllocated]
    rcases addAllocated_spec false h hzero with
      ⟨hallocated, hadd⟩ | ⟨hfree, entries₁, hadd, hblocks, hexact⟩
    · have hnone : addAll false (first :: addrs) entries = none := by simp [addAll, hadd]
      rw [hnone]
      constructor
      · rintro ⟨_, hr⟩
        cases hr
      · exact fun hall => absurd hallocated (hall.2.2 first List.mem_cons_self)
    · have hrest : (∃ r, addAll false (first :: addrs) entries = some r) ↔
          ∃ r, addAll false addrs entries₁ = some r := by
        simp only [addAll, hadd, Option.bind_eq_bind, Option.bind_some, Option.bind_eq_some_iff]
        exact ⟨fun ⟨_, r, hr, _⟩ => ⟨r, hr⟩, fun ⟨r, hr⟩ => ⟨_, r, hr, rfl⟩⟩
      rw [hrest, ih hblocks, List.mem_cons, not_or, List.nodup_cons, List.forall_mem_cons]
      simp only [hexact, not_or]
      constructor
      · rintro ⟨hne, hnodup, hnew⟩
        exact ⟨⟨Ne.symm hzero, hne⟩, ⟨fun hmem => (hnew first hmem).1 rfl, hnodup⟩, hfree,
          fun a ha => (hnew a ha).2⟩
      · rintro ⟨⟨_, hne⟩, ⟨hfirst, hnodup⟩, _, hnew⟩
        exact ⟨hne, hnodup, fun a ha => ⟨fun heq => hfirst (heq ▸ ha), hnew a ha⟩⟩

theorem addAll_allocated {r : List Bool × List Entry} (h : Blocks entries)
    (hr : addAll false addrs entries = some r) : Blocks r.2 ∧
      ∀ a, Allocated r.2 a ↔ a ∈ addrs ∨ Allocated entries a := by
  induction addrs generalizing entries r with
  | nil =>
    obtain rfl := Option.some.inj hr
    exact ⟨h, fun a => by simp⟩
  | cons first addrs ih =>
    rw [addAll] at hr
    obtain ⟨⟨added, entries₁⟩, hadd, hr⟩ := Option.bind_eq_some_iff.mp hr
    obtain ⟨⟨rest, entries'⟩, hrest, hr⟩ := Option.bind_eq_some_iff.mp hr
    obtain rfl := Option.some.inj hr
    have hne : first ≠ 0 := by
      rintro rfl
      cases hadd
    rcases addAllocated_spec false h hne with ⟨_, hnone⟩ | ⟨_, entries₂, hsome, hblocks, hexact⟩
    · rw [hnone] at hadd
      cases hadd
    · obtain ⟨_, rfl⟩ := Prod.mk.inj (Option.some.inj (hsome.symm.trans hadd))
      obtain ⟨hblocks', hexact'⟩ := ih hblocks hrest
      refine ⟨hblocks', fun a => ?_⟩
      rw [hexact', hexact, List.mem_cons, ← or_assoc, or_comm (a := a ∈ addrs)]

/-- **The allocator is exact.** From the start, the program gets through exactly
if no address comes twice and none is 0, and the blocks then hold what was
handed out. With `m_test` set it is told of every address that came before. -/
theorem allocated_exactly (addrs : List UInt32) :
    ((∃ r, addAll false addrs [] = some r) ↔ 0 ∉ addrs ∧ addrs.Nodup) ∧
    (∀ r, addAll false addrs [] = some r → Blocks r.2 ∧ ∀ a, Allocated r.2 a ↔ a ∈ addrs) ∧
    (0 ∉ addrs → ∃ added entries', addAll true addrs [] = some (added, entries') ∧ Blocks entries' ∧
      (∀ a, Allocated entries' a ↔ a ∈ addrs) ∧
      ∀ k addr, addrs[k]? = some addr → ∃ new, added[k]? = some new ∧
        (new = true ↔ addr ∉ addrs.take k)) := by
  refine ⟨?_, fun r hr => ?_, fun hne => ?_⟩
  · simp [addAll_some .nil, not_allocated_nil]
  · simpa [not_allocated_nil] using addAll_allocated .nil hr
  · simpa [not_allocated_nil] using addAll_test .nil hne

end Runs

end Ipv4AddressGenerator

/-! ## Ipv4AddressHelper -/

structure Ipv4AddressHelper where
  network : UInt32
  mask : UInt32
  address : UInt32
  base : UInt32
  shift : UInt32
  max : UInt32
deriving DecidableEq

namespace Ipv4AddressHelper
open Ipv4AddressGenerator

/-- The loop of `NumAddressBits`, `n` rounds before its end; the end is an
assertion that fails. -/
def numAddressBits : ℕ → UInt32 → UInt32 → Option UInt32
  | 0, _, _ => none
  | n + 1, i, maskbits =>
    if maskbits &&& 1 ≠ 0 then some i else numAddressBits n (i + 1) (maskbits >>> 1)

/-- `SetBase`, with its assertion. -/
def setBase (network mask address : UInt32) : Option Ipv4AddressHelper := do
  let shift ← numAddressBits 32 0 mask
  if network &&& ~~~mask = 0 then
    some ⟨network >>> shift, mask, address, address, shift, (1 <<< shift) - 2⟩
  else none

/-- `NewAddress`, with the blocks of the generator. -/
def newAddress (st : Ipv4AddressHelper × List Entry) :
    Option (Ipv4Address × Ipv4AddressHelper × List Entry) := do
  let (h, entries) := st
  if h.address ≤ h.max then
    let addr := (h.network <<< h.shift) ||| h.address
    let (_, entries) ← addAllocated false addr entries
    some (addr, { h with address := h.address + 1 }, entries)
  else none

def newNetwork (h : Ipv4AddressHelper) : Ipv4AddressHelper :=
  { h with network := h.network + 1, address := h.base }

/-- `Assign` to the two devices of a link, and `NewNetwork`. -/
def assignLink (st : Ipv4AddressHelper × List Entry) :
    Option ((Ipv4Address × Ipv4Address) × Ipv4AddressHelper × List Entry) := do
  let (a, st) ← newAddress st
  let (b, h, entries) ← newAddress st
  some ((a, b), h.newNetwork, entries)

/-- The loop of `main` over the links. -/
def assignLinks : ℕ → Ipv4AddressHelper × List Entry →
    Option (List (Ipv4Address × Ipv4Address) × Ipv4AddressHelper × List Entry)
  | 0, st => some ([], st)
  | n + 1, st => do
    let (addresses, st) ← assignLink st
    let (rest, st) ← assignLinks n st
    some (addresses :: rest, st)

/-- The addresses of so many links, as `main` has them assigned. -/
def assigned (totalLinks : ℕ) : Option (List (Ipv4Address × Ipv4Address)) := do
  let h ← setBase 0x0A000000 0xFFFFFF00 1
  (assignLinks totalLinks (h, [])).map Prod.fst

/-! ## The addresses of a link -/

/-- The address of an end of link `k`. -/
def linkAddress (k : ℕ) (side : Bool) : Ipv4Address :=
  (0x0A0000 + UInt32.ofNat k) <<< 8 ||| (if side then 2 else 1)

/-- The helper, at the first address for link `k`. -/
def atLink (k : ℕ) : Ipv4AddressHelper := ⟨0x0A0000 + UInt32.ofNat k, 0xFFFFFF00, 1, 1, 8, 254⟩

theorem setBase_main : setBase 0x0A000000 0xFFFFFF00 1 = some (atLink 0) := by decide

theorem toNat_linkAddress (k : ℕ) (side : Bool) :
    (linkAddress k side).toNat = (0x0A0000 + k) % 2 ^ 24 * 2 ^ 8 + (if side then 2 else 1) := by
  have hnetwork : ((0x0A0000 + UInt32.ofNat k) <<< (8 : UInt32)).toNat =
      ((0x0A0000 + k) % 2 ^ 24) <<< 8 := by
    rw [UInt32.toNat_shiftLeft, UInt32.toNat_add, UInt32.toNat_ofNat', Nat.shiftLeft_eq,
      Nat.shiftLeft_eq]
    simp only [UInt32.reduceToNat, Nat.reduceMod, Nat.reducePow]
    omega
  rw [linkAddress, UInt32.toNat_or, hnetwork, ← Nat.shiftLeft_eq]
  cases side with
  | false => exact (Nat.shiftLeft_add_eq_or_of_lt (by decide : 1 < 2 ^ 8) _).symm
  | true => exact (Nat.shiftLeft_add_eq_or_of_lt (by decide : 2 < 2 ^ 8) _).symm

theorem linkAddress_ne_zero (k : ℕ) (side : Bool) : linkAddress k side ≠ 0 := by
  intro hzero
  have hnat := toNat_linkAddress k side
  rw [hzero, UInt32.toNat_zero] at hnat
  cases side <;> simp at hnat

/-- Networks come round after `2 ^ 24` links. -/
theorem linkAddress_eq_iff {j k : ℕ} {a b : Bool} :
    linkAddress j a = linkAddress k b ↔ j % 2 ^ 24 = k % 2 ^ 24 ∧ a = b := by
  rw [← UInt32.toNat_inj, toNat_linkAddress, toNat_linkAddress]
  cases a <;> cases b <;> simp <;> omega

variable {entries : List Entry} {k : ℕ}

/-- Before link `k`. -/
structure At (k : ℕ) (st : Ipv4AddressHelper × List Entry) : Prop where
  helper : st.1 = atLink k
  blocks : Blocks st.2
  allocated : ∀ a, Allocated st.2 a ↔ ∃ j < k, ∃ side, a = linkAddress j side

theorem At.start : At 0 (atLink 0, []) where
  helper := rfl
  blocks := .nil
  allocated a := by simp [not_allocated_nil]

theorem newAddress_eq (k : ℕ) (entries : List Entry) {address : UInt32} (hle : address ≤ 254) :
    newAddress ({ atLink k with address }, entries) =
      (addAllocated false ((0x0A0000 + UInt32.ofNat k) <<< 8 ||| address) entries).map fun r =>
        ((0x0A0000 + UInt32.ofNat k) <<< 8 ||| address, { atLink k with address := address + 1 },
          r.2) := by
  have hassert : address ≤ (atLink k).max := hle
  simp only [newAddress, hassert, if_true]
  cases hadd : addAllocated false ((0x0A0000 + UInt32.ofNat k) <<< 8 ||| address) entries with
  | none => simp [atLink, hadd]
  | some r => simp [atLink, hadd]

/-- One link gets its two addresses, as long as the networks have not come
round. -/
theorem At.step {st : Ipv4AddressHelper × List Entry} (h : At k st) (hk : k < 2 ^ 24) :
    ∃ st', assignLink st = some ((linkAddress k false, linkAddress k true), st') ∧ At (k + 1) st' := by
  obtain ⟨helper, entries⟩ := st
  obtain rfl : helper = atLink k := h.helper
  have hfree : ∀ side, ¬ Allocated entries (linkAddress k side) := by
    intro side ha
    obtain ⟨j, hj, side', heq⟩ := (h.allocated _).mp ha
    have hmod := (linkAddress_eq_iff.mp heq).1
    rw [Nat.mod_eq_of_lt hk, Nat.mod_eq_of_lt (hj.trans hk)] at hmod
    omega
  obtain ⟨_, entries₁, hadd₁, hblocks₁, hexact₁⟩ :=
    (addAllocated_spec false h.blocks (linkAddress_ne_zero k false)).resolve_left
      fun ha => hfree false ha.1
  have hfree₁ : ¬ Allocated entries₁ (linkAddress k true) := by
    rw [hexact₁, not_or]
    exact ⟨fun heq => Bool.noConfusion (linkAddress_eq_iff.mp heq).2, hfree true⟩
  obtain ⟨_, entries₂, hadd₂, hblocks₂, hexact₂⟩ :=
    (addAllocated_spec false hblocks₁ (linkAddress_ne_zero k true)).resolve_left fun ha => hfree₁ ha.1
  have hfirst : newAddress (atLink k, entries) =
      some (linkAddress k false, { atLink k with address := 2 }, entries₁) := by
    have hnew := newAddress_eq k entries (by decide : (1 : UInt32) ≤ 254)
    rwa [show (0x0A0000 + UInt32.ofNat k) <<< 8 ||| 1 = linkAddress k false from rfl, hadd₁] at hnew
  have hsecond : newAddress ({ atLink k with address := 2 }, entries₁) =
      some (linkAddress k true, { atLink k with address := 3 }, entries₂) := by
    have hnew := newAddress_eq k entries₁ (by decide : (2 : UInt32) ≤ 254)
    rwa [show (0x0A0000 + UInt32.ofNat k) <<< 8 ||| 2 = linkAddress k true from rfl, hadd₂] at hnew
  refine ⟨(atLink (k + 1), entries₂), ?_, rfl, hblocks₂, fun a => ?_⟩
  · have hnext : newNetwork { atLink k with address := 3 } = atLink (k + 1) := by
      simp [newNetwork, atLink, UInt32.ofNat_add, UInt32.add_assoc]
    simp [assignLink, hfirst, hsecond, hnext]
  · rw [hexact₂, hexact₁, h.allocated]
    constructor
    · rintro (rfl | rfl | ⟨j, hj, side, rfl⟩)
      · exact ⟨k, Nat.lt_succ_self k, true, rfl⟩
      · exact ⟨k, Nat.lt_succ_self k, false, rfl⟩
      · exact ⟨j, by omega, side, rfl⟩
    · rintro ⟨j, hj, side, rfl⟩
      rcases Nat.lt_succ_iff_lt_or_eq.mp hj with hlt | rfl
      · exact Or.inr (Or.inr ⟨j, hlt, side, rfl⟩)
      · cases side
        · exact Or.inr (Or.inl rfl)
        · exact Or.inl rfl

/-- The first that come round collide. -/
theorem At.collides {st : Ipv4AddressHelper × List Entry} (h : At (2 ^ 24) st) :
    assignLink st = none := by
  obtain ⟨helper, entries⟩ := st
  obtain rfl : helper = atLink (2 ^ 24) := h.helper
  have hallocated : Allocated entries (linkAddress (2 ^ 24) false) :=
    (h.allocated _).mpr ⟨0, by decide, false, linkAddress_eq_iff.mpr ⟨by decide, rfl⟩⟩
  have hadd : addAllocated false (linkAddress (2 ^ 24) false) entries = none := by
    rcases addAllocated_spec false h.blocks (linkAddress_ne_zero (2 ^ 24) false) with ⟨_, hnone⟩ |
      ⟨hfree, _⟩
    · exact hnone
    · exact absurd hallocated hfree
  have hfirst : newAddress (atLink (2 ^ 24), entries) = none := by
    have hnew := newAddress_eq (2 ^ 24) entries (by decide : (1 : UInt32) ≤ 254)
    rwa [show (0x0A0000 + UInt32.ofNat (2 ^ 24)) <<< 8 ||| 1 = linkAddress (2 ^ 24) false from rfl,
      hadd]
      at hnew
  rw [assignLink, hfirst]
  rfl

theorem At.links {st : Ipv4AddressHelper × List Entry} (h : At k st) {n : ℕ} (hn : k + n ≤ 2 ^ 24) :
    ∃ st', assignLinks n st =
      some ((List.range' k n).map fun j => (linkAddress j false, linkAddress j true), st') ∧
        At (k + n) st' := by
  induction n generalizing k st with
  | zero => exact ⟨st, rfl, h⟩
  | succ n ih =>
    obtain ⟨st₁, hfirst, h₁⟩ := h.step (by omega)
    obtain ⟨st₂, hrest, h₂⟩ := ih h₁ (by omega)
    refine ⟨st₂, ?_, by rwa [Nat.add_right_comm] at h₂⟩
    simp [assignLinks, hfirst, hrest, List.range'_succ]

theorem At.too_many {st : Ipv4AddressHelper × List Entry} (h : At k st) {n : ℕ} (hk : k ≤ 2 ^ 24)
    (hn : 2 ^ 24 < k + n) : assignLinks n st = none := by
  induction n generalizing k st with
  | zero => omega
  | succ n ih =>
    rcases Nat.lt_or_eq_of_le hk with hlt | rfl
    · obtain ⟨st₁, hfirst, h₁⟩ := h.step hlt
      have hrest := ih h₁ hlt (by omega)
      simp [assignLinks, hfirst, hrest]
    · rw [assignLinks, h.collides]
      rfl

/-- **The addresses `main` assigns.** The links get the networks from
`10.0.0.0` on; the helper fails when the networks come round, after `2 ^ 24`
links. -/
theorem assigned_eq (totalLinks : ℕ) : assigned totalLinks =
    if totalLinks ≤ 2 ^ 24 then
      some ((List.range totalLinks).map fun k => (linkAddress k false, linkAddress k true))
    else none := by
  rw [assigned, setBase_main]
  show (assignLinks totalLinks (atLink 0, [])).map Prod.fst = _
  split
  · rename_i hle
    obtain ⟨st, hlinks, _⟩ := At.start.links (n := totalLinks) (by omega)
    rw [hlinks, List.range_eq_range']
    rfl
  · rename_i hgt
    rw [At.start.too_many (by decide) (by omega)]
    rfl

end Ipv4AddressHelper

end Ns3Routing.SimulatorMain
