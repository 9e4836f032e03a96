import Mathlib.Algebra.Group.Nat.Defs
import Mathlib.Data.List.FinRange
import Mathlib.Data.List.Induction
import Mathlib.Logic.Function.Basic
import Ns3Routing.NodeConfig

/-! # The maps between node numbers and addresses

`main` walks over the interfaces of all nodes and fills `g_addressNodeMap` and
`g_nodeAddressMap` with `insert`, which keeps the first value of a key. Every
node gets a copy of both. `Assigned` is what the maps hold after some of the
nodes; the lookups of the finished maps follow from it. -/

namespace Ns3Routing.SimulatorMain

open Lib

/-- `realNodeContainer` after the addresses are assigned. The addresses of a
node are `GetAddress (j, 0).GetLocal ()` of its interfaces `j`. -/
structure RealNodes where
  totalNodes : ℕ
  totalNodes_lt : totalNodes < 2 ^ 31
  interfaces : Fin totalNodes → List Ipv4Address
  has_interface : ∀ i, ∃ a ∈ interfaces i, a ≠ Ipv4Address.getLoopback
  /-- The address helper gives out no address twice. -/
  distinct : ∀ i j a, a ∈ interfaces i → a ∈ interfaces j → a ≠ Ipv4Address.getLoopback → i = j
  helloTimeout : Fin totalNodes → ℕ
  maxTTL : Fin totalNodes → UInt8

/-- The two maps, and `m_mainAddress` of the routing protocol of each node. -/
structure AddressMaps where
  addressNodeMap : Std.ExtTreeMap Ipv4Address UInt32 compare
  nodeAddressMap : Std.ExtTreeMap UInt32 Ipv4Address compare
  mainAddress : UInt32 → Ipv4Address

/-- One pass of the loop over the interfaces of node `i`, with the flag
`mainSet`. `SetMainInterface (j)` reads the address of the interface back. -/
def assignInterface (i : UInt32) (st : AddressMaps × Bool) (addr : Ipv4Address) :
    AddressMaps × Bool :=
  if addr = Ipv4Address.getLoopback then st
  else
    let maps := { st.1 with addressNodeMap := st.1.addressNodeMap.insertIfNew addr i }
    if st.2 = false then
      ({ maps with
         nodeAddressMap := maps.nodeAddressMap.insertIfNew i addr
         mainAddress := Function.update maps.mainAddress i addr }, true)
    else (maps, st.2)

/-- One pass of the loop over the nodes. -/
def assignNode (interfaces : List Ipv4Address) (i : UInt32) (maps : AddressMaps) : AddressMaps :=
  (interfaces.foldl (assignInterface i) (maps, false)).1

namespace RealNodes

variable (R : RealNodes)

def number (i : Fin R.totalNodes) : UInt32 := UInt32.ofNat i

/-- The maps after the nodes `l`. -/
def assign (l : List (Fin R.totalNodes)) : AddressMaps :=
  l.foldl (fun maps i => assignNode (R.interfaces i) (R.number i) maps)
    ⟨∅, ∅, fun _ => Ipv4Address.unassigned⟩

/-- The maps `main` hands to every node. -/
def maps : AddressMaps := R.assign (List.finRange R.totalNodes)

/-- What a node knows once it has started; `DoStart` opens a socket on every
interface but the loopback. -/
def config (i : Fin R.totalNodes) : NodeConfig where
  mainAddress := R.maps.mainAddress (R.number i)
  socketAddresses := ((R.interfaces i).zipIdx.filter fun x => x.1 ≠ Ipv4Address.getLoopback).map
    fun x => (x.2, x.1)
  nodeAddressMap := R.maps.nodeAddressMap
  addressNodeMap := R.maps.addressNodeMap
  helloTimeout := R.helloTimeout i
  maxTTL := R.maxTTL i

/-- The addresses of a node, its loopback aside. -/
def addresses (i : Fin R.totalNodes) : List Ipv4Address :=
  (R.interfaces i).filter fun a => a ≠ Ipv4Address.getLoopback

end RealNodes

/-! ## One node -/

section Node
variable {i : UInt32} {maps : AddressMaps} {l : List Ipv4Address} {a : Ipv4Address}

theorem assignInterface_loopback (st : AddressMaps × Bool) :
    assignInterface i st Ipv4Address.getLoopback = st := by
  rw [assignInterface, if_pos rfl]

/-- The loopback interface is passed over. -/
theorem foldl_assignInterface (st : AddressMaps × Bool) :
    l.foldl (assignInterface i) st =
      (l.filter fun a => a ≠ Ipv4Address.getLoopback).foldl (assignInterface i) st := by
  induction l generalizing st with
  | nil => rfl
  | cons a l ih =>
    by_cases ha : a = Ipv4Address.getLoopback
    · subst ha
      rw [List.foldl_cons, assignInterface_loopback, List.filter_cons_of_neg (by simp), ih]
    · rw [List.filter_cons_of_pos (by simpa using ha), List.foldl_cons, List.foldl_cons, ih]

/-- After the first address only `g_addressNodeMap` grows. -/
theorem foldl_assignInterface_set (hl : ∀ a ∈ l, a ≠ Ipv4Address.getLoopback) :
    l.foldl (assignInterface i) (maps, true) =
      ({ maps with addressNodeMap := l.foldl (fun m a => m.insertIfNew a i) maps.addressNodeMap },
        true) := by
  induction l generalizing maps with
  | nil => rfl
  | cons a l ih =>
    have hstep : assignInterface i (maps, true) a =
        ({ maps with addressNodeMap := maps.addressNodeMap.insertIfNew a i }, true) := by
      rw [assignInterface, if_neg (hl a List.mem_cons_self), if_neg (by simp)]
    rw [List.foldl_cons, hstep, ih fun b hb => hl b (List.mem_cons_of_mem a hb)]
    rfl

/-- **One node**: all its addresses get its number, and its number the first of
them. -/
theorem assignNode_eq {rest : List Ipv4Address}
    (hl : (l.filter fun a => a ≠ Ipv4Address.getLoopback) = a :: rest) :
    assignNode l i maps =
      { addressNodeMap := (a :: rest).foldl (fun m a => m.insertIfNew a i) maps.addressNodeMap
        nodeAddressMap := maps.nodeAddressMap.insertIfNew i a
        mainAddress := Function.update maps.mainAddress i a } := by
  have hmem : ∀ b ∈ a :: rest, b ≠ Ipv4Address.getLoopback := by
    intro b hb
    rw [← hl] at hb
    simpa using List.of_mem_filter hb
  rw [assignNode, foldl_assignInterface, hl, List.foldl_cons, assignInterface,
    if_neg (hmem a List.mem_cons_self), if_pos rfl,
    foldl_assignInterface_set fun b hb => hmem b (List.mem_cons_of_mem a hb)]
  rfl

end Node

/-! ## All nodes -/

namespace RealNodes

variable {R : RealNodes} {i j : Fin R.totalNodes} {a : Ipv4Address}

theorem toNat_number (i : Fin R.totalNodes) : (R.number i).toNat = i := by
  have hlt := R.totalNodes_lt
  have hi := i.isLt
  rw [number, UInt32.toNat_ofNat']
  exact Nat.mod_eq_of_lt (by omega)

theorem number_inj : R.number i = R.number j ↔ i = j := by
  refine ⟨fun h => ?_, congrArg _⟩
  have hnat := congrArg UInt32.toNat h
  rw [toNat_number, toNat_number] at hnat
  exact Fin.ext hnat

theorem mem_addresses : a ∈ R.addresses i ↔ a ∈ R.interfaces i ∧ a ≠ Ipv4Address.getLoopback := by
  simp [addresses]

theorem addresses_ne_nil (i : Fin R.totalNodes) : R.addresses i ≠ [] := by
  obtain ⟨a, ha, hne⟩ := R.has_interface i
  exact List.ne_nil_of_mem (mem_addresses.mpr ⟨ha, hne⟩)

/-- The address of the first interface of a node that is not its loopback. -/
def firstAddress (R : RealNodes) (i : Fin R.totalNodes) : Ipv4Address :=
  (R.addresses i).head (addresses_ne_nil i)

theorem firstAddress_mem (i : Fin R.totalNodes) : R.firstAddress i ∈ R.addresses i :=
  List.head_mem _

/-- An address tells its node. -/
theorem owner_unique (hi : a ∈ R.addresses i) (hj : a ∈ R.addresses j) : i = j := by
  obtain ⟨hi, hne⟩ := mem_addresses.mp hi
  exact R.distinct i j a hi (mem_addresses.mp hj).1 hne

/-- What the maps hold after the nodes `l`. -/
structure Assigned (R : RealNodes) (l : List (Fin R.totalNodes)) (maps : AddressMaps) : Prop where
  address : ∀ a k, maps.addressNodeMap[a]? = some k ↔ ∃ i ∈ l, a ∈ R.addresses i ∧ k = R.number i
  node : ∀ k a, maps.nodeAddressMap[k]? = some a ↔ ∃ i ∈ l, k = R.number i ∧ a = R.firstAddress i
  main : ∀ i ∈ l, maps.mainAddress (R.number i) = R.firstAddress i

theorem Assigned.empty (R : RealNodes) : Assigned R [] (R.assign []) :=
  ⟨by simp [assign], by simp [assign], nofun⟩

section Snoc
variable {l : List (Fin R.totalNodes)} {maps : AddressMaps} (h : Assigned R l maps) (hi : i ∉ l)
include h hi

/-- The addresses of one more node are new. -/
theorem Assigned.address_snoc (a : Ipv4Address) (k : UInt32) :
    ((R.addresses i).foldl (fun m a => m.insertIfNew a (R.number i)) maps.addressNodeMap)[a]? = some k ↔
      ∃ j ∈ l ++ [i], a ∈ R.addresses j ∧ k = R.number j := by
  rw [getElem?_foldl_insertIfNew fun a => a]
  simp only [List.mem_append, List.mem_singleton, exists_eq_right]
  split
  · rename_i hnew
    obtain ⟨hnone, ha⟩ := hnew
    constructor
    · intro hk
      exact ⟨i, Or.inr rfl, ha, (Option.some.inj hk).symm⟩
    · rintro ⟨j, _, hj, rfl⟩
      rw [owner_unique ha hj]
  · rename_i hold
    rw [h.address]
    constructor
    · rintro ⟨j, hj, hx⟩
      exact ⟨j, Or.inl hj, hx⟩
    · rintro ⟨j, hj | rfl, ha, rfl⟩
      · exact ⟨j, hj, ha, rfl⟩
      · -- an address of node `i` was there already, so its node was
        cases hm : maps.addressNodeMap[a]? with
        | none => exact absurd ⟨hm, ha⟩ hold
        | some k =>
          obtain ⟨j', hj', ha', _⟩ := (h.address a k).mp hm
          exact absurd (owner_unique ha ha' ▸ hj') hi

theorem Assigned.node_snoc (k : UInt32) (a : Ipv4Address) :
    (maps.nodeAddressMap.insertIfNew (R.number i) (R.firstAddress i))[k]? = some a ↔
      ∃ j ∈ l ++ [i], k = R.number j ∧ a = R.firstAddress j := by
  have hfresh : maps.nodeAddressMap[R.number i]? = none := by
    refine Option.eq_none_iff_forall_ne_some.mpr fun a ha => ?_
    obtain ⟨j, hj, hk, _⟩ := (h.node _ a).mp ha
    exact hi (number_inj.mp hk ▸ hj)
  rw [getElem?_insertIfNew_eq]
  simp only [hfresh, and_true, List.mem_append, List.mem_singleton]
  split
  · rename_i hk
    subst hk
    constructor
    · intro ha
      exact ⟨i, Or.inr rfl, rfl, (Option.some.inj ha).symm⟩
    · rintro ⟨j, _, hk, rfl⟩
      rw [number_inj.mp hk]
  · rename_i hk
    rw [h.node]
    constructor
    · rintro ⟨j, hj, hx⟩
      exact ⟨j, Or.inl hj, hx⟩
    · rintro ⟨j, hj | rfl, rfl, ha⟩
      · exact ⟨j, hj, rfl, ha⟩
      · exact absurd rfl hk

omit hi in
theorem Assigned.main_snoc {j : Fin R.totalNodes} (hj : j ∈ l ++ [i]) :
    Function.update maps.mainAddress (R.number i) (R.firstAddress i) (R.number j) =
      R.firstAddress j := by
  by_cases hji : j = i
  · rw [hji, Function.update_self]
  · have hne : R.number j ≠ R.number i := fun he => hji (number_inj.mp he)
    rw [Function.update_of_ne hne]
    rcases List.mem_append.mp hj with hj | hj
    · exact h.main j hj
    · exact absurd (List.mem_singleton.mp hj) hji

/-- One more node. -/
theorem Assigned.snoc : Assigned R (l ++ [i]) (assignNode (R.interfaces i) (R.number i) maps) := by
  have hfilter : ((R.interfaces i).filter fun a => a ≠ Ipv4Address.getLoopback) =
      R.firstAddress i :: (R.addresses i).tail := (List.cons_head_tail (addresses_ne_nil i)).symm
  have hall : R.firstAddress i :: (R.addresses i).tail = R.addresses i :=
    List.cons_head_tail (addresses_ne_nil i)
  rw [assignNode_eq hfilter, hall]
  exact ⟨h.address_snoc hi, h.node_snoc hi, fun _ => h.main_snoc⟩

end Snoc

theorem assigned {l : List (Fin R.totalNodes)} (hl : l.Nodup) : Assigned R l (R.assign l) := by
  induction l using List.reverseRecOn with
  | nil => exact .empty R
  | append_singleton l i ih =>
    rw [← List.concat_eq_append] at hl
    obtain ⟨hi, hl⟩ := (List.nodup_concat l i).mp hl
    have hsnoc : R.assign (l ++ [i]) =
        assignNode (R.interfaces i) (R.number i) (R.assign l) := by
      rw [assign, List.foldl_append]
      rfl
    rw [hsnoc]
    exact (ih hl).snoc hi

theorem assigned_maps (R : RealNodes) : Assigned R (List.finRange R.totalNodes) R.maps :=
  assigned (List.nodup_finRange _)

/-! ## Lookups -/

/-- The name of a node. -/
def name (R : RealNodes) (i : Fin R.totalNodes) : String := toString (i : ℕ)

variable {k : Fin R.totalNodes}

theorem config_mainAddress (k : Fin R.totalNodes) : (R.config k).mainAddress = R.firstAddress k :=
  R.assigned_maps.main k (List.mem_finRange k)

theorem config_nodeAddressMap (k i : Fin R.totalNodes) :
    (R.config k).nodeAddressMap[R.number i]? = some (R.config i).mainAddress := by
  rw [config_mainAddress]
  exact (R.assigned_maps.node _ _).mpr ⟨i, List.mem_finRange i, rfl, rfl⟩

theorem config_addressNodeMap (k : Fin R.totalNodes) (ha : a ∈ R.addresses i) :
    (R.config k).addressNodeMap[a]? = some (R.number i) :=
  (R.assigned_maps.address _ _).mpr ⟨i, List.mem_finRange i, ha, rfl⟩

theorem mainAddress_mem (i : Fin R.totalNodes) : (R.config i).mainAddress ∈ R.addresses i := by
  rw [config_mainAddress]
  exact firstAddress_mem i

theorem resolveNodeIpAddress_number (k i : Fin R.totalNodes) :
    (R.config k).resolveNodeIpAddress (R.number i) = R.firstAddress i := by
  rw [NodeConfig.resolveNodeIpAddress, config_nodeAddressMap, Option.getD_some, config_mainAddress]

theorem reverseLookup_address (k : Fin R.totalNodes) (ha : a ∈ R.addresses i) :
    (R.config k).reverseLookup a = R.name i := by
  rw [NodeConfig.reverseLookup, config_addressNodeMap k ha, name, ← toNat_number i]

theorem name_inj : R.name i = R.name j ↔ i = j := by
  refine ⟨fun h => ?_, congrArg _⟩
  rw [name, name, ← toNat_number i, ← toNat_number j] at h
  have hnum := congrArg atoi h
  rw [atoi_toString, atoi_toString] at hnum
  exact number_inj.mp hnum

theorem atoi_name (i : Fin R.totalNodes) : atoi (R.name i) = R.number i := by
  rw [name, ← toNat_number i, atoi_toString]

theorem resolveName_name (k i : Fin R.totalNodes) :
    (R.config k).resolveName (R.name i) = R.firstAddress i := by
  rw [NodeConfig.resolveName, atoi_name, resolveNodeIpAddress_number]

/-- The sockets of a node: its interfaces by their numbers, without the
loopback. -/
theorem mem_socketAddresses {x : ℕ × Ipv4Address} : x ∈ (R.config i).socketAddresses ↔
    (R.interfaces i)[x.1]? = some x.2 ∧ x.2 ≠ Ipv4Address.getLoopback := by
  obtain ⟨n, a⟩ := x
  simp [config, List.mem_zipIdx_iff_getElem?]

theorem nodup_sockets (i : Fin R.totalNodes) : ((R.config i).socketAddresses.map Prod.fst).Nodup := by
  have hsub : ((R.config i).socketAddresses.map Prod.fst).Sublist
      ((R.interfaces i).zipIdx.map Prod.snd) := by
    rw [config, List.map_map]
    exact List.filter_sublist.map Prod.snd
  rw [List.zipIdx_map_snd] at hsub
  exact hsub.nodup List.nodup_range'

theorem nodup_socketAddresses (hnodup : (R.interfaces i).Nodup) :
    ((R.config i).socketAddresses.map Prod.snd).Nodup := by
  have hsub : ((R.config i).socketAddresses.map Prod.snd).Sublist
      ((R.interfaces i).zipIdx.map Prod.fst) := by
    rw [config, List.map_map]
    exact List.filter_sublist.map Prod.fst
  rw [List.zipIdx_map_fst] at hsub
  exact hsub.nodup hnodup

end RealNodes

end Ns3Routing.SimulatorMain
