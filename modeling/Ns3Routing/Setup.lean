import Mathlib.Data.List.ProdSigma
import Ns3Routing.AddressMaps
import Ns3Routing.Links
import Ns3Routing.Network

/-! # The network `main` sets up

`main` puts a device at both ends of every link of the topology file, has the
address helper give each device an address, and fills the maps. A node's
interfaces are its loopback and then its link ends, in the order of the links.
All that `Topology` asks of a network follows (`Setup.topology`), so what is
proved of every topology holds of the networks the simulator runs on. -/

namespace Ns3Routing.SimulatorMain

open Lib

/-- The links of the topology file, with the addresses `Assign` hands out. -/
structure Setup where
  totalNodes : ℕ
  totalNodes_lt : totalNodes < 2 ^ 31
  totalLinks : ℕ
  /-- `GetFromNode` and `GetToNode` of a link. -/
  nodeOf : Fin totalLinks × Bool → Fin totalNodes
  nodeOf_ne : ∀ l, nodeOf (l, false) ≠ nodeOf (l, true)
  /-- Otherwise the node container is corrupt. -/
  has_link : ∀ i, ∃ p, nodeOf p = i
  assign : Fin totalLinks × Bool → Ipv4Address
  assign_inj : Function.Injective assign
  assign_ne : ∀ p, assign p ≠ Ipv4Address.getLoopback
  helloTimeout : Fin totalNodes → ℕ
  maxTTL : Fin totalNodes → UInt8

namespace Setup

variable (S : Setup)

/-- The devices of a node: the ends of its links, in the order of the links. -/
def devices (i : Fin S.totalNodes) : List (Fin S.totalLinks × Bool) :=
  ((List.finRange S.totalLinks).product [false, true]).filter fun p => S.nodeOf p = i

/-- The addresses of a node's interfaces. The stack has the loopback. -/
def interfaces (i : Fin S.totalNodes) : List Ipv4Address :=
  Ipv4Address.getLoopback :: (S.devices i).map S.assign

/-- The number of the interface of a device. -/
def ifIndex (p : Fin S.totalLinks × Bool) : ℕ := (S.devices (S.nodeOf p)).idxOf p + 1

variable {S} {i : Fin S.totalNodes} {p : Fin S.totalLinks × Bool} {a : Ipv4Address}

theorem mem_devices : p ∈ S.devices i ↔ S.nodeOf p = i := by
  obtain ⟨l, b⟩ := p
  simp [devices]

theorem nodup_devices (i : Fin S.totalNodes) : (S.devices i).Nodup :=
  ((List.nodup_finRange _).product (by decide)).filter _

theorem mem_interfaces : a ∈ S.interfaces i ↔
    a = Ipv4Address.getLoopback ∨ ∃ p, S.nodeOf p = i ∧ S.assign p = a := by
  rw [interfaces, List.mem_cons, List.mem_map]
  simp only [mem_devices]

theorem nodup_interfaces (i : Fin S.totalNodes) : (S.interfaces i).Nodup := by
  rw [interfaces, List.nodup_cons]
  refine ⟨fun hmem => ?_, (nodup_devices i).map S.assign_inj⟩
  obtain ⟨p, _, hp⟩ := List.mem_map.mp hmem
  exact S.assign_ne p hp

variable (S) in
/-- The nodes, as the loops that fill the maps see them. -/
def realNodes : RealNodes where
  totalNodes := S.totalNodes
  totalNodes_lt := S.totalNodes_lt
  interfaces := S.interfaces
  has_interface i := by
    obtain ⟨p, hp⟩ := S.has_link i
    exact ⟨S.assign p, mem_interfaces.mpr (Or.inr ⟨p, hp, rfl⟩), S.assign_ne p⟩
  distinct i j a hi hj hne := by
    obtain ⟨p, rfl, rfl⟩ := (mem_interfaces.mp hi).resolve_left hne
    obtain ⟨q, rfl, hq⟩ := (mem_interfaces.mp hj).resolve_left hne
    rw [S.assign_inj hq]
  helloTimeout := S.helloTimeout
  maxTTL := S.maxTTL

theorem mem_addresses (p : Fin S.totalLinks × Bool) :
    S.assign p ∈ S.realNodes.addresses (S.nodeOf p) :=
  RealNodes.mem_addresses.mpr ⟨mem_interfaces.mpr (Or.inr ⟨p, rfl, rfl⟩), S.assign_ne p⟩

/-! ## Interfaces by their numbers -/

theorem getElem?_interfaces (p : Fin S.totalLinks × Bool) :
    (S.interfaces (S.nodeOf p))[S.ifIndex p]? = some (S.assign p) := by
  rw [interfaces, ifIndex, List.getElem?_cons_succ, List.getElem?_map,
    List.getElem?_idxOf (mem_devices.mpr rfl)]
  rfl

/-- A device tells its node and the number of its interface. -/
theorem of_getElem?_devices {k : ℕ} (h : (S.devices i)[k]? = some p) :
    S.nodeOf p = i ∧ k + 1 = S.ifIndex p := by
  obtain ⟨hlt, hp⟩ := List.getElem?_eq_some_iff.mp h
  have hown : S.nodeOf p = i := mem_devices.mp (hp ▸ List.getElem_mem hlt)
  refine ⟨hown, ?_⟩
  rw [ifIndex, hown, ← hp, (nodup_devices i).idxOf_getElem]

/-- Every interface but the loopback is that of a device. -/
theorem of_getElem?_interfaces {n : ℕ} (h : (S.interfaces i)[n]? = some a)
    (hne : a ≠ Ipv4Address.getLoopback) : ∃ p, S.nodeOf p = i ∧ n = S.ifIndex p ∧ a = S.assign p := by
  cases n with
  | zero => exact absurd (Option.some.inj h).symm hne
  | succ n =>
    rw [interfaces, List.getElem?_cons_succ, List.getElem?_map] at h
    obtain ⟨p, hp, rfl⟩ := Option.map_eq_some_iff.mp h
    obtain ⟨hown, hindex⟩ := of_getElem?_devices hp
    exact ⟨p, hown, hindex, rfl⟩

variable (S) in
/-- **The network of the simulator.** -/
def topology : Topology where
  size := S.totalNodes
  size_lt := S.totalNodes_lt
  links := S.totalLinks
  owner := S.nodeOf
  owner_ne := S.nodeOf_ne
  config := S.realNodes.config
  address := S.assign
  socket := S.ifIndex
  nodeAddressMap := RealNodes.config_nodeAddressMap (R := S.realNodes)
  addressNodeMap i j := RealNodes.config_addressNodeMap i
    (RealNodes.mainAddress_mem (R := S.realNodes) j)
  addressNodeMap_address i p := RealNodes.config_addressNodeMap i (mem_addresses p)
  addressNodeMap_eq _ _ := rfl
  mem_sockets p := RealNodes.mem_socketAddresses.mpr ⟨getElem?_interfaces p, S.assign_ne p⟩
  of_mem_sockets i x hx := by
    obtain ⟨hx, hne⟩ := RealNodes.mem_socketAddresses.mp hx
    obtain ⟨p, hp, hn, ha⟩ := of_getElem?_interfaces hx hne
    exact ⟨p, hp, Prod.ext hn ha⟩
  sockets_nodup := RealNodes.nodup_sockets (R := S.realNodes)
  addresses_nodup i := RealNodes.nodup_socketAddresses (nodup_interfaces i)
  address_inj p q _ h := S.assign_inj h

/-- The names are the same. -/
theorem name_topology (i : Fin S.totalNodes) : S.topology.name i = S.realNodes.name i :=
  congrArg toString (RealNodes.toNat_number (R := S.realNodes) i)

/-! ## The devices of the links

LINK and NODELINKS set interfaces of devices, which are the link ends. -/

theorem addDevice_devices (devices : ℕ → List (Option ℕ)) (node channel n : ℕ) :
    (addDevice devices node channel).1 n =
      devices n ++ if node = n then [some channel] else [] := by
  show Function.update devices node (devices node ++ [some channel]) n = _
  by_cases h : node = n
  · subst h
    rw [Function.update_self, if_pos rfl]
  · rw [Function.update_of_ne (Ne.symm h), if_neg h, List.append_nil]

/-- One more link: its channel is listed at both nodes. -/
theorem devices_install (links : Links) (link : ℕ × ℕ) (n : ℕ) :
    (links.install link).devices n = links.devices n ++
      ((if link.1 = n then [some links.channels.length] else []) ++
        if link.2 = n then [some links.channels.length] else []) := by
  rw [← List.append_assoc, ← addDevice_devices, ← addDevice_devices]
  rfl

theorem devices_foldl (links : Links) (topology : List (ℕ × ℕ)) (n : ℕ) :
    (topology.foldl Links.install links).devices n = links.devices n ++
      (topology.zipIdx links.channels.length).flatMap fun x =>
        (if x.1.1 = n then [some x.2] else []) ++ if x.1.2 = n then [some x.2] else [] := by
  induction topology generalizing links with
  | nil => simp
  | cons link topology ih =>
    have hchannels : (links.install link).channels.length = links.channels.length + 1 := by
      simp [Links.install]
    rw [List.foldl_cons, ih, devices_install, hchannels, List.zipIdx_cons, List.flatMap_cons,
      List.append_assoc]

variable (S) in
/-- The links as they are read. -/
def linkList : List (ℕ × ℕ) := (List.finRange S.totalLinks).map fun l =>
  ((S.nodeOf (l, false) : ℕ), (S.nodeOf (l, true) : ℕ))

variable (S) in
/-- The links as `main` installs them. -/
def links : Links := Links.build S.totalNodes S.linkList

theorem wired_links : S.links.Wired S.linkList := Links.wired_build S.totalNodes S.linkList

variable (S) in
def device (p : Fin S.totalLinks × Bool) : Device := ⟨S.nodeOf p, S.ifIndex p⟩

theorem links_devices (i : Fin S.totalNodes) :
    S.links.devices i = none :: (S.devices i).map fun p => some (p.1 : ℕ) := by
  have hzip : S.linkList.zipIdx = (List.finRange S.totalLinks).map fun l =>
      (((S.nodeOf (l, false) : ℕ), (S.nodeOf (l, true) : ℕ)), (l : ℕ)) := by
    refine List.ext_getElem (by simp [linkList]) fun n _ _ => ?_
    simp [linkList]
  rw [links, Links.build]
  dsimp only
  rw [devices_foldl]
  dsimp only
  rw [List.length_nil, hzip, List.flatMap_map, devices, List.product, List.filter_flatMap,
    List.map_flatMap, List.singleton_append]
  congr 2
  funext l
  simp only [List.map_cons, List.map_nil, List.filter_cons, List.filter_nil, decide_eq_true_eq,
    Fin.ext_iff]
  split_ifs <;> rfl

/-- The device is under the number of its interface. -/
theorem getElem?_links_devices (p : Fin S.totalLinks × Bool) :
    (S.links.devices (S.nodeOf p))[S.ifIndex p]? = some (some (p.1 : ℕ)) := by
  rw [links_devices, ifIndex, List.getElem?_cons_succ, List.getElem?_map,
    List.getElem?_idxOf (mem_devices.mpr rfl)]
  rfl

theorem node_of_isEnd {number : ℕ} {device : Device} (h : S.links.IsEnd number device) :
    ∃ i : Fin S.totalNodes, device.node = i := by
  obtain ⟨ends, hends, hor⟩ := h
  have hlink : (ends.1.node, ends.2.node) ∈ S.linkList := by
    rw [← wired_links.joined]
    exact List.mem_map_of_mem (List.mem_of_getElem? hends)
  obtain ⟨l, _, hl⟩ := List.mem_map.mp hlink
  obtain ⟨hfrom, hto⟩ := Prod.mk.inj hl
  rcases hor with rfl | rfl
  · exact ⟨_, hfrom.symm⟩
  · exact ⟨_, hto.symm⟩

/-- **The ends of a link are its devices.** -/
theorem isEnd_iff (number : ℕ) (device : Device) : S.links.IsEnd number device ↔
    ∃ p : Fin S.totalLinks × Bool, (p.1 : ℕ) = number ∧ device = S.device p := by
  constructor
  · intro hend
    obtain ⟨i, hi⟩ := node_of_isEnd hend
    have hget := (wired_links.device_iff number device).mpr hend
    rw [hi, links_devices] at hget
    obtain ⟨node, ifIndex⟩ := device
    obtain rfl : node = i := hi
    cases ifIndex with
    | zero => cases hget
    | succ k =>
      rw [List.getElem?_cons_succ, List.getElem?_map] at hget
      obtain ⟨p, hp, hnum⟩ := Option.map_eq_some_iff.mp hget
      obtain ⟨rfl, hindex⟩ := of_getElem?_devices hp
      exact ⟨p, Option.some.inj hnum, congrArg (Device.mk _) hindex⟩
  · intro hx
    obtain ⟨p, rfl, rfl⟩ := hx
    exact (wired_links.device_iff _ _).mp (getElem?_links_devices p)

/-- The links that join two nodes are those between them in the topology. -/
theorem joins_iff (number nodeA nodeB : ℕ) : S.links.Joins number nodeA nodeB ↔
    ∃ p : S.topology.Port, (p.1 : ℕ) = number ∧ (S.topology.owner p : ℕ) = nodeA ∧
      (S.topology.owner (Topology.peer p) : ℕ) = nodeB := by
  have hjoined : ∀ x, (∃ ends, S.links.channels[number]? = some ends ∧
      (ends.1.node, ends.2.node) = x) ↔ ∃ l : Fin S.totalLinks, (l : ℕ) = number ∧
        ((S.nodeOf (l, false) : ℕ), (S.nodeOf (l, true) : ℕ)) = x := by
    intro x
    rw [← Option.map_eq_some_iff, ← List.getElem?_map, wired_links.joined, linkList,
      List.getElem?_map, Option.map_eq_some_iff]
    refine exists_congr fun l => and_congr_left' ?_
    rw [List.getElem?_eq_some_iff]
    simp only [List.getElem_finRange, Fin.ext_iff, List.length_finRange, Fin.val_cast]
    exact ⟨fun h => h.2.symm, fun h => ⟨h ▸ l.isLt, h.symm⟩⟩
  constructor
  · intro hjoins
    obtain ⟨ends, hends, hor⟩ := hjoins
    obtain ⟨l, hl, hnodes⟩ := (hjoined _).mp ⟨ends, hends, rfl⟩
    obtain ⟨hfrom, hto⟩ := Prod.mk.inj hnodes
    rcases hor with ⟨rfl, rfl⟩ | ⟨rfl, rfl⟩
    · exact ⟨(l, false), hl, hfrom, hto⟩
    · exact ⟨(l, true), hl, hto, hfrom⟩
  · intro hx
    obtain ⟨⟨l, side⟩, hl, rfl, rfl⟩ := hx
    obtain ⟨ends, hends, hnodes⟩ := (hjoined _).mpr ⟨l, hl, rfl⟩
    obtain ⟨hfrom, hto⟩ := Prod.mk.inj hnodes
    cases side with
    | false => exact ⟨ends, hends, Or.inl ⟨hfrom, hto⟩⟩
    | true => exact ⟨ends, hends, Or.inr ⟨hfrom, hto⟩⟩

theorem adj_iff (i j : Fin S.totalNodes) :
    S.topology.graph.Adj i j ↔ ∃ number, S.links.Joins number i j := by
  simp only [joins_iff]
  constructor
  · intro hadj
    obtain ⟨p, rfl, rfl⟩ := hadj
    exact ⟨p.1, p, rfl, rfl, rfl⟩
  · intro hx
    obtain ⟨_, p, _, hi, hj⟩ := hx
    exact ⟨p, Fin.ext hi, Fin.ext hj⟩

end Setup

theorem lineSetup_size : 3 < 2 ^ 31 := by decide

theorem lineSetup_node (p : Fin 2 × Bool) : p.1.val + p.2.toNat < 3 := by
  revert p
  decide

/-- Three nodes in a line, 0 – 1 – 2. The address helper is at 10.0.0.0 and
starts a new network with each link. -/
def lineSetup : Setup where
  totalNodes := 3
  totalNodes_lt := lineSetup_size
  totalLinks := 2
  nodeOf p := ⟨p.1.val + p.2.toNat, lineSetup_node p⟩
  nodeOf_ne := by decide
  has_link := by decide
  assign p := 0x0A000001 + 256 * UInt32.ofNat p.1 + UInt32.ofNat p.2.toNat
  assign_inj p q := by revert p q; decide
  assign_ne := by decide
  helloTimeout _ := 2000
  maxTTL _ := 16

theorem lineSetup_connected : lineSetup.topology.graph.Connected := by
  have hadj : ∀ p, lineSetup.topology.graph.Adj _ _ := Topology.adj_owner (T := lineSetup.topology)
  refine SimpleGraph.connected_iff_exists_forall_reachable _ |>.mpr ⟨(1 : Fin 3), fun i => ?_⟩
  match i with
  | (0 : Fin 3) => exact (hadj ((0 : Fin 2), true)).reachable
  | (1 : Fin 3) => exact .rfl
  | (2 : Fin 3) => exact (hadj ((1 : Fin 2), false)).reachable

end Ns3Routing.SimulatorMain
