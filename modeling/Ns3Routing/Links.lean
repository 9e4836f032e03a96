import Ns3Routing.Scenario
import Ns3Routing.Lib.Istream
import Ns3Routing.Lib.Assign
import Ns3Routing.Lib.Log

/-! # Link commands

LINK and NODELINKS set interfaces up and down: of one link, of the links
between two nodes, of one node. The first names a link by its number, and the
check of that number does not refuse any, as `m_ndc` is set whenever there are
links. What lies behind `m_ndc` is then taken for a container. The second takes
a node to be joined with itself by each of its links. -/

namespace Ns3Routing.SimulatorMain

open Lib

/-! ## The links -/

/-- A device, by its node and `GetIfIndex`, which is also the number of its
interface. -/
structure Device where
  node : ℕ
  ifIndex : ℕ
  deriving DecidableEq

/-- `m_totalNodes`, `m_totalLinks`, `m_ndc`, and what the nodes and channels
hold. A node's devices are listed with the numbers of their channels; the
loopback device has none. -/
structure Links where
  totalNodes : ℕ
  totalLinks : ℕ
  devices : ℕ → List (Option ℕ)
  channels : List (Device × Device)
  ndc : Option (List (Device × Device))

/-- `Node::AddDevice`. -/
def addDevice (devices : ℕ → List (Option ℕ)) (node channel : ℕ) : (ℕ → List (Option ℕ)) × Device :=
  (Function.update devices node (devices node ++ [some channel]), ⟨node, (devices node).length⟩)

/-- `PointToPointHelper::Install`. -/
def Links.install (links : Links) (link : ℕ × ℕ) : Links :=
  let channel := links.channels.length
  let (devices, devA) := addDevice links.devices link.1 channel
  let (devices, devB) := addDevice devices link.2 channel
  { links with
    devices := devices
    channels := links.channels ++ [(devA, devB)] }

/-- The part of `main` that installs the links of the topology. The stack is
on the nodes before, and with it the loopback device. -/
def Links.build (totalNodes : ℕ) (topology : List (ℕ × ℕ)) : Links :=
  let links : Links :=
    { totalNodes := totalNodes
      totalLinks := topology.length
      devices := fun _ => [none]
      channels := []
      ndc := none }
  let links := topology.foldl Links.install links
  { links with ndc := some links.channels }

/-! ## The operations -/

/-- The interfaces that are up. -/
abbrev Interfaces := Device → Bool

/-- `SetUp` or `SetDown`. -/
def setInterface (interfaces : Interfaces) (device : Device) (isUp : Bool) : Interfaces :=
  Function.update interfaces device isUp

/-- Undefined where the number is behind the end of `m_ndc`. -/
def Links.linkOperation (links : Links) (interfaces : Interfaces) (linkNumber : UInt32)
    (isUp : Bool) : Option Interfaces :=
  if links.totalLinks < linkNumber.toNat ∧ links.ndc = none then some interfaces
  else do
    let ndc ← links.ndc
    let (netDeviceA, netDeviceB) ← ndc[linkNumber.toNat]?
    return setInterface (setInterface interfaces netDeviceA isUp) netDeviceB isUp

def Links.p2pOperation (links : Links) (interfaces : Interfaces) (nodeANum nodeBNum : UInt32)
    (isUp : Bool) : Interfaces :=
  if links.totalNodes ≤ nodeANum.toNat ∨ links.totalNodes ≤ nodeBNum.toNat then interfaces
  else (links.devices nodeANum.toNat).zipIdx.foldl (fun interfaces (channel, i) =>
    match channel.bind (links.channels[·]?) with
    | none => interfaces
    | some (device0, device1) => [device0, device1].foldl (fun interfaces nodeDevice =>
        if nodeDevice.node = nodeBNum.toNat then
          setInterface (setInterface interfaces ⟨nodeANum.toNat, i⟩ isUp)
            ⟨nodeBNum.toNat, nodeDevice.ifIndex⟩ isUp
        else interfaces) interfaces) interfaces

def Links.allInterfacesOperation (links : Links) (interfaces : Interfaces) (nodeNumber : UInt32)
    (isUp : Bool) : Interfaces :=
  if links.totalNodes ≤ nodeNumber.toNat then interfaces
  else (List.range (links.devices nodeNumber.toNat).length).foldl
    (fun interfaces i => setInterface interfaces ⟨nodeNumber.toNat, i⟩ isUp) interfaces

/-! ## The commands -/

inductive LinkCommand where
  | link (linkNumber : UInt32)
  | nodes (nodeANum nodeBNum : UInt32)
  | nodeLinks (nodeNumber : UInt32)
  deriving DecidableEq

def linkWord : Text := bytes ['L', 'I', 'N', 'K']

def nodeLinksWord : Text := bytes ['N', 'O', 'D', 'E', 'L', 'I', 'N', 'K', 'S']

def downWord : Text := bytes ['D', 'O', 'W', 'N']

def upWord : Text := bytes ['U', 'P']

/-- `sin >> number`, where the variable has no value before. -/
def extractU32 (argument : Text) : Option UInt32 := Istream.extract Istream.toUInt32 argument

/-- What the operation says of `isUp`. -/
def operationUp (operation : Text) : Option Bool :=
  if operation = downWord then some false
  else if operation = upWord then some true
  else none

/-- The branches of `ProcessCommandTokens` for LINK and NODELINKS: what is
scheduled, if anything is. -/
def linkCommand : List Text → Option (LinkCommand × Bool)
  | [] => none
  | command :: arguments =>
    if upperCase command = linkWord then
      match arguments with
      | [operation, number] => do
        let linkNumber ← extractU32 number
        let isUp ← operationUp (upperCase operation)
        return (.link linkNumber, isUp)
      | [operation, numberA, numberB] => do
        let nodeANum ← extractU32 numberA
        let nodeBNum ← extractU32 numberB
        let isUp ← operationUp (upperCase operation)
        return (.nodes nodeANum nodeBNum, isUp)
      | _ => none
    else if upperCase command = nodeLinksWord then
      match arguments with
      | [operation, number] => do
        let nodeNumber ← extractU32 number
        let isUp ← operationUp (upperCase operation)
        return (.nodeLinks nodeNumber, isUp)
      | _ => none
    else none

/-- What is scheduled, when its time comes. -/
def Links.operate (links : Links) (interfaces : Interfaces) (isUp : Bool) :
    LinkCommand → Option Interfaces
  | .link linkNumber => links.linkOperation interfaces linkNumber isUp
  | .nodes nodeANum nodeBNum => some (links.p2pOperation interfaces nodeANum nodeBNum isUp)
  | .nodeLinks nodeNumber => some (links.allInterfacesOperation interfaces nodeNumber isUp)

/-- `none` where the tokens are no such command, and where what they do is
undefined. -/
def Links.process (links : Links) (interfaces : Interfaces) (tokens : List Text) :
    Option Interfaces :=
  (linkCommand tokens).bind fun (command, isUp) => links.operate interfaces isUp command

theorem extractU32_digitsOf (n : UInt32) : extractU32 (Istream.digitsOf n.toNat) = some n := by
  rw [extractU32, Istream.extract, Istream.readNumber_digitsOf]
  show some (Istream.toUInt32 false n.toNat).1 = some n
  rw [Istream.toUInt32, if_pos n.toNat_lt]
  exact congrArg some UInt32.ofNat_toNat

/-- Every command, with any numbers, can be in a scenario. -/
theorem linkCommand_surjective (command : LinkCommand) (isUp : Bool) :
    ∃ tokens, linkCommand tokens = some (command, isUp) := by
  have hoperation : ∃ operation, operationUp (upperCase operation) = some isUp := by
    cases isUp with
    | false => exact ⟨downWord, by decide⟩
    | true => exact ⟨upWord, by decide⟩
  obtain ⟨operation, hoperation⟩ := hoperation
  have hlink : upperCase linkWord = linkWord := by decide
  have hnodeLinks : upperCase nodeLinksWord = nodeLinksWord ∧ nodeLinksWord ≠ linkWord := by decide
  cases command with
  | link linkNumber =>
    refine ⟨[linkWord, operation, Istream.digitsOf linkNumber.toNat], ?_⟩
    simp [linkCommand, hlink, hoperation, extractU32_digitsOf]
  | nodes nodeANum nodeBNum =>
    refine ⟨[linkWord, operation, Istream.digitsOf nodeANum.toNat,
      Istream.digitsOf nodeBNum.toNat], ?_⟩
    simp [linkCommand, hlink, hoperation, extractU32_digitsOf]
  | nodeLinks nodeNumber =>
    refine ⟨[nodeLinksWord, operation, Istream.digitsOf nodeNumber.toNat], ?_⟩
    simp [linkCommand, hnodeLinks, hoperation, extractU32_digitsOf]

/-! ## What the commands name -/

/-- The device is an end of link `number`. -/
def Links.IsEnd (links : Links) (number : ℕ) (device : Device) : Prop :=
  ∃ ends, links.channels[number]? = some ends ∧ (device = ends.1 ∨ device = ends.2)

/-- Link `number` joins the two nodes. -/
def Links.Joins (links : Links) (number nodeA nodeB : ℕ) : Prop :=
  ∃ ends, links.channels[number]? = some ends ∧
    ((ends.1.node = nodeA ∧ ends.2.node = nodeB) ∨ (ends.1.node = nodeB ∧ ends.2.node = nodeA))

/-- The interfaces a command names. -/
def Links.Named (links : Links) : LinkCommand → Device → Prop
  | .link linkNumber, device => links.IsEnd linkNumber.toNat device
  | .nodes nodeANum nodeBNum, device =>
    nodeANum ≠ nodeBNum ∧ nodeANum.toNat < links.totalNodes ∧ nodeBNum.toNat < links.totalNodes ∧
      ∃ number, links.Joins number nodeANum.toNat nodeBNum.toNat ∧ links.IsEnd number device
  | .nodeLinks nodeNumber, device =>
    nodeNumber.toNat < links.totalNodes ∧ device.node = nodeNumber.toNat ∧
      device.ifIndex < (links.devices nodeNumber.toNat).length

/-- What is left is defined, and has `isUp` in the interfaces the command names
and what was there in all others. -/
def Links.Exact (links : Links) (interfaces : Interfaces) (command : LinkCommand) (isUp : Bool)
    (left : Option Interfaces) : Prop :=
  ∃ interfaces', left = some interfaces' ∧
    Assigned isUp (links.Named command) interfaces interfaces'

/-- Where a command is exact: a link that there is, and not a node with itself,
unless its links are all that way already. -/
def Links.Sound (links : Links) (interfaces : Interfaces) (isUp : Bool) : LinkCommand → Prop
  | .link linkNumber => linkNumber.toNat < links.totalLinks
  | .nodes nodeANum nodeBNum =>
    nodeANum = nodeBNum → nodeANum.toNat < links.totalNodes →
      ∀ number device, links.IsEnd number device → device.node = nodeANum.toNat →
        interfaces device = isUp
  | .nodeLinks _ => True

/-! ## The links that are built -/

section Build
variable {links : Links} {topology : List (ℕ × ℕ)} {number : ℕ} {device : Device}

theorem addDevice_iff (devices : ℕ → List (Option ℕ)) (node channel number : ℕ) (device : Device) :
    ((addDevice devices node channel).1 device.node)[device.ifIndex]? = some (some number) ↔
      (devices device.node)[device.ifIndex]? = some (some number) ∨
        (number = channel ∧ device = (addDevice devices node channel).2) := by
  obtain ⟨n, i⟩ := device
  show (Function.update devices node (devices node ++ [some channel]) n)[i]? = some (some number) ↔
    (devices n)[i]? = some (some number) ∨
    (number = channel ∧ (⟨n, i⟩ : Device) = ⟨node, (devices node).length⟩)
  by_cases hn : n = node
  · subst hn
    rw [Function.update_self, getElem?_snoc]
    simp [eq_comm, and_comm]
  · rw [Function.update_of_ne hn]
    simp [hn]

/-- The channels are those of the topology, and each device is listed with the
one whose end it is. -/
structure Links.Wired (links : Links) (topology : List (ℕ × ℕ)) : Prop where
  joined : links.channels.map (fun ends => (ends.1.node, ends.2.node)) = topology
  device_iff : ∀ number device, (links.devices device.node)[device.ifIndex]? = some (some number) ↔
    links.IsEnd number device

theorem Links.Wired.install (h : links.Wired topology) (link : ℕ × ℕ) :
    (links.install link).Wired (topology ++ [link]) := by
  constructor
  · simp [Links.install, addDevice, h.joined]
  · intro number device
    have hend : (links.install link).IsEnd number device ↔ links.IsEnd number device ∨
        (number = links.channels.length ∧
          (device = (addDevice links.devices link.1 links.channels.length).2 ∨
            device = (addDevice (addDevice links.devices link.1 links.channels.length).1 link.2
              links.channels.length).2)) := by
      constructor
      · intro hdev
        obtain ⟨ends, hends, hor⟩ := hdev
        rcases (getElem?_snoc _ _ _ _).mp hends with hold | ⟨hnum, heq⟩
        · exact Or.inl ⟨ends, hold, hor⟩
        · rw [← heq] at hor
          exact Or.inr ⟨hnum, hor⟩
      · intro hdev
        rcases hdev with ⟨ends, hends, hor⟩ | ⟨hnum, hor⟩
        · exact ⟨ends, (getElem?_snoc _ _ _ _).mpr (Or.inl hends), hor⟩
        · exact ⟨_, (getElem?_snoc _ _ _ _).mpr (Or.inr ⟨hnum, rfl⟩), hor⟩
    rw [hend, ← h.device_iff, and_or_left, ← or_assoc, ← addDevice_iff, ← addDevice_iff]
    rfl

theorem Links.wired_foldl (h : links.Wired topology) (more : List (ℕ × ℕ)) :
    (more.foldl Links.install links).Wired (topology ++ more) := by
  induction more generalizing links topology with
  | nil => simpa using h
  | cons link more ih => simpa using ih (h.install link)

theorem Links.wired_build (totalNodes : ℕ) (topology : List (ℕ × ℕ)) :
    (Links.build totalNodes topology).Wired topology := by
  have hstart : Links.Wired ⟨totalNodes, topology.length, fun _ => [none], [], none⟩ [] := by
    refine ⟨rfl, fun number device => iff_of_false ?_ ?_⟩
    · show ([none] : List (Option ℕ))[device.ifIndex]? ≠ some (some number)
      cases device.ifIndex <;> simp
    · intro h
      obtain ⟨ends, hends, _⟩ := h
      cases hends
  have hbuilt := Links.wired_foldl hstart topology
  exact ⟨hbuilt.joined, hbuilt.device_iff⟩

theorem totals_foldl (links : Links) (more : List (ℕ × ℕ)) :
    (more.foldl Links.install links).totalNodes = links.totalNodes ∧
      (more.foldl Links.install links).totalLinks = links.totalLinks := by
  induction more generalizing links with
  | nil => exact ⟨rfl, rfl⟩
  | cons link more ih => exact ih (links.install link)

theorem build_totals (totalNodes : ℕ) (topology : List (ℕ × ℕ)) :
    (Links.build totalNodes topology).totalNodes = totalNodes ∧
      (Links.build totalNodes topology).totalLinks = topology.length :=
  totals_foldl _ topology

theorem Links.Wired.length_channels (h : links.Wired topology) :
    links.channels.length = topology.length := by
  rw [← h.joined, List.length_map]

end Build

/-! ## What the operations set -/

section Set
variable {links : Links} {topology : List (ℕ × ℕ)} {interfaces : Interfaces} {isUp : Bool}

theorem assigned_setInterface (interfaces : Interfaces) (device : Device) (isUp : Bool) :
    Assigned isUp (· = device) interfaces (setInterface interfaces device isUp) :=
  assigned_update device

theorem assigned_ends (interfaces : Interfaces) (deviceA deviceB : Device) (isUp : Bool) :
    Assigned isUp (fun device => device = deviceA ∨ device = deviceB) interfaces
      (setInterface (setInterface interfaces deviceA isUp) deviceB isUp) :=
  (assigned_setInterface interfaces deviceA isUp).trans (assigned_setInterface _ deviceB isUp)

/-- What `P2POperation` sets: two ends of one link, one at each node. They may
be the same end when the nodes are the same. -/
def Links.Reached (links : Links) (nodeA nodeB : ℕ) (device : Device) : Prop :=
  ∃ number deviceA deviceB, links.IsEnd number deviceA ∧ deviceA.node = nodeA ∧
    links.IsEnd number deviceB ∧ deviceB.node = nodeB ∧ (device = deviceA ∨ device = deviceB)

theorem reached_iff (h : links.Wired topology) (nodeA nodeB : ℕ) (device : Device) :
    links.Reached nodeA nodeB device ↔ ∃ x ∈ (links.devices nodeA).zipIdx,
      ∃ ends, x.1.bind (links.channels[·]?) = some ends ∧ ∃ nodeDevice ∈ [ends.1, ends.2],
        nodeDevice.node = nodeB ∧ (device = ⟨nodeA, x.2⟩ ∨ device = ⟨nodeB, nodeDevice.ifIndex⟩) := by
  constructor
  · intro hreached
    obtain ⟨number, deviceA, deviceB, hA, rfl, hB, rfl, hor⟩ := hreached
    have hget := (h.device_iff number deviceA).mpr hA
    have hmem : (some number, deviceA.ifIndex) ∈ (links.devices deviceA.node).zipIdx :=
      List.mem_zipIdx_iff_getElem?.mpr hget
    obtain ⟨ends, hends, hB⟩ := hB
    exact ⟨_, hmem, ends, hends, deviceB, by simpa using hB, rfl, hor⟩
  · intro hloop
    obtain ⟨⟨channel, i⟩, hmem, ends, hends, nodeDevice, hB, rfl, hor⟩ := hloop
    cases channel with
    | none => cases hends
    | some number =>
      have hget : (links.devices nodeA)[i]? = some (some number) := List.mem_zipIdx_iff_getElem?.mp hmem
      exact ⟨number, ⟨nodeA, i⟩, nodeDevice, (h.device_iff number ⟨nodeA, i⟩).mp hget, rfl,
        ⟨ends, hends, by simpa using hB⟩, rfl, hor⟩

/-- The inner loop, over the two devices of a channel. -/
theorem assigned_channel (interfaces : Interfaces) (ends : Device × Device) (end0 : Device)
    (nodeB : ℕ) (isUp : Bool) :
    Assigned isUp (fun device => ∃ nodeDevice ∈ [ends.1, ends.2],
        nodeDevice.node = nodeB ∧ (device = end0 ∨ device = ⟨nodeB, nodeDevice.ifIndex⟩)) interfaces
      ([ends.1, ends.2].foldl (fun interfaces nodeDevice =>
        if nodeDevice.node = nodeB then
          setInterface (setInterface interfaces end0 isUp) ⟨nodeB, nodeDevice.ifIndex⟩ isUp
        else interfaces) interfaces) :=
  Assigned.foldl (fun nodeDevice _ interfaces =>
    (assigned_ends interfaces end0 ⟨nodeB, nodeDevice.ifIndex⟩ isUp).ite) interfaces

theorem assigned_p2pOperation (h : links.Wired topology) (interfaces : Interfaces)
    (nodeANum nodeBNum : UInt32) (isUp : Bool) :
    Assigned isUp (fun device => (nodeANum.toNat < links.totalNodes ∧
        nodeBNum.toNat < links.totalNodes) ∧ links.Reached nodeANum.toNat nodeBNum.toNat device)
      interfaces (links.p2pOperation interfaces nodeANum nodeBNum isUp) := by
  unfold Links.p2pOperation
  split
  · rename_i hout
    refine assigned_refl.congr fun device => iff_of_false id fun hin => ?_
    have hlt := hin.1
    omega
  · rename_i hin
    refine (Assigned.foldl (fun x _ interfaces => ?_) interfaces).congr fun device =>
      (reached_iff h nodeANum.toNat nodeBNum.toNat device).symm.trans
        (and_iff_right (by omega)).symm
    obtain ⟨channel, i⟩ := x
    dsimp only
    split
    · rename_i hnone
      exact assigned_refl.congr fun device =>
        by simp only [hnone, reduceCtorEq, false_and, exists_false]
    · rename_i device0 device1 hends
      refine (assigned_channel interfaces (device0, device1) ⟨nodeANum.toNat, i⟩ _ isUp).congr
        fun device => ?_
      rw [hends]
      exact ⟨fun hset => ⟨_, rfl, hset⟩, fun hset => by
        obtain ⟨ends, hends, hset⟩ := hset
        obtain rfl := Option.some.inj hends
        exact hset⟩

theorem reached_ne {nodeA nodeB : ℕ} (hne : nodeA ≠ nodeB) (device : Device) :
    links.Reached nodeA nodeB device ↔
      ∃ number, links.Joins number nodeA nodeB ∧ links.IsEnd number device := by
  constructor
  · intro hreached
    obtain ⟨number, deviceA, deviceB, hA, rfl, hB, rfl, hor⟩ := hreached
    have hend : links.IsEnd number device := by
      rcases hor with rfl | rfl
      · exact hA
      · exact hB
    obtain ⟨ends, hends, hA⟩ := hA
    obtain ⟨ends', hends', hB⟩ := hB
    obtain rfl := Option.some.inj (hends.symm.trans hends')
    refine ⟨number, ⟨ends, hends, ?_⟩, hend⟩
    rcases hA with rfl | rfl <;> rcases hB with rfl | rfl
    · exact absurd rfl hne
    · exact Or.inl ⟨rfl, rfl⟩
    · exact Or.inr ⟨rfl, rfl⟩
    · exact absurd rfl hne
  · intro hjoined
    obtain ⟨number, ⟨ends, hends, hjoins⟩, ends', hends', hor⟩ := hjoined
    obtain rfl := Option.some.inj (hends.symm.trans hends')
    have h1 : links.IsEnd number ends.1 := ⟨ends, hends, Or.inl rfl⟩
    have h2 : links.IsEnd number ends.2 := ⟨ends, hends, Or.inr rfl⟩
    rcases hjoins with ⟨hA, hB⟩ | ⟨hB, hA⟩
    · exact ⟨number, ends.1, ends.2, h1, hA, h2, hB, hor⟩
    · exact ⟨number, ends.2, ends.1, h2, hA, h1, hB, hor.symm⟩

theorem reached_self (node : ℕ) (device : Device) :
    links.Reached node node device ↔ device.node = node ∧ ∃ number, links.IsEnd number device := by
  constructor
  · intro hreached
    obtain ⟨number, deviceA, deviceB, hA, hnodeA, hB, hnodeB, hor⟩ := hreached
    rcases hor with rfl | rfl
    · exact ⟨hnodeA, number, hA⟩
    · exact ⟨hnodeB, number, hB⟩
  · intro hend
    obtain ⟨hnode, number, hend⟩ := hend
    exact ⟨number, device, device, hend, hnode, hend, hnode, Or.inl rfl⟩

theorem assigned_allInterfacesOperation (links : Links) (interfaces : Interfaces)
    (nodeNumber : UInt32) (isUp : Bool) :
    Assigned isUp (links.Named (.nodeLinks nodeNumber)) interfaces
      (links.allInterfacesOperation interfaces nodeNumber isUp) := by
  unfold Links.allInterfacesOperation
  split
  · rename_i hout
    exact assigned_refl.congr fun device => iff_of_false id fun hin => by
      have hlt := hin.1
      omega
  · rename_i hin
    have hloop := Assigned.foldl (l := List.range (links.devices nodeNumber.toNat).length)
      (fun i _ interfaces => assigned_setInterface interfaces ⟨nodeNumber.toNat, i⟩ isUp) interfaces
    refine hloop.congr fun device => ?_
    obtain ⟨node, ifIndex⟩ := device
    simp only [Links.Named, List.mem_range, Device.mk.injEq]
    constructor
    · intro h
      obtain ⟨i, hi, hnode, rfl⟩ := h
      exact ⟨by omega, hnode, hi⟩
    · intro h
      obtain ⟨_, hnode, hi⟩ := h
      exact ⟨ifIndex, hi, hnode, rfl⟩

end Set

/-! ## Exactness -/

section Exact
variable {totalNodes : ℕ} {topology : List (ℕ × ℕ)}

theorem linkOperation_build (interfaces : Interfaces) (linkNumber : UInt32) (isUp : Bool) :
    (Links.build totalNodes topology).linkOperation interfaces linkNumber isUp =
      ((Links.build totalNodes topology).channels[linkNumber.toNat]?).map fun ends =>
        setInterface (setInterface interfaces ends.1 isUp) ends.2 isUp := by
  have hndc : (Links.build totalNodes topology).ndc =
      some (Links.build totalNodes topology).channels := rfl
  rw [Links.linkOperation, hndc, if_neg fun h => Option.some_ne_none _ h.2]
  show ((Links.build totalNodes topology).channels[linkNumber.toNat]?).bind _ = _
  cases (Links.build totalNodes topology).channels[linkNumber.toNat]? with
  | none => rfl
  | some ends => rfl

theorem link_exact_iff (interfaces : Interfaces) (isUp : Bool) (linkNumber : UInt32) :
    (Links.build totalNodes topology).Exact interfaces (.link linkNumber) isUp
        ((Links.build totalNodes topology).linkOperation interfaces linkNumber isUp) ↔
      linkNumber.toNat < topology.length := by
  rw [linkOperation_build, ← (Links.wired_build totalNodes topology).length_channels]
  constructor
  · intro hexact
    obtain ⟨interfaces', hsome, _⟩ := hexact
    by_contra hout
    rw [List.getElem?_eq_none (Nat.le_of_not_lt hout)] at hsome
    cases hsome
  · intro hin
    have hget := List.getElem?_eq_getElem hin
    rw [hget]
    refine ⟨_, rfl, (assigned_ends interfaces _ _ isUp).congr fun device => ?_⟩
    simp [Links.Named, Links.IsEnd, hget]

theorem nodes_exact_iff (interfaces : Interfaces) (isUp : Bool) (nodeANum nodeBNum : UInt32) :
    (Links.build totalNodes topology).Exact interfaces (.nodes nodeANum nodeBNum) isUp
        (some ((Links.build totalNodes topology).p2pOperation interfaces nodeANum nodeBNum isUp)) ↔
      (Links.build totalNodes topology).Sound interfaces isUp (.nodes nodeANum nodeBNum) := by
  have hset := assigned_p2pOperation (Links.wired_build totalNodes topology) interfaces
    nodeANum nodeBNum isUp
  have hexact : ∀ left, (Links.build totalNodes topology).Exact interfaces (.nodes nodeANum nodeBNum)
      isUp (some left) ↔ Assigned isUp
        ((Links.build totalNodes topology).Named (.nodes nodeANum nodeBNum)) interfaces left := by
    simp [Links.Exact]
  rw [hexact]
  by_cases heq : nodeANum = nodeBNum
  · subst heq
    rw [hset.iff]
    simp only [reached_self, Links.Named, Links.Sound]
    constructor
    · intro h _ hin number device hend hnode
      exact h device (Or.inl ⟨⟨⟨hin, hin⟩, hnode, number, hend⟩, fun hnamed => hnamed.1 rfl⟩)
    · intro h device hor
      rcases hor with ⟨⟨⟨hin, _⟩, hnode, number, hend⟩, _⟩ | ⟨hnamed, _⟩
      · exact h trivial hin number device hend hnode
      · exact absurd rfl hnamed.1
  · have hne : nodeANum.toNat ≠ nodeBNum.toNat := fun h => heq (UInt32.toNat_inj.mp h)
    refine iff_of_true (hset.congr fun device => ?_) fun h => absurd h heq
    rw [reached_ne hne, and_assoc]
    exact (and_iff_right heq).symm

/-- A command sets exactly what it names if that is a link that there is, or
the links between two nodes that differ. NODELINKS always does. -/
theorem process_exact_iff (totalNodes : ℕ) (topology : List (ℕ × ℕ)) (interfaces : Interfaces)
    (tokens : List Text) (command : LinkCommand) (isUp : Bool)
    (h : linkCommand tokens = some (command, isUp)) :
    (Links.build totalNodes topology).Exact interfaces command isUp
        ((Links.build totalNodes topology).process interfaces tokens) ↔
      (Links.build totalNodes topology).Sound interfaces isUp command := by
  rw [Links.process, h, Option.bind_some]
  cases command with
  | link linkNumber =>
    rw [Links.Sound, (build_totals totalNodes topology).2]
    exact link_exact_iff interfaces isUp linkNumber
  | nodes nodeANum nodeBNum => exact nodes_exact_iff interfaces isUp nodeANum nodeBNum
  | nodeLinks nodeNumber =>
    exact iff_of_true ⟨_, rfl, assigned_allInterfacesOperation _ interfaces nodeNumber isUp⟩ trivial

/-- LINK DOWN 0 where node 0 and node 1 are joined twice. -/
theorem process_exact_parallel :
    linkCommand [linkWord, downWord, bytes ['0']] = some (.link 0, false) ∧
      ((Links.build 2 [(0, 1), (0, 1)]).Exact (fun _ => true) (.link 0) false
          ((Links.build 2 [(0, 1), (0, 1)]).process (fun _ => true) [linkWord, downWord, bytes ['0']]) ↔
        (Links.build 2 [(0, 1), (0, 1)]).Sound (fun _ => true) false (.link 0)) :=
  ⟨by decide, process_exact_iff 2 [(0, 1), (0, 1)] _ _ _ _ (by decide)⟩

/-- With node 0 and node 1 joined once, LINK DOWN 1 takes what is behind `m_ndc`
for a container, and LINK DOWN 0 0 sets the interface of node 0 down. -/
theorem link_commands_inexact :
    (linkCommand [linkWord, downWord, bytes ['1']] = some (.link 1, false) ∧
      (Links.build 2 [(0, 1)]).process (fun _ => true) [linkWord, downWord, bytes ['1']] = none ∧
      ¬ (Links.build 2 [(0, 1)]).Exact (fun _ => true) (.link 1) false
        ((Links.build 2 [(0, 1)]).process (fun _ => true) [linkWord, downWord, bytes ['1']])) ∧
    (linkCommand [linkWord, downWord, bytes ['0'], bytes ['0']] = some (.nodes 0 0, false) ∧
      ¬ (Links.build 2 [(0, 1)]).Exact (fun _ => true) (.nodes 0 0) false
        ((Links.build 2 [(0, 1)]).process (fun _ => true)
          [linkWord, downWord, bytes ['0'], bytes ['0']])) := by
  have hread : linkCommand [linkWord, downWord, bytes ['0'], bytes ['0']] =
      some (.nodes 0 0, false) := by decide
  have hundefined : (Links.build 2 [(0, 1)]).process (fun _ => true)
      [linkWord, downWord, bytes ['1']] = none := rfl
  refine ⟨⟨by decide, hundefined, ?_⟩, hread, ?_⟩
  · rw [hundefined]
    intro h
    obtain ⟨interfaces, hsome, _⟩ := h
    cases hsome
  · rw [Links.process, hread]
    intro h
    have hdown := (nodes_exact_iff _ _ _ _).mp h rfl (by decide) 0 ⟨0, 1⟩ ⟨_, rfl, Or.inl rfl⟩ rfl
    cases hdown

end Exact

end Ns3Routing.SimulatorMain
