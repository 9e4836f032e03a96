import Mathlib.Data.List.TakeWhile
import Ns3Routing.Lib.OrdMap

/-! # Names and addresses of a node

The part of `LSRoutingProtocol` and `DVRoutingProtocol` that is fixed once the
simulator has started them, with the lookups both classes define word for
word alike. Tables of both protocols are keyed by node name, the decimal
string `ReverseLookup` prints; a name is turned back into an address with
`ResolveNodeIpAddress (std::atoi (name))`. -/

namespace Ns3Routing

/-- An IPv4 address as its host-order value; `Get ()` is the identity. -/
abbrev Ipv4Address := UInt32

namespace Ipv4Address

/-- What the default constructor leaves in an address nobody assigned. -/
def unassigned : Ipv4Address := 0x66666666

def getAny : Ipv4Address := 0

def getLoopback : Ipv4Address := 0x7f000001

end Ipv4Address

/-- `std::map<std::string, V>`. -/
abbrev NameMap (V : Type) := Std.ExtTreeMap String V compare

/-- The white space `isspace` skips in the C locale. -/
def isspace (c : Char) : Bool := c == ' ' || (9 ≤ c.toNat && c.toNat ≤ 13)

/-- The digits at the front of `cs`, as `strtol` reads them. -/
def leadingNumber (cs : List Char) : Nat := Nat.ofDigitChars 10 (cs.takeWhile Char.isDigit) 0

/-- `std::atoi`, converted to the `uint32_t` its callers pass on. -/
def atoi (s : String) : UInt32 :=
  match s.toList.dropWhile isspace with
  | '-' :: ds => -UInt32.ofNat (leadingNumber ds)
  | '+' :: ds => UInt32.ofNat (leadingNumber ds)
  | ds => UInt32.ofNat (leadingNumber ds)

/-- What a digit is not. -/
theorem ne_of_isDigit {c : Char} (h : c.isDigit = true) :
    isspace c = false ∧ c ≠ '-' ∧ c ≠ '+' := by
  have hc : 48 ≤ c.toNat ∧ c.toNat ≤ 57 := Char.isDigit_iff_toNat.mp h
  have hne : ∀ d : Char, d.toNat < 48 → c ≠ d := by
    intro d hd he
    subst he
    omega
  refine ⟨?_, hne '-' (by decide), hne '+' (by decide)⟩
  simp only [isspace, Bool.or_eq_false_iff, beq_eq_false_iff_ne, Bool.and_eq_false_iff,
    decide_eq_false_iff_not]
  exact ⟨hne ' ' (by decide), Or.inr (by omega)⟩

/-- Parsing a printed node number gives it back. -/
theorem atoi_toString (n : UInt32) : atoi (toString n.toNat) = n := by
  have digits : ∀ c ∈ Nat.toDigits 10 n.toNat, c.isDigit = true := fun c hc =>
    Nat.isDigit_of_mem_toDigits (by decide) (by decide) hc
  have whole : leadingNumber (Nat.toDigits 10 n.toNat) = n.toNat := by
    rw [leadingNumber, List.takeWhile_eq_self_iff.mpr digits,
      Nat.ofDigitChars_toDigits (by decide) (by decide)]
  have hs : (toString n.toNat).toList = Nat.toDigits 10 n.toNat := by
    rw [Nat.toString_eq_ofList_toDigits, String.toList_ofList]
  unfold atoi
  rw [hs]
  cases hd : Nat.toDigits 10 n.toNat with
  | nil => rw [hd] at whole; exact (congrArg UInt32.ofNat whole).trans UInt32.ofNat_toNat
  | cons c cs =>
    obtain ⟨hsp, hm, hp⟩ := ne_of_isDigit (digits c (by simp [hd]))
    rw [hd] at whole
    rw [List.dropWhile_cons_of_neg (by simp [hsp])]
    split
    · rename_i he; exact absurd (List.cons.inj he).1 hm
    · rename_i he; exact absurd (List.cons.inj he).1 hp
    · rw [whole, UInt32.ofNat_toNat]

/-- What `SetMainInterface`, `SetNodeAddressMap`, `SetAddressNodeMap`,
`DoStart` and the attributes leave in a node. `socketAddresses` lists the
sockets `DoStart` binds, one per non-loopback interface, with the local
address of the interface; times are in milliseconds, the unit every
comparison of the code uses. -/
structure NodeConfig where
  mainAddress : Ipv4Address
  socketAddresses : List (Nat × Ipv4Address)
  nodeAddressMap : Std.ExtTreeMap UInt32 Ipv4Address compare
  addressNodeMap : Std.ExtTreeMap Ipv4Address UInt32 compare
  helloTimeout : Nat
  maxTTL : UInt8

namespace NodeConfig

variable (cfg : NodeConfig)

def resolveNodeIpAddress (nodeNumber : UInt32) : Ipv4Address :=
  cfg.nodeAddressMap[nodeNumber]?.getD Ipv4Address.getAny

def reverseLookup (ipAddress : Ipv4Address) : String :=
  match cfg.addressNodeMap[ipAddress]? with
  | some nodeNumber => toString nodeNumber.toNat
  | none => "Unknown"

/-- The address of a node given by name, as both protocols compute it. -/
def resolveName (name : String) : Ipv4Address := cfg.resolveNodeIpAddress (atoi name)

/-- This node's own name. -/
def thisNode : String := cfg.reverseLookup cfg.mainAddress

/-- The local address of the interface a message came in on. A socket that is
not in the map is only logged, and the address variable keeps its default. -/
def interfaceAddr (socket : Nat) : Ipv4Address :=
  (cfg.socketAddresses.lookup socket).getD Ipv4Address.unassigned

def isOwnAddress (originatorAddress : Ipv4Address) : Bool :=
  cfg.socketAddresses.any fun i => originatorAddress == i.2

/-- One copy of `packet` on every interface, each with the local address of
the interface it leaves by. -/
def broadcastPacket {M : Type} (packet : M) : List (Ipv4Address × M) :=
  cfg.socketAddresses.map fun i => (i.2, packet)

/-- One copy on the interface with local address `interfaceAddr`; without such
an interface the packet is only logged. -/
def sendPacket {M : Type} (packet : M) (interfaceAddr : Ipv4Address) : List (Ipv4Address × M) :=
  match cfg.socketAddresses.find? fun i => interfaceAddr == i.2 with
  | some i => [(i.2, packet)]
  | none => []

/-- The maps are mutually inverse at a node name: the name is printed from a
known number, and the number's main address has that name. -/
def KnownName (name : String) : Prop :=
  ∃ (number : UInt32) (address : Ipv4Address), name = toString number.toNat ∧ 
    cfg.nodeAddressMap[number]? = some address ∧ cfg.addressNodeMap[address]? = some number

variable {cfg}

theorem KnownName.resolveName {name : String} (h : cfg.KnownName name) :
    cfg.reverseLookup (cfg.resolveName name) = name := by
  obtain ⟨number, address, rfl, hn, ha⟩ := h
  rw [NodeConfig.resolveName, atoi_toString, resolveNodeIpAddress, hn, Option.getD_some,
    reverseLookup, ha]

end NodeConfig

theorem of_mem_broadcastPacket {cfg : NodeConfig} {M : Type} {packet : M} {x : Ipv4Address × M}
    (h : x ∈ cfg.broadcastPacket packet) : x.2 = packet := by
  obtain ⟨i, _, rfl⟩ := List.mem_map.mp h
  rfl

/-- Node 0 of three nodes with main addresses 10, 20 and 30, with an
interface to each of the other two. -/
def sampleConfig : NodeConfig where
  mainAddress := 10
  socketAddresses := [(0, 10), (1, 11)]
  nodeAddressMap := .ofList [((0 : UInt32), (10 : Ipv4Address)), (1, 20), (2, 30)]
  addressNodeMap := .ofList [((10 : Ipv4Address), (0 : UInt32)), (11, 0), (20, 1), (30, 2)]
  helloTimeout := 2000
  maxTTL := 16

end Ns3Routing
