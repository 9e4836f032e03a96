import Ns3Routing.Lib.Bytes
import Ns3Routing.NodeConfig

/-! # Message formats

How `LSMessage`, `DVMessage` and `TestAppMessage` are put into packets and
taken out again: `Serialize`, `Deserialize` and `GetSerializedSize` of the
three classes, and `AddHeader` and `RemoveHeader` of a packet. The first two
classes are alike but for their names, so they share `RoutingMessage`.

A text is a list of bytes. Its length goes through `uint16_t` on the wire,
through `uint32_t` where it is copied, and sizes are `uint32_t` numbers.
`Deserialize` starts from a fresh object; its result is `none` where it reads
past the end of the buffer or meets an unknown message type. -/

namespace Ns3Routing.Codec

open Lib

/-- A `std::string`. -/
abbrev Text := List UInt8

/-- The functions of a message class. `size` is what `GetSerializedSize`
computes, before it is stored in a `uint32_t`; `deserialize` returns the
message, the size it reports and the bytes it has not read. -/
structure Format (M : Type) where
  size : M → ℕ
  serialize : M → List UInt8
  deserialize : List UInt8 → Option ((M × UInt32) × List UInt8)

namespace Format

variable {M : Type} (F : Format M)

def getSerializedSize (m : M) : UInt32 := UInt32.ofNat (F.size m)

/-- The header goes in front of what the packet holds. -/
def addHeader (m : M) (buffer : List UInt8) : List UInt8 := F.serialize m ++ buffer

/-- As many bytes are removed from the packet as `Deserialize` reports. -/
def removeHeader (buffer : List UInt8) : Option (M × List UInt8) :=
  (F.deserialize buffer).map fun res => (res.1.1, buffer.drop res.1.2.toNat)

end Format

/-! ## Texts -/

/-- `WriteU16 (length ())` and `Write (c_str (), length ())`. -/
def writeText (text : Text) : List UInt8 :=
  writeU16 (UInt16.ofNat text.length) ++ text.take (UInt32.ofNat text.length).toNat

def readText (bytes : List UInt8) : Option (Text × List UInt8) := do
  let (length, bytes) ← readU16 bytes
  readBytes length.toNat bytes

/-- What is left of a text on the wire. -/
theorem length_take_mod (text : Text) (n : ℕ) :
    (text.take (text.length % n)).length = text.length % n := by
  rw [List.length_take]
  exact min_eq_left (Nat.mod_le _ _)

theorem readText_writeText (text : Text) (rest : List UInt8) :
    readText (writeText text ++ rest) = some (text.take (text.length % 2 ^ 16),
      (text.take (text.length % 2 ^ 32)).drop (text.length % 2 ^ 16) ++ rest) := by
  have hle : text.length % 2 ^ 16 ≤ text.length % 2 ^ 32 := by omega
  have hlen := length_take_mod text (2 ^ 32)
  simp only [readText, writeText, List.append_assoc, readU16_writeU16, UInt16.toNat_ofNat',
    UInt32.toNat_ofNat', Option.bind_eq_bind, Option.bind_some, readBytes]
  rw [if_pos (by rw [List.length_append, hlen]; omega), List.take_append_of_le_length (by omega),
    List.drop_append_of_le_length (by omega), List.take_take, min_eq_left hle]

theorem readText_writeText_of_lt {text : Text} (rest : List UInt8) (h : text.length < 2 ^ 16) :
    readText (writeText text ++ rest) = some (text, rest) := by
  rw [readText_writeText, Nat.mod_eq_of_lt h, Nat.mod_eq_of_lt (by omega)]
  simp

theorem length_writeText (text : Text) : (writeText text).length = 2 + text.length % 2 ^ 32 := by
  rw [writeText, List.length_append, length_writeU16, UInt32.toNat_ofNat', length_take_mod]

theorem writeText_readText {bytes rest : List UInt8} {text : Text}
    (h : readText bytes = some (text, rest)) : writeText text ++ rest = bytes := by
  obtain ⟨⟨length, bytes₁⟩, h₁, h⟩ := Option.bind_eq_some_iff.mp h
  obtain ⟨hlen, happ⟩ := append_of_readBytes h
  have hlt := length.toNat_lt
  have hlength : UInt16.ofNat text.length = length := by
    rw [hlen, UInt16.ofNat_toNat]
  have htake : text.take (UInt32.ofNat text.length).toNat = text := by
    rw [UInt32.toNat_ofNat', Nat.mod_eq_of_lt (by omega), List.take_length]
  rw [writeText, hlength, htake, List.append_assoc, happ]
  exact writeU16_readU16 h₁

/-! ## `LSMessage` and `DVMessage` -/

/-- `enum MessageType`; `tableMsg` is `LS_TABLE_MSG` in one class and
`DV_TABLE_MSG` in the other. -/
inductive MessageType where
  | pingReq
  | pingRsp
  | helloReq
  | tableMsg
  deriving DecidableEq

namespace MessageType

def toUInt8 : MessageType → UInt8
  | pingReq => 1
  | pingRsp => 2
  | helloReq => 3
  | tableMsg => 4

/-- The cast back, for the types the switches know. -/
def ofUInt8 (b : UInt8) : Option MessageType :=
  if b = 1 then some pingReq
  else if b = 2 then some pingRsp
  else if b = 3 then some helloReq
  else if b = 4 then some tableMsg
  else none

@[simp] theorem ofUInt8_toUInt8 (t : MessageType) : ofUInt8 t.toUInt8 = some t := by
  cases t <;> decide

theorem toUInt8_ofUInt8 {b : UInt8} {t : MessageType} (h : ofUInt8 b = some t) : t.toUInt8 = b := by
  unfold ofUInt8 at h
  split at h
  · rename_i hb; rw [hb, ← Option.some.inj h]; rfl
  · split at h
    · rename_i hb; rw [hb, ← Option.some.inj h]; rfl
    · split at h
      · rename_i hb; rw [hb, ← Option.some.inj h]; rfl
      · split at h
        · rename_i hb; rw [hb, ← Option.some.inj h]; rfl
        · cases h

end MessageType

/-- The member of `m_message` that belongs to the message type. The time in a
hello never goes on the wire. -/
inductive RoutingPayload where
  | pingReq (destinationAddress : Ipv4Address) (pingMessage : Text)
  | pingRsp (destinationAddress : Ipv4Address) (pingMessage : Text)
  | helloReq (destinationAddress : Ipv4Address) (helloMessage : Text)
  | tableMsg (neighborCosts : List (Ipv4Address × UInt32))
  deriving DecidableEq

structure RoutingMessage where
  sequenceNumber : UInt32
  ttl : UInt8
  originatorAddress : Ipv4Address
  payload : RoutingPayload
  deriving DecidableEq

/-- An address and a text: `PingReq`, `PingRsp` and `HelloReq`. -/
def writeAddressed (destinationAddress : Ipv4Address) (text : Text) : List UInt8 :=
  writeHtonU32 destinationAddress ++ writeText text

def readAddressed (bytes : List UInt8) : Option ((Ipv4Address × Text) × List UInt8) := do
  let (destinationAddress, bytes) ← readNtohU32 bytes
  let (text, bytes) ← readText bytes
  return ((destinationAddress, text), bytes)

def writeNeighbor (i : Ipv4Address × UInt32) : List UInt8 := writeHtonU32 i.1 ++ writeHtonU32 i.2

def readNeighbor (bytes : List UInt8) : Option ((Ipv4Address × UInt32) × List UInt8) := do
  let (addr, bytes) ← readNtohU32 bytes
  let (cost, bytes) ← readNtohU32 bytes
  return ((addr, cost), bytes)

namespace RoutingPayload

def messageType : RoutingPayload → MessageType
  | pingReq _ _ => .pingReq
  | pingRsp _ _ => .pingRsp
  | helloReq _ _ => .helloReq
  | tableMsg _ => .tableMsg

/-- What `GetSerializedSize` of the member adds up. -/
def size : RoutingPayload → ℕ
  | pingReq _ pingMessage => 4 + 2 + pingMessage.length
  | pingRsp _ pingMessage => 4 + 2 + pingMessage.length
  | helloReq _ helloMessage => 4 + 2 + helloMessage.length
  | tableMsg neighborCosts => 2 + (4 + 4) * neighborCosts.length

def getSerializedSize (payload : RoutingPayload) : UInt32 := UInt32.ofNat payload.size

def serialize : RoutingPayload → List UInt8
  | pingReq destinationAddress pingMessage => writeAddressed destinationAddress pingMessage
  | pingRsp destinationAddress pingMessage => writeAddressed destinationAddress pingMessage
  | helloReq destinationAddress helloMessage => writeAddressed destinationAddress helloMessage
  | tableMsg neighborCosts =>
    writeU16 (UInt16.ofNat neighborCosts.length) ++ neighborCosts.flatMap writeNeighbor

/-- `Deserialize` of the member. -/
def deserialize : MessageType → List UInt8 → Option (RoutingPayload × List UInt8)
  | .pingReq, bytes => do
    let ((destinationAddress, pingMessage), bytes) ← readAddressed bytes
    return (pingReq destinationAddress pingMessage, bytes)
  | .pingRsp, bytes => do
    let ((destinationAddress, pingMessage), bytes) ← readAddressed bytes
    return (pingRsp destinationAddress pingMessage, bytes)
  | .helloReq, bytes => do
    let ((destinationAddress, helloMessage), bytes) ← readAddressed bytes
    return (helloReq destinationAddress helloMessage, bytes)
  | .tableMsg, bytes => do
    let (nOfNeighbors, bytes) ← readU16 bytes
    let (neighborCosts, bytes) ← readMany readNeighbor nOfNeighbors.toNat bytes
    return (tableMsg neighborCosts, bytes)

end RoutingPayload

/-- What `LSMessage::Deserialize` and `DVMessage::Deserialize` add to the size
of the header. In the case of a table message the result of the member's
`Deserialize` is dropped. -/
def reported : RoutingPayload → UInt32
  | .tableMsg _ => 0
  | payload => payload.getSerializedSize

/-- The format of both classes. -/
def routingMessage : Format RoutingMessage where
  size m := 1 + 4 + 4 + 1 + m.payload.size
  serialize m :=
    m.payload.messageType.toUInt8 :: (writeHtonU32 m.sequenceNumber ++
      (m.ttl :: (writeHtonU32 m.originatorAddress ++ m.payload.serialize)))
  deserialize bytes := do
    let (messageType, bytes) ← readU8 bytes
    let messageType ← MessageType.ofUInt8 messageType
    let (sequenceNumber, bytes) ← readNtohU32 bytes
    let (ttl, bytes) ← readU8 bytes
    let (originatorAddress, bytes) ← readNtohU32 bytes
    let (payload, bytes) ← RoutingPayload.deserialize messageType bytes
    return ((⟨sequenceNumber, ttl, originatorAddress, payload⟩,
      1 + 4 + 1 + 4 + reported payload), bytes)

def lsMessage : Format RoutingMessage := routingMessage

def dvMessage : Format RoutingMessage := routingMessage

/-! ## `TestAppMessage` -/

inductive TestAppPayload where
  | pingReq (pingMessage : Text)
  | pingRsp (pingMessage : Text)
  deriving DecidableEq

structure TestAppMessage where
  transactionId : UInt32
  payload : TestAppPayload
  deriving DecidableEq

namespace TestAppPayload

/-- `PING_REQ` and `PING_RSP`. -/
def messageType : TestAppPayload → UInt8
  | pingReq _ => 1
  | pingRsp _ => 2

def pingMessage : TestAppPayload → Text
  | pingReq pingMessage => pingMessage
  | pingRsp pingMessage => pingMessage

/-- What `GetSerializedSize` of the member adds up. -/
def size (payload : TestAppPayload) : ℕ := 2 + payload.pingMessage.length

def deserialize (messageType : UInt8) (bytes : List UInt8) :
    Option (TestAppPayload × List UInt8) :=
  if messageType = 1 then do
    let (pingMessage, bytes) ← readText bytes
    return (pingReq pingMessage, bytes)
  else if messageType = 2 then do
    let (pingMessage, bytes) ← readText bytes
    return (pingRsp pingMessage, bytes)
  else none

end TestAppPayload

def testAppMessage : Format TestAppMessage where
  size m := 1 + 4 + m.payload.size
  serialize m := m.payload.messageType :: (writeHtonU32 m.transactionId ++
    writeText m.payload.pingMessage)
  deserialize bytes := do
    let (messageType, bytes) ← readU8 bytes
    let (transactionId, bytes) ← readNtohU32 bytes
    let (payload, bytes) ← TestAppPayload.deserialize messageType bytes
    return ((⟨transactionId, payload⟩, 1 + 4 + UInt32.ofNat payload.size), bytes)

/-! ## Round trips -/

theorem readAddressed_writeAddressed (destinationAddress : Ipv4Address) (text : Text)
    (rest : List UInt8) :
    readAddressed (writeAddressed destinationAddress text ++ rest) =
      (readText (writeText text ++ rest)).map fun x => ((destinationAddress, x.1), x.2) := by
  simp only [readAddressed, writeAddressed, List.append_assoc, readNtohU32_writeHtonU32,
    Option.bind_eq_bind, Option.bind_some]
  cases readText (writeText text ++ rest) <;> rfl

theorem writeAddressed_readAddressed {bytes rest : List UInt8} {x : Ipv4Address × Text}
    (h : readAddressed bytes = some (x, rest)) : writeAddressed x.1 x.2 ++ rest = bytes := by
  obtain ⟨⟨destinationAddress, bytes₁⟩, h₁, h⟩ := Option.bind_eq_some_iff.mp h
  obtain ⟨⟨text, bytes₂⟩, h₂, h⟩ := Option.bind_eq_some_iff.mp h
  obtain ⟨rfl, rfl⟩ := Prod.mk.inj (Option.some.inj h)
  rw [writeAddressed, List.append_assoc, writeText_readText h₂]
  exact writeHtonU32_readNtohU32 h₁

theorem readNeighbor_writeNeighbor (i : Ipv4Address × UInt32) (rest : List UInt8) :
    readNeighbor (writeNeighbor i ++ rest) = some (i, rest) := by
  simp [readNeighbor, writeNeighbor]

theorem writeNeighbor_readNeighbor (bytes : List UInt8) (i : Ipv4Address × UInt32)
    (rest : List UInt8) (h : readNeighbor bytes = some (i, rest)) :
    writeNeighbor i ++ rest = bytes := by
  obtain ⟨⟨addr, bytes₁⟩, h₁, h⟩ := Option.bind_eq_some_iff.mp h
  obtain ⟨⟨cost, bytes₂⟩, h₂, h⟩ := Option.bind_eq_some_iff.mp h
  obtain ⟨rfl, rfl⟩ := Prod.mk.inj (Option.some.inj h)
  rw [writeNeighbor, List.append_assoc, writeHtonU32_readNtohU32 h₂]
  exact writeHtonU32_readNtohU32 h₁

theorem length_flatMap_writeNeighbor (neighborCosts : List (Ipv4Address × UInt32)) :
    (neighborCosts.flatMap writeNeighbor).length = 8 * neighborCosts.length := by
  induction neighborCosts with
  | nil => rfl
  | cons i neighborCosts ih =>
    rw [List.flatMap_cons, List.length_append, ih, List.length_cons]
    show 8 + _ = _
    omega

namespace RoutingPayload

theorem deserialize_serialize {payload : RoutingPayload} (rest : List UInt8)
    (h : payload.size < 2 ^ 16) :
    deserialize payload.messageType (payload.serialize ++ rest) = some (payload, rest) := by
  cases payload with
  | tableMsg neighborCosts =>
    have hlen : neighborCosts.length % 65536 = neighborCosts.length := by
      simp only [size] at h
      omega
    simp [deserialize, messageType, serialize, hlen, readMany_flatMap readNeighbor_writeNeighbor]
  | pingReq address text | pingRsp address text | helloReq address text =>
    have hlen : text.length < 2 ^ 16 := by
      simp only [size] at h
      omega
    simp [deserialize, messageType, serialize, readAddressed_writeAddressed,
      readText_writeText_of_lt rest hlen]

theorem serialize_deserialize {t : MessageType} {payload : RoutingPayload} {bytes rest : List UInt8}
    (h : deserialize t bytes = some (payload, rest)) :
    payload.messageType = t ∧ payload.serialize ++ rest = bytes := by
  cases t with
  | tableMsg =>
    obtain ⟨⟨nOfNeighbors, bytes₁⟩, h₁, h⟩ := Option.bind_eq_some_iff.mp h
    obtain ⟨⟨neighborCosts, bytes₂⟩, h₂, h⟩ := Option.bind_eq_some_iff.mp h
    obtain ⟨rfl, rfl⟩ := Prod.mk.inj (Option.some.inj h)
    obtain ⟨hlen, happ⟩ := flatMap_readMany writeNeighbor_readNeighbor h₂
    refine ⟨rfl, ?_⟩
    rw [serialize, hlen, UInt16.ofNat_toNat, List.append_assoc, happ]
    exact writeU16_readU16 h₁
  | pingReq | pingRsp | helloReq =>
    obtain ⟨⟨x, bytes₁⟩, h₁, h⟩ := Option.bind_eq_some_iff.mp h
    obtain ⟨rfl, rfl⟩ := Prod.mk.inj (Option.some.inj h)
    exact ⟨rfl, writeAddressed_readAddressed h₁⟩

theorem length_serialize {payload : RoutingPayload} (h : payload.size < 2 ^ 32) :
    payload.serialize.length = payload.size := by
  cases payload with
  | tableMsg neighborCosts =>
    rw [serialize, List.length_append, length_flatMap_writeNeighbor]
    rfl
  | pingReq address text | pingRsp address text | helloReq address text =>
    simp only [size] at h
    rw [serialize, writeAddressed, List.length_append, length_writeText,
      Nat.mod_eq_of_lt (by omega), length_writeHtonU32, size]
    omega

end RoutingPayload

theorem routingMessage_deserialize (m : RoutingMessage) (rest : List UInt8) :
    routingMessage.deserialize (routingMessage.serialize m ++ rest) =
      (RoutingPayload.deserialize m.payload.messageType (m.payload.serialize ++ rest)).map
        fun x => (({ m with payload := x.1 }, 1 + 4 + 1 + 4 + reported x.1), x.2) := by
  simp only [routingMessage, List.cons_append, List.append_assoc, readU8,
    readNtohU32_writeHtonU32, MessageType.ofUInt8_toUInt8, Option.bind_eq_bind, Option.bind_some]
  cases RoutingPayload.deserialize m.payload.messageType (m.payload.serialize ++ rest) <;> rfl

/-- The messages that fit in a datagram keep their kind, header and payload,
in as many bytes as the class says, and the bytes a message was read from are
those it is written as. -/
def Format.RoundTrips {M : Type} (F : Format M) : Prop :=
  (∀ m rest, F.size m ≤ 65507 →
    (F.serialize m).length = (F.getSerializedSize m).toNat ∧
      ∃ size, F.deserialize (F.serialize m ++ rest) = some ((m, size), rest)) ∧
  ∀ bytes m size rest, F.deserialize bytes = some ((m, size), rest) → F.serialize m ++ rest = bytes

theorem routingMessage_roundTrips : routingMessage.RoundTrips := by
  constructor
  · intro m rest hsize
    have hpayload : m.payload.size < 2 ^ 16 := by
      have : 1 + 4 + 4 + 1 + m.payload.size ≤ 65507 := hsize
      omega
    constructor
    · have hlength : m.payload.serialize.length = m.payload.size :=
        RoutingPayload.length_serialize (by omega)
      rw [Format.getSerializedSize, UInt32.toNat_ofNat', Nat.mod_eq_of_lt (by omega)]
      simp only [routingMessage, List.length_cons, List.length_append, length_writeHtonU32, hlength]
      omega
    · rw [routingMessage_deserialize, RoutingPayload.deserialize_serialize rest hpayload]
      exact ⟨_, rfl⟩
  · intro bytes m size rest h
    obtain ⟨⟨b, bytes₁⟩, h₁, h⟩ := Option.bind_eq_some_iff.mp h
    obtain ⟨t, ht, h⟩ := Option.bind_eq_some_iff.mp h
    obtain ⟨⟨sequenceNumber, bytes₂⟩, h₂, h⟩ := Option.bind_eq_some_iff.mp h
    obtain ⟨⟨ttl, bytes₃⟩, h₃, h⟩ := Option.bind_eq_some_iff.mp h
    obtain ⟨⟨originatorAddress, bytes₄⟩, h₄, h⟩ := Option.bind_eq_some_iff.mp h
    obtain ⟨⟨payload, bytes₅⟩, h₅, h⟩ := Option.bind_eq_some_iff.mp h
    obtain ⟨hm, rfl⟩ := Prod.mk.inj (Option.some.inj h)
    obtain ⟨rfl, _⟩ := Prod.mk.inj hm
    obtain ⟨htype, hbytes⟩ := RoutingPayload.serialize_deserialize h₅
    rw [← cons_of_readU8 h₁, ← MessageType.toUInt8_ofUInt8 ht, ← writeHtonU32_readNtohU32 h₂,
      ← cons_of_readU8 h₃, ← writeHtonU32_readNtohU32 h₄, ← hbytes, ← htype]
    simp [routingMessage]

theorem testAppMessage_roundTrips : testAppMessage.RoundTrips := by
  constructor
  · intro hx rest hsize
    obtain ⟨transactionId, payload⟩ := hx
    have hsize : 1 + 4 + (2 + payload.pingMessage.length) ≤ 65507 := hsize
    constructor
    · rw [Format.getSerializedSize, UInt32.toNat_ofNat']
      simp only [testAppMessage, TestAppPayload.size, List.length_cons, List.length_append,
        length_writeHtonU32, length_writeText]
      omega
    · have htext : payload.pingMessage.length < 2 ^ 16 := by omega
      cases payload with
      | pingReq pingMessage | pingRsp pingMessage =>
        have hread : readText (writeText pingMessage ++ rest) = some (pingMessage, rest) :=
          readText_writeText_of_lt rest htext
        simp [testAppMessage, TestAppPayload.deserialize, TestAppPayload.messageType,
          TestAppPayload.pingMessage, readU8, hread]
  · intro bytes m size rest h
    obtain ⟨⟨b, bytes₁⟩, h₁, h⟩ := Option.bind_eq_some_iff.mp h
    obtain ⟨⟨transactionId, bytes₂⟩, h₂, h⟩ := Option.bind_eq_some_iff.mp h
    obtain ⟨⟨payload, bytes₃⟩, h₃, h⟩ := Option.bind_eq_some_iff.mp h
    obtain ⟨hm, rfl⟩ := Prod.mk.inj (Option.some.inj h)
    obtain ⟨rfl, _⟩ := Prod.mk.inj hm
    rw [← cons_of_readU8 h₁, ← writeHtonU32_readNtohU32 h₂]
    unfold TestAppPayload.deserialize at h₃
    split at h₃
    · rename_i hb
      obtain ⟨⟨text, bytes₄⟩, h₄, h₃⟩ := Option.bind_eq_some_iff.mp h₃
      obtain ⟨rfl, rfl⟩ := Prod.mk.inj (Option.some.inj h₃)
      rw [← writeText_readText h₄, hb]
      simp [testAppMessage, TestAppPayload.messageType, TestAppPayload.pingMessage]
    · split at h₃
      · rename_i hb
        obtain ⟨⟨text, bytes₄⟩, h₄, h₃⟩ := Option.bind_eq_some_iff.mp h₃
        obtain ⟨rfl, rfl⟩ := Prod.mk.inj (Option.some.inj h₃)
        rw [← writeText_readText h₄, hb]
        simp [testAppMessage, TestAppPayload.messageType, TestAppPayload.pingMessage]
      · cases h₃

/-- **The message formats round-trip.** -/
theorem codecs_round_trip :
    lsMessage.RoundTrips ∧ dvMessage.RoundTrips ∧ testAppMessage.RoundTrips :=
  ⟨routingMessage_roundTrips, routingMessage_roundTrips, testAppMessage_roundTrips⟩

/-! ## Reported sizes -/

/-- The size `Deserialize` reports for `m` is the number of bytes it has read
and the size of `m`, and removing the header leaves the bytes after it. -/
def Format.ReportsSize {M : Type} (F : Format M) (m : M) : Prop :=
  ∀ rest, ∃ m' size after, F.deserialize (F.serialize m ++ rest) = some ((m', size), after) ∧
    size.toNat + after.length = (F.serialize m ++ rest).length ∧ size = F.getSerializedSize m ∧
    F.removeHeader (F.addHeader m rest) = some (m', rest)

/-- The text of a message that is not a table message. -/
def RoutingPayload.text? : RoutingPayload → Option Text
  | pingReq _ pingMessage => some pingMessage
  | pingRsp _ pingMessage => some pingMessage
  | helloReq _ helloMessage => some helloMessage
  | tableMsg _ => none

/-- A text whose length survives the way through `uint16_t`. -/
def FitsU16 (text : Text) : Prop := text.length % 2 ^ 32 < 2 ^ 16

/-- The rule for messages that end in a text, after a header of `h` bytes with
the length of the text: the size is right when nothing of the text got
lost. -/
theorem Format.reportsSize_iff {M : Type} {F : Format M} {m : M} {header : List UInt8} {text : Text}
    {h : ℕ} (hserialize : F.serialize m = header ++ writeText text)
    (hheader : header.length + 2 = h) (hsmall : h < 2 ^ 16) (hsize : F.size m = h + text.length)
    (hread : ∀ rest, ∃ m', F.deserialize (F.serialize m ++ rest) =
      some ((m', UInt32.ofNat (h + text.length % 2 ^ 16)),
        (text.take (text.length % 2 ^ 32)).drop (text.length % 2 ^ 16) ++ rest)) :
    F.ReportsSize m ↔ FitsU16 text := by
  unfold FitsU16
  constructor
  · intro hreports
    obtain ⟨m', size, after, hd, _, hreported, _⟩ := hreports []
    obtain ⟨m'', hd'⟩ := hread []
    rw [hd'] at hd
    obtain ⟨hm, _⟩ := Prod.mk.inj (Option.some.inj hd)
    have hsame : UInt32.ofNat (h + text.length % 2 ^ 16) = UInt32.ofNat (h + text.length) := by
      rw [(Prod.mk.inj hm).2, hreported, Format.getSerializedSize, hsize]
    have := congrArg UInt32.toNat hsame
    rw [UInt32.toNat_ofNat', UInt32.toNat_ofNat'] at this
    omega
  · intro hfits rest
    have hlow : text.length % 2 ^ 16 = text.length % 2 ^ 32 := by omega
    obtain ⟨m', hd⟩ := hread rest
    have hnone : (text.take (text.length % 2 ^ 32)).drop (text.length % 2 ^ 16) = [] := by
      rw [hlow]
      exact List.drop_eq_nil_of_le (by rw [List.length_take]; exact min_le_left _ _)
    rw [hnone, List.nil_append] at hd
    have hlength : (F.serialize m).length = h + text.length % 2 ^ 16 := by
      rw [hserialize, List.length_append, length_writeText]
      omega
    have hnat : (UInt32.ofNat (h + text.length % 2 ^ 16)).toNat = h + text.length % 2 ^ 16 := by
      rw [UInt32.toNat_ofNat', Nat.mod_eq_of_lt (by omega)]
    refine ⟨m', _, rest, hd, ?_, ?_, ?_⟩
    · rw [hnat, List.length_append, hlength]
    · rw [Format.getSerializedSize, hsize, ← UInt32.toNat_inj, UInt32.toNat_ofNat',
        UInt32.toNat_ofNat']
      omega
    · rw [Format.removeHeader, Format.addHeader, hd, Option.map_some, hnat, ← hlength,
        List.drop_left]

theorem routingMessage_reportsSize_text {m : RoutingMessage} {address : Ipv4Address} {text : Text}
    (hserialize : m.payload.serialize = writeAddressed address text)
    (hsize : m.payload.size = 4 + 2 + text.length)
    (hread : ∀ bytes x rest, readAddressed bytes = some (x, rest) →
      ∃ payload, RoutingPayload.deserialize m.payload.messageType bytes = some (payload, rest) ∧
        reported payload = UInt32.ofNat (4 + 2 + x.2.length)) :
    routingMessage.ReportsSize m ↔ FitsU16 text := by
  have hheader : routingMessage.serialize m = (m.payload.messageType.toUInt8 ::
      (writeHtonU32 m.sequenceNumber ++ (m.ttl :: (writeHtonU32 m.originatorAddress ++
        writeHtonU32 address)))) ++ writeText text := by
    simp [routingMessage, hserialize, writeAddressed]
  refine Format.reportsSize_iff (h := 16) hheader ?_ (by decide) ?_ ?_
  · simp
  · simp only [routingMessage, hsize]
    omega
  · intro rest
    obtain ⟨payload, hd, hr⟩ := hread (writeAddressed address text ++ rest) _ _ (by
      rw [readAddressed_writeAddressed, readText_writeText, Option.map_some])
    rw [routingMessage_deserialize, hserialize, hd, Option.map_some, hr, length_take_mod]
    refine ⟨_, congrArg (fun x => some ((_, x), _)) ?_⟩
    rw [← UInt32.toNat_inj]
    simp
    omega

theorem routingMessage_reportsSize_iff (m : RoutingMessage) :
    routingMessage.ReportsSize m ↔ ∃ text, m.payload.text? = some text ∧ FitsU16 text := by
  obtain ⟨sequenceNumber, ttl, originatorAddress, payload⟩ := m
  cases payload with
  | tableMsg neighborCosts =>
    refine iff_of_false ?_ (by simp [RoutingPayload.text?])
    intro hreports
    obtain ⟨m', size, after, hd, _, hreported, _⟩ := hreports []
    rw [routingMessage_deserialize] at hd
    obtain ⟨⟨payload', after'⟩, hp, hd⟩ := Option.map_eq_some_iff.mp hd
    have htype := (RoutingPayload.serialize_deserialize hp).1
    -- only the size of the header is reported
    have hheader : size = 10 := by
      cases payload' with
      | tableMsg l => exact (congrArg (fun x => x.1.2) hd).symm
      | pingReq _ _ | pingRsp _ _ | helloReq _ _ => cases htype
    rw [hheader, Format.getSerializedSize] at hreported
    have := congrArg UInt32.toNat hreported
    rw [UInt32.toNat_ofNat'] at this
    have : 10 = (1 + 4 + 4 + 1 + (2 + (4 + 4) * neighborCosts.length)) % 2 ^ 32 := this
    omega
  | pingReq address text | pingRsp address text | helloReq address text =>
    simp only [RoutingPayload.text?, Option.some.injEq, exists_eq_left']
    refine routingMessage_reportsSize_text rfl rfl fun bytes x rest hx => ?_
    simp only [RoutingPayload.deserialize, RoutingPayload.messageType, hx]
    exact ⟨_, rfl, rfl⟩

theorem testAppMessage_reportsSize_iff (m : TestAppMessage) :
    testAppMessage.ReportsSize m ↔ FitsU16 m.payload.pingMessage := by
  obtain ⟨transactionId, payload⟩ := m
  have hheader : testAppMessage.serialize ⟨transactionId, payload⟩ =
      (payload.messageType :: writeHtonU32 transactionId) ++ writeText payload.pingMessage := by
    simp [testAppMessage]
  refine Format.reportsSize_iff (h := 7) hheader ?_ (by decide) ?_ ?_
  · simp
  · simp only [testAppMessage, TestAppPayload.size]
    omega
  · intro rest
    cases payload with
    | pingReq pingMessage | pingRsp pingMessage =>
      have hread := readText_writeText pingMessage rest
      have hlen := length_take_mod pingMessage (2 ^ 16)
      simp only [testAppMessage, TestAppPayload.messageType, TestAppPayload.pingMessage,
        TestAppPayload.deserialize, List.cons_append, List.append_assoc, readU8,
        readNtohU32_writeHtonU32, Option.bind_eq_bind, Option.bind_some, hread]
      refine ⟨_, congrArg (fun x => some ((_, x), _)) ?_⟩
      simp only [TestAppPayload.size, TestAppPayload.pingMessage, hlen, ← UInt32.toNat_inj]
      simp
      omega

/-- **The size `Deserialize` reports** is right for exactly the messages with a
text whose length fits 16 bits, and never for a table message. -/
theorem deserialize_reports_size_iff (m : RoutingMessage) (m' : TestAppMessage) :
    (lsMessage.ReportsSize m ↔ ∃ text, m.payload.text? = some text ∧ FitsU16 text) ∧
    (dvMessage.ReportsSize m ↔ ∃ text, m.payload.text? = some text ∧ FitsU16 text) ∧
    (testAppMessage.ReportsSize m' ↔ FitsU16 m'.payload.pingMessage) :=
  ⟨routingMessage_reportsSize_iff m, routingMessage_reportsSize_iff m,
    testAppMessage_reportsSize_iff m'⟩

/-- A table message with one neighbour: 20 bytes, of which 10 are reported. -/
theorem table_size_not_reported :
    ¬ lsMessage.ReportsSize ⟨6, 16, 20, .tableMsg [(10, 1)]⟩ := by
  intro h
  obtain ⟨m', size, after, hd, hread, _⟩ := h []
  have hconcrete : lsMessage.deserialize (lsMessage.serialize ⟨6, 16, 20, .tableMsg [(10, 1)]⟩ ++ []) =
      some ((⟨6, 16, 20, .tableMsg [(10, 1)]⟩, 10), []) := by decide +kernel
  rw [hconcrete] at hd
  obtain ⟨hm, rfl⟩ := Prod.mk.inj (Option.some.inj hd)
  rw [← (Prod.mk.inj hm).2] at hread
  exact absurd hread (by decide)

end Ns3Routing.Codec
