import Ns3Routing.Buffer

/-! # `Deserialize` of a message object

In `Codec`, `Deserialize` makes a message from a list of bytes. Here it works
on an object, which holds something already, and reads through an iterator.
That it reads the same payload where there is one follows from the parts
(`follows_deserializePayload`). The two differ in what an object held before
(`decoding_agree_iff`) and behind the end of a packet
(`decoding_confined_iff`). -/

namespace Ns3Routing.Codec

open Lib

/-- A message class: its objects, what `Deserialize` does to one and returns,
and what can be read off an object. -/
structure MessageClass where
  Object : Type
  Content : Type
  deserialize : Object → Iterator.Read (Object × UInt32)
  content : Object → Content

namespace Iterator

def readText : Read Text := do
  let length ← readU16
  read length.toNat

def readAddressed : Read (Ipv4Address × Text) := do
  let destinationAddress ← readNtohU32
  let text ← readText
  return (destinationAddress, text)

def readNeighbor : Read (Ipv4Address × UInt32) := do
  let addr ← readNtohU32
  let cost ← readNtohU32
  return (addr, cost)

/-- `NS_ASSERT (false)`. -/
def assertFalse : Read Unit := fun b current =>
  if b.assertEnable then ⟨[], none⟩ else ⟨[], some ((), current)⟩

end Iterator

/-! ## `LSMessage` and `DVMessage` -/

structure RoutingHeader where
  messageType : UInt8
  sequenceNumber : UInt32
  ttl : UInt8
  originatorAddress : Ipv4Address

/-- An object of either class, with all members of `m_message`: an address
and a text for `pingReq`, `pingRsp` and `helloReq`, and the neighbours of the
table message. No function of the classes assigns the time of `helloReq`. -/
structure RoutingObject extends RoutingHeader where
  pingReq : Ipv4Address × Text
  pingRsp : Ipv4Address × Text
  helloReq : Ipv4Address × Text
  neighborCosts : List (Ipv4Address × UInt32)

namespace Iterator

def readHeader : Read RoutingHeader := do
  let messageType ← readU8
  let sequenceNumber ← readNtohU32
  let ttl ← readU8
  let originatorAddress ← readNtohU32
  return { messageType, sequenceNumber, ttl, originatorAddress }

end Iterator

namespace RoutingObject

/-- The size of the header. -/
def headerSize : UInt32 := 1 + 4 + 1 + 4

/-- One case of the switch: `Deserialize` of the member, and the size. A text
is assigned; the neighbours are pushed onto those that are there. -/
def deserializeMember (o : RoutingObject) : MessageType → Iterator.Read (RoutingObject × UInt32)
  | .pingReq => do
    let pingReq ← Iterator.readAddressed
    return ({ o with pingReq },
      headerSize + (RoutingPayload.pingReq pingReq.1 pingReq.2).getSerializedSize)
  | .pingRsp => do
    let pingRsp ← Iterator.readAddressed
    return ({ o with pingRsp },
      headerSize + (RoutingPayload.pingRsp pingRsp.1 pingRsp.2).getSerializedSize)
  | .helloReq => do
    let helloReq ← Iterator.readAddressed
    return ({ o with helloReq },
      headerSize + (RoutingPayload.helloReq helloReq.1 helloReq.2).getSerializedSize)
  | .tableMsg => do
    let nOfNeighbors ← Iterator.readU16
    let neighborCosts ← Iterator.readNeighbor.appendMany nOfNeighbors.toNat o.neighborCosts
    return ({ o with neighborCosts }, headerSize)

/-- The switch over the message type. -/
def deserializePayload (o : RoutingObject) : Iterator.Read (RoutingObject × UInt32) :=
  match MessageType.ofUInt8 o.messageType with
  | some t => o.deserializeMember t
  | none => do
    Iterator.assertFalse
    return (o, headerSize)

def deserialize (o : RoutingObject) : Iterator.Read (RoutingObject × UInt32) := do
  let header ← Iterator.readHeader
  deserializePayload { o with toRoutingHeader := header }

/-- The member that belongs to the message type. -/
def payload (o : RoutingObject) : MessageType → RoutingPayload
  | .pingReq => .pingReq o.pingReq.1 o.pingReq.2
  | .pingRsp => .pingRsp o.pingRsp.1 o.pingRsp.2
  | .helloReq => .helloReq o.helloReq.1 o.helloReq.2
  | .tableMsg => .tableMsg o.neighborCosts

/-- The kind and the rest of the header, and the payload of that kind. -/
def content (o : RoutingObject) : RoutingHeader × Option RoutingPayload :=
  (o.toRoutingHeader, (MessageType.ofUInt8 o.messageType).map o.payload)

end RoutingObject

def lsMessageClass : MessageClass :=
  ⟨RoutingObject, _, RoutingObject.deserialize, RoutingObject.content⟩

def dvMessageClass : MessageClass :=
  ⟨RoutingObject, _, RoutingObject.deserialize, RoutingObject.content⟩

/-! ## `TestAppMessage` -/

structure TestAppHeader where
  messageType : UInt8
  transactionId : UInt32

structure TestAppObject extends TestAppHeader where
  pingReq : Text
  pingRsp : Text

def Iterator.readTestAppHeader : Iterator.Read TestAppHeader := do
  let messageType ← readU8
  let transactionId ← readNtohU32
  return { messageType, transactionId }

namespace TestAppObject

def headerSize : UInt32 := 1 + 4

def deserializePayload (o : TestAppObject) : Iterator.Read (TestAppObject × UInt32) :=
  if o.messageType = 1 then do
    let pingReq ← Iterator.readText
    return ({ o with pingReq }, headerSize + UInt32.ofNat (TestAppPayload.pingReq pingReq).size)
  else if o.messageType = 2 then do
    let pingRsp ← Iterator.readText
    return ({ o with pingRsp }, headerSize + UInt32.ofNat (TestAppPayload.pingRsp pingRsp).size)
  else do
    Iterator.assertFalse
    return (o, headerSize)

def deserialize (o : TestAppObject) : Iterator.Read (TestAppObject × UInt32) := do
  let header ← Iterator.readTestAppHeader
  deserializePayload { o with toTestAppHeader := header }

def content (o : TestAppObject) : TestAppHeader × Option TestAppPayload :=
  (o.toTestAppHeader,
    if o.messageType = 1 then some (.pingReq o.pingReq)
    else if o.messageType = 2 then some (.pingRsp o.pingRsp)
    else none)

end TestAppObject

def testAppMessageClass : MessageClass :=
  ⟨TestAppObject, _, TestAppObject.deserialize, TestAppObject.content⟩

/-! ## What the iterator reads -/

section Spec
variable {b : Buffer} {rest s : List UInt8}

/-- The header of a routing message, from a list of bytes. -/
def readHeader (bytes : List UInt8) : Option (RoutingHeader × List UInt8) := do
  let (messageType, bytes) ← readU8 bytes
  let (sequenceNumber, bytes) ← readNtohU32 bytes
  let (ttl, bytes) ← readU8 bytes
  let (originatorAddress, bytes) ← readNtohU32 bytes
  return ({ messageType, sequenceNumber, ttl, originatorAddress }, bytes)

theorem follows_readText : Follows Buffer.bytes Iterator.readText readText :=
  follows_readU16.bind fun _ => follows_read _

theorem follows_readAddressed : Follows Buffer.bytes Iterator.readAddressed readAddressed :=
  follows_readNtohU32.bind fun _ => follows_readText.bind fun _ => follows_pure _

theorem follows_readNeighbor : Follows Buffer.bytes Iterator.readNeighbor readNeighbor :=
  follows_readNtohU32.bind fun _ => follows_readNtohU32.bind fun _ => follows_pure _

theorem follows_readHeader : Follows Buffer.bytes Iterator.readHeader readHeader :=
  follows_readU8.bind fun _ => follows_readNtohU32.bind fun _ => follows_readU8.bind fun _ =>
    follows_readNtohU32.bind fun _ => follows_pure _

/-- The object with a payload that was read. -/
def RoutingObject.store (o : RoutingObject) : RoutingPayload → RoutingObject
  | .pingReq destinationAddress pingMessage => { o with pingReq := (destinationAddress, pingMessage) }
  | .pingRsp destinationAddress pingMessage => { o with pingRsp := (destinationAddress, pingMessage) }
  | .helloReq destinationAddress helloMessage =>
    { o with helloReq := (destinationAddress, helloMessage) }
  | .tableMsg neighborCosts => { o with neighborCosts := o.neighborCosts ++ neighborCosts }

/-- A member reads what `RoutingPayload.deserialize` reads. -/
theorem RoutingObject.follows_deserializeMember (o : RoutingObject) (t : MessageType) :
    Follows Buffer.bytes (o.deserializeMember t) fun s =>
      (RoutingPayload.deserialize t s).map fun p =>
        ((o.store p.1, RoutingObject.headerSize + reported p.1), p.2) := by
  cases t with
  | pingReq | pingRsp | helloReq =>
    refine (follows_readAddressed.map _).congr fun s => ?_
    simp only [RoutingPayload.deserialize]
    cases readAddressed s <;> rfl
  | tableMsg =>
    refine (follows_readU16.bind fun nOfNeighbors =>
      (follows_readNeighbor.appendMany nOfNeighbors.toNat o.neighborCosts).bind fun neighborCosts =>
        follows_pure ({ o with neighborCosts }, RoutingObject.headerSize)).congr fun s => ?_
    simp only [RoutingPayload.deserialize]
    cases readU16 s with
    | none => rfl
    | some p =>
      simp only [Option.bind_eq_bind, Option.bind_some]
      cases readMany readNeighbor p.1.toNat p.2 with
      | none => rfl
      | some q => rfl

theorem RoutingObject.follows_deserializePayload {o : RoutingObject} {t : MessageType}
    (ht : MessageType.ofUInt8 o.messageType = some t) :
    Follows Buffer.bytes o.deserializePayload fun s => (RoutingPayload.deserialize t s).map fun p =>
      ((o.store p.1, RoutingObject.headerSize + reported p.1), p.2) := by
  unfold RoutingObject.deserializePayload
  rw [ht]
  exact o.follows_deserializeMember t

def readTestAppHeader (bytes : List UInt8) : Option (TestAppHeader × List UInt8) := do
  let (messageType, bytes) ← readU8 bytes
  let (transactionId, bytes) ← readNtohU32 bytes
  return ({ messageType, transactionId }, bytes)

theorem follows_readTestAppHeader :
    Follows Buffer.bytes Iterator.readTestAppHeader readTestAppHeader :=
  follows_readU8.bind fun _ => follows_readNtohU32.bind fun _ => follows_pure _

def TestAppObject.store (o : TestAppObject) : TestAppPayload → TestAppObject
  | .pingReq pingMessage => { o with pingReq := pingMessage }
  | .pingRsp pingMessage => { o with pingRsp := pingMessage }

theorem TestAppObject.follows_deserializePayload {o : TestAppObject}
    (h : o.messageType = 1 ∨ o.messageType = 2) :
    Follows Buffer.bytes o.deserializePayload fun s =>
      (TestAppPayload.deserialize o.messageType s).map fun p =>
        ((o.store p.1, TestAppObject.headerSize + UInt32.ofNat p.1.size), p.2) := by
  unfold TestAppObject.deserializePayload TestAppPayload.deserialize
  rcases h with h | h
  · simp only [h, if_true]
    refine (follows_readText.map _).congr fun s => ?_
    cases readText s <;> rfl
  · rw [h, if_neg (by decide), if_pos rfl]
    refine (follows_readText.map _).congr fun s => ?_
    rw [if_neg (by decide), if_pos rfl]
    cases readText s <;> rfl

/-- An unknown type: nothing more is read. -/
theorem inside_assertFalse {α : Type} (a : α) (pos : ℕ) :
    Inside Buffer.bytes b ((Iterator.assertFalse >>= fun _ => pure a) b pos) := by
  have hreads : ((Iterator.assertFalse >>= fun _ => pure a) b pos).reads = [] := by
    by_cases hassert : b.assertEnable
    · simp [bind, Iterator.assertFalse, hassert]
    · simp [bind, pure, Iterator.assertFalse, hassert]
  intro i hi
  rw [hreads] at hi
  cases hi

end Spec

/-! ## Complete encodings -/

/-- From the buffer both objects get the same kind, header and payload, and the
same value is returned. -/
def MessageClass.Agree (C : MessageClass) (b : Buffer) (o o' : C.Object) : Prop :=
  ∃ r r' next next', (C.deserialize o b 0).result = some (r, next) ∧
    (C.deserialize o' b 0).result = some (r', next') ∧ C.content r.1 = C.content r'.1 ∧ r.2 = r'.2

section Complete
variable {b : Buffer} {rest : List UInt8}

theorem takes_readNeighbor : Takes 8 readNeighbor :=
  takes_readNtohU32.bind fun addr => takes_readNtohU32.bind fun cost => takes_pure (addr, cost)

/-- Some payload is read where one was written, if only a part of it when its
length does not fit the field. -/
theorem RoutingPayload.exists_deserialize (payload : RoutingPayload) (rest : List UInt8) :
    ∃ p rest', deserialize payload.messageType (payload.serialize ++ rest) = some (p, rest') ∧
      p.messageType = payload.messageType := by
  have hsome : ∃ x, deserialize payload.messageType (payload.serialize ++ rest) = some x := by
    cases payload with
    | tableMsg neighborCosts =>
      have hlen : 8 * (UInt16.ofNat neighborCosts.length).toNat ≤
          (neighborCosts.flatMap writeNeighbor ++ rest).length := by
        rw [List.length_append, length_flatMap_writeNeighbor, UInt16.toNat_ofNat']
        omega
      obtain ⟨l, hl⟩ := (takes_readNeighbor.many _).some _ hlen
      simp only [deserialize, messageType, serialize, List.append_assoc, readU16_writeU16,
        Option.bind_eq_bind, Option.bind_some, hl]
      exact ⟨_, rfl⟩
    | pingReq address text | pingRsp address text | helloReq address text =>
      simp only [deserialize, messageType, serialize, readAddressed_writeAddressed,
        readText_writeText]
      exact ⟨_, rfl⟩
  obtain ⟨⟨p, rest'⟩, hp⟩ := hsome
  exact ⟨p, rest', hp, (serialize_deserialize hp).1⟩

/-- The payload an object holds after `p` was read. -/
theorem RoutingObject.content_store {o : RoutingObject} {p : RoutingPayload}
    (ht : MessageType.ofUInt8 o.messageType = some p.messageType) :
    (o.store p).content = (o.toRoutingHeader, some (match p with
      | .tableMsg neighborCosts => .tableMsg (o.neighborCosts ++ neighborCosts)
      | p => p)) := by
  cases p with
  | pingReq _ _ | pingRsp _ _ | helloReq _ _ | tableMsg _ =>
    simp only [content, store, ht, Option.map_some, payload, RoutingPayload.messageType]

theorem RoutingObject.deserialize_value (o : RoutingObject) {header : RoutingHeader} {t : MessageType}
    {p : RoutingPayload} {s : List UInt8} (hheader : readHeader b.bytes = some (header, s))
    (ht : MessageType.ofUInt8 header.messageType = some t)
    (hp : RoutingPayload.deserialize t s = some (p, rest)) :
    ∃ next, (o.deserialize b 0).result =
      some ((RoutingObject.store { o with toRoutingHeader := header } p, headerSize + reported p),
        next) := by
  obtain ⟨next, hnext, rfl, hresult, _⟩ := follows_readHeader.bind_value (Nat.zero_le _) hheader
    (f := fun header => deserializePayload { o with toRoutingHeader := header })
  have hfollows := follows_deserializePayload (o := { o with toRoutingHeader := header }) ht
  obtain ⟨last, _, _, hvalue, _⟩ := hfollows.value b next _ _ hnext (by rw [hp]; rfl)
  exact ⟨last, hresult.trans hvalue⟩

theorem routing_agree_iff {m : RoutingMessage} (hb : b.bytes = routingMessage.serialize m ++ rest)
    (o o' : RoutingObject) : lsMessageClass.Agree b o o' ↔
      (m.payload.messageType = .tableMsg → o.neighborCosts = o'.neighborCosts) := by
  have hheader : readHeader b.bytes = some (⟨m.payload.messageType.toUInt8, m.sequenceNumber, m.ttl,
      m.originatorAddress⟩, m.payload.serialize ++ rest) := by
    rw [hb]
    simp [readHeader, routingMessage, readU8]
  obtain ⟨p, rest', hp, hpt⟩ := m.payload.exists_deserialize rest
  have ht := MessageType.ofUInt8_toUInt8 m.payload.messageType
  obtain ⟨next, hr⟩ := o.deserialize_value hheader ht hp
  obtain ⟨next', hr'⟩ := o'.deserialize_value hheader ht hp
  have hcontent : ∀ o : RoutingObject, _ := fun o => RoutingObject.content_store
    (o := { o with toRoutingHeader := ⟨m.payload.messageType.toUInt8, m.sequenceNumber, m.ttl,
      m.originatorAddress⟩ }) (p := p) (ht.trans (congrArg some hpt.symm))
  rw [← hpt]
  constructor
  · intro hagree htable
    obtain ⟨r, r', n, n', h, h', hsame, _⟩ := hagree
    obtain rfl := (Prod.mk.inj (Option.some.inj (hr.symm.trans h))).1
    obtain rfl := (Prod.mk.inj (Option.some.inj (hr'.symm.trans h'))).1
    have hsame := (hcontent o).symm.trans (hsame.trans (hcontent o'))
    cases p with
    | tableMsg neighborCosts =>
      have hlists := RoutingPayload.tableMsg.inj (Option.some.inj (Prod.mk.inj hsame).2)
      exact List.append_cancel_right hlists
    | pingReq _ _ | pingRsp _ _ | helloReq _ _ => cases htable
  · intro heq
    refine ⟨_, _, next, next', hr, hr', (hcontent o).trans (Eq.trans ?_ (hcontent o').symm), rfl⟩
    cases p with
    | tableMsg neighborCosts => rw [heq rfl]
    | pingReq _ _ | pingRsp _ _ | helloReq _ _ => rfl

theorem TestAppObject.content_store {o : TestAppObject} {p : TestAppPayload}
    (ht : o.messageType = p.messageType) : (o.store p).content = (o.toTestAppHeader, some p) := by
  cases p with
  | pingReq pingMessage =>
    have ht : o.messageType = 1 := ht
    simp [content, store, ht]
  | pingRsp pingMessage =>
    have ht : o.messageType = 2 := ht
    simp [content, store, ht]

theorem TestAppPayload.exists_deserialize (payload : TestAppPayload) (rest : List UInt8) :
    ∃ p rest', deserialize payload.messageType (writeText payload.pingMessage ++ rest) =
      some (p, rest') ∧ p.messageType = payload.messageType := by
  cases payload with
  | pingReq pingMessage | pingRsp pingMessage =>
    simp only [deserialize, messageType, TestAppPayload.pingMessage, readText_writeText]
    exact ⟨_, _, rfl, rfl⟩

theorem TestAppObject.deserialize_value (o : TestAppObject) {header : TestAppHeader}
    {p : TestAppPayload} {s : List UInt8} (hheader : readTestAppHeader b.bytes = some (header, s))
    (ht : header.messageType = 1 ∨ header.messageType = 2)
    (hp : TestAppPayload.deserialize header.messageType s = some (p, rest)) :
    ∃ next, (o.deserialize b 0).result =
      some ((TestAppObject.store { o with toTestAppHeader := header } p,
        headerSize + UInt32.ofNat p.size), next) := by
  obtain ⟨next, hnext, rfl, hresult, _⟩ := follows_readTestAppHeader.bind_value (Nat.zero_le _) hheader
    (f := fun header => deserializePayload { o with toTestAppHeader := header })
  have hfollows := follows_deserializePayload (o := { o with toTestAppHeader := header }) ht
  obtain ⟨last, _, _, hvalue, _⟩ := hfollows.value b next _ _ hnext (by rw [hp]; rfl)
  exact ⟨last, hresult.trans hvalue⟩

theorem testApp_agree {m : TestAppMessage} (hb : b.bytes = testAppMessage.serialize m ++ rest)
    (o o' : TestAppObject) : testAppMessageClass.Agree b o o' := by
  have hheader : readTestAppHeader b.bytes = some (⟨m.payload.messageType, m.transactionId⟩,
      writeText m.payload.pingMessage ++ rest) := by
    rw [hb]
    simp [readTestAppHeader, testAppMessage, readU8]
  obtain ⟨p, rest', hp, hpt⟩ := m.payload.exists_deserialize rest
  have ht : m.payload.messageType = 1 ∨ m.payload.messageType = 2 := by
    cases m.payload with
    | pingReq _ => exact Or.inl rfl
    | pingRsp _ => exact Or.inr rfl
  have hcontent : ∀ o : TestAppObject, _ := fun o => TestAppObject.content_store
    (o := { o with toTestAppHeader := ⟨m.payload.messageType, m.transactionId⟩ }) hpt.symm
  obtain ⟨next, hr⟩ := o.deserialize_value hheader ht hp
  obtain ⟨next', hr'⟩ := o'.deserialize_value hheader ht hp
  exact ⟨_, _, next, next', hr, hr', (hcontent o).trans (hcontent o').symm, rfl⟩

end Complete

/-- **When decoding depends only on the bytes**: unless the message is a table
message and the objects hold different neighbours. -/
theorem decoding_agree_iff (b : Buffer) (rest : List UInt8) (m : RoutingMessage)
    (o o' : RoutingObject) (testMessage : TestAppMessage) (testObject testObject' : TestAppObject) :
    (lsMessageClass.Agree { b with bytes := lsMessage.serialize m ++ rest } o o' ↔
      (m.payload.messageType = .tableMsg → o.neighborCosts = o'.neighborCosts)) ∧
    (dvMessageClass.Agree { b with bytes := dvMessage.serialize m ++ rest } o o' ↔
      (m.payload.messageType = .tableMsg → o.neighborCosts = o'.neighborCosts)) ∧
    testAppMessageClass.Agree { b with bytes := testAppMessage.serialize testMessage ++ rest }
      testObject testObject' :=
  ⟨routing_agree_iff rfl o o', routing_agree_iff rfl o o', testApp_agree rfl testObject testObject'⟩

/-- An object as the constructor without arguments may leave it. -/
def freshObject : RoutingObject where
  messageType := 0
  sequenceNumber := 0
  ttl := 0
  originatorAddress := 0
  pingReq := (0, [])
  pingRsp := (0, [])
  helloReq := (0, [])
  neighborCosts := []

/-- The packet of a message and nothing else. -/
def packetOf (m : RoutingMessage) : Buffer where
  bytes := lsMessage.serialize m
  beyond _ := 0
  zeroArea := 0
  assertEnable := true

/-- An object that has decoded one table message keeps its neighbour when it
decodes the next. -/
theorem reused_object_mixes : ∃ r next,
    (freshObject.deserialize (packetOf ⟨6, 16, 20, .tableMsg [(10, 1)]⟩) 0).result = some (r, next) ∧
    ¬ lsMessageClass.Agree (packetOf ⟨7, 16, 30, .tableMsg [(20, 1)]⟩) r.1 freshObject := by
  have hfirst : ((freshObject.deserialize (packetOf ⟨6, 16, 20, .tableMsg [(10, 1)]⟩) 0).result.map
      fun r => r.1.1.neighborCosts) = some [(10, 1)] := by decide +kernel
  obtain ⟨⟨r, next⟩, hr, hcosts⟩ := Option.map_eq_some_iff.mp hfirst
  refine ⟨r, next, hr, fun hagree => ?_⟩
  have hsecond : (packetOf ⟨7, 16, 30, .tableMsg [(20, 1)]⟩).bytes =
      routingMessage.serialize ⟨7, 16, 30, .tableMsg [(20, 1)]⟩ ++ [] := (List.append_nil _).symm
  have hsame := (routing_agree_iff hsecond _ _).mp hagree rfl
  rw [show r.1.neighborCosts = [(10, 1)] from hcosts] at hsame
  cases hsame

/-! ## The end of the packet -/

/-- The bytes a member takes, by its length or count field. -/
def memberNeeds : MessageType → List UInt8 → ℕ
  | .tableMsg, bytes => 2 + 8 * lengthField bytes
  | _, bytes => 4 + (2 + lengthField (bytes.drop 4))

/-- The bytes an `LSMessage` or a `DVMessage` takes, by the fields in the
packet. -/
def routingNeeds (packet : List UInt8) : ℕ :=
  10 + match MessageType.ofUInt8 (packet[0]?.getD 0) with
    | some t => memberNeeds t (packet.drop 10)
    | none => 0

/-- The bytes a `TestAppMessage` takes, by the fields in the packet. -/
def testAppNeeds (packet : List UInt8) : ℕ :=
  5 + if packet[0]?.getD 0 = 1 ∨ packet[0]?.getD 0 = 2 then 2 + lengthField (packet.drop 5) else 0

/-- `Deserialize` reads no byte behind the packet, and makes no message of one
that is shorter than its fields say. -/
structure MessageClass.Confined (C : MessageClass) (needs : List UInt8 → ℕ) (b : Buffer)
    (o : C.Object) : Prop where
  inside : Inside Buffer.bytes b (C.deserialize o b 0)
  rejects : b.bytes.length < needs b.bytes → (C.deserialize o b 0).result = none

section End
variable {b : Buffer} {s : List UInt8}

theorem isSome_readText_iff : (readText s).isSome ↔ 2 + lengthField s ≤ s.length := by
  by_cases hlen : 2 ≤ s.length
  · obtain ⟨data, hread, hdata⟩ := readU16_lengthField hlen
    simp only [readText, hread, Option.bind_eq_bind, Option.bind_some]
    rw [(takes_readBytes data.toNat).isSome_iff, hdata, List.length_drop]
    omega
  · rw [readText, takes_readU16.none s (Nat.lt_of_not_le hlen)]
    exact iff_of_false (by simp) (by omega)

theorem isSome_readAddressed_iff :
    (readAddressed s).isSome ↔ 4 + (2 + lengthField (s.drop 4)) ≤ s.length := by
  by_cases hlen : 4 ≤ s.length
  · obtain ⟨destinationAddress, hread⟩ := takes_readNtohU32.some s hlen
    have htext := isSome_readText_iff (s := s.drop 4)
    rw [List.length_drop] at htext
    simp only [readAddressed, hread, Option.bind_eq_bind, Option.bind_some]
    rw [Option.isSome_bind]
    simp only [Option.pure_def, Option.isSome_some, Option.any_true]
    rw [htext]
    omega
  · rw [readAddressed, takes_readNtohU32.none s (Nat.lt_of_not_le hlen)]
    exact iff_of_false (by simp) (by omega)

theorem isSome_deserialize_iff (t : MessageType) :
    (RoutingPayload.deserialize t s).isSome ↔ memberNeeds t s ≤ s.length := by
  cases t with
  | pingReq | pingRsp | helloReq =>
    simp only [memberNeeds, ← isSome_readAddressed_iff, RoutingPayload.deserialize]
    cases readAddressed s <;> simp
  | tableMsg =>
    by_cases hlen : 2 ≤ s.length
    · obtain ⟨data, hread, hdata⟩ := readU16_lengthField hlen
      have hmany : (readMany readNeighbor data.toNat (s.drop 2)).isSome ↔ _ :=
        (takes_readNeighbor.many data.toNat).isSome_iff
      rw [hdata, List.length_drop] at hmany
      simp only [RoutingPayload.deserialize, hread, Option.bind_eq_bind, Option.bind_some]
      rw [Option.isSome_bind]
      simp only [Option.pure_def, Option.isSome_some, Option.any_true, memberNeeds]
      rw [hdata, hmany]
      omega
    · rw [RoutingPayload.deserialize, takes_readU16.none s (Nat.lt_of_not_le hlen), memberNeeds]
      exact iff_of_false (by simp) (by omega)

theorem isSome_testApp_deserialize_iff {messageType : UInt8} (ht : messageType = 1 ∨ messageType = 2) :
    (TestAppPayload.deserialize messageType s).isSome ↔ 2 + lengthField s ≤ s.length := by
  rw [← isSome_readText_iff]
  unfold TestAppPayload.deserialize
  rcases ht with rfl | rfl
  · rw [if_pos rfl]
    cases readText s <;> simp
  · rw [if_neg (by decide), if_pos rfl]
    cases readText s <;> simp

theorem takes_readHeader : Takes 10 readHeader :=
  takes_readU8.bind fun messageType => takes_readNtohU32.bind fun sequenceNumber =>
    takes_readU8.bind fun ttl => takes_readNtohU32.bind fun originatorAddress =>
      takes_pure (RoutingHeader.mk messageType sequenceNumber ttl originatorAddress)

theorem takes_readTestAppHeader : Takes 5 readTestAppHeader :=
  takes_readU8.bind fun messageType => takes_readNtohU32.bind fun transactionId =>
    takes_pure (TestAppHeader.mk messageType transactionId)

/-- The message type is the first byte. -/
theorem readHeader_messageType {header : RoutingHeader} {bytes : List UInt8}
    (h : readHeader bytes = some (header, s)) : bytes[0]?.getD 0 = header.messageType := by
  obtain ⟨⟨messageType, bytes₁⟩, h₁, h⟩ := Option.bind_eq_some_iff.mp h
  obtain ⟨⟨sequenceNumber, bytes₂⟩, h₂, h⟩ := Option.bind_eq_some_iff.mp h
  obtain ⟨⟨ttl, bytes₃⟩, h₃, h⟩ := Option.bind_eq_some_iff.mp h
  obtain ⟨⟨originatorAddress, bytes₄⟩, h₄, h⟩ := Option.bind_eq_some_iff.mp h
  obtain ⟨rfl, _⟩ := Prod.mk.inj (Option.some.inj h)
  rw [← cons_of_readU8 h₁]
  rfl

theorem readTestAppHeader_messageType {header : TestAppHeader} {bytes : List UInt8}
    (h : readTestAppHeader bytes = some (header, s)) :
    bytes[0]?.getD 0 = header.messageType := by
  obtain ⟨⟨messageType, bytes₁⟩, h₁, h⟩ := Option.bind_eq_some_iff.mp h
  obtain ⟨⟨transactionId, bytes₂⟩, h₂, h⟩ := Option.bind_eq_some_iff.mp h
  obtain ⟨rfl, _⟩ := Prod.mk.inj (Option.some.inj h)
  rw [← cons_of_readU8 h₁]
  rfl

theorem routing_inside_iff (b : Buffer) (o : RoutingObject) :
    Inside Buffer.bytes b (o.deserialize b 0) ↔ routingNeeds b.bytes ≤ b.bytes.length := by
  refine follows_readHeader.inside_bind_iff takes_readHeader fun header next hlen hnext hheader
    hdrop => ?_
  rw [readHeader_messageType hheader]
  cases ht : MessageType.ofUInt8 header.messageType with
  | some t =>
    have hfollows := RoutingObject.follows_deserializePayload
      (o := { o with toRoutingHeader := header }) ht
    have hmember := isSome_deserialize_iff (s := b.bytes.drop 10) t
    rw [List.length_drop] at hmember
    rw [hfollows.inside_iff hnext, Option.isSome_map, ← hdrop, hmember]
    dsimp only
    omega
  | none =>
    have hunknown : RoutingObject.deserializePayload { o with toRoutingHeader := header } =
        Iterator.assertFalse >>= fun _ =>
          pure ({ o with toRoutingHeader := header }, RoutingObject.headerSize) := by
      unfold RoutingObject.deserializePayload
      rw [ht]
    rw [hunknown]
    exact iff_of_true (inside_assertFalse _ next) hlen

theorem testApp_inside_iff (b : Buffer) (o : TestAppObject) :
    Inside Buffer.bytes b (o.deserialize b 0) ↔ testAppNeeds b.bytes ≤ b.bytes.length := by
  refine follows_readTestAppHeader.inside_bind_iff takes_readTestAppHeader
    fun header next hlen hnext hheader hdrop => ?_
  rw [readTestAppHeader_messageType hheader]
  by_cases ht : header.messageType = 1 ∨ header.messageType = 2
  · have hfollows := TestAppObject.follows_deserializePayload
      (o := { o with toTestAppHeader := header }) ht
    have hmember := isSome_testApp_deserialize_iff (s := b.bytes.drop 5) ht
    rw [List.length_drop] at hmember
    rw [hfollows.inside_iff hnext, Option.isSome_map, ← hdrop, hmember, if_pos ht]
    omega
  · have hunknown : TestAppObject.deserializePayload { o with toTestAppHeader := header } =
        Iterator.assertFalse >>= fun _ =>
          pure ({ o with toTestAppHeader := header }, TestAppObject.headerSize) := by
      unfold TestAppObject.deserializePayload
      rw [if_neg fun h => ht (Or.inl h), if_neg fun h => ht (Or.inr h)]
    rw [hunknown, if_neg ht]
    exact iff_of_true (inside_assertFalse _ next) hlen

/-- A message class of which every packet that is long enough, and no other,
keeps `Deserialize` inside. -/
theorem MessageClass.confined_iff {C : MessageClass} {needs : List UInt8 → ℕ} {o : C.Object}
    (h : Inside Buffer.bytes b (C.deserialize o b 0) ↔ needs b.bytes ≤ b.bytes.length) :
    C.Confined needs b o ↔ needs b.bytes ≤ b.bytes.length :=
  ⟨fun hc => h.mp hc.inside, fun hle => ⟨h.mpr hle, fun hlt => absurd hle (Nat.not_le_of_lt hlt)⟩⟩

end End

/-- **When decoding stays inside the packet**: when the packet is as long as
its fields say. -/
theorem decoding_confined_iff (b : Buffer) (o : RoutingObject) (testObject : TestAppObject) :
    (lsMessageClass.Confined routingNeeds b o ↔ routingNeeds b.bytes ≤ b.bytes.length) ∧
    (dvMessageClass.Confined routingNeeds b o ↔ routingNeeds b.bytes ≤ b.bytes.length) ∧
    (testAppMessageClass.Confined testAppNeeds b testObject ↔
      testAppNeeds b.bytes ≤ b.bytes.length) :=
  ⟨MessageClass.confined_iff (routing_inside_iff b o),
    MessageClass.confined_iff (routing_inside_iff b o),
    MessageClass.confined_iff (testApp_inside_iff b testObject)⟩

/-- A PING_REQ that claims one byte of text and has none; 42 happens to be in
the memory behind it. -/
def shortPing : Buffer where
  bytes := [1, 0, 0, 0, 5, 1, 0]
  beyond _ := 42
  zeroArea := 0
  assertEnable := true

def freshTestObject : TestAppObject where
  messageType := 0
  transactionId := 0
  pingReq := []
  pingRsp := []

/-- With assertions on too, the ping gets the byte behind the packet. -/
theorem short_ping_read_past_end :
    (freshTestObject.deserialize shortPing 0).result.map (fun r => r.1.1.pingReq) = some [42] ∧
    ¬ testAppMessageClass.Confined testAppNeeds shortPing freshTestObject := by
  refine ⟨by decide +kernel, fun h => ?_⟩
  have hread : 7 ∈ (freshTestObject.deserialize shortPing 0).reads := by decide +kernel
  exact absurd (h.inside 7 hread) (by decide)

end Ns3Routing.Codec
