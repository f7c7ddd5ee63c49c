import RaiBlocks.Foundation.Parser
import RaiBlocks.Node.BlockProcessor
import RaiBlocks.Votes.Vote
import Mathlib.Data.Vector.Basic

/-!
# Messages

Translation of the messages and of `message_parser` (`rai/node/common.cpp`), with
the vote's stream codec (`rai/common.cpp`). A message is a header and what its class
adds to it. The stream constructors are parsers: they refuse a text with the error
result, and a failed assertion is a fault.

An endpoint is an address and a port; a message holds addresses of version 6, into
which the node maps those of version 4. An address of version 6 has a scope id, by which
addresses with the same bytes are told apart.
-/

namespace RaiBlocks

open Foundation Parser

abbrev Uint8 : Type := BitVec 8
abbrev Uint16 : Type := BitVec 16
abbrev Uint32 : Type := BitVec 32

/-- Parsers of byte streams. -/
abbrev Packet : Type → Type := Parser Fault UInt8

namespace Packet

/-! What `read` reads for the types that occur. -/

def uint8 : Packet Uint8 := ofReader (Reader.little 8 1)
def uint16 : Packet Uint16 := ofReader (Reader.little 16 2)
def uint32 : Packet Uint32 := ofReader (Reader.little 32 4)
def uint64 : Packet Uint64 := ofReader (Reader.little 64 8)
def uint128 : Packet Uint128 := ofReader (Reader.big 128 16)
def uint256 : Packet Uint256 := ofReader (Reader.big 256 32)
def uint512 : Packet (BitVec 512) := ofReader (Reader.big 512 64)

end Packet

/-! ## Headers -/

inductive MessageType where
  | invalid | notAType | keepalive | publish | confirmReq | confirmAck | bulkPull | bulkPush
  | frontierReq | bulkPullBlocks
deriving DecidableEq

namespace MessageType

/-- The enumerator values of `message_type`. -/
def code : MessageType → Uint8
  | .invalid => 0
  | .notAType => 1
  | .keepalive => 2
  | .publish => 3
  | .confirmReq => 4
  | .confirmAck => 5
  | .bulkPull => 6
  | .bulkPush => 7
  | .frontierReq => 8
  | .bulkPullBlocks => 9

end MessageType

/-- `type` may hold any byte that has been read. -/
structure MessageHeader where
  versionMax : Uint8
  versionUsing : Uint8
  versionMin : Uint8
  type : Uint8
  extensions : Uint16
deriving DecidableEq

namespace MessageHeader

def protocolVersion : Uint8 := 0x0b
def protocolVersionMin : Uint8 := 0x07

/-- 'R' and a letter for the network. -/
def magicNumber : RaiNetworks → List UInt8
  | .raiTestNetwork => [0x52, 0x41]
  | .raiBetaNetwork => [0x52, 0x42]
  | .raiLiveNetwork => [0x52, 0x43]

def blockTypeMask : Uint16 := 0x0f00

/-- The header of a new message. -/
def ofType (type : MessageType) : MessageHeader :=
  ⟨protocolVersion, protocolVersion, protocolVersionMin, type.code, 0⟩

def serialize (network : RaiNetworks) (h : MessageHeader) : List UInt8 :=
  magicNumber network ++ littleEndian 1 h.versionMax.toNat ++ littleEndian 1 h.versionUsing.toNat ++
    littleEndian 1 h.versionMin.toNat ++ littleEndian 1 h.type.toNat ++
    littleEndian 2 h.extensions.toNat

def deserialize (network : RaiNetworks) : Packet MessageHeader := do
  let magic ← take 2
  check (magic = magicNumber network)
  let versionMax ← Packet.uint8
  let versionUsing ← Packet.uint8
  let versionMin ← Packet.uint8
  let type ← Packet.uint8
  let extensions ← Packet.uint16
  return ⟨versionMax, versionUsing, versionMin, type, extensions⟩

/-- The number in the four bits for the type of block. -/
def blockType (h : MessageHeader) : ℕ := ((h.extensions &&& blockTypeMask) >>> 8).toNat

def blockTypeSet (h : MessageHeader) (type : BlockType) : MessageHeader :=
  { h with
    extensions := (h.extensions &&& ~~~blockTypeMask) ||| (BitVec.ofNat 16 type.code <<< 8) }

end MessageHeader

/-! ## Parts of messages -/

def BlockType.ofCode : ℕ → Option BlockType
  | 2 => some .send
  | 3 => some .receive
  | 4 => some .open
  | 5 => some .change
  | 6 => some .state
  | _ => none

/-- `deserialize_block` for the type that a header gives. The `default` of its switch
is an assertion that fails. -/
def deserializeBlockOf (code : ℕ) : Packet Block :=
  match BlockType.ofCode code with
  | some type => ofReader (deserializeBlock type)
  | none => fault .assertion

namespace Vote

/-- `vote::serialize` without the type of the block. -/
def serialize (v : Vote) : List UInt8 :=
  bigEndian 32 v.account.toNat ++ bigEndian 64 v.signature.toNat ++
    littleEndian 8 v.sequence.toNat ++ v.block.serialize

/-- The stream constructor for a block of given type. -/
def deserialize (code : ℕ) : Packet Vote := do
  let account ← Packet.uint256
  let signature ← Packet.uint512
  let sequence ← Packet.uint64
  let block ← deserializeBlockOf code
  return ⟨sequence, block, account, signature⟩

end Vote

/-- `boost::asio::ip::address_v6` -/
structure AddressV6 where
  bytes : BitVec 128
  scopeId : ℕ
deriving DecidableEq

structure EndpointV6 where
  address : AddressV6
  port : Uint16
deriving DecidableEq

/-- `rai::endpoint` -/
inductive UdpEndpoint where
  | v4 (bytes : BitVec 32) (port : Uint16)
  | v6 (endpoint : EndpointV6)
deriving DecidableEq

namespace UdpEndpoint

/-- The scope id of an address is not written. -/
def serialize : UdpEndpoint → Except Fault (List UInt8)
  | .v4 _ _ => .error .assertion
  | .v6 e => .ok (bigEndian 16 e.address.bytes.toNat ++ littleEndian 2 e.port.toNat)

def deserialize : Packet UdpEndpoint := do
  let address ← Packet.uint128
  let port ← Packet.uint16
  return .v6 ⟨⟨address, 0⟩, port⟩

/-- The loop of `keepalive::serialize`. -/
def serializeAll : List UdpEndpoint → Except Fault (List UInt8)
  | [] => .ok []
  | e :: l => do
    let bytes ← e.serialize
    let rest ← serializeAll l
    return bytes ++ rest

/-- The loop of `keepalive::deserialize`, which ends with the first error. -/
def deserializeAll : (n : ℕ) → Packet (List.Vector UdpEndpoint n)
  | 0 => return .nil
  | n + 1 => do
    let e ← deserialize
    let rest ← deserializeAll n
    return rest.cons e

end UdpEndpoint

/-! ## Messages -/

/-- What the classes of messages add to the header. -/
inductive Message.Body where
  | keepalive (peers : List.Vector UdpEndpoint 8)
  | publish (block : Block)
  | confirmReq (block : Block)
  | confirmAck (vote : Vote)
  | frontierReq (start : Account) (age count : Uint32)
  | bulkPull (start : Uint256) (endHash : BlockHash)
  | bulkPullBlocks (minHash maxHash : BlockHash) (mode : Uint8) (maxCount : Uint32)
deriving DecidableEq

structure Message where
  header : MessageHeader
  body : Message.Body
deriving DecidableEq

namespace Message

namespace Body

def type : Body → MessageType
  | .keepalive _ => .keepalive
  | .publish _ => .publish
  | .confirmReq _ => .confirmReq
  | .confirmAck _ => .confirmAck
  | .frontierReq .. => .frontierReq
  | .bulkPull .. => .bulkPull
  | .bulkPullBlocks .. => .bulkPullBlocks

/-- The block that is sent or voted for. -/
def block : Body → Option Block
  | .publish block => some block
  | .confirmReq block => some block
  | .confirmAck vote => some vote.block
  | _ => none

/-- What `serialize` writes after the header. -/
def serialize : Body → Except Fault (List UInt8)
  | .keepalive peers => UdpEndpoint.serializeAll peers.toList
  | .publish block => .ok block.serialize
  | .confirmReq block => .ok block.serialize
  | .confirmAck vote => .ok vote.serialize
  | .frontierReq start age count =>
    .ok (bigEndian 32 start.toNat ++ littleEndian 4 age.toNat ++ littleEndian 4 count.toNat)
  | .bulkPull start endHash => .ok (bigEndian 32 start.toNat ++ bigEndian 32 endHash.toNat)
  | .bulkPullBlocks minHash maxHash mode maxCount =>
    .ok (bigEndian 32 minHash.toNat ++ bigEndian 32 maxHash.toNat ++ littleEndian 1 mode.toNat ++
      littleEndian 4 maxCount.toNat)

end Body

/-- The constructors of new messages. -/
def ofBody (body : Body) : Message :=
  match body.block with
  | some block => ⟨(MessageHeader.ofType body.type).blockTypeSet block.type, body⟩
  | none => ⟨.ofType body.type, body⟩

/-- The assertion of `confirm_ack::serialize`. -/
def assertBlockType (m : Message) : Except Fault Unit :=
  match m.body with
  | .confirmAck _ => assertThat (BlockType.ofCode m.header.blockType).isSome
  | _ => .ok ()

def serialize (network : RaiNetworks) (m : Message) : Except Fault (List UInt8) := do
  m.assertBlockType
  let body ← m.body.serialize
  return m.header.serialize network ++ body

end Message

/-! ### Stream constructors -/

section Constructors

variable (header : MessageHeader)

def Keepalive.deserialize : Packet Message := do
  require .assertion (header.type = MessageType.keepalive.code)
  let peers ← UdpEndpoint.deserializeAll 8
  return ⟨header, .keepalive peers⟩

def Publish.deserialize : Packet Message := do
  require .assertion (header.type = MessageType.publish.code)
  let block ← deserializeBlockOf header.blockType
  return ⟨header, .publish block⟩

def ConfirmReq.deserialize : Packet Message := do
  require .assertion (header.type = MessageType.confirmReq.code)
  let block ← deserializeBlockOf header.blockType
  return ⟨header, .confirmReq block⟩

/-- The constructor reads the vote itself and does not look at the type of message. -/
def ConfirmAck.deserialize : Packet Message := do
  let vote ← Vote.deserialize header.blockType
  return ⟨header, .confirmAck vote⟩

def FrontierReq.deserialize : Packet Message := do
  require .assertion (header.type = MessageType.frontierReq.code)
  let start ← Packet.uint256
  let age ← Packet.uint32
  let count ← Packet.uint32
  return ⟨header, .frontierReq start age count⟩

def BulkPull.deserialize : Packet Message := do
  require .assertion (header.type = MessageType.bulkPull.code)
  let start ← Packet.uint256
  let endHash ← Packet.uint256
  return ⟨header, .bulkPull start endHash⟩

def BulkPullBlocks.deserialize : Packet Message := do
  require .assertion (header.type = MessageType.bulkPullBlocks.code)
  let minHash ← Packet.uint256
  let maxHash ← Packet.uint256
  let mode ← Packet.uint8
  let maxCount ← Packet.uint32
  return ⟨header, .bulkPullBlocks minHash maxHash mode maxCount⟩

end Constructors

/-- The stream constructor of the class for a type of message. -/
def Message.deserialize (type : MessageType) (header : MessageHeader) : Packet Message :=
  match type with
  | .keepalive => Keepalive.deserialize header
  | .publish => Publish.deserialize header
  | .confirmReq => ConfirmReq.deserialize header
  | .confirmAck => ConfirmAck.deserialize header
  | .frontierReq => FrontierReq.deserialize header
  | .bulkPull => BulkPull.deserialize header
  | .bulkPullBlocks => BulkPullBlocks.deserialize header
  | _ => failure

/-- Decoding a message of known type: the header and then the rest. -/
def Message.decode (network : RaiNetworks) (type : MessageType) : Packet Message := do
  let header ← MessageHeader.deserialize network
  Message.deserialize type header

/-! ### The member function of votes -/

/-- The value of `block_type ()`, which is the enumerator `invalid`. -/
def BlockType.default : ℕ := 0

/-- `vote::deserialize`. A vote has no member `block_type`: the name means the
enumeration, and the call gives its zero value. -/
def Vote.deserializeMember : Packet Vote := do
  let account ← Packet.uint256
  let signature ← Packet.uint512
  let sequence ← Packet.uint64
  let block ← deserializeBlockOf BlockType.default
  return ⟨sequence, block, account, signature⟩

/-- `confirm_ack::deserialize` of a message with given header. -/
def ConfirmAck.deserializeMember (header : MessageHeader) : Packet Message := do
  require .assertion (header.type = MessageType.confirmAck.code)
  let vote ← Vote.deserializeMember
  return ⟨header, .confirmAck vote⟩

/-! ## The parser -/

inductive ParseStatus where
  | success | insufficientWork | invalidHeader | invalidMessageType | invalidKeepaliveMessage
  | invalidPublishMessage | invalidConfirmReqMessage | invalidConfirmAckMessage
deriving DecidableEq

/-- The parser after it has gone through a buffer. -/
structure MessageParser where
  status : ParseStatus
  /-- The calls of the visitor, each with the message it was given. -/
  visited : List Message
  /-- What is left of the stream. -/
  unread : List UInt8
deriving DecidableEq

namespace MessageParser

variable (p : NodeEnv)

/-- Has the message a block without enough work? -/
def workless (m : Message) : Bool :=
  match m.body.block with
  | some block => p.workValidate block.root block.blockWork
  | none => false

/-- The pattern of `deserialize_keepalive`, `deserialize_publish` and so on: a message
that takes up the stream and passes a check is given to the visitor. -/
def deserializeWith (incoming : Packet Message) (insufficient : Message → Bool)
    (invalid : ParseStatus) (stream : List UInt8) : Except Fault MessageParser := do
  match ← incoming.parse stream with
  | (some m, stream) =>
    -- `at_end`: reading one more byte gives an error.
    let (junk, stream) ← parse (take 1) stream
    if junk.isNone then
      if insufficient m then return ⟨.insufficientWork, [], stream⟩
      else return ⟨.success, [m], stream⟩
    else return ⟨invalid, [], stream⟩
  | (none, stream) => return ⟨invalid, [], stream⟩

def deserializeKeepalive (header : MessageHeader) : List UInt8 → Except Fault MessageParser :=
  deserializeWith (Keepalive.deserialize header) (fun _ => false) .invalidKeepaliveMessage

def deserializePublish (header : MessageHeader) : List UInt8 → Except Fault MessageParser :=
  deserializeWith (Publish.deserialize header) (workless p) .invalidPublishMessage

def deserializeConfirmReq (header : MessageHeader) : List UInt8 → Except Fault MessageParser :=
  deserializeWith (ConfirmReq.deserialize header) (workless p) .invalidConfirmReqMessage

def deserializeConfirmAck (header : MessageHeader) : List UInt8 → Except Fault MessageParser :=
  deserializeWith (ConfirmAck.deserialize header) (workless p) .invalidConfirmAckMessage

def deserializeBuffer (buffer : List UInt8) : Except Fault MessageParser := do
  match ← (MessageHeader.deserialize p.network).parse buffer with
  | (some header, stream) =>
    if header.type = MessageType.keepalive.code then deserializeKeepalive header stream
    else if header.type = MessageType.publish.code then deserializePublish p header stream
    else if header.type = MessageType.confirmReq.code then deserializeConfirmReq p header stream
    else if header.type = MessageType.confirmAck.code then deserializeConfirmAck p header stream
    else return ⟨.invalidMessageType, [], stream⟩
  | (none, stream) => return ⟨.invalidHeader, [], stream⟩

end MessageParser

end RaiBlocks
