/-
Memnode.Config — byte strings, and the safety limits of `config.py`
that the modelled code reads.
-/

namespace Memnode

/-- Python `bytes`. -/
abbrev Bytes := List UInt8

namespace Config

/-- `MAX_FRAME_SIZE`: 16 MB per wire frame. -/
def maxFrameSize : Nat := 16 * 1024 * 1024

/-- `MAX_BLOCK_SIZE`: 64 MB per stored block. -/
def maxBlockSize : Nat := 64 * 1024 * 1024

/-- `MAX_INBOUND_STREAMS`: concurrent inbound transfers. -/
def maxInboundStreams : Nat := 64

/-- `INBOUND_STREAM_TIMEOUT`: seconds after which a half-finished transfer is dropped. -/
def inboundStreamTimeout : Nat := 120

/-- `CONTROL_STREAM_ID`. -/
def controlStreamId : Int := 0

/-- `PROTOCOL_VERSION`. -/
def protocolVersion : Nat := 1

/-- `SAS_DIGITS`: length of the short authentication string. -/
def sasDigits : Nat := 6

/-- `TRUST_STORE_VERSION`. -/
def trustStoreVersion : Nat := 2

/-- `MAX_RPC_MESSAGE_SIZE`: 8 MB per local RPC message. -/
def maxRpcMessageSize : Nat := 8 * 1024 * 1024

/-- `RPC_AUTH_VERSION`. -/
def rpcAuthVersion : Nat := 1

/-- `RPC_MSGPACK_MAGIC`: `b"MNB1"`. -/
def rpcMsgpackMagic : Bytes := [0x4d, 0x4e, 0x42, 0x31]

/-- `RPC_MAGIC_LEN`. -/
def rpcMagicLen : Nat := 4

end Config

end Memnode
