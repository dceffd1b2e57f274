/-
Memnode.Protocol — the messages of `protocol.py`.

A message is a type and a body; `encode` and `decode` go through
MessagePack. `transmit` is one message from `channel.send_msg` on one
side to `channel.recv_msg` on the other: it is lost, and the connection
with it, if it cannot be encoded or its frame is over the limit.
`transmit_eq` says that nothing else can happen to it.
-/
import Memnode.Value

namespace Memnode

open Lib

inductive MsgType where
  | hello
  | welcome
  | auth
  | storeBlock
  | requestBlock
  | blockData
  | blockNotFound
  | setKey
  | getKey
  | keyFound
  | ping
  | pong
  | quotaUpdate
  | nack
  | freeBlock
  | freed
  | blockChunk
  | streamAbort
  | bye
  deriving DecidableEq

namespace MsgType

def value : MsgType → String
  | .hello => "Hello"
  | .welcome => "Welcome"
  | .auth => "Auth"
  | .storeBlock => "StoreBlock"
  | .requestBlock => "RequestBlock"
  | .blockData => "BlockData"
  | .blockNotFound => "BlockNotFound"
  | .setKey => "SetKey"
  | .getKey => "GetKey"
  | .keyFound => "KeyFound"
  | .ping => "Ping"
  | .pong => "Pong"
  | .quotaUpdate => "QuotaUpdate"
  | .nack => "Nack"
  | .freeBlock => "FreeBlock"
  | .freed => "Freed"
  | .blockChunk => "BlockChunk"
  | .streamAbort => "StreamAbort"
  | .bye => "Bye"

def all : List MsgType :=
  [.hello, .welcome, .auth, .storeBlock, .requestBlock, .blockData, .blockNotFound, .setKey,
    .getKey, .keyFound, .ping, .pong, .quotaUpdate, .nack, .freeBlock, .freed, .blockChunk,
    .streamAbort, .bye]

/-- `MsgType(text)`, `none` where it raises `ValueError`. -/
def ofValue (text : String) : Option MsgType := all.find? (fun t => t.value = text)

theorem ofValue_value (t : MsgType) : ofValue t.value = some t := by
  cases t <;> rfl

end MsgType

structure Message where
  type : MsgType
  body : Value

namespace Message

/-- A message with the given body fields. -/
def ofFields (type : MsgType) (fields : List (String × Value)) : Message := ⟨type, .record fields⟩

/-- `msg.body.get(key)`, with `none` for an absent key. -/
def get (m : Message) (key : String) : Option Value :=
  match m.body with
  | .map entries => Value.get entries key
  | _ => none

/-- `msg.stream_id`. -/
def streamId (m : Message) : Int :=
  match m.get "stream_id" with
  | none => Config.controlStreamId
  | some v => v.asInt.getD 0

variable (P : Packer)

def encode (m : Message) : Option Bytes :=
  P.packb (Value.record [("type", .str m.type.value), ("body", m.body)])

/-- `none` where it raises. -/
def decode (raw : Bytes) : Option Message :=
  match P.unpackb raw with
  | some (.map entries) =>
      match Value.get entries "type" with
      | some (.str text) =>
          (MsgType.ofValue text).map (fun t => ⟨t, (Value.get entries "body").getD (.map [])⟩)
      | _ => none
  | _ => none

/-- What `SecureChannel.send` adds to a payload: the sequence number and
the authentication tag. -/
def frameOverhead : Nat := 8 + 16

/-- One message through `send_msg` and `recv_msg` over a channel that
delivers. -/
def transmit (m : Message) : Option Message :=
  match m.encode P with
  | none => none
  | some raw => if raw.length + frameOverhead > Config.maxFrameSize then none else decode P raw

variable {P}

theorem decode_encode {m : Message} {raw : Bytes} (h : m.encode P = some raw) :
    decode P raw = some m := by
  obtain ⟨type, body⟩ := m
  have hraw := P.roundTrip h
  simp only [decode, hraw, Value.record, List.map_cons, List.map_nil]
  simp [Value.get, MsgType.ofValue_value]

/-- A message that arrives was packed and is in a frame within the limit. -/
theorem transmit_eq_some {m m' : Message} (h : m.transmit P = some m') :
    m' = m ∧ ∃ raw, m.encode P = some raw ∧ raw.length + frameOverhead ≤ Config.maxFrameSize := by
  simp only [transmit] at h
  split at h
  · cases h
  · rename_i raw hraw
    split at h
    · cases h
    · rename_i hsize
      rw [decode_encode hraw] at h
      cases h
      exact ⟨rfl, raw, hraw, Nat.le_of_not_lt hsize⟩

/-- A message arrives as it was sent, or not at all. -/
theorem transmit_eq {m m' : Message} (h : m.transmit P = some m') : m' = m :=
  (transmit_eq_some h).1

/-- Every byte string of the body is part of the frame. -/
theorem bin_length_le {m m' : Message} {key : String} {data : Bytes}
    {fields : List (String × Value)} (hbody : m.body = .record fields)
    (hmem : (key, .bin data) ∈ fields) (h : m.transmit P = some m') :
    data.length + frameOverhead ≤ Config.maxFrameSize := by
  obtain ⟨-, raw, hraw, hsize⟩ := transmit_eq_some h
  have hframe := P.size_le (P.roundTrip hraw)
  have hpart : Msgpack.size m.body
      ≤ Msgpack.size (Value.record [("type", .str m.type.value), ("body", m.body)]) :=
    Msgpack.size_le_of_mem (f := (.str "body", m.body)) (by simp)
  have hfield : Msgpack.size (.bin data) ≤ Msgpack.size m.body := by
    rw [hbody]
    exact Msgpack.size_le_of_mem (f := (.str key, .bin data)) (List.mem_map.mpr ⟨_, hmem, rfl⟩)
  simp only [Msgpack.size] at hfield
  omega

end Message

end Memnode
