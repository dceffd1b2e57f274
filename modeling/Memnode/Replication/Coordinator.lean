/-
Memnode.Replication.Coordinator — `ReplicationCoordinator` of
`replication.py`, the receiving side.

`handleMessage` is what one inbound message does up to the first await:
it changes the tables, resolves futures, and leaves the handler at its
next suspension point (`Handler`). `Handler.serve` is the BlockManager
call the handler then makes, and the messages it goes on to send. A
handler that raises ends in `idle`: the read loop logs the exception and
takes the next message.

Bodies are arbitrary decoded objects. What the interpreter does with an
object used as a dictionary key, or put into a message text, is an
`Interpreter`; request ids and block keys become dictionary keys through
it. A future is named by the number of the call that waits for it.

Left out: log lines, except that those of `_gc_buffers` and
`_abort_buffer` raise for an id that has no slices, and the latter also
for a reason nested too deeply to be written out.
-/
import Memnode.Blocks.AnyKey
import Memnode.Lib.Hex
import Memnode.Protocol

namespace Memnode.Replication

open Lib Blocks

/-- What the Python interpreter and its packages make of objects. -/
structure Interpreter (K : Type) where
  /-- the object as a dictionary key; `none` raises `TypeError` -/
  key : Value → Option K
  strKey : String → K
  noneKey : K
  /-- `k[:8]` is defined -/
  sliceable : K → Bool
  /-- `str(v)`; `none` raises `RecursionError` -/
  str : Value → Option String
  /-- `repr(v)`; `none` raises `RecursionError` -/
  repr : Value → Option String
  /-- the text of that error -/
  tooDeep : String
  /-- a float is less than an integer -/
  floatBelow : UInt64 → Nat → Bool
  packer : Packer
  key_str : ∀ s, key (.str s) = some (strKey s)
  key_nil : key .nil = some noneKey
  strKey_injective : Function.Injective strKey
  sliceable_strKey : ∀ s, sliceable (strKey s) = true
  str_str : ∀ s, str (.str s) = some s
  str_int : ∀ n, str (.int n) = some (toString n)

/-- An interpreter as far as None, texts and integers go. -/
def plainKeys : Interpreter (Option String ⊕ Int) where
  key := fun v =>
    match v with
    | .nil => some (.inl none)
    | .str s => some (.inl (some s))
    | .int i => some (.inr i)
    | .bool b => some (.inr (if b then 1 else 0))
    | _ => none
  strKey := fun s => .inl (some s)
  noneKey := .inl none
  sliceable := fun k =>
    match k with
    | .inl (some _) => true
    | _ => false
  str := fun v =>
    match v with
    | .int i => some (toString i)
    | .str s => some s
    | _ => some ""
  repr := fun v =>
    match v with
    | .int i => some (toString i)
    | .str s => some ("'" ++ s ++ "'")
    | _ => some ""
  tooDeep := "maximum recursion depth exceeded"
  floatBelow := fun _ _ => false
  packer := .msgpack
  key_str := fun _ => rfl
  key_nil := rfl
  strKey_injective := by
    intro s t h
    simpa using h
  sliceable_strKey := fun _ => rfl
  str_str := fun _ => rfl
  str_int := fun _ => rfl

/-! ## Errors -/

/-- `pubkey_hex[:8]`. -/
def short (pubkey : String) : String := String.ofList (pubkey.toList.take 8)

/-- The reasons of a `RemoteOperationFailed`. -/
inductive RemoteFailure where
  | notConnected (peer : String)
  | midTransfer (peer : String)
  | noResponse (timeout : String)
  | transferTimeout (timeout : String)
  | nacked (error : Value)
  | noCollector
  | noPayload
  | aborted (reason : Value)
  | stalled
  | overran

/-- `str(e)`; `none` raises `RecursionError`. -/
def RemoteFailure.message {K : Type} (I : Interpreter K) : RemoteFailure → Option String
  | .notConnected peer => some s!"peer {short peer} is not connected"
  | .midTransfer peer => some s!"peer {short peer} disconnected mid-transfer"
  | .noResponse timeout => some s!"peer did not respond within {timeout}s"
  | .transferTimeout timeout => some s!"chunked transfer did not complete within {timeout}s"
  | .nacked error => I.str error
  | .noCollector => some "chunked reply arrived without a collector"
  | .noPayload => some "reply carried no payload"
  | .aborted reason => I.str reason
  | .stalled => some "transfer stalled"
  | .overran => some "peer overran declared size"

/-! ## Payloads -/

/-- `extract_payload(body, field)`. -/
def extractPayload (body : List (Msgpack.Key × Value)) (field : String) : Option Bytes :=
  match Value.get body field with
  | some (.bin b) => some b
  | _ =>
      match Value.get body (field ++ "_hex") with
      | some (.str text) => fromHex text.toList
      | _ => none

/-- `Durability(v)`, `none` where it raises `ValueError`. -/
def durabilityOf : Value → Option Durability
  | .str "pinned" => some .pinned
  | .str "cache" => some .cache
  | _ => none

/-- `durability.value`. -/
def durabilityValue : Durability → Value
  | .pinned => .str "pinned"
  | .cache => .str "cache"

theorem durabilityOf_value (d : Durability) : durabilityOf (durabilityValue d) = some d := by
  cases d <;> rfl

/-! ## Chunks -/

/-- The constructor arguments of `ReplicationCoordinator`. -/
structure Chunking where
  chunkSize : Nat
  chunkSize_pos : 0 < chunkSize
  chunkThreshold : Nat

/-- Their defaults. -/
def Chunking.default : Chunking := ⟨256 * 1024, by decide, 512 * 1024⟩

/-- One chunk message. -/
def chunkFrame (reqId : Value) (stream : Int) (seq : Nat) (piece : Bytes) (final : Bool) : Message :=
  .ofFields .blockChunk
    [("req_id", reqId), ("stream_id", .int stream), ("seq", .int seq), ("chunk", .bin piece),
      ("final", .bool final)]

/-- The chunk at one offset of `data`, the `seq`-th of them. -/
def chunkAt (ch : Chunking) (reqId : Value) (stream : Int) (data : Bytes) (seq : Nat) : Message :=
  let offset := seq * ch.chunkSize
  let piece := (data.drop offset).take ch.chunkSize
  chunkFrame reqId stream seq piece (offset + piece.length ≥ data.length)

/-- The messages of `_send_chunks`, for the offsets
`range(0, total, chunk_size)`. -/
def chunkFrames (ch : Chunking) (reqId : Value) (stream : Int) (data : Bytes) : List Message :=
  (List.range ((data.length + ch.chunkSize - 1) / ch.chunkSize)).map
    (chunkAt ch reqId stream data)

/-! ## Tables -/

/-- `_ChunkBuffer.mode`, with what only that mode carries: the stored
`meta` of a push, the future of a pull. -/
inductive Mode where
  | store (durability key : Value)
  | pull (future : Nat)

/-- `_ChunkBuffer`. -/
structure Buffer where
  mode : Mode
  totalSize : Value
  peer : String
  parts : List Bytes
  received : Nat
  startedAt : Rat

namespace Buffer

def new (mode : Mode) (totalSize : Value) (peer : String) (now : Rat) : Buffer :=
  ⟨mode, totalSize, peer, [], 0, now⟩

def add (b : Buffer) (chunk : Bytes) : Buffer :=
  { b with received := b.received + chunk.length, parts := b.parts ++ [chunk] }

/-- `self.received > self.total_size`; `none` raises `TypeError`. -/
def overrun {K : Type} (I : Interpreter K) (b : Buffer) : Option Bool :=
  match b.totalSize with
  | .int n => some (n < b.received)
  | .bool n => some ((if n then 1 else 0) < b.received)
  | .float bits => some (I.floatBelow bits b.received)
  | _ => none

def assemble (b : Buffer) : Bytes := b.parts.flatten

end Buffer

/-- The tables of the coordinator. -/
structure Coordinator (K : Type) where
  pending : Dict K Nat
  buffers : Dict K Buffer
  pullFutures : Dict K Nat
  nextStream : Nat

def Coordinator.init {K : Type} [DecidableEq K] : Coordinator K :=
  ⟨Dict.empty, Dict.empty, Dict.empty, 1⟩

/-- What is set on a future: the reply of a request, or the end of a pull. -/
inductive Resolution where
  | reply (msg : Message)
  | pulled (data : Bytes)
  | pullFailed (e : RemoteFailure)

/-- A handler at its next suspension point. -/
inductive Handler (K : Type) where
  | idle
  /-- before `block_manager.store`, of a chunked transfer or of a single
  frame; a key that cannot be hashed comes with the text of its `TypeError` -/
  | store (reqId : Value) (transfer : Bool) (data : Bytes) (durability : Durability)
      (key : Except String (Option K))
  /-- before `block_manager.load` or `load_by_key`; `none` if it raises -/
  | load (reqId : Value) (call : Option (Call K))
  /-- before `block_manager.free`; `none` if it raises -/
  | free (reqId : Value) (block : Option BlockId)
  /-- before `send_to` of `m` on its stream, and of the rest after it -/
  | send (reqId : Value) (m : Int × Message) (rest : List (Int × Message))

namespace Handler

/-- Send these messages, one after the other. -/
def sending {K : Type} (reqId : Value) : List (Int × Message) → Handler K
  | [] => .idle
  | m :: rest => .send reqId m rest

/-- The request a handler works for. -/
def reqId {K : Type} : Handler K → Option Value
  | .idle => none
  | .store reqId .. => some reqId
  | .load reqId _ => some reqId
  | .free reqId _ => some reqId
  | .send reqId .. => some reqId

end Handler

/-- `send_to(pubkey, msg)`: the stream is the message's own. -/
def onOwnStream (msg : Message) : Int × Message := (msg.streamId, msg)

def nack (reqId error : Value) : Message := .ofFields .nack [("req_id", reqId), ("error", error)]

/-- The effect of one message. -/
structure Handled (K : Type) where
  coordinator : Coordinator K
  resolved : List (Nat × Resolution)
  next : Handler K

section Handling

variable {K : Type} [DecidableEq K] (I : Interpreter K)

/-- The handler returned, or raised, without anything left to do. -/
def Handled.ended (c : Coordinator K) : Handled K := ⟨c, [], .idle⟩

/-- `buf.future.set_exception`, if there is one. -/
def Buffer.fail (b : Buffer) (e : RemoteFailure) : List (Nat × Resolution) :=
  match b.mode with
  | .store _ _ => []
  | .pull f => [(f, .pullFailed e)]

/-- The loop of `_gc_buffers`. The flag is false if it raised. -/
def dropStale : List (K × Buffer) → Coordinator K → Coordinator K × List (Nat × Resolution) × Bool
  | [], c => (c, [], true)
  | (k, b) :: rest, c =>
      let c' := { c with buffers := c.buffers.erase k }
      if I.sliceable k then
        let (c'', resolved, ok) := dropStale rest c'
        (c'', b.fail .stalled ++ resolved, ok)
      else (c', [], false)

/-- `now - buf.started_at > INBOUND_STREAM_TIMEOUT`. -/
def Buffer.stale (now : Rat) (b : Buffer) : Bool :=
  Config.inboundStreamTimeout < now - b.startedAt

/-- `_gc_buffers`. -/
def gcBuffers (now : Rat) (c : Coordinator K) : Coordinator K × List (Nat × Resolution) × Bool :=
  dropStale I (c.buffers.entries.filter (fun e => e.2.stale now)) c

/-- The log line of `_abort_buffer` does not raise. -/
def logsAbort (k : K) (reason : Value) : Bool := I.sliceable k && (I.str reason).isSome

/-- `_abort_buffer`. -/
def abortBuffer (c : Coordinator K) (reqId reason : Value) : Handled K :=
  match reqId with
  | .nil => .ended c
  | reqId =>
      match I.key reqId with
      | none => .ended c
      | some k =>
          match c.buffers.get k with
          | none => .ended c
          | some b =>
              let c' := { c with buffers := c.buffers.erase k }
              if logsAbort I k reason then ⟨c', b.fail (.aborted reason), .idle⟩ else .ended c'

/-- The `key` argument of `block_manager.store`. -/
def keyArgument (v : Value) : Except String (Option K) :=
  match v with
  | .nil => .ok none
  | v =>
      match I.key v with
      | some k => .ok (some k)
      | none => .error s!"unhashable type: '{v.typeName}'"

/-- The end of `_handle_chunk`, once the last chunk is in. -/
def completeTransfer (c : Coordinator K) (reqId : Value) (b : Buffer) : Handled K :=
  match b.mode with
  | .pull f => ⟨c, [(f, .pulled b.assemble)], .idle⟩
  | .store durability key =>
      match durabilityOf durability with
      | none => .ended c
      | some d => ⟨c, [], .store reqId true b.assemble d (keyArgument I key)⟩

/-- `_handle_chunk`. -/
def handleChunk (c : Coordinator K) (body : List (Msgpack.Key × Value)) : Handled K :=
  let reqId := (Value.get body "req_id").getD .nil
  if !reqId.truthy then .ended c
  else
    match I.key reqId with
    | none => .ended c
    | some k =>
        match c.buffers.get k with
        | none => .ended c
        | some b =>
            match extractPayload body "chunk" with
            | none => abortBuffer I c reqId (.str "malformed chunk")
            | some chunk =>
                let b' := b.add chunk
                match b'.overrun I with
                | none => .ended { c with buffers := c.buffers.set k b' }
                | some true =>
                    let c' := { c with buffers := c.buffers.erase k }
                    if I.sliceable k then
                      match b.mode with
                      | .store _ _ =>
                          ⟨c', [], .sending reqId [onOwnStream (nack reqId (.str "chunk overrun"))]⟩
                      | .pull f => ⟨c', [(f, .pullFailed .overran)], .idle⟩
                    else .ended c'
                | some false =>
                    if ((Value.get body "final").getD .nil).truthy then
                      completeTransfer I { c with buffers := c.buffers.erase k } reqId b'
                    else .ended { c with buffers := c.buffers.set k b' }

/-- `handle_message`, case 1: the answer to a request of ours, whose
future is `f`. -/
def handleReply (now : Rat) (c : Coordinator K) (peer : String) (k : K) (f : Nat)
    (msg : Message) : Handled K :=
  if msg.type = .blockData ∧ ((msg.get "chunked").getD .nil).truthy then
    -- `_open_pull_buffer`
    match gcBuffers I now c with
    | (c', resolved, false) => ⟨c', resolved, .idle⟩
    | (c', resolved, true) =>
        let b := Buffer.new (.pull f) ((msg.get "total_size").getD (.int 0)) peer now
        ⟨{ c' with
            buffers := c'.buffers.set k b
            pullFutures := c'.pullFutures.set k f
            pending := c'.pending.erase k },
          resolved ++ [(f, .reply msg)], .idle⟩
  else ⟨{ c with pending := c.pending.erase k }, [(f, .reply msg)], .idle⟩

/-- `_serve_store_block`, a single frame, up to the BlockManager call. -/
def serveStoreFrame (c : Coordinator K) (reqId : Value) (body : List (Msgpack.Key × Value)) :
    Handled K :=
  let refuse (text : String) : Handled K :=
    ⟨c, [], .sending reqId [onOwnStream (nack reqId (.str ("bad request: " ++ text)))]⟩
  match extractPayload body "data" with
  | none => refuse "missing payload"
  | some data =>
      let durability := (Value.get body "durability").getD (durabilityValue .cache)
      match durabilityOf durability with
      | none =>
          match I.repr durability with
          | some text => refuse (text ++ " is not a valid Durability")
          | none => refuse I.tooDeep
      | some d =>
          ⟨c, [], .store reqId false data d (keyArgument I ((Value.get body "key").getD .nil))⟩

/-- The header of a chunked push is acceptable. -/
def acceptable (totalSize : Value) : Bool :=
  match totalSize.asInt with
  | none => false
  | some n => 0 < n ∧ n ≤ Config.maxBlockSize

/-- `_serve_store_block`, the header of a chunked push. -/
def serveStoreHeader (now : Rat) (c : Coordinator K) (peer : String) (reqId : Value) (k : K)
    (body : List (Msgpack.Key × Value)) : Handled K :=
  let totalSize := (Value.get body "total_size").getD (.int 0)
  let refuse (c : Coordinator K) (resolved : List (Nat × Resolution)) (text : String) : Handled K :=
    ⟨c, resolved, .sending reqId [onOwnStream (nack reqId (.str text))]⟩
  if !acceptable totalSize then
    match I.str totalSize with
    | some text => refuse c [] s!"declared transfer size {text} is not acceptable"
    | none => .ended c
  else
    match gcBuffers I now c with
    | (c', resolved, false) => ⟨c', resolved, .idle⟩
    | (c', resolved, true) =>
        if Config.maxInboundStreams ≤ c'.buffers.size then
          refuse c' resolved "too many concurrent transfers"
        else
          let mode := Mode.store ((Value.get body "durability").getD (durabilityValue .cache))
            ((Value.get body "key").getD .nil)
          ⟨{ c' with buffers := c'.buffers.set k (.new mode totalSize peer now) }, resolved, .idle⟩

/-- The BlockManager call of `_serve_request_block`. A block id that is
not an integer has no stripe, and a key without a hash no key stripe. -/
def loadCall (body : List (Msgpack.Key × Value)) : Option (Call K) :=
  match (Value.get body "block_id").getD .nil with
  | .nil => (I.key ((Value.get body "key").getD .nil)).map .loadByKey
  | b => b.asInt.map .load

/-- `handle_message`, case 2: a request from a peer. `k` is its request
id as a dictionary key. -/
def handleRequest (now : Rat) (c : Coordinator K) (peer : String) (type : MsgType) (reqId : Value)
    (k : K) (body : List (Msgpack.Key × Value)) : Handled K :=
  match type with
  | .storeBlock =>
      if ((Value.get body "chunked").getD .nil).truthy then
        serveStoreHeader I now c peer reqId k body
      else serveStoreFrame I c reqId body
  | .requestBlock => ⟨c, [], .load reqId (loadCall I body)⟩
  | .freeBlock => ⟨c, [], .free reqId ((Value.get body "block_id").getD .nil).asInt⟩
  | .ping => ⟨c, [], .sending reqId [onOwnStream (.ofFields .pong [("req_id", reqId)])]⟩
  | _ => .ended c

/-- `req_id is not None and req_id in self._pending`, with the future. -/
def pendingFuture (c : Coordinator K) (reqId : Value) (k : K) : Option Nat :=
  match reqId with
  | .nil => none
  | _ => c.pending.get k

/-- `handle_message`, up to its first await. -/
def handleMessage (now : Rat) (c : Coordinator K) (peer : String) (msg : Message) : Handled K :=
  match msg.body with
  | .map body =>
      let reqId := (Value.get body "req_id").getD .nil
      match msg.type with
      | .blockChunk => handleChunk I c body
      | .streamAbort =>
          abortBuffer I c reqId ((Value.get body "error").getD (.str "peer aborted the transfer"))
      | type =>
          match I.key reqId with
          | none => .ended c
          | some k =>
              match pendingFuture c reqId k with
              | some f => handleReply I now c peer k f msg
              | none => handleRequest I now c peer type reqId k body
  | _ => .ended c

end Handling

/-! ## The BlockManager call of a handler -/

section Serving

variable {K : Type} [DecidableEq K] {cfg : Settings (KeyObject K)}

/-- The key argument of a store, as an object. -/
def keyObject : Except String (Option K) → Option (KeyObject K)
  | .ok none => none
  | .ok (some k) => some (.inl k)
  | .error text => some (.inr text)

/-- A call by keys that have a hash. -/
def hashedCall : Call K → Call (KeyObject K)
  | .store r => .store ⟨r.data, r.durability, r.key.map .inl⟩
  | .load b => .load b
  | .loadByKey k => .loadByKey (.inl k)
  | .free b => .free b
  | .freeByKey k => .freeByKey (.inl k)

/-- `store` gets as far as putting the block into its stripe. -/
def inserts (m : BlockManager cfg) (sh : Shuffles cfg.stripeCount) (size : Nat) : Bool :=
  size ≤ Config.maxBlockSize &&
    match (AnyKey.acquire m sh size).2 with
    | .ok () => true
    | .error _ => false

/-- The reply to a store. -/
def storeReply (reqId : Value) : Except StoreError BlockId → Message
  | .ok b => .ofFields .blockData [("req_id", reqId), ("block_id", .int b)]
  | .error e => nack reqId (.str e.message)

/-- What a handler does after its `store`. -/
def afterStore (reqId : Value) (transfer : Bool) : Except StoreFailure BlockId → Handler K
  | .ok b => .sending reqId [onOwnStream (storeReply reqId (.ok b))]
  | .error (.refused e) => .sending reqId [onOwnStream (storeReply reqId (.error e))]
  | .error (.unhashable text) =>
      -- only the single-frame path catches the exception
      if transfer then .idle
      else .sending reqId [onOwnStream (nack reqId (.str ("bad request: " ++ text)))]

/-- The header of a chunked reply. -/
def replyHeader (reqId : Value) (total : Nat) (stream : Int) : Message :=
  .ofFields .blockData
    [("req_id", reqId), ("chunked", .bool true), ("total_size", .int total),
      ("stream_id", .int stream)]

/-- The reply to a load is chunked. -/
def largeReply (ch : Chunking) : Option Bytes → Bool
  | none => false
  | some data => ch.chunkThreshold < data.length

/-- The messages `_serve_request_block` sends. -/
def loadReplies (ch : Chunking) (stream : Int) (reqId : Value) : Option Bytes → List (Int × Message)
  | none => [onOwnStream (.ofFields .blockNotFound [("req_id", reqId)])]
  | some data =>
      if data.length ≤ ch.chunkThreshold then
        [onOwnStream (.ofFields .blockData [("req_id", reqId), ("data", .bin data)])]
      else
        ((replyHeader reqId data.length stream) :: chunkFrames ch reqId stream data).map
          (fun m => (stream, m))

/-- What `load` or `load_by_key` returned. -/
def loadedBytes : Outcome → Option Bytes
  | .loaded data => data
  | _ => none

/-- `freed` after `free`, False if it raised. -/
def freedBy : Except String Bool → Bool
  | .ok freed => freed
  | .error _ => false

/-- What a handler's BlockManager call leads to. -/
structure Served (cfg : Settings (KeyObject K)) where
  manager : BlockManager cfg
  nextStream : Nat
  next : Handler K
  /-- the call that was made, with its outcome, unless it raised `TypeError` -/
  made : Option (Call K × Outcome)
  /-- the block that the call put into the store -/
  committed : Option BlockId

/-- A store for the history. -/
def storeMade (data : Bytes) (durability : Durability) :
    Except String (Option K) → Except StoreFailure BlockId → Option (Call K × Outcome)
  | .ok key, .ok b => some (.store ⟨data, durability, key⟩, .ofStore (.ok b))
  | .ok key, .error (.refused e) => some (.store ⟨data, durability, key⟩, .ofStore (.error e))
  | _, _ => none

/-- The BlockManager call a handler waits to make, and the messages the
handler then sends. -/
def Handler.serve (ch : Chunking) (stream : Nat) (m : BlockManager cfg)
    (sh : Shuffles cfg.stripeCount) : Handler K → Option (Served cfg)
  | .idle => none
  | .send _ _ _ => none
  | .store reqId transfer data durability key =>
      let stored := AnyKey.store m sh ⟨data, durability, keyObject key⟩
      some ⟨stored.1, stream, afterStore reqId transfer stored.2,
        storeMade data durability key stored.2,
        -- ids are drawn in order, and evictions draw none
        if inserts m sh data.length then some m.idCounter else none⟩
  | .load reqId none =>
      some ⟨m, stream, .sending reqId (loadReplies ch stream reqId none), none, none⟩
  | .load reqId (some call) =>
      let done := m.exec sh (hashedCall call)
      let data := loadedBytes done.2
      some ⟨done.1, if largeReply ch data then stream + 1 else stream,
        .sending reqId (loadReplies ch stream reqId data), some (call, done.2), none⟩
  | .free reqId block =>
      let done : BlockManager cfg × Except String Bool :=
        match block with
        | none => (m, .ok false)
        | some b => AnyKey.free m b
      some ⟨done.1, stream,
        .sending reqId
          [onOwnStream (.ofFields MsgType.freed
            [("req_id", reqId), ("freed", .bool (freedBy done.2))])],
        block.map (fun b => (.free b, .freed (freedBy done.2))), none⟩

end Serving

end Memnode.Replication
