/-
Memnode.Replication.Network — two nodes and the messages between them.

A node has its coordinator and BlockManager, the read loop of the one
connection (its handler takes the next message when it is idle), the
remote calls its clients have started, and the messages it has queued
for the peer. `RemoteCall` is `store_remote` or `load_remote` at a
suspension point, with the two futures it can wait for.

`Net.step` is one event. A message may be delivered when no earlier
message of its stream is still queued, which is the order the
multiplexer and the channel keep; waiting for a free slot in `mux.send`
is the send happening later. A message that cannot be transmitted ends
the writer: the mux is closed and `send_to` returns False from then on.

`Undisturbed` is a step without timeout, garbage collection, full
reassembly table, repeated request id or key without a hash; `Fits` a
delivery whose frame can be transmitted. `log` and `commits` are
history: the BlockManager calls the handlers made and the blocks they
put into the store, with the request id it was for.
-/
import Memnode.Replication.Coordinator

namespace Memnode.Replication

open Lib Blocks

/-! ## Calls -/

/-- The arguments of `store_remote` and `load_remote`. The key of a store
is whatever the client's request held, `nil` for None. -/
inductive Request where
  | store (data : Bytes) (durability : Durability) (key : Value)
  | load (block : Option BlockId) (key : Option String)

/-- What a remote call returns or raises. `keyError` is
`reply.body["block_id"]` on a reply without it. -/
inductive Result where
  | stored (block : Value)
  | outOfMemory (error : Value)
  | loaded (data : Option Bytes)
  | failed (e : RemoteFailure)
  | keyError

/-- A field that is only there for a value other than None. -/
def optional (field : String) (v : Option Value) : List (String × Value) :=
  match v with
  | none => []
  | some v => [(field, v)]

/-- A value other than None. -/
def notNone : Value → Option Value
  | .nil => none
  | v => some v

/-- The single frame of a store. -/
def storeFrame (reqId : String) (data : Bytes) (durability : Durability) (key : Value) : Message :=
  .ofFields .storeBlock
    ([("req_id", .str reqId), ("durability", durabilityValue durability)]
      ++ optional "key" (notNone key) ++ [("data", .bin data)])

/-- The header of a chunked store. -/
def storeHeader (reqId : String) (total : Nat) (durability : Durability) (key : Value)
    (stream : Int) : Message :=
  .ofFields .storeBlock
    ([("req_id", .str reqId), ("durability", durabilityValue durability)]
      ++ optional "key" (notNone key)
      ++ [("chunked", .bool true), ("total_size", .int total), ("stream_id", .int stream)])

def requestFrame (reqId : String) (block : Option BlockId) (key : Option String) : Message :=
  .ofFields .requestBlock
    ([("req_id", .str reqId)] ++ optional "block_id" (block.map .int)
      ++ optional "key" (key.map .str))

namespace Request

/-- The request takes a stream of its own. -/
def chunked (ch : Chunking) : Request → Bool
  | .store data _ _ => ch.chunkThreshold < data.length
  | .load _ _ => false

/-- The first message of a request, with its stream. -/
def header (ch : Chunking) (stream : Int) (reqId : String) : Request → Int × Message
  | .store data durability key =>
      if ch.chunkThreshold < data.length then
        (stream, storeHeader reqId data.length durability key stream)
      else (Config.controlStreamId, storeFrame reqId data durability key)
  | .load block key => onOwnStream (requestFrame reqId block key)

/-- The messages after it. -/
def chunks (ch : Chunking) (stream : Int) (reqId : String) : Request → List (Int × Message)
  | .store data _ _ =>
      if ch.chunkThreshold < data.length then
        (chunkFrames ch (.str reqId) stream data).map (fun m => (stream, m))
      else []
  | .load _ _ => []

/-- The key of a store has a hash. -/
def hashable {K : Type} (I : Interpreter K) : Request → Bool
  | .store _ _ .nil => true
  | .store _ _ key => (I.key key).isSome
  | .load _ _ => true

end Request

/-- Where a remote call is. -/
inductive Phase where
  /-- before `send_to` of `m`, and of the rest after it; `header` until
  the first message is out -/
  | send (header : Bool) (m : Int × Message) (rest : List (Int × Message))
  /-- waiting for the reply -/
  | awaitReply
  /-- waiting for the collector of call `future` -/
  | awaitPull (future : Nat)
  | done (r : Result)

/-- The phase after a message is out. -/
def Phase.afterSend : List (Int × Message) → Phase
  | [] => .awaitReply
  | m :: rest => .send false m rest

/-- A call of `store_remote` or `load_remote`. `reply` and `pull` are
its two futures, once they have a result. -/
structure RemoteCall where
  peer : String
  request : Request
  reqId : String
  timeout : String
  reply : Option Message
  pull : Option (Except RemoteFailure Bytes)
  phase : Phase

/-- `fut.set_result` or `set_exception`, unless the future is done. -/
def RemoteCall.resolve (c : RemoteCall) : Resolution → RemoteCall
  | .reply msg => { c with reply := c.reply.or (some msg) }
  | .pulled data => { c with pull := c.pull.or (some (.ok data)) }
  | .pullFailed e => { c with pull := c.pull.or (some (.error e)) }

/-- What `store_remote` makes of its reply. -/
def storeResult (reply : Message) : Result :=
  if reply.type = .nack then .outOfMemory ((reply.get "error").getD (.str "remote store failed"))
  else
    match reply.get "block_id" with
    | some block => .stored block
    | none => .keyError

/-- What `load_remote` makes of a reply that is not chunked. -/
def loadResult (reply : Message) : Result :=
  if reply.type = .blockNotFound then .loaded none
  else if reply.type = .nack then
    .failed (.nacked ((reply.get "error").getD (.str "remote load failed")))
  else
    match reply.body with
    | .map body =>
        match extractPayload body "data" with
        | some data => .loaded (some data)
        | none => .failed .noPayload
    | _ => .failed .noPayload

/-- The reply announces a chunked transfer. -/
def announcesChunks (reply : Message) : Bool :=
  reply.type ≠ .blockNotFound ∧ reply.type ≠ .nack ∧ ((reply.get "chunked").getD .nil).truthy

/-! ## Nodes -/

structure Node (K : Type) where
  cfg : Settings (KeyObject K)
  chunking : Chunking
  pubkey : String
  manager : BlockManager cfg
  coordinator : Coordinator K
  calls : List RemoteCall
  handler : Handler K
  outbox : List (Int × Message)
  closed : Bool
  log : List (Value × Call K × Outcome)
  commits : List (Value × BlockId)

namespace Node

variable {K : Type} [DecidableEq K] (I : Interpreter K)

/-- Before the first call. -/
structure Fresh (n : Node K) : Prop where
  coordinator : n.coordinator = .init
  calls : n.calls = []
  handler : n.handler = .idle
  outbox : n.outbox = []
  closed : n.closed = false
  log : n.log = []
  commits : n.commits = []
  hashable : AnyKey.Hashable n.manager

/-- `store_remote` or `load_remote` up to its first await. -/
def call (n : Node K) (peer : String) (request : Request) (reqId timeout : String) : Node K :=
  let stream := n.coordinator.nextStream
  let header := request.header n.chunking stream reqId
  let chunks := request.chunks n.chunking stream reqId
  { n with
    coordinator := { n.coordinator with
      pending := n.coordinator.pending.set (I.strKey reqId) n.calls.length
      nextStream := if request.chunked n.chunking then stream + 1 else stream }
    calls := n.calls ++ [⟨peer, request, reqId, timeout, none, none, .send true header chunks⟩] }

/-- The `finally` block. -/
def cleanUp (c : Coordinator K) (k : K) : Request → Coordinator K
  | .store _ _ _ => { c with pending := c.pending.erase k }
  | .load _ _ =>
      { c with
        pending := c.pending.erase k
        buffers := c.buffers.erase k
        pullFutures := c.pullFutures.erase k }

/-- Call `i` returns or raises. -/
def finish (n : Node K) (i : Nat) (c : RemoteCall) (r : Result) : Node K :=
  { n with
    coordinator := cleanUp n.coordinator (I.strKey c.reqId) c.request
    calls := n.calls.set i { c with phase := .done r } }

/-- Call `i` goes on after its reply. -/
def onReply (n : Node K) (i : Nat) (c : RemoteCall) (reply : Message) : Node K :=
  match c.request with
  | .store _ _ _ => n.finish I i c (storeResult reply)
  | .load _ _ =>
      if announcesChunks reply then
        match n.coordinator.pullFutures.get (I.strKey c.reqId) with
        | none => n.finish I i c (.failed .noCollector)
        | some f => { n with calls := n.calls.set i { c with phase := .awaitPull f } }
      else n.finish I i c (loadResult reply)

/-- Call `i` takes its next step; `none` while it has to wait. -/
def advance (n : Node K) (i : Nat) : Option (Node K) :=
  match n.calls[i]? with
  | none => none
  | some c =>
      match c.phase with
      | .send header m rest =>
          if n.closed then
            some (n.finish I i c
              (.failed (if header then .notConnected c.peer else .midTransfer c.peer)))
          else
            some { n with
              outbox := n.outbox ++ [m]
              calls := n.calls.set i { c with phase := .afterSend rest } }
      | .awaitReply => c.reply.map (n.onReply I i c)
      | .awaitPull f =>
          match (n.calls[f]?).bind RemoteCall.pull with
          | none => none
          | some (.ok data) => some (n.finish I i c (.loaded (some data)))
          | some (.error e) => some (n.finish I i c (.failed e))
      | .done _ => none

/-- `asyncio.wait_for` gives up on what call `i` waits for. -/
def expire (n : Node K) (i : Nat) : Option (Node K) :=
  match n.calls[i]? with
  | none => none
  | some c =>
      match c.phase with
      | .awaitReply => some (n.finish I i c (.failed (.noResponse c.timeout)))
      | .awaitPull _ => some (n.finish I i c (.failed (.transferTimeout c.timeout)))
      | _ => none

/-- A message reaches the idle handler. -/
def receive (n : Node K) (now : Rat) (peer : String) (msg : Message) : Node K :=
  let h := handleMessage I now n.coordinator peer msg
  { n with
    coordinator := h.coordinator
    handler := h.next
    calls := h.resolved.foldl (fun calls x => calls.modify x.1 (fun c => c.resolve x.2)) n.calls }

/-- What a served handler adds to a history. -/
def logged {α : Type} (reqId : Option Value) (made : Option α) : List (Value × α) :=
  match reqId, made with
  | some reqId, some x => [(reqId, x)]
  | _, _ => []

/-- The handler makes its BlockManager call. -/
def serve (n : Node K) (sh : (stripes : Nat) → Shuffles stripes) : Option (Node K) :=
  match n.handler.serve n.chunking n.coordinator.nextStream n.manager (sh n.cfg.stripeCount) with
  | none => none
  | some r =>
      some { n with
        manager := r.manager
        coordinator := { n.coordinator with nextStream := r.nextStream }
        handler := r.next
        log := n.log ++ logged n.handler.reqId r.made
        commits := n.commits ++ logged n.handler.reqId r.committed }

/-- The handler sends its next message. -/
def reply (n : Node K) : Option (Node K) :=
  match n.handler with
  | .send reqId m rest =>
      if n.closed then some { n with handler := .idle }
      else some { n with outbox := n.outbox ++ [m], handler := .sending reqId rest }
  | _ => none

end Node

/-! ## The network -/

inductive Side where
  | left
  | right
  deriving DecidableEq

def Side.other : Side → Side
  | .left => .right
  | .right => .left

@[simp] theorem Side.other_other (s : Side) : s.other.other = s := by cases s <;> rfl

@[simp] theorem Side.other_ne (s : Side) : s.other ≠ s := by cases s <;> simp [Side.other]

@[simp] theorem Side.ne_other (s : Side) : s ≠ s.other := by cases s <;> simp [Side.other]

theorem Side.eq_or_other (s t : Side) : t = s ∨ t = s.other := by
  cases s <;> cases t <;> simp [Side.other]

abbrev Net (K : Type) := Side → Node K

inductive Event (K : Type) where
  /-- a client of side `s` starts a remote call -/
  | call (s : Side) (request : Request) (reqId timeout : String)
  /-- call `i` of side `s` goes on -/
  | advance (s : Side) (i : Nat)
  /-- the `i`-th message queued on side `s` reaches the other side -/
  | deliver (s : Side) (i : Nat) (now : Rat)
  /-- the handler of side `s` makes its BlockManager call -/
  | serve (s : Side) (sh : (stripes : Nat) → Shuffles stripes)
  /-- the handler of side `s` sends a message -/
  | reply (s : Side)
  /-- call `i` of side `s` times out -/
  | timeout (s : Side) (i : Nat)
  /-- a BlockManager call that no peer asked for -/
  | own (s : Side) (sh : (stripes : Nat) → Shuffles stripes) (c : Call (KeyObject K))

/-- The two nodes working off what was asked of them. -/
def Event.Progress {K : Type} : Event K → Prop
  | .advance _ _ => True
  | .deliver _ _ _ => True
  | .serve _ _ => True
  | .reply _ => True
  | _ => False

namespace Net

variable {K : Type} [DecidableEq K] (I : Interpreter K)

/-- The `i`-th message of side `s` is written and read. -/
def deliver (net : Net K) (s : Side) (i : Nat) (now : Rat) : Option (Net K) :=
  match (net s).outbox[i]? with
  | none => none
  | some (stream, msg) =>
      if (net s).closed ∨ ((net s).outbox.take i).any (fun x => x.1 = stream) then none
      else
        let sender := { net s with outbox := (net s).outbox.eraseIdx i }
        match msg.transmit I.packer with
        | none => some (Function.update net s { sender with closed := true })
        | some msg' =>
            match (net s.other).handler with
            | .idle =>
                some (Function.update (Function.update net s sender) s.other
                  ((net s.other).receive I now (net s).pubkey msg'))
            | _ => none

/-- One event; `none` if it cannot happen now. -/
def step (net : Net K) : Event K → Option (Net K)
  | .call s request reqId timeout =>
      some (Function.update net s ((net s).call I (net s.other).pubkey request reqId timeout))
  | .advance s i => ((net s).advance I i).map (Function.update net s)
  | .deliver s i now => net.deliver I s i now
  | .serve s sh => ((net s).serve sh).map (Function.update net s)
  | .reply s => (net s).reply.map (Function.update net s)
  | .timeout s i => ((net s).expire I i).map (Function.update net s)
  | .own s sh c =>
      some (Function.update net s
        { net s with manager := AnyKey.after (net s).manager (sh (net s).cfg.stripeCount) c })

/-- No timeout, no buffer dropped, room for one more transfer, request
ids that are new (and not empty, as no `uuid4().hex` is), and block keys
that have a hash. -/
def Undisturbed (net : Net K) : Event K → Prop
  | .call _ request reqId _ =>
      reqId ≠ "" ∧ (∀ s, ∀ c ∈ (net s).calls, c.reqId ≠ reqId) ∧ request.hashable I = true
  | .deliver s i now =>
      (∀ e ∈ (net s.other).coordinator.buffers.entries, e.2.stale now = false) ∧
        ∀ x, (net s).outbox[i]? = some x → x.2.type = .storeBlock →
          (net s.other).coordinator.buffers.size < Config.maxInboundStreams
  | .timeout _ _ => False
  | .own _ _ (.store r) => hashError r.key = none
  | _ => True

/-- The frame of the delivered message can be transmitted. -/
def Fits (net : Net K) : Event K → Prop
  | .deliver s i _ => ∀ x, (net s).outbox[i]? = some x → x.2.transmit I.packer ≠ none
  | _ => True

/-- The states of runs in which every step satisfies `ok`. -/
inductive Reachable (ok : Net K → Event K → Prop) : Net K → Prop where
  | start {net : Net K} : (∀ s, (net s).Fresh) → Reachable ok net
  | step {net net' : Net K} {e : Event K} :
      Reachable ok net → ok net e → net.step I e = some net' → Reachable ok net'

/-- The BlockManager calls side `s` made for a request. -/
def served (net : Net K) (s : Side) (k : K) : List (Call K × Outcome) :=
  ((net s).log.filter (fun x => I.key x.1 = some k)).map Prod.snd

end Net

end Memnode.Replication
