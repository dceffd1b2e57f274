/-
Memnode.Rpc.Dispatch — the block operations of `RpcServer._dispatch`,
on a node and the peers it is connected to.

A `Cluster` is the node's own BlockManager and, in the order of the
`peers` dictionary, what each peer advertised, the peer's own
BlockManager, and whether the writer of the connection still runs.
`dispatch` is one branch of `_dispatch` for each operation that reads or
writes blocks; the operations on trust records and connections are not
here. An exception is the text `_handle_client` puts into its answer.

A remote call puts its messages into the queue of the connection
(`callPeer`). The writer ends over a message that it cannot pack or that
is too long for a frame; the call then waits for its timeout, and later
calls find the peer not connected. Apart from that links are reliable:
`store_remote`, `load_remote` and `free_remote` are the BlockManager
calls the peer makes for them, and the answer computed from it. For the
first two this is what `Replication.Exact` shows of every run of the
protocol (`storeRemote_settled`, `loadRemote_settled`).

Requests are those that MessagePack can say; the integers of a request
may be out of its range, as those of JSON can be.
-/
import Memnode.Replication.Exact
import Memnode.Rpc.Wire

namespace Memnode.Rpc

open Lib Blocks Replication

/-- The interpreter, with the texts of exceptions that it words itself,
and the messages a writer does not end over. -/
structure Runtime (K : Type) extends Interpreter K where
  /-- the `ValueError` of `bytes.fromhex(s)` -/
  hexError : String → String
  /-- the `TypeError` of `self._stripe(v)` -/
  stripeError : Value → String
  sends : Message → Bool

/-- The links are reliable: no writer ends. -/
def Runtime.Reliable {K : Type} (R : Runtime K) : Prop := ∀ m, R.sends m = true

/-! ## Nodes -/

/-- A connected peer: `PeerInfo.remote_quota`, the store behind it, and
whether the writer of the connection has not ended. -/
structure Peer (K : Type) where
  remoteQuota : Int
  cfg : Settings (KeyObject K)
  manager : BlockManager cfg
  alive : Bool

structure Cluster (K : Type) where
  cfg : Settings (KeyObject K)
  manager : BlockManager cfg
  chunking : Chunking
  peers : Dict String (Peer K)

/-- `max(candidates, key=lambda c: c[1])`: the first of the largest. -/
def maxQuota : List (String × Int) → Option String
  | [] => none
  | c :: rest => some (rest.foldl (fun best c => if best.2 < c.2 then c else best) c).1

/-- `best_peer_for_store(size)`. -/
def Cluster.bestPeerForStore {K : Type} (c : Cluster K) (size : Nat) : Option String :=
  maxQuota ((c.peers.entries.filter (fun e => (size : Int) ≤ e.2.remoteQuota)).map
    (fun e => (e.1, e.2.remoteQuota)))

/-! ## At the peer -/

/-- What a remote call raises. -/
inductive RemoteError where
  | outOfMemory (error : Value)
  | failed (e : RemoteFailure)

/-- `str(e)`; `none` raises `RecursionError`. -/
def RemoteError.message {K : Type} (I : Interpreter K) : RemoteError → Option String
  | .outOfMemory error => I.str error
  | .failed e => e.message I

/-- What `store_remote` makes of the peer's answer. A chunked transfer
with a key that cannot be hashed gets none. -/
def storeAnswer (chunked : Bool) : Except StoreFailure BlockId → Except RemoteError BlockId
  | .ok b => .ok b
  | .error (.refused e) => .error (.outOfMemory (.str e.message))
  | .error (.unhashable text) =>
      if chunked then .error (.failed (.noResponse "30.0"))
      else .error (.outOfMemory (.str ("bad request: " ++ text)))

section Serving

variable {K : Type} [DecidableEq K] (I : Interpreter K)

/-- The arguments of `block_manager.store`. -/
def storeArguments (data : Bytes) (durability : Durability) (key : Value) :
    StoreReq (KeyObject K) :=
  ⟨data, durability, keyObject (keyArgument I key)⟩

namespace Peer

/-- `store_remote`, at the peer. -/
def storeRemote (p : Peer K) (chunking : Chunking) (sh : (stripes : Nat) → Shuffles stripes)
    (data : Bytes) (durability : Durability) (key : Value) : Peer K × Except RemoteError BlockId :=
  let chunked := decide (chunking.chunkThreshold < data.length)
  if chunked ∧ Config.maxBlockSize < data.length then
    -- the header of the transfer is refused
    (p, .error (.outOfMemory (.str (refusal data.length))))
  else
    let stored := AnyKey.store p.manager (sh p.cfg.stripeCount) (storeArguments I data durability key)
    ({ p with manager := stored.1 }, storeAnswer chunked stored.2)

/-- `load_remote`, at the peer: an argument without a stripe is answered
with `BlockNotFound`. -/
def loadRemote (p : Peer K) (block key : Value) : Option Bytes :=
  match block with
  | .nil => (I.key key).bind (fun k => p.manager.loadByKey (.inl k))
  | b => b.asInt.bind p.manager.load

/-- `free_remote`, at the peer. -/
def freeRemote (p : Peer K) (block : Value) : Peer K × Bool :=
  match block.asInt with
  | none => (p, false)
  | some b =>
      let done := AnyKey.free p.manager b
      ({ p with manager := done.1 }, freedBy done.2)

end Peer

end Serving

/-! ## Remote calls -/

/-- The messages of `store_remote`. -/
def storeMessages (chunking : Chunking) (reqId : String) (stream : Int) (data : Bytes)
    (durability : Durability) (key : Value) : List Message :=
  let request := Replication.Request.store data durability key
  (request.header chunking stream reqId :: request.chunks chunking stream reqId).map Prod.snd

/-- The message of `load_remote`. -/
def loadMessage (reqId : String) (block key : Value) : Message :=
  .ofFields .requestBlock
    ([("req_id", .str reqId)] ++ optional "block_id" (notNone block) ++ optional "key" (notNone key))

/-- The message of `free_remote`. -/
def freeMessage (reqId : String) (block : Value) : Message :=
  .ofFields .freeBlock [("req_id", .str reqId), ("block_id", block)]

/-- The operations on blocks. -/
inductive Op where
  | store
  | load
  | free
  | remoteStore
  | remoteLoad
  | remoteFree
  deriving DecidableEq

/-- `req["op"]`. -/
def Op.value : Op → String
  | .store => "store"
  | .load => "load"
  | .free => "free"
  | .remoteStore => "remote_store"
  | .remoteLoad => "remote_load"
  | .remoteFree => "remote_free"

/-- The fields of a decoded request. -/
abbrev Body := List (Msgpack.Key × Value)

/-- A decoded request: the dictionary, whose `op` is `op`, and the codec
of the session. -/
structure Request where
  op : Op
  body : Body
  codec : Codec

/-- A request, with what is drawn while it is served: the random choices
of the evictions here and on a peer, the `req_id` of a call to a peer,
the stream of a transfer, and whether the next chunk of a transfer finds
that the writer has ended. -/
structure Turn where
  request : Request
  here : (stripes : Nat) → Shuffles stripes
  there : (stripes : Nat) → Shuffles stripes
  reqId : String → String
  stream : Int
  late : Bool

section Remote

variable {K : Type} [DecidableEq K] (R : Runtime K)

namespace Cluster

/-- Peer `pubkey` after it served a request. -/
def withPeer (c : Cluster K) (pubkey : String) (p : Peer K) : Cluster K :=
  { c with peers := c.peers.set pubkey p }

/-- The peer behind a connection whose writer runs. -/
def connected (c : Cluster K) (pubkey : String) : Option (Peer K) :=
  (c.peers.get pubkey).filter (fun p => p.alive)

/-- A call of a peer: its messages are sent, and the peer acts. `lost` is
what the call raises when the writer ends over one of them. -/
def callPeer {α : Type} (c : Cluster K) (pubkey : String) (messages : List Message)
    (lost : RemoteFailure) (act : Peer K → Peer K × Except RemoteError α) :
    Cluster K × Except RemoteError α :=
  match c.connected pubkey with
  | none => (c, .error (.failed (.notConnected pubkey)))
  | some p =>
      if messages.all R.sends then (c.withPeer pubkey (act p).1, (act p).2)
      else (c.withPeer pubkey { p with alive := false }, .error (.failed lost))

/-- `store_remote(pubkey, data, durability, key)`. -/
def storeRemote (c : Cluster K) (t : Turn) (pubkey : String) (data : Bytes)
    (durability : Durability) (key : Value) : Cluster K × Except RemoteError BlockId :=
  let chunked := decide (c.chunking.chunkThreshold < data.length)
  c.callPeer R pubkey (storeMessages c.chunking (t.reqId pubkey) t.stream data durability key)
    (if chunked ∧ t.late then .midTransfer pubkey else .noResponse "30.0")
    (fun p => p.storeRemote R.toInterpreter c.chunking t.there data durability key)

/-- `load_remote(pubkey, block_id, key)`. -/
def loadRemote (c : Cluster K) (t : Turn) (pubkey : String) (block key : Value) :
    Cluster K × Except RemoteError (Option Bytes) :=
  c.callPeer R pubkey [loadMessage (t.reqId pubkey) block key] (.noResponse "30.0")
    (fun p => (p, .ok (p.loadRemote R.toInterpreter block key)))

/-- The loop of `load_remote_by_key_anywhere`. -/
def askPeers (t : Turn) (key : Value) : List String → Cluster K → Cluster K × Option Bytes
  | [], c => (c, none)
  | pubkey :: rest, c =>
      match c.loadRemote R t pubkey .nil key with
      | (c', .ok (some data)) => (c', some data)
      | (c', _) => askPeers t key rest c'

/-- `load_remote_by_key_anywhere(key)`. -/
def loadRemoteByKeyAnywhere (c : Cluster K) (t : Turn) (key : Value) :
    Cluster K × Option Bytes :=
  askPeers R t key c.peers.keys c

/-- `free_remote(pubkey, block_id)`. -/
def freeRemote (c : Cluster K) (t : Turn) (pubkey : String) (block : Value) :
    Cluster K × Except RemoteError Bool :=
  c.callPeer R pubkey [freeMessage (t.reqId pubkey) block] (.noResponse "30.0")
    (fun p => ((p.freeRemote block).1, .ok (p.freeRemote block).2))

/-- `str(e)` of the `KeyError` that `_resolve_peer` raises. -/
def missingPeer (I : Interpreter K) (name : Value) : String :=
  match I.str name with
  | none => I.tooDeep
  | some shown => (I.repr (.str s!"no connected peer matching '{shown}'")).getD I.tooDeep

/-- `_resolve_peer(name)`; the error is the text of what it raises. -/
def resolvePeer (I : Interpreter K) (c : Cluster K) (name : Value) : Except String String :=
  match name with
  | .str s =>
      match c.peers.keys.find? (fun full => s.toList.isPrefixOf full.toList) with
      | some full => .ok full
      | none => .error (missingPeer I name)
  | v =>
      if c.peers.keys = [] then .error (missingPeer I name)
      else .error s!"startswith first arg must be str or a tuple of str, not {v.typeName}"

omit [DecidableEq K] in
/-- Names that are all equally long lead to their peer. -/
theorem resolvePeer_self {c : Cluster K} {n : Nat} (hlength : ∀ p ∈ c.peers.keys, p.length = n)
    {pubkey : String} (hmem : pubkey ∈ c.peers.keys) (I : Interpreter K) :
    c.resolvePeer I (.str pubkey) = .ok pubkey := by
  have hfind : c.peers.keys.find? (fun full => pubkey.toList.isPrefixOf full.toList)
      = some pubkey := by
    cases hf : c.peers.keys.find? (fun full => pubkey.toList.isPrefixOf full.toList) with
    | none =>
      have hnot := List.find?_eq_none.mp hf pubkey hmem
      exact absurd (List.isPrefixOf_iff_prefix.mpr (List.prefix_refl _)) hnot
    | some full =>
      have hstarts : pubkey.toList.isPrefixOf full.toList = true := by
        simpa using List.find?_some hf
      have hpre := List.isPrefixOf_iff_prefix.mp hstarts
      have hfull := hlength full (List.mem_of_find?_eq_some hf)
      have hlen : pubkey.toList.length = full.toList.length := by
        rw [String.length_toList, String.length_toList, hlength pubkey hmem, hfull]
      rw [String.toList_inj.mp (hpre.eq_of_length hlen)]
  simp only [resolvePeer, hfind]

end Cluster

end Remote

/-! ## Requests -/

/-- How the values of a request are read. -/
def Runtime.reading {K : Type} (R : Runtime K) : Reading Value String where
  bytes := Value.bytes?
  fromHex := fun v =>
    match v with
    | .str text =>
        some (match fromHex text.toList with
          | some data => .ok data
          | none => .error (R.hexError text))
    | _ => none
  truthy := Value.truthy

/-- The answer to a load that found something or not. -/
def foundResponse (codec : Codec) : Option Bytes → Answer
  | none => failed (Py.text "not found")
  | some data => payloadResponse data codec

/-- `str(KeyError(field))`, for a missing field. -/
def missingField (field : String) : String := "'" ++ field ++ "'"

/-- What a store came to. -/
inductive Stored where
  | here (b : BlockId)
  | there (peer : String) (b : BlockId)
  | refused (error : String)
  | raised (error : String)

/-- The answer to a store that was done here. -/
def storedHere (b : BlockId) : Answer :=
  [("ok", .bool true), ("block_id", .int b), ("location", .text (Py.text "local"))]

def Stored.response : Stored → Except String Answer
  | .here b => .ok (storedHere b)
  | .there peer b =>
      .ok [("ok", .bool true), ("block_id", .int b), ("location", .text (Py.text "remote")),
        ("peer", .text (Py.text (short peer)))]
  | .refused error => .ok (failed (Py.text error))
  | .raised error => .error error

section Dispatch

variable {K : Type} [DecidableEq K] (R : Runtime K)

/-- `request_payload(req)`. -/
def requestPayload (body : Body) : Except String (Option Bytes) :=
  R.reading.requestPayload (Value.get body)

/-- `req.get("allow_remote", True)`, as a condition. -/
def allowRemote (body : Body) : Bool := R.reading.allowRemote (Value.get body)

/-- `str(e)` of what `Durability(v)` raises. -/
def invalidDurability (v : Value) : String :=
  match R.repr v with
  | some shown => shown ++ " is not a valid Durability"
  | none => R.tooDeep

/-- `self.block_manager.load(v)` and `free(v)` up to the stripe. -/
def blockArgument (v : Value) : Except String BlockId :=
  match v.asInt with
  | some b => .ok b
  | none => .error (R.stripeError v)

/-- What the BlockManager made of a store: it is over, or there is no room. -/
inductive Attempt (K : Type) where
  | ended (s : Stored)
  | full (e : StoreError) (data : Bytes) (durability : Durability) (key : Value)

/-- `op == "store"`, up to the `except` clauses: only `BlockTooLarge` and
`OutOfMemory` are caught. -/
def attempt {cfg : Settings (KeyObject K)} (m : BlockManager cfg) (sh : Shuffles cfg.stripeCount)
    (body : Body) : BlockManager cfg × Attempt K :=
  match requestPayload R body with
  | .error text => (m, .ended (.raised text))
  | .ok none => (m, .ended (.refused "store requires 'data' (bytes) or 'data_hex' (hex)"))
  | .ok (some data) =>
      let durability := (Value.get body "durability").getD (durabilityValue .pinned)
      match durabilityOf durability with
      | none => (m, .ended (.raised (invalidDurability R durability)))
      | some d =>
          let key := (Value.get body "key").getD .nil
          match AnyKey.store m sh (storeArguments R.toInterpreter data d key) with
          | (m', .ok b) => (m', .ended (.here b))
          | (m', .error (.unhashable text)) => (m', .ended (.raised text))
          | (m', .error (.refused (.blockTooLarge size))) =>
              (m', .ended (.refused (StoreError.blockTooLarge size).message))
          | (m', .error (.refused e)) => (m', .full e data d key)

namespace Cluster

/-- A store that found no room here: try the best peer. -/
def overflow (c : Cluster K) (t : Turn) (localError : String) (data : Bytes)
    (durability : Durability) (key : Value) : Cluster K × Stored :=
  match c.bestPeerForStore data.length with
  | none => (c, .refused localError)
  | some peer =>
      match c.storeRemote R t peer data durability key with
      | (c', .ok b) => (c', .there peer b)
      | (c', .error e) =>
          match e.message R.toInterpreter with
          | some remote => (c', .refused s!"local: {localError}; remote: {remote}")
          | none => (c', .raised R.tooDeep)

/-- `op == "store"`. -/
def store (c : Cluster K) (t : Turn) : Cluster K × Stored :=
  match attempt R c.manager (t.here c.cfg.stripeCount) t.request.body with
  | (m, .ended s) => ({ c with manager := m }, s)
  | (m, .full e data durability key) =>
      if allowRemote R t.request.body then
        overflow R { c with manager := m } t e.message data durability key
      else ({ c with manager := m }, .refused e.message)

/-- What `op == "load"` finds, or the text of what it raises. -/
def find (c : Cluster K) (t : Turn) : Cluster K × Except String (Option Bytes) :=
  match Value.get t.request.body "block_id" with
  | some v => (c, (blockArgument R v).map c.manager.load)
  | none =>
      match Value.get t.request.body "key" with
      | none => (c, .error (missingField "key"))
      | some key =>
          match R.key key with
          | none => (c, .error s!"unhashable type: '{key.typeName}'")
          | some k =>
              match c.manager.loadByKey (.inl k) with
              | some data => (c, .ok (some data))
              | none =>
                  if allowRemote R t.request.body then
                    let found := c.loadRemoteByKeyAnywhere R t key
                    (found.1, .ok found.2)
                  else (c, .ok none)

/-- `op == "free"`. -/
def free (c : Cluster K) (body : Body) : Cluster K × Except String Answer :=
  match Value.get body "block_id" with
  | none => (c, .error (missingField "block_id"))
  | some v =>
      match blockArgument R v with
      | .error text => (c, .error text)
      | .ok b =>
          let done := AnyKey.free c.manager b
          ({ c with manager := done.1 }, done.2.map (fun freed => [("ok", .bool freed)]))

/-- `pubkey = await self._resolve_peer(req["peer"])`, and what follows it. -/
def atPeer (c : Cluster K) (body : Body) (act : String → Cluster K × Except String Answer) :
    Cluster K × Except String Answer :=
  match Value.get body "peer" with
  | none => (c, .error (missingField "peer"))
  | some name =>
      match c.resolvePeer R.toInterpreter name with
      | .error text => (c, .error text)
      | .ok pubkey => act pubkey

/-- What `_dispatch` makes of a remote call: `OutOfMemory` and
`RemoteOperationFailed` are caught. -/
def remoteAnswer {α : Type} (answer : α → Answer) (out : Cluster K × Except RemoteError α) :
    Cluster K × Except String Answer :=
  match out with
  | (c, .ok a) => (c, .ok (answer a))
  | (c, .error e) =>
      match e.message R.toInterpreter with
      | some text => (c, .ok (failed (Py.text text)))
      | none => (c, .error R.tooDeep)

/-- `op == "remote_store"`. -/
def remoteStore (c : Cluster K) (t : Turn) : Cluster K × Except String Answer :=
  match requestPayload R t.request.body with
  | .error text => (c, .error text)
  | .ok none => (c, .ok (failed (Py.text "remote_store requires 'data' or 'data_hex'")))
  | .ok (some data) =>
      let durability := (Value.get t.request.body "durability").getD (durabilityValue .cache)
      match durabilityOf durability with
      | none => (c, .error (invalidDurability R durability))
      | some d =>
          c.atPeer R t.request.body (fun pubkey => remoteAnswer R
            (fun b => [("ok", .bool true), ("block_id", .int b),
              ("peer", .text (Py.text (short pubkey)))])
            (c.storeRemote R t pubkey data d ((Value.get t.request.body "key").getD .nil)))

/-- `op == "remote_load"`. -/
def remoteLoad (c : Cluster K) (t : Turn) : Cluster K × Except String Answer :=
  c.atPeer R t.request.body (fun pubkey => remoteAnswer R (foundResponse t.request.codec)
    (c.loadRemote R t pubkey ((Value.get t.request.body "block_id").getD .nil)
      ((Value.get t.request.body "key").getD .nil)))

/-- `op == "remote_free"`. -/
def remoteFree (c : Cluster K) (t : Turn) : Cluster K × Except String Answer :=
  c.atPeer R t.request.body (fun pubkey =>
    match Value.get t.request.body "block_id" with
    | none => (c, .error (missingField "block_id"))
    | some block =>
        remoteAnswer R (fun freed => [("ok", .bool freed)]) (c.freeRemote R t pubkey block))

/-- `_dispatch`; the error is the text of what it raises. -/
def dispatch (c : Cluster K) (t : Turn) : Cluster K × Except String Answer :=
  match t.request.op with
  | .store =>
      let stored := c.store R t
      (stored.1, stored.2.response)
  | .load =>
      let found := c.find R t
      (found.1, found.2.map (foundResponse t.request.codec))
  | .free => c.free R t.request.body
  | .remoteStore => c.remoteStore R t
  | .remoteLoad => c.remoteLoad R t
  | .remoteFree => c.remoteFree R t

/-- The answer `_handle_client` writes: what `_dispatch` raises becomes
one too. -/
def answerOf : Except String Answer → Answer
  | .ok answer => answer
  | .error text => failed (Py.text text)

/-- The request part of `_handle_client`. -/
def handle (c : Cluster K) (t : Turn) : Cluster K × Answer :=
  let done := c.dispatch R t
  (done.1, answerOf done.2)

end Cluster

end Dispatch

/-! ## Remote calls and the protocol -/

section Settled

variable {K : Type} [DecidableEq K] (I : Interpreter K)

/-- What `store_remote` returned or raised, as a result of the protocol. -/
def RemoteError.result : Except RemoteError BlockId → Result
  | .ok b => .stored (.int b)
  | .error (.outOfMemory error) => .outOfMemory error
  | .error (.failed e) => .failed e

/-- `store_remote` here is `store_remote` of the protocol: one store on
the peer that raises no `TypeError`, and its outcome as the result. -/
theorem storeRemote_settled (p : Peer K) (chunking : Chunking)
    (sh : (stripes : Nat) → Shuffles stripes) {data : Bytes} (d : Durability) (key : Value)
    (hsize : data.length ≤ Config.maxBlockSize)
    (hcalm : ∀ text, (AnyKey.store p.manager (sh p.cfg.stripeCount)
      (storeArguments I data d key)).2 ≠ .error (.unhashable text)) :
    ∃ out : Except StoreError BlockId,
      (AnyKey.store p.manager (sh p.cfg.stripeCount) (storeArguments I data d key)).2
        = out.mapError .refused ∧
      Settled I [(.store ⟨data, d, storeKey I key⟩, .ofStore out)]
        (RemoteError.result (p.storeRemote I chunking sh data d key).2) (.store data d key) := by
  have hfits : ¬ (decide (chunking.chunkThreshold < data.length) = true ∧
      Config.maxBlockSize < data.length) := fun h => absurd h.2 (Nat.not_lt.mpr hsize)
  simp only [Settled, if_pos hsize, Peer.storeRemote, if_neg hfits]
  cases hstore : (AnyKey.store p.manager (sh p.cfg.stripeCount)
      (storeArguments I data d key)).2 with
  | ok b => exact ⟨.ok b, rfl, Or.inl ⟨b, rfl, rfl⟩⟩
  | error e =>
    cases e with
    | refused e => exact ⟨.error e, rfl, Or.inr ⟨e, rfl, rfl⟩⟩
    | unhashable text => exact absurd hstore (hcalm text)

/-- The same of `load_remote`. -/
theorem loadRemote_settled (p : Peer K) (sh : Shuffles p.cfg.stripeCount) (block : Option BlockId)
    (key : Option String) :
    Settled I [(loadOf I block key, (p.manager.exec sh (hashedCall (loadOf I block key))).2)]
      (.loaded (p.loadRemote I ((block.map .int).getD .nil) ((key.map .str).getD .nil)))
      (.load block key) := by
  cases block with
  | some b => exact ⟨_, rfl, rfl⟩
  | none =>
    cases key with
    | none => exact ⟨_, rfl, by simp [Peer.loadRemote, I.key_nil]⟩
    | some key => exact ⟨_, rfl, by simp [Peer.loadRemote, I.key_str]⟩

end Settled

end Memnode.Rpc
