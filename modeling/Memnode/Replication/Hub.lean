/-
Memnode.Replication.Hub — one node among any number of peers.

`Network` has two honest nodes. A hub is one node whose peers are
anybody: any message of any body may come from any peer at any time. All
peers share the coordinator's tables and the BlockManager; each has a
read loop of its own, whose handler takes the peer's next message when
the last one is done, so handlers of different peers interleave at every
await.

The node's own remote calls are here as far as futures and tables go: a
call registers its request id, its messages go out or do not, and it
ends with a result, which takes its entries out of the tables.

What a handler sends waits in the queues of the mux of its peer until
the writer takes it. A message that cannot be packed, or whose frame is
too long, is never written and ends the writer, and with it everything
that still waits; messages of the node's own calls can do the same.

`heard`, `sent` and `commits` are history: the messages that were
handled, the messages that the writers wrote, and the blocks that
handlers stored. `step_moves` lists what an event can do; the invariants
of the later modules are case analyses over it.
-/
import Memnode.Replication.Effects

namespace Memnode.Replication

open Lib Blocks

/-! ## Serving -/

section Serving

variable {K : Type} [DecidableEq K] {cfg : Settings (KeyObject K)}

/-- A handler that answers a load names the request in every message. -/
theorem loadReplies_reqId {ch : Chunking} {stream : Int} {reqId : Value} {data : Option Bytes}
    {x : Int × Message} (hx : x ∈ loadReplies ch stream reqId data) : reqIdOf x.2 = reqId := by
  unfold loadReplies at hx
  split at hx
  · rw [List.mem_singleton.mp hx]
    simp [onOwnStream, reqIdOf, Message.get, Message.ofFields, Value.record, Value.get]
  · split at hx
    · rw [List.mem_singleton.mp hx]
      simp [onOwnStream, reqIdOf, Message.get, Message.ofFields, Value.record, Value.get]
    · obtain ⟨m, hm, rfl⟩ := List.mem_map.mp hx
      rcases List.mem_cons.mp hm with rfl | hm
      · simp [replyHeader, reqIdOf, Message.get, Message.ofFields, Value.record, Value.get]
      · obtain ⟨seq, _, rfl⟩ := List.mem_map.mp hm
        simp [chunkAt, chunkFrame, reqIdOf, Message.get, Message.ofFields, Value.record, Value.get]

/-- A handler makes one BlockManager call: a store, after which it may
reply, or another, after which it only sends. -/
theorem serve_cases {ch : Chunking} {stream : Nat} {m : BlockManager cfg}
    {sh : Shuffles cfg.stripeCount} {h : Handler K} {r : Served cfg}
    (hr : h.serve ch stream m sh = some r) :
    (∃ reqId transfer data d key, h = .store reqId transfer data d key ∧
      r.next = afterStore reqId transfer (AnyKey.store m sh ⟨data, d, keyObject key⟩).2 ∧
      r.committed.isSome = inserts m sh data.length) ∨
    ((∀ reqId transfer data d key, h ≠ .store reqId transfer data d key) ∧ r.committed = none ∧
      ∃ reqId ms, h.reqId = some reqId ∧ r.next = .sending reqId ms ∧
        ∀ x ∈ ms, reqIdOf x.2 = reqId) := by
  cases h with
  | idle => cases hr
  | send => cases hr
  | store reqId transfer data d key =>
    simp only [Handler.serve, Option.some.injEq] at hr
    subst hr
    refine Or.inl ⟨reqId, transfer, data, d, key, rfl, rfl, ?_⟩
    dsimp only
    split <;> simp_all
  | load reqId call =>
    right
    cases call with
    | none =>
      simp only [Handler.serve, Option.some.injEq] at hr
      subst hr
      exact ⟨by simp, rfl, reqId, loadReplies ch stream reqId none, rfl, rfl,
        fun _ => loadReplies_reqId⟩
    | some call =>
      simp only [Handler.serve, Option.some.injEq] at hr
      subst hr
      exact ⟨by simp, rfl, reqId,
        loadReplies ch stream reqId (loadedBytes (m.exec sh (hashedCall call)).2), rfl, rfl,
        fun _ => loadReplies_reqId⟩
  | free reqId block =>
    right
    simp only [Handler.serve, Option.some.injEq] at hr
    subst hr
    refine ⟨by simp, rfl, reqId, [_], rfl, rfl, ?_⟩
    intro x hx
    rw [List.mem_singleton.mp hx]
    simp [onOwnStream, reqIdOf, Message.get, Message.ofFields, Value.record, Value.get]

omit [DecidableEq K] in
theorem sending_reqId (reqId : Value) (ms : List (Int × Message)) :
    (Handler.sending reqId ms : Handler K).reqId = none ∨
      (Handler.sending reqId ms : Handler K).reqId = some reqId := by
  cases ms with
  | nil => exact Or.inl rfl
  | cons => exact Or.inr rfl

/-- A handler keeps its request. -/
theorem serve_reqId {ch : Chunking} {stream : Nat} {m : BlockManager cfg}
    {sh : Shuffles cfg.stripeCount} {h : Handler K} {r : Served cfg}
    (hr : h.serve ch stream m sh = some r) :
    ∃ reqId, h.reqId = some reqId ∧ (r.next.reqId = none ∨ r.next.reqId = some reqId) := by
  rcases serve_cases hr with ⟨reqId, transfer, data, d, key, rfl, hnext, _⟩ |
    ⟨_, _, reqId, ms, hid, hms, _⟩
  · refine ⟨reqId, rfl, ?_⟩
    rw [hnext]
    unfold afterStore
    split
    · exact Or.inr rfl
    · exact Or.inr rfl
    · split
      · exact Or.inl rfl
      · exact Or.inr rfl
  · exact ⟨reqId, hid, hms ▸ sending_reqId reqId ms⟩

/-- A block is committed when `store` returns its id, and when it raises
for the key of the block itself. -/
theorem inserts_iff (m : BlockManager cfg) (sh : Shuffles cfg.stripeCount)
    (r : StoreReq (KeyObject K)) :
    inserts m sh r.size = true ↔
      (∃ b, (AnyKey.store m sh r).2 = .ok b) ∨ AnyKey.Strands m sh r := by
  unfold AnyKey.Strands AnyKey.store inserts
  by_cases hsize : r.size > Config.maxBlockSize
  · simp [hsize, Nat.not_le.mpr hsize]
  · cases hacq : AnyKey.acquire m sh r.size with
    | mk m₁ res =>
      cases res with
      | error e => simp [hsize]
      | ok u =>
        cases hkey : hashError r.key with
        | none => simp [hsize, Nat.le_of_not_lt hsize]
        | some text => simp [hsize, Nat.le_of_not_lt hsize]

/-- The result of `store`, and whether it put the block into its stripe. -/
theorem store_inserts (m : BlockManager cfg) (sh : Shuffles cfg.stripeCount) (req : StoreReq (KeyObject K)) :
    (∃ b, (AnyKey.store m sh req).2 = .ok b ∧ inserts m sh req.size = true) ∨
    (∃ e, (AnyKey.store m sh req).2 = .error (.refused e) ∧ inserts m sh req.size = false) ∨
    ∃ text, (AnyKey.store m sh req).2 = .error (.unhashable text) ∧
      (inserts m sh req.size = true ↔ AnyKey.Strands m sh req) := by
  have hiff := inserts_iff m sh req
  cases hres : (AnyKey.store m sh req).2 with
  | ok b => exact Or.inl ⟨b, rfl, hiff.mpr (Or.inl ⟨b, hres⟩)⟩
  | error failure =>
    simp only [hres, reduceCtorEq, exists_const, false_or] at hiff
    cases failure with
    | refused e =>
      refine Or.inr (Or.inl ⟨e, rfl, ?_⟩)
      rw [← Bool.not_eq_true, hiff]
      intro hstrands
      obtain ⟨⟨text, _, htext⟩, _⟩ := AnyKey.store_strands hstrands
      rw [hres] at htext
      cases htext
    | unhashable text => exact Or.inr (Or.inr ⟨text, rfl, hiff⟩)

omit [DecidableEq K] in
theorem afterStore_names (reqId : Value) (transfer : Bool) (res : Except StoreFailure BlockId) :
    (afterStore reqId transfer res : Handler K).Names := by
  unfold afterStore
  split
  · refine Handler.names_reply ?_
    simp [storeReply, reqIdOf, Message.get, Message.ofFields, Value.record, Value.get]
  · exact Handler.names_reply (reqIdOf_nack _ _)
  · split
    · exact Handler.names_of_ne (by simp)
    · exact Handler.names_reply (reqIdOf_nack _ _)

theorem serve_names {ch : Chunking} {stream : Nat}
    {m : BlockManager cfg} {sh : Shuffles cfg.stripeCount} {h : Handler K} {r : Served cfg}
    (hr : h.serve ch stream m sh = some r) : r.next.Names := by
  rcases serve_cases hr with ⟨reqId, transfer, data, d, key, _, hnext, _⟩ |
    ⟨_, _, reqId, ms, _, hms, hnames⟩
  · rw [hnext]
    exact afterStore_names _ _ _
  · rw [hms]
    exact Handler.names_sending hnames

end Serving

/-! ## Calls -/

/-- Which remote call it is. -/
inductive Ask where
  | store
  | load
  | free
  deriving DecidableEq

/-- What a remote call returns or raises. -/
inductive Returned where
  | result (r : Result)
  | freed (ok : Bool)
  /-- an exception of `send_to`, or the call was cancelled -/
  | raised

/-- Where a remote call is. -/
inductive Stand where
  /-- its messages are not all out -/
  | sending
  | awaitReply
  /-- waiting for the collector of call `future` -/
  | awaitPull (future : Nat)
  | over (r : Returned)

/-- A remote call, with its two futures once they have a result. -/
structure Outgoing where
  peer : String
  reqId : String
  timeout : String
  ask : Ask
  reply : Option Message
  pull : Option (Except RemoteFailure Bytes)
  stand : Stand

/-- `fut.set_result` or `set_exception`, unless the future is done. -/
def Outgoing.resolve (o : Outgoing) : Resolution → Outgoing
  | .reply msg => { o with reply := o.reply.or (some msg) }
  | .pulled data => { o with pull := o.pull.or (some (.ok data)) }
  | .pullFailed e => { o with pull := o.pull.or (some (.error e)) }

/-- A call after an event that is not a message: its futures are as they
were, but `free_remote` may have started to wait for a new reply. -/
structure Outgoing.Kept (o o' : Outgoing) : Prop where
  peer : o'.peer = o.peer
  reqId : o'.reqId = o.reqId
  ask : o'.ask = o.ask
  reply : o'.reply = o.reply ∨ (o.ask = .free ∧ o'.reply = none)
  pull : o'.pull = o.pull

theorem Outgoing.Kept.refl (o : Outgoing) : o.Kept o := ⟨rfl, rfl, rfl, Or.inl rfl, rfl⟩

/-! ## The node -/

/-- A block that a handler stored. -/
structure Commit where
  peer : String
  reqId : Value
  transfer : Bool
  /-- the `total_size` of the transfer's header, None for a single frame -/
  declared : Value
  data : Bytes

/-- The block a handler is about to store, when the header of its
transfer declared this size. -/
def Handler.commit {K : Type} (peer : String) (declared : Value) : Handler K → Option Commit
  | .store reqId transfer data _ _ =>
      some ⟨peer, reqId, transfer, if transfer then declared else .nil, data⟩
  | _ => none

structure Hub (K : Type) where
  cfg : Settings (KeyObject K)
  chunking : Chunking
  manager : BlockManager cfg
  coordinator : Coordinator K
  calls : List Outgoing
  /-- the handler of each peer's read loop -/
  handlers : String → Handler K
  /-- the declared size of the transfer a handler works on -/
  declared : String → Value
  /-- what waits for the writer of each peer's connection -/
  queues : String → List (Int × Message)
  /-- that writer has ended -/
  stopped : String → Bool
  heard : List (String × Message)
  sent : List (String × Message)
  commits : List Commit

namespace Hub

variable {K : Type} [DecidableEq K] (I : Interpreter K)

/-- Before the first call and the first message. -/
structure Fresh (hub : Hub K) : Prop where
  coordinator : hub.coordinator = .init
  calls : hub.calls = []
  handlers : ∀ peer, hub.handlers peer = .idle
  queues : ∀ peer, hub.queues peer = []
  stopped : ∀ peer, hub.stopped peer = false
  heard : hub.heard = []
  sent : hub.sent = []
  commits : hub.commits = []

/-- A node that has just started. -/
def init (cfg : Settings (KeyObject K)) (chunking : Chunking) : Hub K where
  cfg := cfg
  chunking := chunking
  manager := .init cfg
  coordinator := .init
  calls := []
  handlers := fun _ => .idle
  declared := fun _ => .nil
  queues := fun _ => []
  stopped := fun _ => false
  heard := []
  sent := []
  commits := []

theorem fresh_init (cfg : Settings (KeyObject K)) (chunking : Chunking) :
    (init cfg chunking).Fresh :=
  ⟨rfl, rfl, fun _ => rfl, fun _ => rfl, fun _ => rfl, rfl, rfl, rfl⟩

/-- What a client or a peer can do next. -/
inductive Event (K : Type) where
  /-- `store_remote`, `load_remote` or `free_remote` starts -/
  | call (peer : String) (ask : Ask) (reqId timeout : String)
  /-- the messages of call `i` are out -/
  | out (i : Nat)
  /-- `send_to` of call `i` returned False, for its first message or for a chunk -/
  | lost (i : Nat) (header : Bool)
  /-- `send_to` of call `i` raises, or the call is cancelled -/
  | raise (i : Nat)
  /-- call `i` goes on -/
  | go (i : Nat)
  /-- call `i` times out -/
  | expire (i : Nat)
  /-- the read loop of a peer takes a message -/
  | receive (peer : String) (msg : Message) (now : Rat)
  /-- the handler of a peer makes its BlockManager call -/
  | serve (peer : String) (sh : (stripes : Nat) → Shuffles stripes)
  /-- the handler of a peer hands its next message to `send_to` -/
  | reply (peer : String)
  /-- the handler of a peer finds it disconnected -/
  | gone (peer : String)
  /-- the writer of a peer's connection takes the `i`-th message that waits -/
  | write (peer : String) (i : Nat)
  /-- that writer ends: the transport fails, or a message of a call cannot be written -/
  | stop (peer : String)
  /-- the peer connects anew -/
  | join (peer : String)
  /-- a client of the node works on its BlockManager -/
  | own (sh : (stripes : Nat) → Shuffles stripes) (c : Call (KeyObject K))

/-- The call that goes on or ends. -/
def Event.acts : Event K → Option Nat
  | .out i | .lost i _ | .raise i | .go i | .expire i => some i
  | _ => none

/-- A remote call starts; `uuid4` never gives an id twice. -/
def call (hub : Hub K) (peer : String) (ask : Ask) (reqId timeout : String) : Option (Hub K) :=
  if hub.calls.any (fun o => o.reqId = reqId) then none
  else
    some { hub with
      coordinator := { hub.coordinator with
        pending := hub.coordinator.pending.set (I.strKey reqId) hub.calls.length }
      calls := hub.calls ++ [⟨peer, reqId, timeout, ask, none, none, .sending⟩] }

/-- The `finally` block of a call. -/
def cleanUp (c : Coordinator K) (k : K) : Ask → Coordinator K
  | .load =>
      { c with
        pending := c.pending.erase k
        buffers := c.buffers.erase k
        pullFutures := c.pullFutures.erase k }
  | _ => { c with pending := c.pending.erase k }

/-- Call `i` returns or raises. -/
def finish (hub : Hub K) (i : Nat) (o : Outgoing) (r : Returned) : Hub K :=
  { hub with
    coordinator := cleanUp hub.coordinator (I.strKey o.reqId) o.ask
    calls := hub.calls.set i { o with stand := .over r } }

/-- Call `i` is left by an exception. `free_remote` has no `finally`
around its `send_to`. -/
def abandon (hub : Hub K) (i : Nat) (o : Outgoing) : Option (Hub K) :=
  match o.stand, o.ask with
  | .over _, _ => none
  | .sending, .free => some { hub with calls := hub.calls.set i { o with stand := .over .raised } }
  | _, _ => some (hub.finish I i o .raised)

/-- The messages of call `i` are out. `free_remote` looks its future up
again, and makes a new one if the old one has been taken. -/
def out (hub : Hub K) (i : Nat) (o : Outgoing) : Hub K :=
  if o.ask = .free ∧ hub.coordinator.pending.get (I.strKey o.reqId) = none then
    { hub with
      coordinator := { hub.coordinator with
        pending := hub.coordinator.pending.set (I.strKey o.reqId) i }
      calls := hub.calls.set i { o with reply := none, stand := .awaitReply } }
  else { hub with calls := hub.calls.set i { o with stand := .awaitReply } }

/-- Call `i` goes on after its reply. -/
def onReply (hub : Hub K) (i : Nat) (o : Outgoing) (reply : Message) : Hub K :=
  match o.ask with
  | .store => hub.finish I i o (.result (storeResult reply))
  | .free => hub.finish I i o (.freed ((reply.get "freed").getD (.bool false)).truthy)
  | .load =>
      if announcesChunks reply then
        match hub.coordinator.pullFutures.get (I.strKey o.reqId) with
        | none => hub.finish I i o (.result (.failed .noCollector))
        | some f => { hub with calls := hub.calls.set i { o with stand := .awaitPull f } }
      else hub.finish I i o (.result (loadResult reply))

/-- Call `i` goes on; `none` while it has to wait. -/
def go (hub : Hub K) (i : Nat) (o : Outgoing) : Option (Hub K) :=
  match o.stand with
  | .awaitReply => o.reply.map (hub.onReply I i o)
  | .awaitPull f =>
      match (hub.calls[f]?).bind Outgoing.pull with
      | none => none
      | some (.ok data) => some (hub.finish I i o (.result (.loaded (some data))))
      | some (.error e) => some (hub.finish I i o (.result (.failed e)))
  | _ => none

/-- The futures of the calls get these results. -/
def resolve (calls : List Outgoing) (resolved : List (Nat × Resolution)) : List Outgoing :=
  resolved.foldl (fun calls x => calls.modify x.1 (fun o => o.resolve x.2)) calls

/-- The declared size of the transfer a chunk belongs to. -/
def declaredFor (c : Coordinator K) (msg : Message) : Value :=
  match (I.key (reqIdOf msg)).bind c.buffers.get with
  | some b => b.totalSize
  | none => .nil

/-- A message of `peer` reaches its idle handler. -/
def receive (hub : Hub K) (peer : String) (msg : Message) (now : Rat) : Hub K :=
  let h := handleMessage I now hub.coordinator peer msg
  { hub with
    coordinator := h.coordinator
    calls := resolve hub.calls h.resolved
    handlers := Function.update hub.handlers peer h.next
    declared := Function.update hub.declared peer (declaredFor I hub.coordinator msg)
    heard := hub.heard ++ [(peer, msg)] }

/-- What a served handler adds to the history. -/
def committed (hub : Hub K) (peer : String) (block : Option BlockId) : List Commit :=
  match block with
  | some _ => ((hub.handlers peer).commit peer (hub.declared peer)).toList
  | none => []

/-- The handler of `peer` makes its BlockManager call. -/
def serve (hub : Hub K) (peer : String) (sh : (stripes : Nat) → Shuffles stripes) :
    Option (Hub K) :=
  match (hub.handlers peer).serve hub.chunking hub.coordinator.nextStream hub.manager
      (sh hub.cfg.stripeCount) with
  | none => none
  | some r =>
      some { hub with
        manager := r.manager
        coordinator := { hub.coordinator with nextStream := r.nextStream }
        handlers := Function.update hub.handlers peer r.next
        commits := hub.commits ++ hub.committed peer r.committed }

/-- The handler of `peer` hands its next message to `send_to`. -/
def reply (hub : Hub K) (peer : String) : Option (Hub K) :=
  match hub.handlers peer with
  | .send reqId m rest =>
      if hub.stopped peer then none
      else
        some { hub with
          handlers := Function.update hub.handlers peer (.sending reqId rest)
          queues := Function.update hub.queues peer (hub.queues peer ++ [m]) }
  | _ => none

/-- The handler of `peer` finds it disconnected. -/
def gone (hub : Hub K) (peer : String) : Option (Hub K) :=
  match hub.handlers peer with
  | .send _ _ _ => some { hub with handlers := Function.update hub.handlers peer .idle }
  | _ => none

/-- The writer of `peer` ends. -/
def stop (hub : Hub K) (peer : String) : Hub K :=
  { hub with stopped := Function.update hub.stopped peer true }

/-- The writer of `peer` takes the first message of a stream. -/
def write (hub : Hub K) (peer : String) (i : Nat) : Option (Hub K) :=
  match (hub.queues peer)[i]? with
  | none => none
  | some m =>
      if hub.stopped peer || ((hub.queues peer).take i).any (fun x => x.1 = m.1) then none
      else
        match m.2.transmit I.packer with
        | none => some (hub.stop peer)
        | some msg =>
            some { hub with
              queues := Function.update hub.queues peer ((hub.queues peer).eraseIdx i)
              sent := hub.sent ++ [(peer, msg)] }

/-- `peer` has a new connection. -/
def join (hub : Hub K) (peer : String) : Hub K :=
  { hub with
    queues := Function.update hub.queues peer []
    stopped := Function.update hub.stopped peer false }

/-- One event; `none` if it cannot happen now. -/
def step (hub : Hub K) : Event K → Option (Hub K)
  | .call peer ask reqId timeout => hub.call I peer ask reqId timeout
  | .out i =>
      match hub.calls[i]? with
      | some o =>
          match o.stand with
          | .sending => some (hub.out I i o)
          | _ => none
      | none => none
  | .lost i header =>
      match hub.calls[i]? with
      | some o =>
          match o.stand with
          | .sending =>
              if header then some (hub.finish I i o (.result (.failed (.notConnected o.peer))))
              else if o.ask = .store then
                some (hub.finish I i o (.result (.failed (.midTransfer o.peer))))
              else none
          | _ => none
      | none => none
  | .raise i => (hub.calls[i]?).bind (hub.abandon I i)
  | .go i => (hub.calls[i]?).bind (hub.go I i)
  | .expire i =>
      match hub.calls[i]? with
      | some o =>
          match o.stand with
          | .awaitReply => some (hub.finish I i o (.result (.failed (.noResponse o.timeout))))
          | .awaitPull _ =>
              some (hub.finish I i o (.result (.failed (.transferTimeout o.timeout))))
          | _ => none
      | none => none
  | .receive peer msg now =>
      match hub.handlers peer with
      | .idle => some (hub.receive I peer msg now)
      | _ => none
  | .serve peer sh => hub.serve peer sh
  | .reply peer => hub.reply peer
  | .gone peer => hub.gone peer
  | .write peer i => hub.write I peer i
  | .stop peer => some (hub.stop peer)
  | .join peer => some (hub.join peer)
  | .own sh c =>
      some { hub with manager := AnyKey.after hub.manager (sh hub.cfg.stripeCount) c }

/-- The states of runs in which every step satisfies `ok`. -/
inductive Reachable (ok : Hub K → Event K → Prop) : Hub K → Prop where
  | start {hub : Hub K} : hub.Fresh → Reachable ok hub
  | step {hub hub' : Hub K} {e : Event K} :
      Reachable ok hub → ok hub e → hub.step I e = some hub' → Reachable ok hub'

/-- A step of any kind. -/
def Anything (_ : Hub K) (_ : Event K) : Prop := True

/-- These events, one after the other. -/
def run (hub : Hub K) : List (Event K) → Option (Hub K)
  | [] => some hub
  | e :: es => (hub.step I e).bind (fun hub' => hub'.run es)

theorem Reachable.run {I : Interpreter K} {hub hub' : Hub K} (es : List (Event K)) :
    Reachable I Anything hub → hub.run I es = some hub' → Reachable I Anything hub' := by
  induction es generalizing hub with
  | nil =>
    intro h hrun
    obtain rfl := Option.some.inj hrun
    exact h
  | cons e es ih =>
    intro h hrun
    obtain ⟨next, hstep, hrest⟩ := Option.bind_eq_some_iff.mp hrun
    exact ih (.step h trivial hstep) hrest

/-! ## What an event can do -/

/-- `load_remote` returned these bytes: from a single-frame reply, or
from the collector it waited for. -/
inductive Loads (hub : Hub K) (o : Outgoing) (data : Bytes) : Prop where
  | frame {reply : Message} (hask : o.ask = .load) (hreply : o.reply = some reply)
      (hplain : announcesChunks reply = false) (hload : loadResult reply = .loaded (some data))
  | chunks {f : Nat} {x : Outgoing} (hstand : o.stand = .awaitPull f) (hx : hub.calls[f]? = some x)
      (hpull : x.pull = some (.ok data))

/-- The outcomes of an event. -/
inductive Move (hub : Hub K) : Event K → Hub K → Prop where
  | called {peer : String} {ask : Ask} {reqId timeout : String}
      (hnew : ∀ o ∈ hub.calls, o.reqId ≠ reqId) :
      Move hub (.call peer ask reqId timeout)
        { hub with
          coordinator := { hub.coordinator with
            pending := hub.coordinator.pending.set (I.strKey reqId) hub.calls.length }
          calls := hub.calls ++ [⟨peer, reqId, timeout, ask, none, none, .sending⟩] }
  | out {i : Nat} {o : Outgoing} (ho : hub.calls[i]? = some o) (hs : o.stand = .sending) :
      Move hub (.out i) (hub.out I i o)
  | pulling {i f : Nat} {o : Outgoing} (ho : hub.calls[i]? = some o) (hs : o.stand = .awaitReply)
      (hask : o.ask = .load)
      (hf : hub.coordinator.pullFutures.get (I.strKey o.reqId) = some f) :
      Move hub (.go i) { hub with calls := hub.calls.set i { o with stand := .awaitPull f } }
  | finished {e : Event K} {i : Nat} {o : Outgoing} (he : e.acts = some i)
      (ho : hub.calls[i]? = some o) (r : Returned)
      (hlive : ∀ r', o.stand ≠ .over r')
      (hdata : ∀ data, r = .result (.loaded (some data)) → hub.Loads o data) :
      Move hub e (hub.finish I i o r)
  | abandoned {i : Nat} {o : Outgoing} (ho : hub.calls[i]? = some o) (hs : o.stand = .sending)
      (hask : o.ask = .free) :
      Move hub (.raise i) { hub with calls := hub.calls.set i { o with stand := .over .raised } }
  | received {peer : String} (hidle : hub.handlers peer = .idle) (msg : Message) (now : Rat) :
      Move hub (.receive peer msg now) (hub.receive I peer msg now)
  | served {peer : String} {sh : (stripes : Nat) → Shuffles stripes} {r : Served hub.cfg}
      (hserve : (hub.handlers peer).serve hub.chunking hub.coordinator.nextStream hub.manager
        (sh hub.cfg.stripeCount) = some r) :
      Move hub (.serve peer sh)
        { hub with
          manager := r.manager
          coordinator := { hub.coordinator with nextStream := r.nextStream }
          handlers := Function.update hub.handlers peer r.next
          commits := hub.commits ++ hub.committed peer r.committed }
  | replied {peer : String} {reqId : Value} {m : Int × Message} {rest : List (Int × Message)}
      (hsend : hub.handlers peer = .send reqId m rest) (hup : hub.stopped peer = false) :
      Move hub (.reply peer)
        { hub with
          handlers := Function.update hub.handlers peer (.sending reqId rest)
          queues := Function.update hub.queues peer (hub.queues peer ++ [m]) }
  | gone {peer : String} {reqId : Value} {m : Int × Message} {rest : List (Int × Message)}
      (hsend : hub.handlers peer = .send reqId m rest) :
      Move hub (.gone peer) { hub with handlers := Function.update hub.handlers peer .idle }
  | wrote {peer : String} {i : Nat} {m : Int × Message} (hup : hub.stopped peer = false)
      (hm : (hub.queues peer)[i]? = some m) (hfits : m.2.transmit I.packer = some m.2) :
      Move hub (.write peer i)
        { hub with
          queues := Function.update hub.queues peer ((hub.queues peer).eraseIdx i)
          sent := hub.sent ++ [(peer, m.2)] }
  | stopped {e : Event K} {peer : String}
      (he : e = .stop peer ∨ ∃ i m, e = .write peer i ∧ hub.stopped peer = false ∧
        (hub.queues peer)[i]? = some m ∧ m.2.transmit I.packer = none) :
      Move hub e (hub.stop peer)
  | joined (peer : String) : Move hub (.join peer) (hub.join peer)
  | own (sh : (stripes : Nat) → Shuffles stripes) (c : Call (KeyObject K)) (m : BlockManager hub.cfg) :
      Move hub (.own sh c) { hub with manager := m }

variable {I} {hub hub' : Hub K}

theorem go_moves {i : Nat} {o : Outgoing} (ho : hub.calls[i]? = some o)
    (h : hub.go I i o = some hub') : hub.Move I (.go i) hub' := by
  unfold Hub.go at h
  split at h
  · rename_i hstand
    have hlive : ∀ r', o.stand ≠ .over r' := by simp [hstand]
    cases hreply : o.reply with
    | none => simp [hreply] at h
    | some reply =>
      simp only [hreply, Option.map_some, Option.some.injEq] at h
      subst h
      unfold onReply
      split
      · refine .finished rfl ho _ hlive ?_
        intro data hr
        simp only [Returned.result.injEq, storeResult] at hr
        split at hr
        · cases hr
        · split at hr <;> cases hr
      · exact .finished rfl ho _ hlive (by intro data hr; cases hr)
      · rename_i hask
        split
        · split
          · exact .finished rfl ho _ hlive (by intro data hr; cases hr)
          · rename_i f hf
            exact .pulling ho hstand hask hf
        · rename_i hplain
          refine .finished rfl ho _ hlive ?_
          intro data hr
          exact .frame hask hreply (by simpa using hplain) (by simpa using hr)
  · rename_i f hstand
    have hlive : ∀ r', o.stand ≠ .over r' := by simp [hstand]
    cases hx : hub.calls[f]? with
    | none => simp [hx] at h
    | some x =>
      simp only [hx, Option.bind_some] at h
      split at h
      · cases h
      · rename_i data hpull
        obtain rfl := Option.some.inj h
        refine .finished rfl ho _ hlive ?_
        intro data' hr
        obtain rfl : data = data' := by simpa using hr
        exact .chunks hstand hx hpull
      · obtain rfl := Option.some.inj h
        exact .finished rfl ho _ hlive (by intro data hr; cases hr)
  · cases h

theorem abandon_moves {i : Nat} {o : Outgoing} (ho : hub.calls[i]? = some o)
    (h : hub.abandon I i o = some hub') : hub.Move I (.raise i) hub' := by
  unfold abandon at h
  split at h
  · cases h
  · rename_i hs hask
    obtain rfl := Option.some.inj h
    exact .abandoned ho hs hask
  · rename_i hlive _
    obtain rfl := Option.some.inj h
    exact .finished rfl ho _ hlive (by intro data hr; cases hr)

/-- An event does nothing else. -/
theorem step_moves {e : Event K} (h : hub.step I e = some hub') : hub.Move I e hub' := by
  cases e with
  | call peer ask reqId timeout =>
    simp only [step, call] at h
    split at h
    · cases h
    · rename_i hnew
      obtain rfl := Option.some.inj h
      exact .called (by simpa using hnew)
  | out i =>
    simp only [step] at h
    split at h
    · rename_i o ho
      split at h
      · rename_i hs
        obtain rfl := Option.some.inj h
        exact .out ho hs
      · cases h
    · cases h
  | lost i header =>
    simp only [step] at h
    split at h
    · rename_i o ho
      split at h
      · rename_i hs
        have hlive : ∀ r', o.stand ≠ .over r' := by simp [hs]
        split at h
        · obtain rfl := Option.some.inj h
          exact .finished rfl ho _ hlive (by intro data hr; cases hr)
        · split at h
          · obtain rfl := Option.some.inj h
            exact .finished rfl ho _ hlive (by intro data hr; cases hr)
          · cases h
      · cases h
    · cases h
  | raise i =>
    obtain ⟨o, ho, habandon⟩ := Option.bind_eq_some_iff.mp h
    exact abandon_moves ho habandon
  | go i =>
    obtain ⟨o, ho, hgo⟩ := Option.bind_eq_some_iff.mp h
    exact go_moves ho hgo
  | expire i =>
    simp only [step] at h
    split at h
    · rename_i o ho
      split at h
      · rename_i hs
        obtain rfl := Option.some.inj h
        exact .finished rfl ho _ (by simp [hs]) (by intro data hr; cases hr)
      · rename_i f hs
        obtain rfl := Option.some.inj h
        exact .finished rfl ho _ (by simp [hs]) (by intro data hr; cases hr)
      · cases h
    · cases h
  | receive peer msg now =>
    simp only [step] at h
    split at h
    · rename_i hidle
      obtain rfl := Option.some.inj h
      exact .received hidle msg now
    · cases h
  | serve peer sh =>
    simp only [step, serve] at h
    split at h
    · cases h
    · rename_i r hserve
      obtain rfl := Option.some.inj h
      exact .served hserve
  | reply peer =>
    simp only [step, reply] at h
    split at h
    · rename_i reqId m rest hsend
      split at h
      · cases h
      · rename_i hup
        obtain rfl := Option.some.inj h
        exact .replied hsend (by simpa using hup)
    · cases h
  | gone peer =>
    simp only [step, gone] at h
    split at h
    · rename_i reqId m rest hsend
      obtain rfl := Option.some.inj h
      exact .gone hsend
    · cases h
  | write peer i =>
    simp only [step, write] at h
    split at h
    · cases h
    · rename_i m hm
      split at h
      · cases h
      · rename_i hup
        simp only [Bool.or_eq_true, not_or, Bool.not_eq_true] at hup
        split at h
        · rename_i hnone
          obtain rfl := Option.some.inj h
          exact .stopped (Or.inr ⟨i, m, rfl, hup.1, hm, hnone⟩)
        · rename_i msg hfits
          obtain rfl := Option.some.inj h
          obtain rfl := Message.transmit_eq hfits
          exact .wrote hup.1 hm hfits
  | stop peer =>
    obtain rfl := Option.some.inj h
    exact .stopped (Or.inl rfl)
  | join peer =>
    obtain rfl := Option.some.inj h
    exact .joined peer
  | own sh c =>
    obtain rfl := Option.some.inj h
    exact .own sh c _

/-- An event that is not a message opens and extends no buffer and
resolves no future. -/
structure Quiet (hub hub' : Hub K) : Prop where
  heard : hub'.heard = hub.heard
  buffers : hub'.coordinator.buffers.entries.Sublist hub.coordinator.buffers.entries
  calls : ∀ {i : Nat} {o : Outgoing}, hub.calls[i]? = some o →
    ∃ o', hub'.calls[i]? = some o' ∧ o.Kept o'

theorem Quiet.buffer_get (h : hub.Quiet hub') {k : K} {b : Buffer}
    (hb : hub'.coordinator.buffers.get k = some b) : hub.coordinator.buffers.get k = some b := by
  rw [Dict.get_eq_some_iff] at hb ⊢
  exact h.buffers.mem hb

theorem kept_of_set {calls : List Outgoing} {i j : Nat} {o o' x : Outgoing}
    (hi : calls[i]? = some o) (hkept : o.Kept o') (hx : calls[j]? = some x) :
    ∃ x', (calls.set i o')[j]? = some x' ∧ x.Kept x' := by
  by_cases hij : i = j
  · subst hij
    rw [hi] at hx
    obtain rfl := Option.some.inj hx
    have hlt : i < calls.length := (List.getElem?_eq_some_iff.mp hi).1
    exact ⟨o', List.getElem?_set_self hlt, hkept⟩
  · exact ⟨x, by rw [List.getElem?_set_ne hij, hx], .refl x⟩

theorem Move.quiet {e : Event K} (h : hub.Move I e hub') :
    (∃ peer msg now, e = .receive peer msg now ∧ hub' = hub.receive I peer msg now) ∨
      hub.Quiet hub' := by
  have hsame : ∀ {i : Nat} {o : Outgoing}, hub.calls[i]? = some o →
      ∃ o', hub.calls[i]? = some o' ∧ o.Kept o' := fun ho => ⟨_, ho, .refl _⟩
  cases h with
  | called =>
    refine Or.inr ⟨rfl, List.Sublist.refl _, ?_⟩
    intro i o ho
    have hlt : i < hub.calls.length := (List.getElem?_eq_some_iff.mp ho).1
    exact ⟨o, by rw [List.getElem?_append_left hlt, ho], .refl o⟩
  | @out j x hx =>
    right
    unfold Hub.out
    split
    · rename_i hfree
      exact ⟨rfl, List.Sublist.refl _, kept_of_set hx ⟨rfl, rfl, rfl, Or.inr ⟨hfree.1, rfl⟩, rfl⟩⟩
    · exact ⟨rfl, List.Sublist.refl _, kept_of_set hx ⟨rfl, rfl, rfl, Or.inl rfl, rfl⟩⟩
  | pulling hx =>
    exact Or.inr ⟨rfl, List.Sublist.refl _, kept_of_set hx ⟨rfl, rfl, rfl, Or.inl rfl, rfl⟩⟩
  | abandoned hx =>
    exact Or.inr ⟨rfl, List.Sublist.refl _, kept_of_set hx ⟨rfl, rfl, rfl, Or.inl rfl, rfl⟩⟩
  | @finished _ _ o _ hx =>
    refine Or.inr ⟨rfl, ?_, kept_of_set hx ⟨rfl, rfl, rfl, Or.inl rfl, rfl⟩⟩
    unfold finish cleanUp
    cases o.ask with
    | load => exact List.filter_sublist
    | store => exact List.Sublist.refl _
    | free => exact List.Sublist.refl _
  | @received peer _ msg now => exact Or.inl ⟨peer, msg, now, rfl, rfl⟩
  | _ => exact Or.inr ⟨rfl, List.Sublist.refl _, hsame⟩

/-- What holds of a fresh hub and is kept by every move holds in all
reachable states. -/
theorem Reachable.invariant {ok : Hub K → Event K → Prop} {P : Hub K → Prop}
    (start : ∀ {hub : Hub K}, hub.Fresh → P hub)
    (move : ∀ {hub hub' : Hub K} {e : Event K}, P hub → ok hub e → hub.Move I e hub' → P hub')
    (h : Reachable I ok hub) : P hub := by
  induction h with
  | start hfresh => exact start hfresh
  | step _ hok hstep ih => exact move ih hok (step_moves hstep)

end Hub

end Memnode.Replication
