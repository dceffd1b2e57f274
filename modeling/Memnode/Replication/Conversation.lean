/-
Memnode.Replication.Conversation — one request between two nodes.

A `Slice` is everything at one node that concerns one request id: the
entries of the three tables, the handler if it works for the request,
the history, and the queued messages. The state of a request is its call
and the slices of the asking and the serving node, and `Stage` lists the
states it can be in:

* `asking`: the request messages are partly delivered, partly queued,
  partly unsent, and the reassembly buffer holds what was delivered;
* `serving`: all are delivered and the handler is about to call the
  BlockManager;
* `answering`: a verdict is fixed, and the same holds of the reply
  messages, with the pull buffer holding what was delivered;
* `done`.

A refused chunked store is answered while its chunks are still on their
way, so the last two stages allow leftover chunks in the first
direction. The lemmas of this module say how each event moves a request
from stage to stage; none mentions another request.
-/
import Memnode.Replication.Messages

set_option linter.unusedSectionVars false

namespace Memnode.Replication

open Lib Blocks

variable {K : Type} [DecidableEq K] (I : Interpreter K)

/-! ## Slices -/

structure Slice (K : Type) where
  pending : Option Nat
  buffer : Option Buffer
  pull : Option Nat
  handler : Handler K
  log : List (Call K × Outcome)
  queue : List (Int × Message)

/-- Nothing concerns the request. -/
def Slice.empty : Slice K := ⟨none, none, none, .idle, [], []⟩

/-- What a history has about request `k`. -/
def logOf {α : Type} (k : K) (log : List (Value × α)) : List α :=
  (log.filter (fun x => I.key x.1 = some k)).map Prod.snd

def Node.slice (n : Node K) (k : K) : Slice K where
  pending := n.coordinator.pending.get k
  buffer := n.coordinator.buffers.get k
  pull := n.coordinator.pullFutures.get k
  handler := n.handler.about I k
  log := logOf I k n.log
  queue := queueOf I k n.outbox

theorem queueOf_eraseIdx_other {k k' : K} {outbox : List (Int × Message)} {j : Nat}
    {x : Int × Message} (hx : outbox[j]? = some x) (h : reqKey I x.2 = some k) (hne : k' ≠ k) :
    queueOf I k' (outbox.eraseIdx j) = queueOf I k' outbox := by
  conv_rhs => rw [outbox_split hx]
  rw [List.eraseIdx_eq_take_drop_succ]
  simp [queueOf, List.filter_append, h, Ne.symm hne]

/-- **Streams keep their order.** If all messages of a request are on one
stream, the first queued message of that stream is the request's first. -/
theorem queueOf_eraseIdx_self {k : K} {outbox : List (Int × Message)} {j : Nat}
    {x : Int × Message} (hx : outbox[j]? = some x) (h : reqKey I x.2 = some k)
    (hfirst : ((outbox.take j).any (fun y => y.1 = x.1)) = false)
    (hstream : ∀ y ∈ queueOf I k outbox, y.1 = x.1) :
    queueOf I k outbox = x :: queueOf I k (outbox.eraseIdx j) := by
  have hnone : queueOf I k (outbox.take j) = [] := by
    rw [queueOf, List.filter_eq_nil_iff]
    intro y hy hkey
    have hmem : y ∈ queueOf I k outbox :=
      List.mem_filter.mpr ⟨List.mem_of_mem_take hy, hkey⟩
    have hno := List.any_eq_false.mp hfirst y hy
    simp [hstream y hmem] at hno
  conv_lhs => rw [outbox_split hx]
  rw [List.eraseIdx_eq_take_drop_succ]
  simp only [queueOf] at hnone ⊢
  rw [List.filter_append, List.filter_append, hnone]
  simp [h]

/-- The tables differ at request `k` only. -/
def Coordinator.SameExcept (k : K) (c c' : Coordinator K) : Prop :=
  ∀ k', k' ≠ k → c'.pending.get k' = c.pending.get k' ∧ c'.buffers.get k' = c.buffers.get k' ∧
    c'.pullFutures.get k' = c.pullFutures.get k'

/-! ## Verdicts -/

/-- What the serving node decides about a request. -/
inductive Verdict : Request → Type where
  | stored {data : Bytes} {d : Durability} {key : Value}
      (small : data.length ≤ Config.maxBlockSize) (res : Except StoreError BlockId) :
      Verdict (.store data d key)
  | loaded {block : Option BlockId} {key : Option String} (data : Option Bytes) :
      Verdict (.load block key)
  | refused {data : Bytes} {d : Durability} {key : Value}
      (large : Config.maxBlockSize < data.length) : Verdict (.store data d key)

namespace Verdict

/-- The BlockManager calls it comes from. -/
def log : {r : Request} → Verdict r → List (Call K × Outcome)
  | .store data d key, .stored _ res => [(.store ⟨data, d, storeKey I key⟩, .ofStore res)]
  | .load block key, .loaded data => [(loadOf I block key, .loaded data)]
  | _, .refused _ => []

/-- The messages that carry it. -/
def replies (ch : Chunking) (stream : Int) (reqId : String) :
    {r : Request} → Verdict r → List (Int × Message)
  | _, .stored _ res => [onOwnStream (storeReply (.str reqId) res)]
  | _, .loaded data => loadReplies ch stream (.str reqId) data
  | .store data _ _, .refused _ =>
      [onOwnStream (nack (.str reqId) (.str (refusal data.length)))]

/-- What the caller gets. -/
def result : {r : Request} → Verdict r → Result
  | _, .stored _ (.ok b) => .stored (.int b)
  | _, .stored _ (.error e) => .outOfMemory (.str e.message)
  | _, .loaded data => .loaded data
  | .store data _ _, .refused _ => .outOfMemory (.str (refusal data.length))

end Verdict

/-- What a call makes of a reply that is not the header of a transfer. -/
def Request.resultOf : Request → Message → Result
  | .store _ _ _, m => storeResult m
  | .load _ _, m => loadResult m

/-- A reply that settles its request on its own. -/
structure Plain (r : Request) (reqId : String) (result : Result) (m : Message) : Prop where
  about : About reqId m
  notChunk : m.type ≠ .blockChunk
  notAbort : m.type ≠ .streamAbort
  notHeader : ¬ (m.type = .blockData ∧ ((m.get "chunked").getD .nil).truthy = true)
  quiet : announcesChunks m = false
  result : r.resultOf m = result

theorem plain_nack (data : Bytes) (d : Durability) (key : Value) (reqId error : String) :
    Plain (.store data d key) reqId (.outOfMemory (.str error)) (nack (.str reqId) (.str error)) where
  about := about_nack reqId error
  notChunk := by simp [nack, Message.ofFields]
  notAbort := by simp [nack, Message.ofFields]
  notHeader := by simp [nack, Message.ofFields]
  quiet := by simp [announcesChunks, nack, Message.ofFields]
  result := by
    simp [Request.resultOf, storeResult, nack, Message.ofFields, Message.get, Value.record,
      Value.get]

theorem plain_storeReply {data : Bytes} {d : Durability} {key : Value} {reqId : String}
    (small : data.length ≤ Config.maxBlockSize) (res : Except StoreError BlockId) :
    Plain (.store data d key) reqId (.stored small res : Verdict (.store data d key)).result
      (storeReply (.str reqId) res) := by
  cases res with
  | error e => exact plain_nack data d key reqId e.message
  | ok b =>
    refine ⟨about_storeReply reqId (.ok b), ?_, ?_, ?_, ?_, ?_⟩ <;>
      simp [storeReply, Message.ofFields, Message.get, Value.record, Value.get, Value.truthy,
        announcesChunks, Request.resultOf, storeResult, Verdict.result]

/-- The replies to a load: one message, or a header and chunks. -/
theorem loadReplies_cases (ch : Chunking) (stream : Int) (reqId : String)
    (block : Option BlockId) (key : Option String) (data : Option Bytes) :
    (∃ m, loadReplies ch stream (.str reqId) data = [m] ∧
      Plain (.load block key) reqId (.loaded data) m.2) ∨
    ∃ bytes, data = some bytes ∧ 0 < bytes.length ∧
      loadReplies ch stream (.str reqId) data
        = (stream, replyHeader (.str reqId) bytes.length stream)
          :: (chunkFrames ch (.str reqId) stream bytes).map (fun m => (stream, m)) := by
  cases data with
  | none =>
    refine Or.inl ⟨_, rfl, ?_, ?_, ?_, ?_, ?_, ?_⟩ <;>
      simp [About, onOwnStream, Message.ofFields, Message.get, Value.record, Value.get,
        announcesChunks, Request.resultOf, loadResult]
  | some bytes =>
    by_cases hsmall : bytes.length ≤ ch.chunkThreshold
    · left
      simp only [loadReplies, hsmall, if_true]
      refine ⟨_, rfl, ?_, ?_, ?_, ?_, ?_, ?_⟩ <;>
        simp [About, onOwnStream, Message.ofFields, Message.get, Value.record, Value.get,
          Value.truthy, announcesChunks, Request.resultOf, loadResult, extractPayload]
    · right
      refine ⟨bytes, rfl, by omega, ?_⟩
      simp only [loadReplies, hsmall, if_false, List.map_cons]

theorem announces_replyHeader (reqId : Value) (total : Nat) (stream : Int) :
    announcesChunks (replyHeader reqId total stream) = true := by
  simp [announcesChunks, replyHeader, Message.ofFields, Message.get, Value.record, Value.get,
    Value.truthy]

/-- Every verdict is carried by one plain message or by a transfer. -/
theorem Verdict.replies_cases {r : Request} (v : Verdict r) (ch : Chunking) (stream : Int)
    (reqId : String) :
    (∃ m, v.replies ch stream reqId = [m] ∧ Plain r reqId v.result m.2) ∨
    ∃ bytes, (∃ block key, r = .load block key) ∧ v.result = .loaded (some bytes) ∧
      0 < bytes.length ∧
      v.replies ch stream reqId = (stream, replyHeader (.str reqId) bytes.length stream)
        :: (chunkFrames ch (.str reqId) stream bytes).map (fun m => (stream, m)) := by
  cases v with
  | stored small res => exact Or.inl ⟨_, rfl, plain_storeReply small res⟩
  | @refused data d key large => exact Or.inl ⟨_, rfl, plain_nack data d key reqId _⟩
  | @loaded block key data =>
    rcases loadReplies_cases ch stream reqId block key data with ⟨m, hm, hplain⟩ |
      ⟨bytes, rfl, hpos, hreplies⟩
    · exact Or.inl ⟨m, hm, hplain⟩
    · exact Or.inr ⟨bytes, ⟨block, key, rfl⟩, rfl, hpos, hreplies⟩

theorem Verdict.replies_ne_nil {r : Request} (v : Verdict r) (ch : Chunking) (stream : Int)
    (reqId : String) : v.replies ch stream reqId ≠ [] := by
  rcases v.replies_cases ch stream reqId with ⟨m, hm, _⟩ | ⟨bytes, _, _, _, hm⟩ <;> simp [hm]

/-! ## Stages -/

/-- What a call has still to send. -/
def Phase.unsent : Phase → Option (List (Int × Message))
  | .send _ m rest => some (m :: rest)
  | .awaitReply => some []
  | _ => none

theorem Phase.unsent_afterSend (rest : List (Int × Message)) :
    (Phase.afterSend rest).unsent = some rest := by
  cases rest <;> rfl

theorem Phase.eq_awaitReply {p : Phase} (h : p.unsent = some []) : p = .awaitReply := by
  cases p <;> simp_all [Phase.unsent]

/-- The buffer holds what the chunk messages `ms` carried. -/
structure Buffer.Holds (b : Buffer) (mode : Mode) (total : Nat) (ms : List Message) : Prop where
  mode : b.mode = mode
  total : b.totalSize = .int total
  parts : b.assemble = payloads ms
  received : b.received = (payloads ms).length

theorem Buffer.holds_new (mode : Mode) (total : Nat) (peer : String) (now : Rat) :
    (Buffer.new mode (.int total) peer now).Holds mode total [] := ⟨rfl, rfl, rfl, rfl⟩

theorem Buffer.Holds.add {b : Buffer} {mode : Mode} {total : Nat} {ms : List Message}
    (h : b.Holds mode total ms) (m : Message) :
    (b.add (payload m)).Holds mode total (ms ++ [m]) where
  mode := h.mode
  total := h.total
  parts := by
    have hparts : b.parts.flatten = payloads ms := h.parts
    simp [Buffer.add, Buffer.assemble, hparts]
  received := by simp [Buffer.add, h.received]

/-- The reassembly buffer of a request after the messages `got`. -/
inductive Incoming : Request → List Message → Option Buffer → Prop where
  | nothing {r : Request} : Incoming r [] none
  | header {data : Bytes} {d : Durability} {key : Value} {m : Message}
      {chunks : List Message} {b : Buffer} (small : data.length ≤ Config.maxBlockSize)
      (holds : b.Holds (.store (durabilityValue d) key) data.length chunks) :
      Incoming (.store data d key) (m :: chunks) (some b)

/-- The handler that is about to call the BlockManager for a request. -/
def Request.work (reqId : String) (transfer : Bool) : Request → Handler K
  | .store data d key => .store (.str reqId) transfer data d (keyArgument I key)
  | .load block key => .load (.str reqId) (some (loadOf I block key))

/-- The block is not too large to be stored. -/
def Request.Storable : Request → Prop
  | .store data _ _ => data.length ≤ Config.maxBlockSize
  | .load _ _ => True

/-- Chunk messages of a request on one stream. -/
def Leftover (reqId : String) (ms : List (Int × Message)) : Prop :=
  ∃ stream : Int, ∀ x ∈ ms, ∃ seq piece final,
    x = (stream, chunkFrame (.str reqId) stream seq piece final)

/-- The futures and tables of call `i` after the replies `got`, with
`rest` still to come: `pending`, `buffer` and `pull` are its entries in
the three tables. -/
inductive Heard (i : Nat) (c : RemoteCall) (result : Result) :
    List (Int × Message) → List (Int × Message) → Option Nat → Option Buffer → Option Nat →
    Prop where
  | nothing {rest : List (Int × Message)} (noReply : c.reply = none) (noPull : c.pull = none) :
      Heard i c result [] rest (some i) none none
  | reply {m : Int × Message} (plain : Plain c.request c.reqId result m.2)
      (hasReply : c.reply = some m.2) (noPull : c.pull = none) :
      Heard i c result [m] [] none none none
  | header {bytes : Bytes} {m : Int × Message} {chunks rest : List (Int × Message)} {b : Buffer}
      (isLoad : ∃ block key, c.request = .load block key)
      (hresult : result = .loaded (some bytes)) (announces : announcesChunks m.2 = true)
      (hasReply : c.reply = some m.2) (noPull : c.pull = none) (left : rest ≠ [])
      (holds : b.Holds (.pull i) bytes.length (chunks.map Prod.snd)) :
      Heard i c result (m :: chunks) rest none (some b) (some i)
  | all {bytes : Bytes} {m : Int × Message} {chunks : List (Int × Message)}
      (isLoad : ∃ block key, c.request = .load block key)
      (hresult : result = .loaded (some bytes)) (announces : announcesChunks m.2 = true)
      (hasReply : c.reply = some m.2) (hasPull : c.pull = some (.ok bytes)) :
      Heard i c result (m :: chunks) [] none none (some i)

/-- The states of request `i` of a node with chunking `chS`, at a node
with chunking `chT`: the call, and the slices of the two nodes. -/
inductive Stage (chS chT : Chunking) (i : Nat) : RemoteCall → Slice K → Slice K → Prop where
  | asking {c : RemoteCall} {stream : Int} {got queued unsent : List (Int × Message)}
      {buffer : Option Buffer}
      (messages : c.request.header chS stream c.reqId :: c.request.chunks chS stream c.reqId
        = got ++ (queued ++ unsent))
      (left : queued ++ unsent ≠ []) (phase : c.phase.unsent = some unsent)
      (noReply : c.reply = none) (noPull : c.pull = none)
      (incoming : Incoming c.request (got.map Prod.snd) buffer) :
      Stage chS chT i c ⟨some i, none, none, .idle, [], queued⟩
        ⟨none, buffer, none, .idle, [], []⟩
  | serving {c : RemoteCall} {transfer : Bool} (phase : c.phase = .awaitReply)
      (noReply : c.reply = none) (noPull : c.pull = none) (storable : c.request.Storable) :
      Stage chS chT i c ⟨some i, none, none, .idle, [], []⟩
        ⟨none, none, none, c.request.work I c.reqId transfer, [], []⟩
  | answering {c : RemoteCall} (v : Verdict c.request) {stream : Int}
      {queued unsent got replies outs : List (Int × Message)} {pending pull : Option Nat}
      {buffer : Option Buffer} (leftover : Leftover c.reqId (queued ++ unsent))
      (phase : c.phase.unsent = some unsent ∨
        (unsent = [] ∧ c.phase = .awaitPull i ∧ pull = some i))
      (messages : v.replies chT stream c.reqId = got ++ (replies ++ outs))
      (heard : Heard i c v.result got (replies ++ outs) pending buffer pull) :
      Stage chS chT i c ⟨pending, buffer, pull, .idle, [], queued⟩
        ⟨none, none, none, .sending (.str c.reqId) outs, v.log I, replies⟩
  | done {c : RemoteCall} (v : Verdict c.request) {queued : List (Int × Message)}
      (leftover : Leftover c.reqId queued) (phase : c.phase = .done v.result) :
      Stage chS chT i c ⟨none, none, none, .idle, [], queued⟩
        ⟨none, none, none, .idle, v.log I, []⟩

end Memnode.Replication
