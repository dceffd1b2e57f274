/-
Memnode.Replication.Messages — what the coordinator does with each
message an honest node sends.

First the chunks: `_send_chunks` cuts the data so that the pieces
concatenate to it and exactly the last one is flagged final
(`chunkFrames_split`). Then one equation of `handleMessage` for each kind
of message, under the conditions in which the protocol delivers it. The
proofs about runs use these equations and never unfold a handler.
-/
import Memnode.Replication.Network

namespace Memnode.Replication

open Lib Blocks

variable {K : Type} [DecidableEq K] (I : Interpreter K)

/-! ## Chunks -/

/-- The number of chunks: `j` is the number of one exactly when its
offset is inside the data. -/
theorem lt_chunkCount (ch : Chunking) (total j : Nat) :
    j < (total + ch.chunkSize - 1) / ch.chunkSize ↔ j * ch.chunkSize < total := by
  have hpos := ch.chunkSize_pos
  rw [Nat.lt_div_iff_mul_lt hpos]
  omega

/-- The bytes of a chunk message. -/
def payload (m : Message) : Bytes :=
  match m.body with
  | .map body => (extractPayload body "chunk").getD []
  | _ => []

/-- The bytes of a list of chunk messages. -/
def payloads (ms : List Message) : Bytes := (ms.map payload).flatten

@[simp] theorem payloads_nil : payloads [] = [] := rfl

@[simp] theorem payloads_cons (m : Message) (ms : List Message) :
    payloads (m :: ms) = payload m ++ payloads ms := rfl

@[simp] theorem payloads_append (ms ms' : List Message) :
    payloads (ms ++ ms') = payloads ms ++ payloads ms' := by
  simp [payloads]

@[simp] theorem payload_chunkFrame (reqId : Value) (stream : Int) (seq : Nat) (piece : Bytes)
    (final : Bool) : payload (chunkFrame reqId stream seq piece final) = piece := by
  simp [payload, chunkFrame, Message.ofFields, Value.record, extractPayload, Value.get]

/-- The first `j` chunks carry the first `j * chunkSize` bytes. -/
theorem payloads_range (ch : Chunking) (reqId : Value) (stream : Int) (data : Bytes) (j : Nat) :
    payloads ((List.range j).map (chunkAt ch reqId stream data))
      = data.take (j * ch.chunkSize) := by
  induction j with
  | zero => simp
  | succ j ih =>
    rw [List.range_succ, List.map_append, payloads_append, ih, Nat.succ_mul, List.take_add]
    simp [chunkAt]

theorem payloads_chunkFrames (ch : Chunking) (reqId : Value) (stream : Int) (data : Bytes) :
    payloads (chunkFrames ch reqId stream data) = data := by
  rw [chunkFrames, payloads_range]
  apply List.take_of_length_le
  have h := lt_chunkCount ch data.length ((data.length + ch.chunkSize - 1) / ch.chunkSize)
  omega

theorem chunkFrames_ne_nil (ch : Chunking) (reqId : Value) (stream : Int) {data : Bytes}
    (h : 0 < data.length) : chunkFrames ch reqId stream data ≠ [] := by
  intro hnil
  have hflat := payloads_chunkFrames ch reqId stream data
  rw [hnil, payloads_nil] at hflat
  rw [← hflat] at h
  exact absurd h (by simp)

/-- **Chunks line up.** Each message of a transfer is a chunk message,
final exactly when no message follows, and the bytes before it, its own
and those after it are the data. -/
theorem chunkFrames_split {ch : Chunking} {reqId : Value} {stream : Int} {data : Bytes}
    {before after : List Message} {m : Message}
    (h : chunkFrames ch reqId stream data = before ++ m :: after) :
    ∃ seq piece, m = chunkFrame reqId stream seq piece after.isEmpty ∧
      payloads before ++ piece ++ payloads after = data := by
  have hpos := ch.chunkSize_pos
  have hat : (chunkFrames ch reqId stream data)[before.length]? = some m := by
    rw [h]
    simp
  have hlen : (chunkFrames ch reqId stream data).length = before.length + after.length + 1 := by
    rw [h]
    simp
    omega
  simp only [chunkFrames, List.length_map, List.length_range] at hlen
  have hlt : before.length < (data.length + ch.chunkSize - 1) / ch.chunkSize := by omega
  have hm : m = chunkAt ch reqId stream data before.length := by
    simp only [chunkFrames, List.getElem?_map, List.getElem?_range hlt, Option.map_some,
      Option.some.injEq] at hat
    exact hat.symm
  have hin := (lt_chunkCount ch data.length before.length).mp hlt
  have hnext := lt_chunkCount ch data.length (before.length + 1)
  have hfinal : decide (before.length * ch.chunkSize
      + ((data.drop (before.length * ch.chunkSize)).take ch.chunkSize).length ≥ data.length)
      = after.isEmpty := by
    rw [Bool.eq_iff_iff, decide_eq_true_iff, List.isEmpty_iff_length_eq_zero, List.length_take,
      List.length_drop]
    rw [Nat.succ_mul] at hnext
    omega
  refine ⟨before.length, (data.drop (before.length * ch.chunkSize)).take ch.chunkSize, ?_, ?_⟩
  · rw [hm, ← hfinal]
    rfl
  · have hall := payloads_chunkFrames ch reqId stream data
    rw [h, payloads_append, payloads_cons, hm] at hall
    simpa [chunkAt] using hall

/-! ## Request ids -/

/-- The request id of a message, as a dictionary key. -/
def reqKey (m : Message) : Option K := I.key ((m.get "req_id").getD .nil)

/-- The message belongs to the request with this id. -/
def About (reqId : String) (m : Message) : Prop := m.get "req_id" = some (.str reqId)

omit [DecidableEq K] in
theorem About.key {reqId : String} {m : Message} (h : About reqId m) :
    reqKey I m = some (I.strKey reqId) := by
  rw [reqKey, h, Option.getD_some, I.key_str]

/-- The handler, if it works for request `k`. -/
def Handler.about (k : K) (h : Handler K) : Handler K :=
  match h.reqId with
  | none => .idle
  | some reqId => if I.key reqId = some k then h else .idle

/-- The queued messages of request `k`. -/
def queueOf (k : K) (outbox : List (Int × Message)) : List (Int × Message) :=
  outbox.filter (fun x => reqKey I x.2 = some k)

@[simp] theorem about_idle (k : K) : (Handler.idle : Handler K).about I k = .idle := rfl

theorem about_self {k : K} {h : Handler K} {reqId : Value} (hid : h.reqId = some reqId)
    (hk : I.key reqId = some k) : h.about I k = h := by
  simp [Handler.about, hid, hk]

/-- A handler that works for this request, if for any. -/
theorem about_of_reqId {h : Handler K} {reqId : Value}
    (hid : h.reqId = none ∨ h.reqId = some reqId) (k : K) :
    h.about I k = if I.key reqId = some k then h else .idle := by
  rcases hid with hnone | hsome
  · cases h <;> first | exact (ite_self _).symm | cases hnone
  · rw [Handler.about, hsome]

theorem about_other {k k' : K} {h : Handler K} {reqId : Value} (hid : h.reqId = some reqId)
    (hk : I.key reqId = some k) (hne : k' ≠ k) : h.about I k' = .idle := by
  simp [Handler.about, hid, hk, Ne.symm hne]

theorem queueOf_append_self {k : K} {x : Int × Message} (h : reqKey I x.2 = some k)
    (outbox : List (Int × Message)) : queueOf I k (outbox ++ [x]) = queueOf I k outbox ++ [x] := by
  simp [queueOf, List.filter_append, h]

theorem queueOf_append_other {k k' : K} {x : Int × Message} (h : reqKey I x.2 = some k)
    (hne : k' ≠ k) (outbox : List (Int × Message)) :
    queueOf I k' (outbox ++ [x]) = queueOf I k' outbox := by
  simp [queueOf, List.filter_append, h, Ne.symm hne]

/-- A message out of the middle of the outbox. -/
theorem outbox_split {outbox : List (Int × Message)} {j : Nat} {x : Int × Message}
    (h : outbox[j]? = some x) :
    outbox = outbox.take j ++ x :: outbox.drop (j + 1) := by
  obtain ⟨hlt, hx⟩ := List.getElem?_eq_some_iff.mp h
  rw [← hx, ← List.drop_eq_getElem_cons hlt, List.take_append_drop]

theorem about_chunkFrame (reqId : String) (stream : Int) (seq : Nat) (piece : Bytes)
    (final : Bool) : About reqId (chunkFrame (.str reqId) stream seq piece final) := by
  simp [About, chunkFrame, Message.ofFields, Message.get, Value.record, Value.get]

theorem about_nack (reqId : String) (error : String) :
    About reqId (nack (.str reqId) (.str error)) := by
  simp [About, nack, Message.ofFields, Message.get, Value.record, Value.get]

theorem about_storeFrame (reqId : String) (data : Bytes) (d : Durability) (key : Value) :
    About reqId (storeFrame reqId data d key) := by
  cases hkey : notNone key <;>
    simp [About, storeFrame, optional, hkey, Message.ofFields, Message.get, Value.record, Value.get]

theorem about_storeHeader (reqId : String) (total : Nat) (d : Durability) (key : Value)
    (stream : Int) : About reqId (storeHeader reqId total d key stream) := by
  cases hkey : notNone key <;>
    simp [About, storeHeader, optional, hkey, Message.ofFields, Message.get, Value.record, Value.get]

theorem about_requestFrame (reqId : String) (block : Option BlockId) (key : Option String) :
    About reqId (requestFrame reqId block key) := by
  cases block <;> cases key <;>
    simp [About, requestFrame, optional, Message.ofFields, Message.get, Value.record, Value.get]

theorem about_storeReply (reqId : String) (res : Except StoreError BlockId) :
    About reqId (storeReply (.str reqId) res) := by
  cases res with
  | error e => exact about_nack reqId e.message
  | ok b => simp [About, storeReply, Message.ofFields, Message.get, Value.record, Value.get]

theorem about_replyHeader (reqId : String) (total : Nat) (stream : Int) :
    About reqId (replyHeader (.str reqId) total stream) := by
  simp [About, replyHeader, Message.ofFields, Message.get, Value.record, Value.get]

/-! ## Requests -/

/-- The BlockManager call a load stands for. -/
def loadOf (block : Option BlockId) (key : Option String) : Call K :=
  match block, key with
  | some b, _ => .load b
  | none, some k => .loadByKey (I.strKey k)
  | none, none => .loadByKey I.noneKey

theorem handle_requestFrame (now : Rat) {c : Coordinator K} (peer reqId : String)
    (block : Option BlockId) (key : Option String) (hnew : c.pending.get (I.strKey reqId) = none) :
    handleMessage I now c peer (requestFrame reqId block key)
      = ⟨c, [], .load (.str reqId) (some (loadOf I block key))⟩ := by
  cases block <;> cases key <;>
    simp [handleMessage, requestFrame, optional, Message.ofFields, Value.record, Value.get,
      I.key_str, I.key_nil, pendingFuture, hnew, handleRequest, loadCall, loadOf, Value.asInt]

/-- The key of a store, if it has a hash. -/
def storeKey : Value → Option K
  | .nil => none
  | key => I.key key

omit [DecidableEq K] in
theorem keyArgument_of_hashable {data : Bytes} {d : Durability} {key : Value}
    (h : (Request.store data d key).hashable I = true) :
    keyArgument I key = .ok (storeKey I key) := by
  cases key with
  | nil => rfl
  | _ =>
    obtain ⟨k, hk⟩ := Option.isSome_iff_exists.mp h
    simp [keyArgument, storeKey, hk]

theorem notNone_cases (v : Value) : (v = .nil ∧ notNone v = none) ∨ notNone v = some v := by
  cases v <;> simp [notNone]

theorem handle_storeFrame (now : Rat) {c : Coordinator K} (peer reqId : String) (data : Bytes)
    (d : Durability) (key : Value) (hnew : c.pending.get (I.strKey reqId) = none) :
    handleMessage I now c peer (storeFrame reqId data d key)
      = ⟨c, [], .store (.str reqId) false data d (keyArgument I key)⟩ := by
  rcases notNone_cases key with ⟨rfl, hkey⟩ | hkey <;>
    simp [handleMessage, storeFrame, optional, hkey, Message.ofFields, Value.record, Value.get,
      I.key_str, pendingFuture, hnew, handleRequest, Value.truthy, serveStoreFrame, extractPayload,
      durabilityOf_value]

/-- A block in a single frame is smaller than the frame. -/
theorem storeFrame_length {P : Packer} {reqId : String} {data : Bytes} {d : Durability} {key : Value}
    (h : (storeFrame reqId data d key).transmit P ≠ none) :
    data.length + Message.frameOverhead ≤ Config.maxFrameSize := by
  obtain ⟨m, hm⟩ := Option.ne_none_iff_exists'.mp h
  have hmem : ("data", Msgpack.Value.bin data)
      ∈ [("req_id", Msgpack.Value.str reqId), ("durability", durabilityValue d)]
        ++ optional "key" (notNone key) ++ [("data", .bin data)] := by
    simp
  exact Message.bin_length_le rfl hmem hm

/-- Nothing is stale. -/
theorem gcBuffers_eq {now : Rat} {c : Coordinator K}
    (h : ∀ e ∈ c.buffers.entries, e.2.stale now = false) : gcBuffers I now c = (c, [], true) := by
  have hnone : c.buffers.entries.filter (fun e => e.2.stale now) = [] := by
    rw [List.filter_eq_nil_iff]
    intro e he
    simp [h e he]
  simp [gcBuffers, hnone, dropStale]

theorem handle_storeHeader {now : Rat} {c : Coordinator K} (peer reqId : String) {total : Nat}
    (d : Durability) (key : Value) (stream : Int)
    (hnew : c.pending.get (I.strKey reqId) = none) (hpos : 0 < total)
    (hle : total ≤ Config.maxBlockSize) (hgc : ∀ e ∈ c.buffers.entries, e.2.stale now = false)
    (hroom : c.buffers.size < Config.maxInboundStreams) :
    handleMessage I now c peer (storeHeader reqId total d key stream)
      = ⟨{ c with
            buffers := c.buffers.set (I.strKey reqId)
              (.new (.store (durabilityValue d) key) (.int total) peer now) },
          [], .idle⟩ := by
  have hok : acceptable (.int total) = true := by
    simp only [acceptable, Value.asInt, decide_eq_true_eq]
    omega
  have hcap : ¬ Config.maxInboundStreams ≤ c.buffers.size := Nat.not_le_of_lt hroom
  rcases notNone_cases key with ⟨rfl, hkey⟩ | hkey <;>
    simp [handleMessage, storeHeader, optional, hkey, Message.ofFields, Value.record, Value.get,
      I.key_str, pendingFuture, hnew, handleRequest, Value.truthy, serveStoreHeader, hok,
      gcBuffers_eq I hgc, hcap]

/-- The text of a refused header. -/
def refusal (total : Nat) : String :=
  s!"declared transfer size {total} is not acceptable"

theorem handle_storeHeader_refused (now : Rat) {c : Coordinator K} (peer reqId : String)
    {total : Nat} (d : Durability) (key : Value) (stream : Int)
    (hnew : c.pending.get (I.strKey reqId) = none) (hlt : Config.maxBlockSize < total) :
    handleMessage I now c peer (storeHeader reqId total d key stream)
      = ⟨c, [], .sending (.str reqId)
          [onOwnStream (nack (.str reqId) (.str (refusal total)))]⟩ := by
  have hno : acceptable (.int total) = false := by
    simp only [acceptable, Value.asInt, decide_eq_false_iff_not]
    omega
  have hserve : ∀ body, Value.get body "total_size" = some (.int total) →
      serveStoreHeader I now c peer (.str reqId) (I.strKey reqId) body
        = ⟨c, [], .sending (.str reqId)
            [onOwnStream (nack (.str reqId) (.str (refusal total)))]⟩ := by
    intro body hbody
    unfold serveStoreHeader refusal
    rw [hbody]
    simp only [Option.getD_some]
    rw [hno, I.str_int]
    exact if_pos rfl
  cases hkey : notNone key <;>
    simp only [handleMessage, storeHeader, optional, hkey, Message.ofFields, Value.record, Value.get,
      List.append_nil, List.cons_append, List.nil_append,
      List.map_cons, List.map_nil, List.reverse_cons, List.reverse_nil, List.find?_cons] <;>
    simp [I.key_str, pendingFuture, hnew, handleRequest, Value.truthy] <;>
    exact hserve _ (by simp [Value.get])

/-! ## Chunks of an open transfer -/

theorem handle_chunk_unknown (now : Rat) {c : Coordinator K} (peer : String) {reqId : String}
    (stream : Int) (seq : Nat) (piece : Bytes) (final : Bool) (hid : reqId ≠ "")
    (hnone : c.buffers.get (I.strKey reqId) = none) :
    handleMessage I now c peer (chunkFrame (.str reqId) stream seq piece final) = .ended c := by
  simp [handleMessage, chunkFrame, Message.ofFields, Value.record, Value.get, handleChunk,
    Value.truthy, hid, I.key_str, hnone]

/-- A chunk within the declared size. -/
theorem handle_chunk (now : Rat) {c : Coordinator K} (peer : String) {reqId : String}
    (stream : Int) (seq : Nat) {piece : Bytes} (final : Bool) {b : Buffer} {total : Nat}
    (hid : reqId ≠ "") (hb : c.buffers.get (I.strKey reqId) = some b)
    (htotal : b.totalSize = .int total) (hle : b.received + piece.length ≤ total) :
    handleMessage I now c peer (chunkFrame (.str reqId) stream seq piece final)
      = if final then
          completeTransfer I { c with buffers := c.buffers.erase (I.strKey reqId) } (.str reqId)
            (b.add piece)
        else .ended { c with buffers := c.buffers.set (I.strKey reqId) (b.add piece) } := by
  have hfits : (b.add piece).overrun I = some false := by
    have hno : ¬ total < b.received + piece.length := Nat.not_lt_of_le hle
    simp only [Buffer.overrun, Buffer.add, htotal, Option.some.injEq, decide_eq_false_iff_not]
    exact_mod_cast hno
  simp [handleMessage, chunkFrame, Message.ofFields, Value.record, Value.get, handleChunk,
    Value.truthy, hid, I.key_str, hb, extractPayload, hfits]

/-! ## Replies -/

/-- A reply that is not the header of a chunked transfer. -/
theorem handle_reply (now : Rat) {c : Coordinator K} (peer : String) {reqId : String} {m : Message}
    {f : Nat} (habout : About reqId m) (hpend : c.pending.get (I.strKey reqId) = some f)
    (hchunk : m.type ≠ .blockChunk) (habort : m.type ≠ .streamAbort)
    (hplain : ¬ (m.type = .blockData ∧ ((m.get "chunked").getD .nil).truthy = true)) :
    handleMessage I now c peer m
      = ⟨{ c with pending := c.pending.erase (I.strKey reqId) }, [(f, .reply m)], .idle⟩ := by
  have hreply : handleReply I now c peer (I.strKey reqId) f m
      = ⟨{ c with pending := c.pending.erase (I.strKey reqId) }, [(f, .reply m)], .idle⟩ := by
    rw [handleReply, if_neg hplain]
  obtain ⟨type, body⟩ := m
  cases body with
  | map fields =>
    have hget : Value.get fields "req_id" = some (.str reqId) := habout
    cases type <;>
      first
        | exact absurd rfl hchunk
        | exact absurd rfl habort
        | simp [handleMessage, hget, I.key_str, pendingFuture, hpend] at hreply ⊢
          exact hreply
  | _ => cases habout

theorem handle_replyHeader {now : Rat} {c : Coordinator K} (peer : String) {reqId : String}
    (total : Nat) (stream : Int) {f : Nat} (hpend : c.pending.get (I.strKey reqId) = some f)
    (hgc : ∀ e ∈ c.buffers.entries, e.2.stale now = false) :
    handleMessage I now c peer (replyHeader (.str reqId) total stream)
      = ⟨{ c with
            buffers := c.buffers.set (I.strKey reqId) (.new (.pull f) (.int total) peer now)
            pullFutures := c.pullFutures.set (I.strKey reqId) f
            pending := c.pending.erase (I.strKey reqId) },
          [(f, .reply (replyHeader (.str reqId) total stream))], .idle⟩ := by
  simp [handleMessage, replyHeader, Message.ofFields, Value.record, Value.get, I.key_str,
    pendingFuture, hpend, handleReply, Message.get, Value.truthy, gcBuffers_eq I hgc]

end Memnode.Replication
