/-
Memnode.Replication.Effects — everything one message can do to the
tables of the coordinator.

`Messages` has an equation for each message an honest node sends. Here
the sender is anybody and the body any decoded object, so `Effect` lists
the outcomes instead: a message leaves the tables alone, drops stale
buffers, answers a pending request, opens a buffer for a pull or a push,
or ends, extends, overruns or completes the buffer its request id names.
Each outcome carries the conditions under which the source reaches it.
`handleMessage_effect` says there are no others; every invariant of the
coordinator is a case analysis over `Effect` and never unfolds a handler.
-/
import Memnode.Replication.Messages

namespace Memnode.Replication

open Lib Blocks

variable {K : Type} [DecidableEq K] (I : Interpreter K)

/-! ## Reading a message -/

/-- `msg.body.get("req_id")`. -/
def reqIdOf (msg : Message) : Value := (msg.get "req_id").getD .nil

/-- `msg.body.get("total_size", 0)`. -/
def totalSizeOf (msg : Message) : Value := (msg.get "total_size").getD (.int 0)

/-- `msg.body.get("chunked")`, as a condition. -/
def isChunked (msg : Message) : Bool := ((msg.get "chunked").getD .nil).truthy

/-- `msg.body.get("final")`, as a condition. -/
def isFinal (msg : Message) : Bool := ((msg.get "final").getD .nil).truthy

/-- `extract_payload(msg.body, "chunk")`. -/
def chunkOf (msg : Message) : Option Bytes :=
  match msg.body with
  | .map body => extractPayload body "chunk"
  | _ => none

/-- The `meta` of a push. -/
def pushMode (msg : Message) : Mode :=
  .store ((msg.get "durability").getD (durabilityValue .cache)) ((msg.get "key").getD .nil)

section Fields

variable {msg : Message} {body : List (Msgpack.Key × Value)} (hbody : msg.body = .map body)

include hbody

theorem reqId_eq : (Value.get body "req_id").getD .nil = reqIdOf msg := by
  simp [reqIdOf, Message.get, hbody]

theorem totalSize_eq : (Value.get body "total_size").getD (.int 0) = totalSizeOf msg := by
  simp [totalSizeOf, Message.get, hbody]

theorem isChunked_eq : ((Value.get body "chunked").getD .nil).truthy = isChunked msg := by
  simp [isChunked, Message.get, hbody]

theorem isFinal_eq : ((Value.get body "final").getD .nil).truthy = isFinal msg := by
  simp [isFinal, Message.get, hbody]

theorem chunkOf_eq : extractPayload body "chunk" = chunkOf msg := by
  simp [chunkOf, hbody]

theorem pushMode_eq :
    Mode.store ((Value.get body "durability").getD (durabilityValue .cache))
      ((Value.get body "key").getD .nil) = pushMode msg := by
  simp [pushMode, Message.get, hbody]

end Fields

/-- The message answers the pending request with future `f`. -/
structure Answers (c : Coordinator K) (msg : Message) (k : K) (f : Nat) : Prop where
  type : msg.type ≠ .blockChunk ∧ msg.type ≠ .streamAbort
  named : reqIdOf msg ≠ .nil
  key : I.key (reqIdOf msg) = some k
  pending : c.pending.get k = some f

/-- The message is the header of a chunked answer. -/
structure PullHeader (c : Coordinator K) (msg : Message) (k : K) (f : Nat) : Prop extends
    Answers I c msg k f where
  data : msg.type = .blockData
  chunked : isChunked msg = true

/-- The message is the header of a chunked push of an acceptable size. -/
structure PushHeader (c : Coordinator K) (msg : Message) (k : K) : Prop where
  type : msg.type = .storeBlock
  key : I.key (reqIdOf msg) = some k
  fresh : pendingFuture c (reqIdOf msg) k = none
  chunked : isChunked msg = true
  size : acceptable (totalSizeOf msg) = true

/-- The message is a chunk for the open buffer `b`. -/
structure ChunkFor (c : Coordinator K) (msg : Message) (k : K) (b : Buffer) : Prop where
  type : msg.type = .blockChunk
  named : (reqIdOf msg).truthy = true
  key : I.key (reqIdOf msg) = some k
  buffer : c.buffers.get k = some b

/-- The message ends the open buffer `b`: an abort, or a chunk without a
payload. -/
structure Ends (c : Coordinator K) (msg : Message) (k : K) (b : Buffer) : Prop where
  cause : msg.type = .streamAbort ∨
    (msg.type = .blockChunk ∧ (reqIdOf msg).truthy = true ∧ chunkOf msg = none)
  named : reqIdOf msg ≠ .nil
  key : I.key (reqIdOf msg) = some k
  buffer : c.buffers.get k = some b

/-- The message runs `_gc_buffers`. -/
def Collects (c : Coordinator K) (msg : Message) : Prop :=
  (∃ k f, PullHeader I c msg k f) ∨ ∃ k, PushHeader I c msg k

/-! ## Outcomes -/

/-- A handler that does not commit a transfer. -/
def Handler.Plain (next : Handler K) : Prop :=
  ∀ reqId data d key, next ≠ .store reqId true data d key

/-- A handler only sends messages with the request id it works for. -/
def Handler.Names (next : Handler K) : Prop :=
  ∀ reqId m rest, next = .send reqId m rest → ∀ x ∈ m :: rest, reqIdOf x.2 = reqId

/-- The types of message that `handle_message` serves. -/
def isRequest (msg : Message) : Bool :=
  msg.type ∈ [.storeBlock, .requestBlock, .freeBlock, .ping]

/-- A handler that serves a request, if it has anything to do. -/
structure Handler.Starts (msg : Message) (next : Handler K) : Prop where
  plain : next.Plain
  names : next.Names
  request : next = .idle ∨ (isRequest msg = true ∧ next.reqId = some (reqIdOf msg))

/-- What is left to do when buffer `b` has exceeded its declared size. -/
def afterOverrun (c : Coordinator K) (reqId : Value) (k : K) (b : Buffer) : Handled K :=
  if I.sliceable k then
    match b.mode with
    | .store _ _ =>
        ⟨{ c with buffers := c.buffers.erase k }, [],
          .sending reqId [onOwnStream (nack reqId (.str "chunk overrun"))]⟩
    | .pull f => ⟨{ c with buffers := c.buffers.erase k }, [(f, .pullFailed .overran)], .idle⟩
  else .ended { c with buffers := c.buffers.erase k }

@[simp] theorem afterOverrun_coordinator (c : Coordinator K) (reqId : Value) (k : K) (b : Buffer) :
    (afterOverrun I c reqId k b).coordinator = { c with buffers := c.buffers.erase k } := by
  unfold afterOverrun
  split
  · split <;> rfl
  · rfl

omit [DecidableEq K] in
@[simp] theorem completeTransfer_coordinator (c : Coordinator K) (reqId : Value) (b : Buffer) :
    (completeTransfer I c reqId b).coordinator = c := by
  unfold completeTransfer
  split
  · rfl
  · split <;> rfl

/-- What a message can come to. -/
inductive Effect (now : Rat) (c : Coordinator K) (peer : String) (msg : Message) :
    Handled K → Prop where
  /-- the tables stay as they are -/
  | quiet (next : Handler K) (hnext : next.Starts msg) : Effect now c peer msg ⟨c, [], next⟩
  /-- stale buffers go; the message then raised or was refused -/
  | collected (hc : Collects I c msg) {c' : Coordinator K} {rs : List (Nat × Resolution)}
      {ok : Bool} (hgc : gcBuffers I now c = (c', rs, ok)) (next : Handler K)
      (hnext : next.Starts msg) : Effect now c peer msg ⟨c', rs, next⟩
  /-- a request of ours has its answer -/
  | answered {k : K} {f : Nat} (ha : Answers I c msg k f)
      (hplain : ¬ (msg.type = .blockData ∧ isChunked msg = true)) :
      Effect now c peer msg
        ⟨{ c with pending := c.pending.erase k }, [(f, .reply msg)], .idle⟩
  /-- a request of ours has a chunked answer -/
  | openedPull {k : K} {f : Nat} (hh : PullHeader I c msg k f) {c' : Coordinator K}
      {rs : List (Nat × Resolution)} (hgc : gcBuffers I now c = (c', rs, true)) :
      Effect now c peer msg
        ⟨{ c' with
            buffers := c'.buffers.set k (.new (.pull f) (totalSizeOf msg) peer now)
            pullFutures := c'.pullFutures.set k f
            pending := c'.pending.erase k },
          rs ++ [(f, .reply msg)], .idle⟩
  /-- a peer starts a chunked push -/
  | openedPush {k : K} (hh : PushHeader I c msg k) {c' : Coordinator K}
      {rs : List (Nat × Resolution)} (hgc : gcBuffers I now c = (c', rs, true))
      (hroom : c'.buffers.size < Config.maxInboundStreams) :
      Effect now c peer msg
        ⟨{ c' with buffers := c'.buffers.set k (.new (pushMode msg) (totalSizeOf msg) peer now) },
          rs, .idle⟩
  /-- a buffer is given up; its future hears of it unless the log line raises -/
  | ended {k : K} {b : Buffer} (he : Ends I c msg k b) (reason : Value) :
      Effect now c peer msg
        ⟨{ c with buffers := c.buffers.erase k },
          if logsAbort I k reason then b.fail (.aborted reason) else [], .idle⟩
  /-- a chunk joins its buffer; `none` is an overrun test that raised -/
  | extended {k : K} {b : Buffer} (hf : ChunkFor I c msg k b) {chunk : Bytes}
      (hchunk : chunkOf msg = some chunk)
      (hover : (b.add chunk).overrun I = none ∨
        ((b.add chunk).overrun I = some false ∧ isFinal msg = false)) :
      Effect now c peer msg (.ended { c with buffers := c.buffers.set k (b.add chunk) })
  /-- a chunk exceeds the declared size -/
  | overran {k : K} {b : Buffer} (hf : ChunkFor I c msg k b) {chunk : Bytes}
      (hchunk : chunkOf msg = some chunk) (hover : (b.add chunk).overrun I = some true) :
      Effect now c peer msg (afterOverrun I c (reqIdOf msg) k b)
  /-- the final chunk is in -/
  | completed {k : K} {b : Buffer} (hf : ChunkFor I c msg k b) {chunk : Bytes}
      (hchunk : chunkOf msg = some chunk) (hover : (b.add chunk).overrun I = some false)
      (hfinal : isFinal msg = true) :
      Effect now c peer msg
        (completeTransfer I { c with buffers := c.buffers.erase k } (reqIdOf msg) (b.add chunk))

variable {I} {now : Rat} {c : Coordinator K} {peer : String} {msg : Message}

omit [DecidableEq K] in
theorem Handler.plain_idle : (Handler.idle : Handler K).Plain := by
  intro reqId data d key h
  cases h

omit [DecidableEq K] in
theorem Handler.plain_sending (reqId : Value) (ms : List (Int × Message)) :
    (Handler.sending reqId ms : Handler K).Plain := by
  intro reqId' data d key h
  cases ms <;> cases h

omit [DecidableEq K] in
theorem Handler.names_sending {reqId : Value} {ms : List (Int × Message)}
    (h : ∀ x ∈ ms, reqIdOf x.2 = reqId) : (Handler.sending reqId ms : Handler K).Names := by
  intro reqId' m rest heq
  cases ms with
  | nil => cases heq
  | cons x xs =>
    cases heq
    exact h

omit [DecidableEq K] in
theorem Handler.names_reply {reqId : Value} {m : Message} (h : reqIdOf m = reqId) :
    (Handler.send reqId (onOwnStream m) [] : Handler K).Names := by
  intro reqId' m' rest heq x hx
  cases heq
  rw [List.mem_singleton.mp hx]
  exact h

omit [DecidableEq K] in
theorem Handler.names_of_ne {next : Handler K} (h : ∀ reqId m rest, next ≠ .send reqId m rest) :
    next.Names := by
  intro reqId m rest heq
  exact absurd heq (h reqId m rest)

omit [DecidableEq K] in
theorem Handler.starts_idle : (Handler.idle : Handler K).Starts msg :=
  ⟨plain_idle, names_of_ne (by simp), Or.inl rfl⟩

omit [DecidableEq K] in
/-- A request is answered by one message. -/
theorem Handler.starts_reply {m : Message} (hreq : isRequest msg = true)
    (hm : reqIdOf m = reqIdOf msg) :
    (Handler.sending (reqIdOf msg) [onOwnStream m] : Handler K).Starts msg :=
  ⟨plain_sending _ _, names_reply hm, Or.inr ⟨hreq, rfl⟩⟩

theorem reqIdOf_nack (reqId error : Value) : reqIdOf (nack reqId error) = reqId := by
  simp [reqIdOf, nack, Message.get, Message.ofFields, Value.record, Value.get]

theorem ChunkFor.reqId_ne {k : K} {b : Buffer} (h : ChunkFor I c msg k b) : reqIdOf msg ≠ .nil := by
  intro hnil
  exact absurd h.named (by simp [hnil, Value.truthy])

/-- A chunk without a payload ends its buffer. -/
theorem ChunkFor.ends {k : K} {b : Buffer} (h : ChunkFor I c msg k b) (hchunk : chunkOf msg = none) :
    Ends I c msg k b :=
  ⟨Or.inr ⟨h.type, h.named, hchunk⟩, h.reqId_ne, h.key, h.buffer⟩

theorem Effect.ended_same : Effect I now c peer msg (.ended c) :=
  .quiet .idle Handler.starts_idle

theorem abortBuffer_effect (hcause : msg.type = .streamAbort ∨
      (msg.type = .blockChunk ∧ (reqIdOf msg).truthy = true ∧ chunkOf msg = none))
    (reason : Value) :
    Effect I now c peer msg (abortBuffer I c (reqIdOf msg) reason) := by
  unfold abortBuffer
  split
  · exact .ended_same
  · rename_i hnamed
    split
    · exact .ended_same
    · rename_i k hk
      split
      · exact .ended_same
      · rename_i b hb
        have he : Effect I now c peer msg ⟨{ c with buffers := c.buffers.erase k },
            if logsAbort I k reason then b.fail (.aborted reason) else [], .idle⟩ :=
          .ended ⟨hcause, hnamed, hk, hb⟩ reason
        split
        · rename_i hslice
          simpa [hslice] using he
        · rename_i hslice
          simpa [hslice, Handled.ended] using he

theorem handleChunk_effect {body : List (Msgpack.Key × Value)} (hbody : msg.body = .map body)
    (htype : msg.type = .blockChunk) : Effect I now c peer msg (handleChunk I c body) := by
  unfold handleChunk
  simp only [reqId_eq hbody, chunkOf_eq hbody, isFinal_eq hbody]
  by_cases hnamed : (reqIdOf msg).truthy = true
  · simp only [hnamed, Bool.not_true, Bool.false_eq_true, if_false]
    split
    · exact .ended_same
    · rename_i k hk
      split
      · exact .ended_same
      · rename_i b hb
        have hf : ChunkFor I c msg k b := ⟨htype, hnamed, hk, hb⟩
        split
        · rename_i hnone
          exact abortBuffer_effect (Or.inr ⟨htype, hnamed, hnone⟩) _
        · rename_i chunk hsome
          split
          · rename_i hover
            exact .extended hf hsome (Or.inl hover)
          · rename_i hover
            exact .overran hf hsome hover
          · rename_i hover
            split
            · rename_i hfin
              exact .completed hf hsome hover hfin
            · rename_i hfin
              exact .extended hf hsome (Or.inr ⟨hover, by simpa using hfin⟩)
  · simp only [hnamed]
    exact .ended_same

theorem handleReply_effect {k : K} {f : Nat} (ha : Answers I c msg k f) :
    Effect I now c peer msg (handleReply I now c peer k f msg) := by
  unfold handleReply
  split
  · rename_i hdata
    have hh : PullHeader I c msg k f := ⟨ha, hdata.1, hdata.2⟩
    split
    · rename_i c' rs hgc
      exact .collected (Or.inl ⟨k, f, hh⟩) hgc .idle Handler.starts_idle
    · rename_i c' rs hgc
      exact .openedPull hh hgc
  · rename_i hplain
    exact .answered ha hplain

theorem serveStoreHeader_effect {body : List (Msgpack.Key × Value)} (hbody : msg.body = .map body)
    (htype : msg.type = .storeBlock) {k : K} (hk : I.key (reqIdOf msg) = some k)
    (hfresh : pendingFuture c (reqIdOf msg) k = none) (hchunked : isChunked msg = true) :
    Effect I now c peer msg (serveStoreHeader I now c peer (reqIdOf msg) k body) := by
  have hreq : isRequest msg = true := by simp [isRequest, htype]
  unfold serveStoreHeader
  simp only [totalSize_eq hbody, pushMode_eq hbody]
  cases hacc : acceptable (totalSizeOf msg) with
  | false =>
    simp only [Bool.not_false, if_true]
    split
    · exact .quiet _ (Handler.starts_reply hreq (reqIdOf_nack _ _))
    · exact .quiet _ Handler.starts_idle
  | true =>
    have hh : PushHeader I c msg k := ⟨htype, hk, hfresh, hchunked, hacc⟩
    simp only [Bool.not_true, Bool.false_eq_true, if_false]
    split
    · rename_i c' rs hgc
      exact .collected (Or.inr ⟨k, hh⟩) hgc .idle Handler.starts_idle
    · rename_i c' rs hgc
      split
      · exact .collected (Or.inr ⟨k, hh⟩) hgc _ (Handler.starts_reply hreq (reqIdOf_nack _ _))
      · rename_i hroom
        exact .openedPush hh hgc (Nat.lt_of_not_le hroom)

omit [DecidableEq K] in
theorem serveStoreFrame_quiet (hreq : isRequest msg = true)
    (body : List (Msgpack.Key × Value)) :
    ∃ next : Handler K, next.Starts msg ∧
      serveStoreFrame I c (reqIdOf msg) body = ⟨c, [], next⟩ := by
  unfold serveStoreFrame
  split
  · exact ⟨_, Handler.starts_reply hreq (reqIdOf_nack _ _), rfl⟩
  · dsimp only
    split
    · split <;> exact ⟨_, Handler.starts_reply hreq (reqIdOf_nack _ _), rfl⟩
    · refine ⟨_, ⟨?_, Handler.names_of_ne (by simp), Or.inr ⟨hreq, rfl⟩⟩, rfl⟩
      intro reqId' data' d' key' h
      cases h

theorem handleRequest_effect {body : List (Msgpack.Key × Value)} (hbody : msg.body = .map body)
    {k : K} (hk : I.key (reqIdOf msg) = some k)
    (hfresh : pendingFuture c (reqIdOf msg) k = none) :
    Effect I now c peer msg (handleRequest I now c peer msg.type (reqIdOf msg) k body) := by
  unfold handleRequest
  split
  · rename_i htype
    rw [isChunked_eq hbody]
    split
    · rename_i hc
      exact serveStoreHeader_effect hbody htype hk hfresh hc
    · have hreq : isRequest msg = true := by simp [isRequest, htype]
      obtain ⟨next, hstarts, heq⟩ := serveStoreFrame_quiet (I := I) (c := c) hreq body
      rw [heq]
      exact .quiet next hstarts
  · rename_i htype
    exact .quiet _ ⟨by simp [Handler.Plain], Handler.names_of_ne (by simp),
      Or.inr ⟨by simp [isRequest, htype], rfl⟩⟩
  · rename_i htype
    exact .quiet _ ⟨by simp [Handler.Plain], Handler.names_of_ne (by simp),
      Or.inr ⟨by simp [isRequest, htype], rfl⟩⟩
  · rename_i htype
    refine .quiet _ (Handler.starts_reply (by simp [isRequest, htype]) ?_)
    simp [reqIdOf, Message.get, Message.ofFields, Value.record, Value.get]
  · exact .ended_same

/-! ## Garbage collection -/

/-- The buffers that have stalled, in the order of the table. -/
def staleBuffers (now : Rat) (c : Coordinator K) : List (K × Buffer) :=
  c.buffers.entries.filter (fun e => e.2.stale now)

/-- The buffers the loop of `_gc_buffers` drops: it raises after the
first one whose id has no slices. -/
def dropped (I : Interpreter K) : List (K × Buffer) → List (K × Buffer)
  | [] => []
  | e :: rest => if I.sliceable e.1 then e :: dropped I rest else [e]

omit [DecidableEq K] in
theorem mem_dropped {e : K × Buffer} {l : List (K × Buffer)} (h : e ∈ dropped I l) : e ∈ l := by
  induction l with
  | nil => cases h
  | cons x rest ih =>
    unfold dropped at h
    split at h
    · rcases List.mem_cons.mp h with rfl | hrest
      · exact List.mem_cons_self ..
      · exact List.mem_cons_of_mem _ (ih hrest)
    · rw [List.mem_singleton.mp h]
      exact List.mem_cons_self ..

/-- What `_gc_buffers` does: the other tables stay, the dropped buffers
are gone and all others are left, and only futures of dropped pulls are
resolved. -/
structure GarbageCollected (I : Interpreter K) (l : List (K × Buffer)) (c c' : Coordinator K)
    (rs : List (Nat × Resolution)) : Prop where
  pending : c'.pending = c.pending
  pullFutures : c'.pullFutures = c.pullFutures
  get : ∀ k, c'.buffers.get k = if k ∈ (dropped I l).map Prod.fst then none else c.buffers.get k
  entries : c'.buffers.entries.Sublist c.buffers.entries
  resolved : ∀ x ∈ rs, ∃ e ∈ dropped I l, x ∈ e.2.fail .stalled

theorem dropStale_collected (l : List (K × Buffer)) :
    ∀ c : Coordinator K, GarbageCollected I l c (dropStale I l c).1 (dropStale I l c).2.1 := by
  induction l with
  | nil =>
    intro c
    exact ⟨rfl, rfl, by simp [dropStale, dropped], List.Sublist.refl _, by simp [dropStale]⟩
  | cons e rest ih =>
    obtain ⟨k, b⟩ := e
    intro c
    by_cases hslice : I.sliceable k = true
    · have hdropped : dropped I ((k, b) :: rest) = (k, b) :: dropped I rest := if_pos hslice
      have hrest := ih { c with buffers := c.buffers.erase k }
      simp only [dropStale, hslice, if_true]
      refine ⟨hrest.pending, hrest.pullFutures, ?_, hrest.entries.trans List.filter_sublist, ?_⟩
      · intro k'
        rw [hrest.get, hdropped, Dict.get_erase, List.map_cons]
        by_cases hk : k' = k
        · simp [hk]
        · by_cases hmem : k' ∈ (dropped I rest).map Prod.fst
          · rw [if_pos hmem, if_pos (List.mem_cons_of_mem _ hmem)]
          · rw [if_neg hmem, if_neg (List.not_mem_cons_of_ne_of_not_mem hk hmem), if_neg hk]
      · intro x hx
        rw [hdropped]
        rcases List.mem_append.mp hx with hx | hx
        · exact ⟨(k, b), List.mem_cons_self .., hx⟩
        · obtain ⟨e, he, hx⟩ := hrest.resolved x hx
          exact ⟨e, List.mem_cons_of_mem _ he, hx⟩
    · have hdropped : dropped I ((k, b) :: rest) = [(k, b)] := if_neg hslice
      simp only [dropStale, hslice]
      refine ⟨rfl, rfl, ?_, List.filter_sublist, by simp⟩
      intro k'
      rw [hdropped]
      simp [Dict.get_erase]

theorem gcBuffers_collected {c' : Coordinator K} {rs : List (Nat × Resolution)} {ok : Bool}
    (h : gcBuffers I now c = (c', rs, ok)) :
    GarbageCollected I (staleBuffers now c) c c' rs := by
  have hspec := dropStale_collected (I := I) (staleBuffers now c) c
  unfold gcBuffers at h
  unfold staleBuffers at hspec ⊢
  rw [h] at hspec
  exact hspec

theorem GarbageCollected.of_get {l : List (K × Buffer)} {c' : Coordinator K}
    {rs : List (Nat × Resolution)} (h : GarbageCollected I l c c' rs) {k : K} {b : Buffer}
    (hb : c'.buffers.get k = some b) : c.buffers.get k = some b := by
  rw [h.get] at hb
  split at hb
  · cases hb
  · exact hb

/-! ## All outcomes -/

variable (I now c peer msg)

/-- There is nothing else a message can do. -/
theorem handleMessage_effect : Effect I now c peer msg (handleMessage I now c peer msg) := by
  unfold handleMessage
  split
  · rename_i body hbody
    simp only [reqId_eq hbody]
    split
    · rename_i htype
      exact handleChunk_effect hbody htype
    · rename_i htype
      exact abortBuffer_effect (Or.inl htype) _
    · rename_i htype htype'
      split
      · exact .ended_same
      · rename_i k hk
        split
        · rename_i f hf
          have hpend : reqIdOf msg ≠ .nil ∧ c.pending.get k = some f := by
            unfold pendingFuture at hf
            split at hf
            · cases hf
            · rename_i hne
              exact ⟨hne, hf⟩
          exact handleReply_effect ⟨⟨htype, htype'⟩, hpend.1, hk, hpend.2⟩
        · rename_i hf
          exact handleRequest_effect hbody hk hf
  · exact .ended_same

/-- A handler works for the request id of the message that started it:
a request, or a chunk that ended its buffer. -/
theorem handled_next :
    (handleMessage I now c peer msg).next.Names ∧
      ((handleMessage I now c peer msg).next = .idle ∨
        ((handleMessage I now c peer msg).next.reqId = some (reqIdOf msg) ∧
          (isRequest msg = true ∨ ∃ k b, ChunkFor I c msg k b))) := by
  generalize hh : handleMessage I now c peer msg = h
  have heffect : Effect I now c peer msg h := hh ▸ handleMessage_effect I now c peer msg
  have hidle : (Handler.idle : Handler K).Names := Handler.names_of_ne (by simp)
  cases heffect with
  | quiet next hstarts =>
    refine ⟨hstarts.names, ?_⟩
    rcases hstarts.request with heq | ⟨hreq, hid⟩
    · exact Or.inl heq
    · exact Or.inr ⟨hid, Or.inl hreq⟩
  | collected _ _ next hstarts =>
    refine ⟨hstarts.names, ?_⟩
    rcases hstarts.request with heq | ⟨hreq, hid⟩
    · exact Or.inl heq
    · exact Or.inr ⟨hid, Or.inl hreq⟩
  | overran hf =>
    unfold afterOverrun
    split
    · split
      · exact ⟨Handler.names_reply (reqIdOf_nack _ _), Or.inr ⟨rfl, Or.inr ⟨_, _, hf⟩⟩⟩
      · exact ⟨hidle, Or.inl rfl⟩
    · exact ⟨hidle, Or.inl rfl⟩
  | completed hf =>
    unfold completeTransfer
    split
    · exact ⟨hidle, Or.inl rfl⟩
    · split
      · exact ⟨hidle, Or.inl rfl⟩
      · exact ⟨Handler.names_of_ne (by simp), Or.inr ⟨rfl, Or.inr ⟨_, _, hf⟩⟩⟩
  | _ => exact ⟨hidle, Or.inl rfl⟩

/-- It works for no other request. -/
theorem handled_about (k : K) :
    (handleMessage I now c peer msg).next.about I k
      = if I.key (reqIdOf msg) = some k then (handleMessage I now c peer msg).next else .idle := by
  refine about_of_reqId I ?_ k
  rcases (handled_next I now c peer msg).2 with hidle | ⟨hid, _⟩
  · exact Or.inl (by rw [hidle]; rfl)
  · exact Or.inr hid

/-! ## What a message that reaches an entry does -/

variable {c msg}

/-- Only a dictionary has fields. -/
theorem body_of_get {field : String} {v : Value} (h : msg.get field = some v) :
    ∃ body, msg.body = .map body := by
  unfold Message.get at h
  split at h
  · rename_i body hbody
    exact ⟨body, hbody⟩
  · cases h

theorem body_of_named (h : reqIdOf msg ≠ .nil) : ∃ body, msg.body = .map body := by
  cases hid : msg.get "req_id" with
  | none => exact absurd (by simp [reqIdOf, hid]) h
  | some v => exact body_of_get hid

/-- A message that is neither a chunk nor an abort is an answer or a
request. -/
theorem handleMessage_other {k : K} {body : List (Msgpack.Key × Value)}
    (hbody : msg.body = .map body) (htype : msg.type ≠ .blockChunk ∧ msg.type ≠ .streamAbort)
    (hkey : I.key (reqIdOf msg) = some k) :
    handleMessage I now c peer msg
      = match pendingFuture c (reqIdOf msg) k with
        | some f => handleReply I now c peer k f msg
        | none => handleRequest I now c peer msg.type (reqIdOf msg) k body := by
  unfold handleMessage
  simp only [hbody, reqId_eq hbody]
  split
  · rename_i h
    exact absurd h htype.1
  · rename_i h
    exact absurd h htype.2
  · cases hfuture : pendingFuture c (reqIdOf msg) k <;> simp only [hkey, hfuture]

theorem handleMessage_answers {k : K} {f : Nat} (h : Answers I c msg k f) :
    handleMessage I now c peer msg = handleReply I now c peer k f msg := by
  obtain ⟨body, hbody⟩ := body_of_named h.named
  have hfuture : pendingFuture c (reqIdOf msg) k = some f := by
    unfold pendingFuture
    split
    · rename_i hnil
      exact absurd hnil h.named
    · exact h.pending
  rw [handleMessage_other I now peer hbody h.type h.key, hfuture]

theorem handleMessage_pushHeader {k : K} (h : PushHeader I c msg k) :
    handleMessage I now c peer msg
      = match gcBuffers I now c with
        | (c', rs, false) => ⟨c', rs, .idle⟩
        | (c', rs, true) =>
            if Config.maxInboundStreams ≤ c'.buffers.size then
              ⟨c', rs, .sending (reqIdOf msg)
                [onOwnStream (nack (reqIdOf msg) (.str "too many concurrent transfers"))]⟩
            else
              ⟨{ c' with
                  buffers := c'.buffers.set k (.new (pushMode msg) (totalSizeOf msg) peer now) },
                rs, .idle⟩ := by
  have hfield : ∃ v, msg.get "chunked" = some v := by
    cases hv : msg.get "chunked" with
    | none => exact absurd h.chunked (by simp [isChunked, hv, Value.truthy])
    | some v => exact ⟨v, rfl⟩
  obtain ⟨v, hv⟩ := hfield
  obtain ⟨body, hbody⟩ := body_of_get hv
  have htype : msg.type ≠ .blockChunk ∧ msg.type ≠ .streamAbort := by simp [h.type]
  rw [handleMessage_other I now peer hbody htype h.key, h.fresh]
  rcases hgc : gcBuffers I now c with ⟨c', rs, ok⟩
  cases ok <;>
    simp only [h.type, handleRequest, isChunked_eq hbody, h.chunked, if_true, serveStoreHeader,
      totalSize_eq hbody, pushMode_eq hbody, h.size, Bool.not_true, Bool.false_eq_true, if_false, hgc]

theorem handleMessage_chunk {k : K} {b : Buffer} (h : ChunkFor I c msg k b) {chunk : Bytes}
    (hchunk : chunkOf msg = some chunk) :
    handleMessage I now c peer msg
      = match (b.add chunk).overrun I with
        | none => .ended { c with buffers := c.buffers.set k (b.add chunk) }
        | some true => afterOverrun I c (reqIdOf msg) k b
        | some false =>
            if isFinal msg then
              completeTransfer I { c with buffers := c.buffers.erase k } (reqIdOf msg)
                (b.add chunk)
            else .ended { c with buffers := c.buffers.set k (b.add chunk) } := by
  obtain ⟨body, hbody⟩ := body_of_named h.reqId_ne
  simp only [handleMessage, hbody, h.type, handleChunk, reqId_eq hbody, h.named, h.key, h.buffer,
    chunkOf_eq hbody, hchunk, isFinal_eq hbody, Bool.not_true, Bool.false_eq_true, if_false]
  rfl

/-- The reason `_abort_buffer` gets. -/
def abortReason (msg : Message) : Value :=
  if msg.type = .streamAbort then (msg.get "error").getD (.str "peer aborted the transfer")
  else .str "malformed chunk"

theorem handleMessage_ends {k : K} {b : Buffer} (h : Ends I c msg k b) :
    handleMessage I now c peer msg
      = ⟨{ c with buffers := c.buffers.erase k },
          if logsAbort I k (abortReason msg) then b.fail (.aborted (abortReason msg)) else [], .idle⟩ := by
  obtain ⟨body, hbody⟩ := body_of_named h.named
  have habort : ∀ reason, abortBuffer I c (reqIdOf msg) reason
      = ⟨{ c with buffers := c.buffers.erase k },
          if logsAbort I k reason then b.fail (.aborted reason) else [], .idle⟩ := by
    intro reason
    unfold abortBuffer
    split
    · rename_i hnil
      exact absurd hnil h.named
    · simp only [h.key, h.buffer]
      split
      · rfl
      · rfl
  rcases h.cause with htype | ⟨htype, htruthy, hnone⟩
  · rw [← habort]
    simp only [handleMessage, hbody, htype, reqId_eq hbody, abortReason, if_true, Message.get]
  · rw [← habort]
    simp only [handleMessage, hbody, htype, handleChunk, reqId_eq hbody, htruthy, h.key, h.buffer,
      chunkOf_eq hbody, hnone, Bool.not_true, Bool.false_eq_true, if_false, abortReason, reduceCtorEq]

end Memnode.Replication
