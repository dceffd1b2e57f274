/-
Memnode.Replication.Arrivals — what a delivered message does to its request.

A request message arrives at the serving node (`request_arrives`): the
header opens the buffer, is refused or starts the handler, a chunk
extends the buffer or completes it, a leftover chunk is ignored. A reply
arrives at the asking node (`reply_arrives`): a plain reply resolves the
future of the call, a header opens the pull buffer, a chunk extends or
completes it. In both directions the sizes line up by
`chunkFrames_split`.
-/
import Memnode.Replication.Stages

set_option linter.unusedSectionVars false

namespace Memnode.Replication

open Lib Blocks

variable {K : Type} [DecidableEq K] (I : Interpreter K)

/-! ## Tables at one request -/

theorem sameExcept_buffer_set (c : Coordinator K) (k : K) (b : Buffer) :
    c.SameExcept k { c with buffers := c.buffers.set k b } := by
  intro k' hne
  simp [Dict.get_set, hne]

theorem sameExcept_buffer_erase (c : Coordinator K) (k : K) :
    c.SameExcept k { c with buffers := c.buffers.erase k } := by
  intro k' hne
  simp [Dict.get_erase, hne]

/-- The messages of a transfer without their stream. -/
theorem frames_split {stream : Int} {frames : List Message} {before after : List (Int × Message)}
    {x : Int × Message}
    (h : frames.map (fun m => (stream, m)) = before ++ x :: after) :
    frames = before.map Prod.snd ++ x.2 :: after.map Prod.snd := by
  have hsnd := congrArg (List.map Prod.snd) h
  simpa [Function.comp_def] using hsnd

/-! ## At the serving node -/

section Serving

variable {chS chT : Chunking} {i : Nat} {c : RemoteCall}

/-- The node's tables hold the slice's entries. -/
structure Tables (co : Coordinator K) (k : K) (S : Slice K) : Prop where
  pending : co.pending.get k = S.pending
  buffer : co.buffers.get k = S.buffer
  pull : co.pullFutures.get k = S.pull

/-- The slice with the entries of these tables. -/
def Slice.withTables (S : Slice K) (co : Coordinator K) (k : K) : Slice K :=
  { S with
    pending := co.pending.get k
    buffer := co.buffers.get k
    pull := co.pullFutures.get k }

theorem Tables.withTables {co : Coordinator K} {k : K} {S : Slice K} (h : Tables co k S) :
    S.withTables co k = S := by
  simp [Slice.withTables, h.pending, h.buffer, h.pull]

/-- A message of request `c` arrived at the serving node with tables `co`. -/
structure Arrived (chS chT : Chunking) (i : Nat) (c : RemoteCall) (S T : Slice K)
    (co : Coordinator K) (handled : Handled K) : Prop where
  resolved : handled.resolved = []
  tables : co.SameExcept (I.strKey c.reqId) handled.coordinator
  only : handled.next.Only I (I.strKey c.reqId)
  light : handled.next.weight ≤ 2
  stage : Stage I chS chT i c S
    { T.withTables handled.coordinator (I.strKey c.reqId) with handler := handled.next }

theorem Incoming.eq_none {r : Request} {buffer : Option Buffer} (h : Incoming r [] buffer) :
    buffer = none := by
  cases h
  rfl

/-- The only message of a request starts its handler. -/
theorem arrived_work {S T : Slice K} {co : Coordinator K} (transfer : Bool)
    (hS : S = ⟨some i, none, none, .idle, [], []⟩) (hlog : T.log = []) (hqueue : T.queue = [])
    {co' : Coordinator K} (hsame : co.SameExcept (I.strKey c.reqId) co')
    (htables : Tables co' (I.strKey c.reqId) ⟨none, none, none, .idle, [], []⟩)
    (phase : c.phase.unsent = some []) (noReply : c.reply = none) (noPull : c.pull = none)
    (storable : c.request.Storable) :
    Arrived I chS chT i c S T co ⟨co', [], c.request.work I c.reqId transfer⟩ := by
  refine ⟨rfl, hsame, only_work I c.request c.reqId transfer, ?_, ?_⟩
  · cases c.request <;> simp [Request.work, Handler.weight]
  · have hT : { T.withTables co' (I.strKey c.reqId) with
          handler := c.request.work I c.reqId transfer }
        = (⟨none, none, none, c.request.work I c.reqId transfer, [], []⟩ : Slice K) := by
      simp [Slice.withTables, htables.pending, htables.buffer, htables.pull, hlog, hqueue]
    rw [hS, hT]
    exact Stage.serving (Phase.eq_awaitReply phase) noReply noPull storable

/-- The first message of a request. -/
theorem header_arrives {stream : Int} {queued unsent : List (Int × Message)}
    (hchunks : c.request.chunks chS stream c.reqId = queued ++ unsent)
    (phase : c.phase.unsent = some unsent) (noReply : c.reply = none) (noPull : c.pull = none)
    {co : Coordinator K}
    (htables : Tables co (I.strKey c.reqId) ⟨none, none, none, .idle, [], []⟩) {now : Rat}
    (peer : String) (hgc : ∀ e ∈ co.buffers.entries, e.2.stale now = false)
    (hroom : (c.request.header chS stream c.reqId).2.type = .storeBlock →
      co.buffers.size < Config.maxInboundStreams)
    (hfits : (c.request.header chS stream c.reqId).2.transmit I.packer ≠ none) :
    Arrived I chS chT i c ⟨some i, none, none, .idle, [], queued⟩ ⟨none, none, none, .idle, [], []⟩
      co (handleMessage I now co peer (c.request.header chS stream c.reqId).2) := by
  obtain ⟨dest, request, reqId, timeout, reply, pull, ph⟩ := c
  simp only at hchunks phase noReply noPull htables hroom hfits ⊢
  cases request with
  | load block key =>
    obtain ⟨rfl, rfl⟩ := List.append_eq_nil_iff.mp hchunks.symm
    rw [show (Request.header chS stream reqId (.load block key)).2 = requestFrame reqId block key
      from rfl, handle_requestFrame I now peer reqId block key htables.pending]
    exact arrived_work I false rfl rfl rfl (.refl _ _) htables phase noReply noPull trivial
  | store data d key =>
    by_cases hlarge : chS.chunkThreshold < data.length
    · -- a chunked store: the header is accepted or refused
      have hheader : (Request.header chS stream reqId (.store data d key))
          = (stream, storeHeader reqId data.length d key stream) := by
        simp [Request.header, hlarge]
      have hframes : Request.chunks chS stream reqId (.store data d key)
          = (chunkFrames chS (.str reqId) stream data).map (fun m => (stream, m)) := by
        simp [Request.chunks, hlarge]
      rw [hheader] at hroom ⊢
      by_cases hmax : data.length ≤ Config.maxBlockSize
      · rw [handle_storeHeader I peer reqId d key stream htables.pending (by omega) hmax hgc
          (hroom rfl)]
        refine ⟨rfl, sameExcept_buffer_set co _ _, only_idle I _, by simp [Handler.weight], ?_⟩
        have hmessages : Request.header chS stream reqId (.store data d key)
            :: Request.chunks chS stream reqId (.store data d key)
            = [(stream, storeHeader reqId data.length d key stream)] ++ (queued ++ unsent) := by
          rw [hheader, hchunks]
          rfl
        have hleft : queued ++ unsent ≠ [] := by
          rw [← hchunks, hframes]
          simpa using chunkFrames_ne_nil chS (.str reqId) stream (show 0 < data.length by omega)
        simp only [Slice.withTables, htables.pending, htables.pull, Dict.get_set_self]
        exact Stage.asking hmessages hleft phase noReply noPull
          (Incoming.header hmax (Buffer.holds_new _ _ _ _))
      · rw [handle_storeHeader_refused I now peer reqId d key stream htables.pending (by omega)]
        refine ⟨rfl, .refl _ _, ?_, by simp [weight_sending], ?_⟩
        · exact only_sending I reqId [onOwnStream (nack (.str reqId) (.str (refusal data.length)))]
        have hleft : Leftover reqId (queued ++ unsent) := by
          rw [← hchunks, hframes]
          exact leftover_chunkFrames chS reqId stream data
        simp only [Slice.withTables, htables.pending, htables.pull, htables.buffer]
        have hreplies : (Verdict.refused (Nat.lt_of_not_le hmax) :
            Verdict (.store data d key)).replies chT 0 reqId
            = [] ++ ([] ++ [onOwnStream (nack (.str reqId) (.str (refusal data.length)))]) := rfl
        exact Stage.answering (c := ⟨dest, .store data d key, reqId, timeout, reply, pull, ph⟩)
          (.refused (Nat.lt_of_not_le hmax)) hleft (Or.inl phase) hreplies
          (Heard.nothing noReply noPull)
    · -- a single frame, which is small because it fits
      have hheader : (Request.header chS stream reqId (.store data d key)).2
          = storeFrame reqId data d key := by
        simp [Request.header, hlarge]
      have hnil : Request.chunks chS stream reqId (.store data d key) = [] := by
        simp [Request.chunks, hlarge]
      rw [hnil] at hchunks
      obtain ⟨rfl, rfl⟩ := List.append_eq_nil_iff.mp hchunks.symm
      rw [hheader] at hfits ⊢
      have hsize := storeFrame_length hfits
      rw [handle_storeFrame I now peer reqId data d key htables.pending]
      refine arrived_work I false rfl rfl rfl (.refl _ _) htables phase noReply noPull ?_
      simp only [Request.Storable, Message.frameOverhead, Config.maxFrameSize,
        Config.maxBlockSize] at hsize ⊢
      omega

/-- A chunk of an accepted store. -/
theorem chunk_arrives {stream : Int} {g x : Int × Message}
    {got queued unsent : List (Int × Message)} {buffer : Option Buffer}
    (messages : c.request.header chS stream c.reqId :: c.request.chunks chS stream c.reqId
      = (g :: got) ++ ((x :: queued) ++ unsent))
    (phase : c.phase.unsent = some unsent) (noReply : c.reply = none) (noPull : c.pull = none)
    (incoming : Incoming c.request ((g :: got).map Prod.snd) buffer) {co : Coordinator K}
    (htables : Tables co (I.strKey c.reqId) ⟨none, buffer, none, .idle, [], []⟩) (now : Rat)
    (peer : String) (hid : c.reqId ≠ "") :
    Arrived I chS chT i c ⟨some i, none, none, .idle, [], queued⟩
      ⟨none, buffer, none, .idle, [], []⟩ co (handleMessage I now co peer x.2) := by
  obtain ⟨dest, request, reqId, timeout, reply, pull, ph⟩ := c
  simp only at messages phase noReply noPull incoming htables hid ⊢
  have hchunks : Request.chunks chS stream reqId request = got ++ x :: (queued ++ unsent) :=
    (List.cons.inj messages).2
  cases incoming with
  | @header data d key _ _ b small holds =>
    have hlarge : chS.chunkThreshold < data.length := by
      by_contra hno
      simp [Request.chunks, hno] at hchunks
    simp only [Request.chunks, hlarge, if_true] at hchunks
    have hframes := frames_split hchunks
    obtain ⟨seq, piece, hx, hdata⟩ := chunkFrames_split hframes
    have hlen := congrArg List.length hdata
    simp only [List.length_append] at hlen
    have hpiece : piece = payload x.2 := by rw [hx, payload_chunkFrame]
    have hholds := holds.add x.2
    rw [← hpiece] at hholds
    have hhandle := handle_chunk I now peer stream seq (queued ++ unsent |>.map Prod.snd).isEmpty
      hid htables.buffer holds.total
      (show b.received + piece.length ≤ data.length by rw [holds.received]; omega)
    rw [← hx] at hhandle
    rw [hhandle]
    cases hrest : queued ++ unsent with
    | nil =>
      -- the last chunk: the buffer is handed over
      obtain ⟨rfl, rfl⟩ := List.append_eq_nil_iff.mp hrest
      have hassemble : (b.add piece).assemble = data := by
        rw [hholds.parts, payloads_append, payloads_cons, payloads_nil, ← hpiece]
        simpa using hdata
      simp only [List.map_nil, List.isEmpty_nil, if_true, completeTransfer, hholds.mode,
        durabilityOf_value, hassemble]
      exact arrived_work I (c := ⟨dest, .store data d key, reqId, timeout, reply, pull, ph⟩) true
        rfl rfl rfl (sameExcept_buffer_erase co _)
        ⟨htables.pending, Dict.get_erase_self _ _, htables.pull⟩ phase noReply noPull small
    | cons y rest =>
      simp only [List.map_cons, List.isEmpty_cons, Bool.false_eq_true, if_false]
      refine ⟨rfl, sameExcept_buffer_set co _ _, only_idle I _, by simp [Handled.ended, Handler.weight],
        ?_⟩
      have hmessages : Request.header chS stream reqId (.store data d key)
          :: Request.chunks chS stream reqId (.store data d key)
          = (g :: (got ++ [x])) ++ (queued ++ unsent) := by simpa using messages
      have hincoming : Incoming (.store data d key) ((g :: (got ++ [x])).map Prod.snd)
          (some (b.add piece)) := by
        simp only [List.map_cons, List.map_append, List.map_nil]
        exact Incoming.header small hholds
      simp only [Handled.ended, Slice.withTables, htables.pending, htables.pull, Dict.get_set_self]
      exact Stage.asking (c := ⟨dest, .store data d key, reqId, timeout, reply, pull, ph⟩) hmessages
        (by rw [hrest]; simp) phase noReply noPull hincoming

/-- A chunk nobody waits for. -/
theorem leftover_arrives {S T : Slice K} {co : Coordinator K} {x : Int × Message}
    {ms : List (Int × Message)} (hleft : Leftover c.reqId ms) (hmem : x ∈ ms)
    (htables : Tables co (I.strKey c.reqId) T) (hbuf : T.buffer = none) (hid : c.reqId ≠ "")
    (hst : Stage I chS chT i c S { T with handler := .idle }) (now : Rat) (peer : String) :
    Arrived I chS chT i c S T co (handleMessage I now co peer x.2) := by
  obtain ⟨stream, hall⟩ := hleft
  obtain ⟨seq, piece, final, rfl⟩ := hall x hmem
  rw [handle_chunk_unknown I now peer stream seq piece final hid (htables.buffer.trans hbuf)]
  refine ⟨rfl, .refl _ _, only_idle I _, by simp [Handled.ended, Handler.weight], ?_⟩
  simp only [Handled.ended, htables.withTables]
  exact hst

/-- **A request message arrives.** -/
theorem request_arrives {S T : Slice K} (hst : Stage I chS chT i c S T) {x : Int × Message}
    {rest : List (Int × Message)} (hqueue : S.queue = x :: rest) (hidle : T.handler = .idle)
    {co : Coordinator K} (htables : Tables co (I.strKey c.reqId) T) {now : Rat} (peer : String)
    (hid : c.reqId ≠ "") (hgc : ∀ e ∈ co.buffers.entries, e.2.stale now = false)
    (hroom : x.2.type = .storeBlock → co.buffers.size < Config.maxInboundStreams)
    (hfits : x.2.transmit I.packer ≠ none) :
    Arrived I chS chT i c { S with queue := rest } T co (handleMessage I now co peer x.2) := by
  cases hst with
  | @asking stream got queued unsent buffer messages left phase noReply noPull incoming =>
    simp only at hqueue htables ⊢
    subst hqueue
    cases got with
    | nil =>
      obtain ⟨hx, hchunks⟩ := List.cons.inj messages
      obtain rfl := incoming.eq_none
      rw [← hx] at hroom hfits ⊢
      exact header_arrives I hchunks phase noReply noPull htables peer hgc hroom hfits
    | cons g got =>
      exact chunk_arrives I messages phase noReply noPull incoming htables now peer hid
  | serving => cases hqueue
  | @answering v stream queued unsent got replies outs pending pull buffer leftover phase messages
      heard =>
    simp only at hqueue htables hidle ⊢
    subst hqueue
    have hleft : Leftover c.reqId (rest ++ unsent) :=
      leftover.sub (fun y hy => List.mem_cons_of_mem x hy)
    have hstage : Stage I chS chT i c _ _ := Stage.answering v hleft phase messages heard
    rw [hidle] at hstage htables ⊢
    exact leftover_arrives I leftover (by simp) htables rfl hid hstage now peer
  | @done v queued leftover phase =>
    simp only at hqueue htables ⊢
    subst hqueue
    exact leftover_arrives I leftover (by simp) htables rfl hid
      (Stage.done v (leftover.sub (fun y hy => List.mem_cons_of_mem x hy)) phase) now peer

end Serving

/-! ## At the asking node -/

/-- The futures a message resolves. -/
def resolveAll (resolved : List (Nat × Resolution)) (calls : List RemoteCall) : List RemoteCall :=
  resolved.foldl (fun calls x => calls.modify x.1 (fun c => c.resolve x.2)) calls

theorem resolveAll_nil {calls : List RemoteCall} {i : Nat} {c : RemoteCall}
    (h : calls[i]? = some c) : resolveAll [] calls = calls.set i c := by
  obtain ⟨hlt, hc⟩ := List.getElem?_eq_some_iff.mp h
  rw [← hc]
  exact (List.set_getElem_self hlt).symm

theorem resolveAll_single {calls : List RemoteCall} {i : Nat} {c : RemoteCall}
    (h : calls[i]? = some c) (r : Resolution) :
    resolveAll [(i, r)] calls = calls.set i (c.resolve r) := by
  apply List.ext_getElem?
  intro j
  simp only [resolveAll, List.foldl_cons, List.foldl_nil, List.getElem?_modify, List.getElem?_set]
  by_cases hj : i = j
  · subst hj
    obtain ⟨hlt, hc⟩ := List.getElem?_eq_some_iff.mp h
    simp [hlt, hc]
  · simp [hj]

section Asking

variable {chS chT : Chunking} {i : Nat} {c : RemoteCall}

/-- A reply to request `c` arrived at the asking node with tables `co`. -/
structure Answered (chS chT : Chunking) (i : Nat) (c c' : RemoteCall) (S T : Slice K)
    (co : Coordinator K) (handled : Handled K) : Prop where
  reqId : c'.reqId = c.reqId
  request : c'.request = c.request
  phase : c'.phase = c.phase
  resolved : ∀ calls : List RemoteCall, calls[i]? = some c →
    resolveAll handled.resolved calls = calls.set i c'
  tables : co.SameExcept (I.strKey c.reqId) handled.coordinator
  next : handled.next = .idle
  stage : Stage I chS chT i c' (S.withTables handled.coordinator (I.strKey c.reqId)) T

/-- A reply that settles the request. -/
theorem plain_arrives {v : Verdict c.request} {stream : Int} {m : Int × Message}
    {queued unsent : List (Int × Message)} (leftover : Leftover c.reqId (queued ++ unsent))
    (phase : c.phase.unsent = some unsent) (noReply : c.reply = none) (noPull : c.pull = none)
    (hreplies : v.replies chT stream c.reqId = [m])
    (hplain : Plain c.request c.reqId v.result m.2) {co : Coordinator K}
    (htables : Tables co (I.strKey c.reqId) ⟨some i, none, none, .idle, [], queued⟩) (now : Rat)
    (peer : String) :
    ∃ c', Answered I chS chT i c c' ⟨some i, none, none, .idle, [], queued⟩
      ⟨none, none, none, .idle, v.log I, []⟩ co (handleMessage I now co peer m.2) := by
  rw [handle_reply I now peer hplain.about htables.pending hplain.notChunk hplain.notAbort
    hplain.notHeader]
  refine ⟨c.resolve (.reply m.2), rfl, rfl, rfl, fun calls hc => resolveAll_single hc _, ?_, rfl, ?_⟩
  · intro k' hne
    simp [Dict.get_erase, hne]
  · have hreply : (c.resolve (.reply m.2)).reply = some m.2 := by
      simp [RemoteCall.resolve, noReply]
    simp only [Slice.withTables, htables.buffer, htables.pull, Dict.get_erase_self]
    exact Stage.answering (c := c.resolve (.reply m.2)) v leftover (Or.inl phase)
      (show _ = [m] ++ ([] ++ []) from hreplies) (Heard.reply hplain hreply noPull)

/-- The header of a chunked reply. -/
theorem replyHeader_arrives {v : Verdict c.request} {stream : Int} {bytes : Bytes}
    {queued unsent replies outs : List (Int × Message)}
    (leftover : Leftover c.reqId (queued ++ unsent)) (phase : c.phase.unsent = some unsent)
    (noReply : c.reply = none) (noPull : c.pull = none)
    (isLoad : ∃ block key, c.request = .load block key)
    (hresult : v.result = .loaded (some bytes)) (hpos : 0 < bytes.length)
    (hreplies : v.replies chT stream c.reqId
      = (stream, replyHeader (.str c.reqId) bytes.length stream)
        :: (chunkFrames chT (.str c.reqId) stream bytes).map (fun m => (stream, m)))
    (hrest : (chunkFrames chT (.str c.reqId) stream bytes).map (fun m => (stream, m))
      = replies ++ outs) {co : Coordinator K}
    (htables : Tables co (I.strKey c.reqId) ⟨some i, none, none, .idle, [], queued⟩) {now : Rat}
    (peer : String) (hgc : ∀ e ∈ co.buffers.entries, e.2.stale now = false) :
    ∃ c', Answered I chS chT i c c' ⟨some i, none, none, .idle, [], queued⟩
      ⟨none, none, none, .sending (.str c.reqId) outs, v.log I, replies⟩ co
      (handleMessage I now co peer (replyHeader (.str c.reqId) bytes.length stream)) := by
  rw [handle_replyHeader I peer bytes.length stream htables.pending hgc]
  refine ⟨c.resolve (.reply (replyHeader (.str c.reqId) bytes.length stream)), rfl, rfl, rfl,
    fun calls hc => resolveAll_single hc _, ?_, rfl, ?_⟩
  · intro k' hne
    simp [Dict.get_erase, Dict.get_set, hne]
  · have hleft : replies ++ outs ≠ [] := by
      rw [← hrest]
      simpa using chunkFrames_ne_nil chT (.str c.reqId) stream hpos
    rw [hrest] at hreplies
    simp only [Slice.withTables, Dict.get_set_self, Dict.get_erase_self]
    exact Stage.answering (c := c.resolve (.reply (replyHeader (.str c.reqId) bytes.length stream)))
      v leftover (Or.inl phase)
      (show _ = [(stream, replyHeader (.str c.reqId) bytes.length stream)] ++ (replies ++ outs)
        from hreplies)
      (Heard.header isLoad hresult (announces_replyHeader _ _ _)
        (by simp [RemoteCall.resolve, noReply]) noPull hleft (Buffer.holds_new _ _ _ _))

/-- A chunk of a chunked reply. -/
theorem replyChunk_arrives {v : Verdict c.request} {stream : Int} {bytes : Bytes}
    {g x : Int × Message} {got queued unsent replies outs : List (Int × Message)} {b : Buffer}
    (leftover : Leftover c.reqId (queued ++ unsent))
    (phase : c.phase.unsent = some unsent ∨
      (unsent = [] ∧ c.phase = .awaitPull i ∧ some i = some i))
    (isLoad : ∃ block key, c.request = .load block key)
    (hresult : v.result = .loaded (some bytes)) (announces : announcesChunks g.2 = true)
    (hasReply : c.reply = some g.2) (noPull : c.pull = none)
    (holds : b.Holds (.pull i) bytes.length (got.map Prod.snd))
    (hchunks : (chunkFrames chT (.str c.reqId) stream bytes).map (fun m => (stream, m))
      = got ++ x :: (replies ++ outs))
    (messages : v.replies chT stream c.reqId = (g :: got) ++ ((x :: replies) ++ outs))
    {co : Coordinator K}
    (htables : Tables co (I.strKey c.reqId) ⟨none, some b, some i, .idle, [], queued⟩) (now : Rat)
    (peer : String) (hid : c.reqId ≠ "") :
    ∃ c', Answered I chS chT i c c' ⟨none, some b, some i, .idle, [], queued⟩
      ⟨none, none, none, .sending (.str c.reqId) outs, v.log I, replies⟩ co
      (handleMessage I now co peer x.2) := by
  obtain ⟨seq, piece, hx, hdata⟩ := chunkFrames_split (frames_split hchunks)
  have hlen := congrArg List.length hdata
  simp only [List.length_append] at hlen
  have hpiece : piece = payload x.2 := by rw [hx, payload_chunkFrame]
  have hholds := holds.add x.2
  rw [← hpiece] at hholds
  have hhandle := handle_chunk I now peer stream seq (replies ++ outs |>.map Prod.snd).isEmpty
    hid htables.buffer holds.total
    (show b.received + piece.length ≤ bytes.length by rw [holds.received]; omega)
  rw [← hx] at hhandle
  rw [hhandle]
  cases hrest : replies ++ outs with
  | nil =>
    -- the last chunk: the collector gets the bytes
    obtain ⟨rfl, rfl⟩ := List.append_eq_nil_iff.mp hrest
    have hassemble : (b.add piece).assemble = bytes := by
      rw [hholds.parts, payloads_append, payloads_cons, payloads_nil, ← hpiece]
      simpa using hdata
    simp only [List.map_nil, List.isEmpty_nil, if_true, completeTransfer, hholds.mode, hassemble]
    refine ⟨c.resolve (.pulled bytes), rfl, rfl, rfl, fun calls hc => resolveAll_single hc _,
      sameExcept_buffer_erase co _, rfl, ?_⟩
    have hmessages : v.replies chT stream c.reqId = (g :: (got ++ [x])) ++ ([] ++ []) := by
      simpa using messages
    simp only [Slice.withTables, htables.pending, htables.pull, Dict.get_erase_self]
    exact Stage.answering (c := c.resolve (.pulled bytes)) v leftover phase hmessages
      (Heard.all isLoad hresult announces hasReply (by simp [RemoteCall.resolve, noPull]))
  | cons y rest =>
    simp only [List.map_cons, List.isEmpty_cons, Bool.false_eq_true, if_false]
    refine ⟨c, rfl, rfl, rfl, fun calls hc => resolveAll_nil hc, sameExcept_buffer_set co _ _, rfl,
      ?_⟩
    have hmessages : v.replies chT stream c.reqId = (g :: (got ++ [x])) ++ (replies ++ outs) := by
      simpa using messages
    have hholds' : (b.add piece).Holds (.pull i) bytes.length ((got ++ [x]).map Prod.snd) := by
      simpa using hholds
    simp only [Handled.ended, Slice.withTables, htables.pending, htables.pull, Dict.get_set_self]
    exact Stage.answering v leftover phase hmessages
      (Heard.header isLoad hresult announces hasReply noPull (by rw [hrest]; simp) hholds')

/-- **A reply arrives.** -/
theorem reply_arrives {S T : Slice K} (hst : Stage I chS chT i c S T) {x : Int × Message}
    {rest : List (Int × Message)} (hqueue : T.queue = x :: rest) {co : Coordinator K}
    (htables : Tables co (I.strKey c.reqId) S) {now : Rat} (peer : String) (hid : c.reqId ≠ "")
    (hgc : ∀ e ∈ co.buffers.entries, e.2.stale now = false) :
    ∃ c', Answered I chS chT i c c' S { T with queue := rest } co
      (handleMessage I now co peer x.2) := by
  cases hst with
  | asking => cases hqueue
  | serving => cases hqueue
  | done => cases hqueue
  | @answering v stream queued unsent got replies outs pending pull buffer leftover phase messages
      heard =>
    simp only at hqueue htables ⊢
    subst hqueue
    generalize hleft : (x :: rest) ++ outs = left at heard
    rcases v.replies_cases chT stream c.reqId with ⟨m, hm, hplain⟩ |
      ⟨bytes, hload, hresult, hpos, hm⟩
    · -- one plain message, so it is this one
      have hsingle := hm.symm.trans messages
      obtain ⟨rfl, hx⟩ : got = [] ∧ [m] = x :: (rest ++ outs) := by
        cases got with
        | nil => exact ⟨rfl, hsingle⟩
        | cons g got => simp at hsingle
      obtain ⟨rfl, hnil⟩ := List.cons.inj hx
      obtain ⟨rfl, rfl⟩ := List.append_eq_nil_iff.mp hnil.symm
      cases heard with
      | nothing noReply noPull =>
        rcases phase with phase | ⟨_, _, hpull⟩
        · exact plain_arrives I leftover phase noReply noPull hm hplain htables now peer
        · cases hpull
    · cases heard with
      | nothing noReply noPull =>
        obtain ⟨hx, hchunks⟩ := List.cons.inj (hm.symm.trans messages)
        rcases phase with phase | ⟨_, _, hpull⟩
        · rw [← hx]
          exact replyHeader_arrives I leftover phase noReply noPull hload hresult hpos hm hchunks
            htables peer hgc
        · cases hpull
      | reply => cases hleft
      | all => cases hleft
      | @header bytes' g got _ b _ hresult' announces hasReply noPull _ holds =>
        obtain rfl : bytes' = bytes := by
          rw [hresult] at hresult'
          cases hresult'
          rfl
        have hchunks := (List.cons.inj (hm.symm.trans messages)).2
        exact replyChunk_arrives I leftover phase hload hresult announces hasReply noPull holds
          hchunks messages htables now peer hid

end Asking

end Memnode.Replication
