/-
Memnode.Replication.Stages — how the events move a request.

For each event, a lemma takes the nodes before it, with the request in
some stage, to the nodes after it: the request is in a stage again, its
weight went down, and `Local` says that nothing about any other request
changed. `weight` counts the steps a request still needs, apart from the
BlockManager call, which is seen in the history.
-/
import Memnode.Replication.Conversation

set_option linter.unusedSectionVars false

namespace Memnode.Replication

open Lib Blocks

variable {K : Type} [DecidableEq K] (I : Interpreter K)

/-! ## Messages of one request -/

/-- Messages of one request on one stream. -/
def OneStream (reqId : String) (ms : List (Int × Message)) : Prop :=
  ∃ stream : Int, ∀ x ∈ ms, x.1 = stream ∧ About reqId x.2

theorem OneStream.sub {reqId : String} {ms ms' : List (Int × Message)} (h : OneStream reqId ms)
    (hsub : ∀ x ∈ ms', x ∈ ms) : OneStream reqId ms' := by
  obtain ⟨stream, h⟩ := h
  exact ⟨stream, fun x hx => h x (hsub x hx)⟩

theorem Leftover.oneStream {reqId : String} {ms : List (Int × Message)} (h : Leftover reqId ms) :
    OneStream reqId ms := by
  obtain ⟨stream, h⟩ := h
  refine ⟨stream, fun x hx => ?_⟩
  obtain ⟨seq, piece, final, rfl⟩ := h x hx
  exact ⟨rfl, about_chunkFrame reqId stream seq piece final⟩

theorem Leftover.sub {reqId : String} {ms ms' : List (Int × Message)} (h : Leftover reqId ms)
    (hsub : ∀ x ∈ ms', x ∈ ms) : Leftover reqId ms' := by
  obtain ⟨stream, h⟩ := h
  exact ⟨stream, fun x hx => h x (hsub x hx)⟩

theorem leftover_chunkFrames (ch : Chunking) (reqId : String) (stream : Int) (data : Bytes) :
    Leftover reqId ((chunkFrames ch (.str reqId) stream data).map (fun m => (stream, m))) := by
  refine ⟨stream, fun x hx => ?_⟩
  obtain ⟨m, hm, rfl⟩ := List.mem_map.mp hx
  obtain ⟨before, after, hsplit⟩ := List.append_of_mem hm
  obtain ⟨seq, piece, rfl, _⟩ := chunkFrames_split hsplit
  exact ⟨seq, piece, _, rfl⟩

/-- A header and the chunks of its transfer. -/
theorem oneStream_transfer {reqId : String} {stream : Int} {header : Message}
    (h : About reqId header) (ch : Chunking) (data : Bytes) :
    OneStream reqId ((stream, header)
      :: (chunkFrames ch (.str reqId) stream data).map (fun m => (stream, m))) := by
  refine ⟨stream, fun x hx => ?_⟩
  rcases List.mem_cons.mp hx with rfl | hx
  · exact ⟨rfl, h⟩
  · obtain ⟨m, _, rfl⟩ := List.mem_map.mp hx
    obtain ⟨_, hleft⟩ := (leftover_chunkFrames ch reqId stream data).oneStream
    exact ⟨rfl, (hleft _ hx).2⟩

theorem oneStream_single {reqId : String} {x : Int × Message} (h : About reqId x.2) :
    OneStream reqId [x] :=
  ⟨x.1, fun y hy => by rw [List.mem_singleton.mp hy]; exact ⟨rfl, h⟩⟩

theorem oneStream_request (r : Request) (ch : Chunking) (stream : Int) (reqId : String) :
    OneStream reqId (r.header ch stream reqId :: r.chunks ch stream reqId) := by
  cases r with
  | load block key => exact oneStream_single (about_requestFrame reqId block key)
  | store data d key =>
    simp only [Request.header, Request.chunks]
    split
    · exact oneStream_transfer (about_storeHeader reqId _ d key stream) ch data
    · exact oneStream_single (about_storeFrame reqId data d key)

theorem oneStream_replies {r : Request} (v : Verdict r) (ch : Chunking) (stream : Int)
    (reqId : String) : OneStream reqId (v.replies ch stream reqId) := by
  rcases v.replies_cases ch stream reqId with ⟨m, hm, hplain⟩ | ⟨bytes, _, _, _, hm⟩
  · rw [hm]
    exact oneStream_single hplain.about
  · rw [hm]
    exact oneStream_transfer (about_replyHeader reqId bytes.length stream) ch bytes

theorem Stage.client_stream {chS chT : Chunking} {i : Nat} {c : RemoteCall} {S T : Slice K}
    (h : Stage I chS chT i c S T) : OneStream c.reqId S.queue := by
  cases h with
  | @asking stream _ _ _ _ messages _ _ _ _ _ =>
    refine (oneStream_request c.request chS stream c.reqId).sub (fun x hx => ?_)
    rw [messages]
    simp only [List.mem_append]
    exact Or.inr (Or.inl hx)
  | serving => exact ⟨0, by simp⟩
  | answering v leftover _ _ _ => exact leftover.oneStream.sub (fun x hx => List.mem_append_left _ hx)
  | done v leftover _ => exact leftover.oneStream

theorem Stage.server_stream {chS chT : Chunking} {i : Nat} {c : RemoteCall} {S T : Slice K}
    (h : Stage I chS chT i c S T) : OneStream c.reqId T.queue := by
  cases h with
  | asking => exact ⟨0, by simp⟩
  | serving => exact ⟨0, by simp⟩
  | @answering v stream _ _ _ _ _ _ _ _ _ _ messages _ =>
    refine (oneStream_replies v chT stream c.reqId).sub (fun x hx => ?_)
    rw [messages]
    simp only [List.mem_append]
    exact Or.inr (Or.inl hx)
  | done => exact ⟨0, by simp⟩

theorem Stage.client_handler {chS chT : Chunking} {i : Nat} {c : RemoteCall} {S T : Slice K}
    (h : Stage I chS chT i c S T) : S.handler = .idle := by
  cases h <;> rfl

theorem Stage.client_log {chS chT : Chunking} {i : Nat} {c : RemoteCall} {S T : Slice K}
    (h : Stage I chS chT i c S T) : S.log = [] := by
  cases h <;> rfl

/-! ## Local changes -/

/-- The handler works for request `k` or not at all. -/
def Handler.Only (k : K) (h : Handler K) : Prop := ∀ reqId, h.reqId = some reqId → I.key reqId = some k

theorem only_idle (k : K) : (Handler.idle : Handler K).Only I k := by
  intro reqId h
  cases h

theorem only_sending (reqId : String) (outs : List (Int × Message)) :
    (Handler.sending (.str reqId) outs : Handler K).Only I (I.strKey reqId) := by
  intro id h
  cases outs with
  | nil => cases h
  | cons m rest =>
    cases h
    exact I.key_str reqId

theorem Handler.Only.about_self {k : K} {h : Handler K} (ho : h.Only I k) : h.about I k = h := by
  cases h with
  | idle => rfl
  | store id _ _ _ _ => exact Replication.about_self I rfl (ho id rfl)
  | load id _ => exact Replication.about_self I rfl (ho id rfl)
  | free id _ => exact Replication.about_self I rfl (ho id rfl)
  | send id _ _ => exact Replication.about_self I rfl (ho id rfl)

theorem Handler.Only.about_other {k k' : K} {h : Handler K} (ho : h.Only I k) (hne : k' ≠ k) :
    h.about I k' = .idle := by
  cases hid : h.reqId with
  | none => simp [Handler.about, hid]
  | some id => exact Replication.about_other I hid (ho id hid) hne

/-- Every request id at the node can be a dictionary key. -/
structure Node.Keyed (n : Node K) : Prop where
  outbox : ∀ x ∈ n.outbox, ∃ k, reqKey I x.2 = some k
  handler : ∀ reqId, n.handler.reqId = some reqId → ∃ k, I.key reqId = some k
  log : ∀ x ∈ n.log, ∃ k, I.key x.1 = some k

/-- From `n` to `n'` nothing changed but about request `k`, and the calls
and the BlockManager. -/
structure Local (k : K) (n n' : Node K) : Prop where
  chunking : n'.chunking = n.chunking
  closed : n'.closed = n.closed
  tables : Coordinator.SameExcept k n.coordinator n'.coordinator
  handler : n'.handler = n.handler ∨ (n.handler.Only I k ∧ n'.handler.Only I k)
  outbox : n'.outbox = n.outbox ∨ (∃ x, reqKey I x.2 = some k ∧ n'.outbox = n.outbox ++ [x]) ∨
    ∃ (j : Nat) (x : Int × Message), n.outbox[j]? = some x ∧ reqKey I x.2 = some k ∧
      n'.outbox = n.outbox.eraseIdx j
  log : n'.log = n.log ∨ ∃ reqId x, I.key reqId = some k ∧ n'.log = n.log ++ [(reqId, x)]

theorem Coordinator.SameExcept.refl (k : K) (c : Coordinator K) : c.SameExcept k c :=
  fun _ _ => ⟨rfl, rfl, rfl⟩

theorem Local.refl (k : K) (n : Node K) : Local I k n n :=
  ⟨rfl, rfl, .refl k _, Or.inl rfl, Or.inl rfl, Or.inl rfl⟩

theorem logOf_append_self {α : Type} {k : K} {reqId : Value} (h : I.key reqId = some k)
    (log : List (Value × α)) (x : α) :
    logOf I k (log ++ [(reqId, x)]) = logOf I k log ++ [x] := by
  simp [logOf, List.filter_append, h]

theorem logOf_append_other {α : Type} {k k' : K} {reqId : Value} (h : I.key reqId = some k)
    (hne : k' ≠ k) (log : List (Value × α)) (x : α) :
    logOf I k' (log ++ [(reqId, x)]) = logOf I k' log := by
  simp [logOf, List.filter_append, h, Ne.symm hne]

/-- The frame rule: the slices of all other requests are as before. -/
theorem Local.slice {k : K} {n n' : Node K} (h : Local I k n n') {k' : K} (hne : k' ≠ k) :
    n'.slice I k' = n.slice I k' := by
  obtain ⟨hpend, hbuf, hpull⟩ := h.tables k' hne
  have hhandler : n'.handler.about I k' = n.handler.about I k' := by
    rcases h.handler with heq | ⟨ho, ho'⟩
    · rw [heq]
    · rw [ho.about_other I hne, ho'.about_other I hne]
  have hqueue : queueOf I k' n'.outbox = queueOf I k' n.outbox := by
    rcases h.outbox with heq | ⟨x, hx, heq⟩ | ⟨j, x, hj, hx, heq⟩
    · rw [heq]
    · rw [heq, queueOf_append_other I hx hne]
    · rw [heq, queueOf_eraseIdx_other I hj hx hne]
  have hlog : logOf I k' n'.log = logOf I k' n.log := by
    rcases h.log with heq | ⟨reqId, x, hx, heq⟩
    · rw [heq]
    · rw [heq, logOf_append_other I hx hne]
  simp only [Node.slice, hpend, hbuf, hpull, hhandler, hqueue, hlog]

theorem Local.keyed {k : K} {n n' : Node K} (h : Local I k n n') (hn : n.Keyed I) : n'.Keyed I where
  outbox := by
    intro y hy
    rcases h.outbox with heq | ⟨x, hx, heq⟩ | ⟨j, x, _, _, heq⟩
    · exact hn.outbox y (heq ▸ hy)
    · rw [heq, List.mem_append, List.mem_singleton] at hy
      rcases hy with hy | rfl
      · exact hn.outbox y hy
      · exact ⟨k, hx⟩
    · exact hn.outbox y (List.mem_of_mem_eraseIdx (heq ▸ hy))
  handler := by
    intro reqId hid
    rcases h.handler with heq | ⟨_, ho⟩
    · exact hn.handler reqId (heq ▸ hid)
    · exact ⟨k, ho reqId hid⟩
  log := by
    intro y hy
    rcases h.log with heq | ⟨reqId, x, hx, heq⟩
    · exact hn.log y (heq ▸ hy)
    · rw [heq, List.mem_append, List.mem_singleton] at hy
      rcases hy with hy | rfl
      · exact hn.log y hy
      · exact ⟨k, hx⟩

/-! ## The asking call goes on -/

/-- Steps a call needs by itself. A message is counted until it is
delivered, with room for a handler that answers it. -/
def Phase.weight : Phase → Nat
  | .send _ _ rest => 4 * (rest.length + 1) + 3
  | .awaitReply => 2
  | .awaitPull _ => 1
  | .done _ => 0

def Handler.weight : Handler K → Nat
  | .idle => 0
  | .send _ _ rest => 2 * (rest.length + 1)
  | _ => 1

theorem weight_sending (reqId : Value) (outs : List (Int × Message)) :
    (Handler.sending reqId outs : Handler K).weight = 2 * outs.length := by
  cases outs <;> rfl

/-- Steps a request needs, apart from the BlockManager call. -/
def weight (c : RemoteCall) (S T : Slice K) : Nat :=
  c.phase.weight + 3 * S.queue.length + T.handler.weight + T.queue.length

section Asking

variable {chS chT : Chunking} {i : Nat} {c : RemoteCall} {S T : Slice K}

/-- The phase is not part of what was heard. -/
theorem Heard.phase {result : Result} {got rest : List (Int × Message)}
    {pending pull : Option Nat} {buffer : Option Buffer}
    (h : Heard i c result got rest pending buffer pull) (p : Phase) :
    Heard i { c with phase := p } result got rest pending buffer pull := by
  cases h with
  | nothing noReply noPull => exact .nothing noReply noPull
  | reply plain hasReply noPull => exact .reply plain hasReply noPull
  | header isLoad hresult announces hasReply noPull left holds =>
    exact .header isLoad hresult announces hasReply noPull left holds
  | all isLoad hresult announces hasReply hasPull =>
    exact .all isLoad hresult announces hasReply hasPull

/-- One more message is queued. -/
theorem Stage.send (h : Stage I chS chT i c S T) {header : Bool} {m : Int × Message}
    {rest : List (Int × Message)} (hp : c.phase = .send header m rest) :
    About c.reqId m.2 ∧
      Stage I chS chT i { c with phase := .afterSend rest } { S with queue := S.queue ++ [m] } T := by
  cases h with
  | @asking stream got queued unsent buffer messages left phase noReply noPull incoming =>
    rw [hp] at phase
    cases phase
    have hmessages : c.request.header chS stream c.reqId :: c.request.chunks chS stream c.reqId
        = got ++ ((queued ++ [m]) ++ rest) := by simpa using messages
    refine ⟨?_, Stage.asking hmessages (by simp) (Phase.unsent_afterSend rest) noReply noPull
      incoming⟩
    obtain ⟨_, hall⟩ := oneStream_request c.request chS stream c.reqId
    exact (hall m (by rw [hmessages]; simp)).2
  | serving phase =>
    rw [hp] at phase
    cases phase
  | @answering v stream queued unsent got replies outs pending pull buffer leftover phase messages
      heard =>
    rcases phase with phase | ⟨_, phase, _⟩
    · rw [hp] at phase
      cases phase
      have hleft : Leftover c.reqId ((queued ++ [m]) ++ rest) := by simpa using leftover
      obtain ⟨_, hall⟩ := leftover.oneStream
      exact ⟨(hall m (by simp)).2, Stage.answering (c := { c with phase := .afterSend rest }) v hleft
        (Or.inl (Phase.unsent_afterSend rest)) messages (heard.phase _)⟩
    · rw [hp] at phase
      cases phase
  | done v leftover phase =>
    rw [hp] at phase
    cases phase

/-- The call waits for its reply and has it: it is settled, or it goes on
to wait for the chunks. -/
theorem Stage.on_reply (h : Stage I chS chT i c S T) (hp : c.phase = .awaitReply) {msg : Message}
    (hr : c.reply = some msg) :
    (announcesChunks msg = false ∧ S.pending = none ∧ S.buffer = none ∧ S.pull = none ∧
      Stage I chS chT i { c with phase := .done (c.request.resultOf msg) } S T) ∨
    ((∃ block key, c.request = .load block key) ∧ announcesChunks msg = true ∧ S.pull = some i ∧
      Stage I chS chT i { c with phase := .awaitPull i } S T) := by
  cases h with
  | asking _ _ _ noReply =>
    rw [hr] at noReply
    cases noReply
  | serving _ noReply =>
    rw [hr] at noReply
    cases noReply
  | @answering v stream queued unsent got replies outs pending pull buffer leftover phase messages
      heard =>
    have hunsent : unsent = [] := by
      rcases phase with phase | ⟨hnil, _, _⟩
      · rw [hp] at phase
        cases phase
        rfl
      · exact hnil
    subst hunsent
    generalize hrest : replies ++ outs = rest at heard messages
    cases heard with
    | nothing noReply =>
      rw [hr] at noReply
      cases noReply
    | @reply m plain hasReply noPull =>
      obtain ⟨rfl, rfl⟩ := List.append_eq_nil_iff.mp hrest
      rw [hr] at hasReply
      cases hasReply
      refine Or.inl ⟨plain.quiet, rfl, rfl, rfl, ?_⟩
      exact Stage.done (c := { c with phase := .done (c.request.resultOf m.2) }) v
        (by simpa using leftover) (congrArg Phase.done plain.result)
    | @header bytes m chunks _ b isLoad hresult announces hasReply noPull left holds =>
      rw [hr] at hasReply
      cases hasReply
      subst hrest
      refine Or.inr ⟨isLoad, announces, rfl, ?_⟩
      exact Stage.answering (c := { c with phase := .awaitPull i }) v leftover
        (Or.inr ⟨rfl, rfl, rfl⟩) messages
        (Heard.header isLoad hresult announces hr noPull left holds)
    | @all bytes m chunks isLoad hresult announces hasReply hasPull =>
      rw [hr] at hasReply
      cases hasReply
      refine Or.inr ⟨isLoad, announces, rfl, ?_⟩
      refine Stage.answering (c := { c with phase := .awaitPull i }) v leftover
        (Or.inr ⟨rfl, rfl, rfl⟩) (by rw [hrest]; exact messages) ?_
      rw [hrest]
      exact Heard.all isLoad hresult announces hr hasPull
  | done v leftover phase =>
    rw [hp] at phase
    cases phase

/-- The call waits for the chunks and has them. -/
theorem Stage.on_pull (h : Stage I chS chT i c S T) {f : Nat} (hp : c.phase = .awaitPull f) :
    f = i ∧ ∀ res, c.pull = some res → ∃ bytes, res = .ok bytes ∧
      (∃ block key, c.request = .load block key) ∧
      Stage I chS chT i { c with phase := .done (.loaded (some bytes)) }
        { S with pending := none, buffer := none, pull := none } T := by
  cases h with
  | asking _ _ phase =>
    rw [hp] at phase
    cases phase
  | serving phase =>
    rw [hp] at phase
    cases phase
  | @answering v stream queued unsent got replies outs pending pull buffer leftover phase messages
      heard =>
    rcases phase with phase | ⟨rfl, phase, _⟩
    · rw [hp] at phase
      cases phase
    · rw [hp] at phase
      cases phase
      refine ⟨rfl, fun res hres => ?_⟩
      generalize hrest : replies ++ outs = rest at heard messages
      cases heard with
      | nothing _ noPull =>
        rw [hres] at noPull
        cases noPull
      | reply _ _ noPull =>
        rw [hres] at noPull
        cases noPull
      | header _ _ _ _ noPull =>
        rw [hres] at noPull
        cases noPull
      | @all bytes m chunks isLoad hresult announces hasReply hasPull =>
        rw [hres] at hasPull
        cases hasPull
        obtain ⟨rfl, rfl⟩ := List.append_eq_nil_iff.mp hrest
        refine ⟨bytes, rfl, isLoad, ?_⟩
        exact Stage.done (c := { c with phase := .done (.loaded (some bytes)) }) v
          (by simpa using leftover) (congrArg Phase.done hresult.symm)
  | done v leftover phase =>
    rw [hp] at phase
    cases phase

end Asking

/-! ## Steps of the asking node -/

theorem local_finish (n : Node K) (i : Nat) (c : RemoteCall) (r : Result) :
    Local I (I.strKey c.reqId) n (n.finish I i c r) := by
  refine ⟨rfl, rfl, fun k' hne => ?_, Or.inl rfl, Or.inl rfl, Or.inl rfl⟩
  cases hreq : c.request <;> simp [Node.finish, Node.cleanUp, hreq, Dict.get_erase, hne]

theorem slice_finish {n : Node K} {c : RemoteCall} (i : Nat) (r : Result)
    (hbuf : (n.slice I (I.strKey c.reqId)).buffer = none)
    (hpull : (n.slice I (I.strKey c.reqId)).pull = none) :
    (n.finish I i c r).slice I (I.strKey c.reqId)
      = { n.slice I (I.strKey c.reqId) with pending := none } := by
  simp only [Node.slice] at hbuf hpull
  cases hreq : c.request <;> simp [Node.finish, Node.cleanUp, hreq, Node.slice, hbuf, hpull]

theorem slice_finish_load {n : Node K} {c : RemoteCall} (i : Nat) (r : Result)
    (h : ∃ block key, c.request = .load block key) :
    (n.finish I i c r).slice I (I.strKey c.reqId)
      = { n.slice I (I.strKey c.reqId) with pending := none, buffer := none, pull := none } := by
  obtain ⟨block, key, hreq⟩ := h
  simp [Node.finish, Node.cleanUp, hreq, Node.slice]

/-- Call `i` of node `n` became `c'`, and with it the node `n'`; the
serving node is as it was. -/
structure Advanced (chS chT : Chunking) (i : Nat) (c c' : RemoteCall) (n n' : Node K)
    (T : Slice K) : Prop where
  reqId : c'.reqId = c.reqId
  request : c'.request = c.request
  calls : n'.calls = n.calls.set i c'
  moved : Local I (I.strKey c.reqId) n n'
  stage : Stage I chS chT i c' (n'.slice I (I.strKey c.reqId)) T
  lighter : weight c' (n'.slice I (I.strKey c.reqId)) T < weight c (n.slice I (I.strKey c.reqId)) T

section

variable {chS chT : Chunking} {i : Nat} {c : RemoteCall} {T : Slice K} {n n' : Node K}

theorem advanced_send (hst : Stage I chS chT i c (n.slice I (I.strKey c.reqId)) T) {header : Bool}
    {m : Int × Message} {rest : List (Int × Message)} (hp : c.phase = .send header m rest) :
    Advanced I chS chT i c { c with phase := .afterSend rest } n
      { n with outbox := n.outbox ++ [m], calls := n.calls.set i { c with phase := .afterSend rest } }
      T := by
  obtain ⟨habout, hstage⟩ := hst.send I hp
  have hkey := habout.key I
  have hslice : ({ n with
        outbox := n.outbox ++ [m]
        calls := n.calls.set i { c with phase := .afterSend rest } } : Node K).slice I (I.strKey c.reqId)
      = { n.slice I (I.strKey c.reqId) with
          queue := (n.slice I (I.strKey c.reqId)).queue ++ [m] } := by
    simp only [Node.slice, queueOf_append_self I hkey]
  refine ⟨rfl, rfl, rfl, ⟨rfl, rfl, .refl _ _, Or.inl rfl, Or.inr (Or.inl ⟨m, hkey, rfl⟩),
    Or.inl rfl⟩, ?_, ?_⟩
  · rw [hslice]
    exact hstage
  · have hafter : (Phase.afterSend rest).weight ≤ 4 * rest.length + 3 := by
      cases rest <;> simp [Phase.afterSend, Phase.weight]
    have hbefore : c.phase.weight = 4 * (rest.length + 1) + 3 := by
      rw [hp]
      rfl
    rw [hslice]
    simp only [weight, hbefore, List.length_append, List.length_singleton]
    omega

theorem advanced_onReply (hst : Stage I chS chT i c (n.slice I (I.strKey c.reqId)) T)
    (hp : c.phase = .awaitReply) {msg : Message} (hr : c.reply = some msg) :
    ∃ c', Advanced I chS chT i c c' n (n.onReply I i c msg) T := by
  rcases hst.on_reply I hp hr with ⟨hquiet, hpend, hbuf, hpull, hstage⟩ |
    ⟨⟨block, key, hreq⟩, hann, hpull, hstage⟩
  · have hnode : n.onReply I i c msg = n.finish I i c (c.request.resultOf msg) := by
      cases hreq : c.request <;> simp [Node.onReply, hreq, hquiet, Request.resultOf]
    have hslice := slice_finish I i (c.request.resultOf msg) hbuf hpull
    rw [← hpend] at hslice
    refine ⟨{ c with phase := .done (c.request.resultOf msg) }, rfl, rfl, by rw [hnode]; rfl,
      by rw [hnode]; exact local_finish I n i c _, ?_, ?_⟩
    · rw [hnode, hslice]
      exact hstage
    · rw [hnode, hslice]
      simp only [weight, hp, Phase.weight]
      omega
  · have hget : n.coordinator.pullFutures.get (I.strKey c.reqId) = some i := hpull
    have hnode : n.onReply I i c msg
        = { n with calls := n.calls.set i { c with phase := .awaitPull i } } := by
      simp [Node.onReply, hreq, hann, hget]
    refine ⟨{ c with phase := .awaitPull i }, rfl, rfl, by rw [hnode],
      by rw [hnode]; exact ⟨rfl, rfl, .refl _ _, Or.inl rfl, Or.inl rfl, Or.inl rfl⟩, ?_, ?_⟩
    · rw [hnode]
      exact hstage
    · rw [hnode]
      simp only [weight, hp, Phase.weight, Node.slice]
      omega

/-- **A call goes on.** -/
theorem advanced_of_advance (hc : n.calls[i]? = some c) (hopen : n.closed = false)
    (hst : Stage I chS chT i c (n.slice I (I.strKey c.reqId)) T) (h : n.advance I i = some n') :
    ∃ c', Advanced I chS chT i c c' n n' T := by
  simp only [Node.advance, hc] at h
  cases hp : c.phase with
  | send header m rest =>
    simp only [hp] at h
    rw [if_neg (by simp [hopen])] at h
    cases h
    exact ⟨_, advanced_send I hst hp⟩
  | awaitReply =>
    simp only [hp, Option.map_eq_some_iff] at h
    obtain ⟨msg, hr, rfl⟩ := h
    exact advanced_onReply I hst hp hr
  | awaitPull f =>
    obtain ⟨rfl, hpull⟩ := hst.on_pull I hp
    simp only [hp, hc, Option.bind_some] at h
    cases hres : c.pull with
    | none =>
      rw [hres] at h
      cases h
    | some res =>
      obtain ⟨bytes, rfl, hload, hstage⟩ := hpull res hres
      simp only [hres, Option.some.injEq] at h
      subst h
      have hslice := slice_finish_load (n := n) I f (.loaded (some bytes)) hload
      refine ⟨{ c with phase := .done (.loaded (some bytes)) }, rfl, rfl, rfl,
        local_finish I n f c _, ?_, ?_⟩
      · rw [hslice]
        exact hstage
      · rw [hslice]
        simp only [weight, hp, Phase.weight]
        omega
  | done r =>
    simp only [hp] at h
    cases h

end

/-! ## Steps of the serving node -/

omit [DecidableEq K] in
theorem hashError_keyObject (key : Option K) :
    hashError (keyObject (.ok key)) = none ∧ keyObject (.ok key) = key.map .inl := by
  cases key <;> exact ⟨rfl, rfl⟩

/-- A handler's store under a key that has a hash, in a store of such
keys. -/
theorem serve_store {cfg : Settings (KeyObject K)} {m : BlockManager cfg} (hm : AnyKey.Hashable m)
    (ch : Chunking) (stream : Nat) (sh : Shuffles cfg.stripeCount) (reqId : Value) (transfer : Bool)
    (data : Bytes) (d : Durability) (key : Option K) :
    ∃ (res : Except StoreError BlockId) (out : Served cfg),
      (Handler.store reqId transfer data d (.ok key)).serve ch stream m sh = some out ∧
      out.next = .sending reqId [onOwnStream (storeReply reqId res)] ∧
      out.made = some (.store ⟨data, d, key⟩, .ofStore res) ∧ AnyKey.Hashable out.manager := by
  obtain ⟨hhash, hobject⟩ := hashError_keyObject key
  obtain ⟨hstore, hleft⟩ := AnyKey.store_eq hm sh (r := ⟨data, d, keyObject (.ok key)⟩) hhash
  refine ⟨(m.store sh ⟨data, d, keyObject (.ok key)⟩).2, _, rfl, ?_⟩
  rw [hstore]
  refine ⟨?_, ?_, hleft⟩ <;> cases (m.store sh ⟨data, d, keyObject (.ok key)⟩).2 <;> rfl

/-- What the BlockManager call of a request leads to. -/
theorem serve_work {r : Request} (hstorable : r.Storable) (hkey : r.hashable I = true)
    (reqId : String) (transfer : Bool) {cfg : Settings (KeyObject K)} (ch : Chunking) (stream : Nat)
    {m : BlockManager cfg} (hm : AnyKey.Hashable m) (sh : Shuffles cfg.stripeCount) :
    ∃ (v : Verdict r) (out : Served cfg) (made : Call K × Outcome),
      (r.work I reqId transfer).serve ch stream m sh = some out ∧
      out.next = .sending (.str reqId) (v.replies ch stream reqId) ∧
      out.made = some made ∧ v.log I = [made] ∧ AnyKey.Hashable out.manager := by
  cases r with
  | store data d key =>
    obtain ⟨res, out, hout, hnext, hmade, hleft⟩ :=
      serve_store hm ch stream sh (.str reqId) transfer data d (storeKey I key)
    refine ⟨.stored hstorable res, out, _, ?_, hnext, hmade, rfl, hleft⟩
    rw [Request.work, keyArgument_of_hashable I hkey, hout]
  | load block key =>
    refine ⟨.loaded (loadedBytes (m.exec sh (hashedCall (loadOf I block key))).2), _, _, rfl, rfl,
      rfl, ?_, ?_⟩
    · cases block <;> cases key <;> rfl
    · cases block <;> cases key <;> exact hm

section

variable {chS chT : Chunking} {i : Nat} {c : RemoteCall} {S : Slice K} {n n' : Node K}

/-- The request's handler works for it and for nothing else. -/
theorem only_work (r : Request) (reqId : String) (transfer : Bool) :
    (r.work I reqId transfer).Only I (I.strKey reqId) := by
  intro id hid
  cases r <;> cases hid <;> exact I.key_str reqId

theorem reqId_work (r : Request) (reqId : String) (transfer : Bool) :
    (r.work I reqId transfer).reqId = some (.str reqId) := by
  cases r <;> rfl

/-- **The BlockManager call.** It is made once, in the stage before any
answer, and fixes the verdict. -/
theorem stage_of_serve (hst : Stage I chS chT i c S (n.slice I (I.strKey c.reqId)))
    (honly : n.handler.Only I (I.strKey c.reqId)) (hch : n.chunking = chT)
    (hkey : c.request.hashable I = true) (hm : AnyKey.Hashable n.manager)
    {sh : (stripes : Nat) → Shuffles stripes} (h : n.serve sh = some n') :
    Local I (I.strKey c.reqId) n n' ∧ n'.calls = n.calls ∧ AnyKey.Hashable n'.manager ∧
      Stage I chS chT i c S (n'.slice I (I.strKey c.reqId)) ∧
      (n.slice I (I.strKey c.reqId)).log = [] ∧ (n'.slice I (I.strKey c.reqId)).log ≠ [] := by
  have hhandler : (n.slice I (I.strKey c.reqId)).handler = n.handler := honly.about_self I
  generalize hT : n.slice I (I.strKey c.reqId) = T at hst hhandler
  cases hst with
  | asking =>
    simp only at hhandler
    simp [Node.serve, ← hhandler, Handler.serve] at h
  | @serving transfer phase noReply noPull storable =>
    simp only at hhandler
    obtain ⟨v, out, made, hserve, hnext, hmade, hlog, hleft⟩ :=
      serve_work I storable hkey c.reqId transfer n.chunking n.coordinator.nextStream hm
        (sh n.cfg.stripeCount)
    simp only [Node.serve, ← hhandler, hserve, Option.some.injEq] at h
    have hlogged : Node.logged (c.request.work I c.reqId transfer).reqId out.made
        = [(.str c.reqId, made)] := by
      rw [reqId_work, hmade]
      rfl
    rw [hlogged] at h
    subst h
    obtain ⟨hpend, hbuf, hpull, _, hlogn, hqueue⟩ := Slice.mk.inj hT
    have hslice : ({ n with
          manager := out.manager
          coordinator := { n.coordinator with nextStream := out.nextStream }
          handler := out.next
          log := n.log ++ [(.str c.reqId, made)]
          commits := n.commits
            ++ Node.logged (c.request.work I c.reqId transfer).reqId out.committed } : Node K).slice I
          (I.strKey c.reqId)
        = ⟨none, none, none,
            .sending (.str c.reqId) (v.replies chT n.coordinator.nextStream c.reqId), v.log I,
            []⟩ := by
      simp only [Node.slice, hpend, hbuf, hpull, hqueue, logOf_append_self I (I.key_str c.reqId),
        hlogn, hlog, hnext, hch, (only_sending I c.reqId _).about_self I, List.nil_append]
    refine ⟨⟨rfl, rfl, .refl _ _, Or.inr ⟨honly, ?_⟩, Or.inl rfl,
      Or.inr ⟨_, made, I.key_str c.reqId, rfl⟩⟩, rfl, hleft, ?_, rfl, ?_⟩
    · rw [show out.next = _ from hnext]
      exact only_sending I c.reqId _
    · rw [hslice]
      have hleft : Leftover c.reqId (([] : List (Int × Message)) ++ []) := ⟨0, by simp⟩
      exact Stage.answering v hleft (Or.inl (by rw [phase]; rfl))
        (show _ = [] ++ ([] ++ v.replies chT n.coordinator.nextStream c.reqId) from rfl)
        (Heard.nothing noReply noPull)
    · rw [hslice, hlog]
      simp
  | @answering v stream queued unsent got replies outs pending pull buffer leftover phase messages
      heard =>
    simp only at hhandler
    cases outs <;> simp [Node.serve, ← hhandler, Handler.sending, Handler.serve] at h
  | done =>
    simp only at hhandler
    simp [Node.serve, ← hhandler, Handler.serve] at h

/-- **The handler sends.** -/
theorem stage_of_reply (hst : Stage I chS chT i c S (n.slice I (I.strKey c.reqId)))
    (honly : n.handler.Only I (I.strKey c.reqId)) (hopen : n.closed = false)
    (h : n.reply = some n') :
    Local I (I.strKey c.reqId) n n' ∧ n'.calls = n.calls ∧
      Stage I chS chT i c S (n'.slice I (I.strKey c.reqId)) ∧
      (n'.slice I (I.strKey c.reqId)).log = (n.slice I (I.strKey c.reqId)).log ∧
      weight c S (n'.slice I (I.strKey c.reqId)) < weight c S (n.slice I (I.strKey c.reqId)) := by
  have hhandler : (n.slice I (I.strKey c.reqId)).handler = n.handler := honly.about_self I
  generalize hT : n.slice I (I.strKey c.reqId) = T at hst hhandler
  cases hst with
  | asking =>
    simp only at hhandler
    simp [Node.reply, ← hhandler] at h
  | @serving transfer =>
    simp only at hhandler
    cases hreq : c.request <;> simp [Node.reply, ← hhandler, hreq, Request.work] at h
  | @answering v stream queued unsent got replies outs pending pull buffer leftover phase messages
      heard =>
    simp only at hhandler
    cases outs with
    | nil => simp [Node.reply, ← hhandler, Handler.sending] at h
    | cons m rest =>
      have hsend : n.handler = .send (.str c.reqId) m rest := hhandler.symm
      simp only [Node.reply, hsend] at h
      rw [if_neg (by simp [hopen])] at h
      cases h
      obtain ⟨_, hall⟩ := oneStream_replies v chT stream c.reqId
      have hkey : reqKey I m.2 = some (I.strKey c.reqId) :=
        (hall m (by rw [messages]; simp)).2.key I
      have hslice : ({ n with
            outbox := n.outbox ++ [m]
            handler := .sending (.str c.reqId) rest } : Node K).slice I (I.strKey c.reqId)
          = ⟨none, none, none, .sending (.str c.reqId) rest, v.log I, replies ++ [m]⟩ := by
        obtain ⟨hpend, hbuf, hpull, _, hlog, hqueue⟩ := Slice.mk.inj hT
        simp only [Node.slice, hpend, hbuf, hpull, queueOf_append_self I hkey, hqueue, hlog,
          (only_sending I c.reqId _).about_self I]
      refine ⟨⟨rfl, rfl, .refl _ _, Or.inr ⟨honly, only_sending I c.reqId rest⟩,
        Or.inr (Or.inl ⟨m, hkey, rfl⟩), Or.inl rfl⟩, rfl, ?_, ?_, ?_⟩
      · rw [hslice]
        have hmessages : v.replies chT stream c.reqId = got ++ ((replies ++ [m]) ++ rest) := by
          simpa using messages
        refine Stage.answering v leftover phase hmessages ?_
        rw [List.append_assoc]
        exact heard
      · rw [hslice]
      · rw [hslice]
        simp only [weight, weight_sending, List.length_append, List.length_cons, List.length_nil]
        omega
  | done =>
    simp only at hhandler
    simp [Node.reply, ← hhandler] at h

end

end Memnode.Replication
