/-
Memnode.Rpc.Session — one client of the RPC server, from its first byte
to the end of the handler.

The client is a byte stream with an ending. The handler authenticates,
negotiates the codec and then reads frame after frame, dispatches and
answers. What it dispatches to is a parameter: a state and a function on
it that returns an answer or raises. A session ends with the state, the
frames written, whether the writer was closed, and whether an exception
escaped.

Two results. A client that does not answer the challenge has no effect,
and sees nothing of the state (`unauthenticated_no_effect`). And
`session_discipline_iff` says when a session ends as it should, for a
server whose own answers are of the kind `_dispatch` makes
(`Server.Speaks`). The exceptions are an answer to the challenge that is
not an object, not ASCII or nested too deeply; a request that is not an
object; an `op` that is nested so deeply that no text can be made of it,
which `_dispatch` raises for and the log line again; and a response with
a value of a peer's or of the trust store's that the codec cannot write.
-/
import Memnode.Rpc.Wire

namespace Memnode.Rpc

open Lib Lib.Json

/-! ## The handler -/

/-- How the handler ends. -/
inductive Outcome where
  | returned
  /-- an exception escapes -/
  | raised
  /-- it waits for the client -/
  | waits
  deriving DecidableEq

/-- What the handler did for one client. -/
structure Session (σ : Type) where
  state : σ
  written : List Bytes
  closed : Bool
  outcome : Outcome

/-- A decoded request. -/
abbrev Object := List (Py.Key × Py)

/-- What the server has besides the connection. `handle` is `_dispatch`
on a request, with the codec; the error is the text of what it raises. -/
structure Server (σ : Type) where
  handle : σ → Object → Codec → σ × Except Text Answer
  /-- `compute_response(token, challenge)` -/
  computeResponse : Text → Text

/-- `req.get("op")`. -/
def opOf (fields : Object) : Py := (Py.get fields "op").getD .none

section Handler

variable {σ : Type} (L : Library) (srv : Server σ)

/-- `_dispatch`. An `op` it does not know goes into the text of the
answer, and no text can be made of one that is nested too deeply. -/
def dispatch (c : Codec) (state : σ) (fields : Object) : σ × Except Text Answer :=
  if L.formatRoom < (opOf fields).nesting then
    (state, .error (Py.text "maximum recursion depth exceeded while getting the repr of an object"))
  else srv.handle state fields c

/-- The answer to a request: what `_dispatch` returns, or a report of
what it raises. That is logged first, with the `op`, and the logging
module lets a `RecursionError` through. -/
def respond (c : Codec) (state : σ) (fields : Object) : σ × Option Py :=
  match dispatch L srv c state fields with
  | (state, .ok answer) => (state, some (answer.value c))
  | (state, .error message) =>
      if L.logRoom < (opOf fields).nesting then (state, none)
      else (state, some ((failed message).value c))

/-- The end of the read loop, after a report if there is one to make. -/
def stop (c : Codec) (state : σ) (report : Option Text) : Session σ :=
  match report with
  | none => ⟨state, [], true, .returned⟩
  | some message =>
      match (L.wire c).frame ((failed message).value c) with
      | none => ⟨state, [], true, .raised⟩
      | some b => ⟨state, [b], true, .returned⟩

/-- Frames that were written before. -/
def Session.after (s : Session σ) (frames : List Bytes) : Session σ :=
  { s with written := frames ++ s.written }

/-- The frame of a response that there is and that can be written. -/
def frameOf (c : Codec) (response : Option Py) : Option Bytes := response.bind (L.wire c).frame

/-- The read loop, for at most `fuel` frames. -/
def serve (c : Codec) : Nat → σ → Option Bytes → Stream → Session σ
  | 0, state, _, _ => ⟨state, [], false, .waits⟩
  | fuel + 1, state, pending, s =>
      match readFrame (L.wire c) pending s with
      | .incomplete => stop L c state none
      | .broken => stop L c state none
      | .reset => stop L c state none
      | .oversized length => stop L c state (some (Py.text (oversizedText length)))
      | .undecodable message => stop L c state (some message)
      | .waits => ⟨state, [], false, .waits⟩
      | .request (.dict fields) rest =>
          match frameOf L c (respond L srv c state fields).2 with
          -- the writer is closed on the way out
          | none => ⟨(respond L srv c state fields).1, [], true, .raised⟩
          | some b => (serve c fuel (respond L srv c state fields).1 none rest).after [b]
      -- `req.get` raises in `_dispatch`, and again where that is logged
      | .request _ _ => ⟨state, [], true, .raised⟩

/-- The answer to a client that speaks MessagePack. -/
def greeting : Answer := [("ok", .bool true), ("codec", .text (Py.text "msgpack"))]

/-- Codec negotiation, and the read loop. -/
def negotiate (state : σ) (s : Stream) : Session σ :=
  match readExactly Config.rpcMagicLen s with
  | .incomplete => ⟨state, [], true, .returned⟩
  | .reset => ⟨state, [], true, .returned⟩
  | .waits => ⟨state, [], false, .waits⟩
  | .got prefixBytes rest =>
      if prefixBytes = Config.rpcMsgpackMagic then
        match (L.wire .msgpack).frame (greeting.value .msgpack) with
        | none => ⟨state, [], false, .raised⟩
        | some b => (serve L srv .msgpack (rest.bytes.length + 2) state none rest).after [b]
      else serve L srv .json (rest.bytes.length + 2) state (some prefixBytes) rest

/-- The first frame the server sends. -/
def challengeObject (challenge : Text) : Answer :=
  [("memnode_auth", .text (Py.text "challenge")), ("version", .int Config.rpcAuthVersion),
    ("challenge", .text challenge)]

def acceptance : Answer := [("ok", .bool true)]

/-- `verify_response`; `hmac.compare_digest` does not take texts that are not ASCII. -/
def verifyResponse (expected : Text) : Option Py → Option Bool
  | some (.str response) => if response.all (· < 0x80) then some (response = expected) else none
  | _ => some false

/-- What `_authenticate` comes to, after the challenge was written. -/
inductive Auth where
  | accepted (rest : Stream)
  /-- the response is wrong, and the client is told -/
  | wrong
  /-- there is no answer -/
  | unanswered
  | raised
  | reset

def authenticate (expected : Text) (s : Stream) : Auth :=
  match readFrame (L.wire .json) none s with
  | .request (.dict fields) rest =>
      match verifyResponse expected (Py.get fields "response") with
      | none => .raised
      | some true => .accepted rest
      | some false => .wrong
  -- `reply.get` of something that is not an object
  | .request _ _ => .raised
  | .broken => .raised
  | .reset => .reset
  | .oversized _ => .unanswered
  | .undecodable _ => .unanswered
  | .incomplete => .unanswered
  -- after `RPC_AUTH_TIMEOUT_SECONDS`
  | .waits => .unanswered

/-- A frame is written before the rest happens; the handler has no `finally` yet. -/
def writing (a : Answer) (state : σ) (rest : Session σ) : Session σ :=
  match (L.wire .json).frame (a.value .json) with
  | none => ⟨state, [], false, .raised⟩
  | some b => rest.after [b]

/-- `_handle_client`. -/
def handleClient (needsAuth : Bool) (challenge : Text) (state : σ) (s : Stream) : Session σ :=
  if needsAuth then
    writing L (challengeObject challenge) state
      (match authenticate L (srv.computeResponse challenge) s with
      | .accepted rest => writing L acceptance state (negotiate L srv state rest)
      | .wrong =>
          writing L (failed (Py.text "authentication failed")) state ⟨state, [], true, .returned⟩
      | .unanswered => ⟨state, [], true, .returned⟩
      | .reset => ⟨state, [], true, .returned⟩
      | .raised => ⟨state, [], false, .raised⟩)
  else negotiate L srv state s

end Handler

/-! ## Clients that do not answer the challenge -/

/-- The first frame is an object that carries the expected response. -/
def Answers (L : Library) (expected : Text) (s : Stream) : Prop :=
  ∃ fields rest, readFrame (L.wire .json) none s = .request (.dict fields) rest ∧
    Py.get fields "response" = some (.str expected)

def answered (L : Library) (expected : Text) (s : Stream) : Bool :=
  match readFrame (L.wire .json) none s with
  | .request (.dict fields) _ =>
      match Py.get fields "response" with
      | some (.str response) => response = expected
      | _ => false
  | _ => false

theorem answered_iff {L : Library} {expected : Text} {s : Stream} :
    answered L expected s = true ↔ Answers L expected s := by
  unfold answered Answers
  split
  · rename_i fields rest hread
    simp only [hread, Frame.request.injEq, Py.dict.injEq]
    split
    · rename_i response hresponse
      simp [hresponse]
    · rename_i hnot
      simp only [Bool.false_eq_true, false_iff, not_exists, not_and]
      rintro fields' rest' ⟨rfl, -⟩ hresponse
      exact hnot expected hresponse
  · rename_i hnot
    simp only [Bool.false_eq_true, false_iff, not_exists, not_and]
    intro fields rest hread
    exact absurd hread (hnot fields rest)

instance (L : Library) (expected : Text) (s : Stream) : Decidable (Answers L expected s) :=
  decidable_of_iff _ answered_iff

theorem verifyResponse_eq_true {expected : Text} {v : Option Py}
    (h : verifyResponse expected v = some true) : v = some (.str expected) := by
  unfold verifyResponse at h
  split at h
  · split at h
    · rename_i response _
      have heq : response = expected := by simpa using h
      rw [heq]
    · cases h
  · cases h

/-- A response that is right for neither of two tokens is treated alike. -/
theorem verifyResponse_congr {expected expected' : Text} {v : Option Py}
    (h : v ≠ some (.str expected)) (h' : v ≠ some (.str expected')) :
    verifyResponse expected v = verifyResponse expected' v := by
  unfold verifyResponse
  split
  · rename_i response
    have hne : response ≠ expected := fun heq => h (by rw [heq])
    have hne' : response ≠ expected' := fun heq => h' (by rw [heq])
    simp [hne, hne']
  · rfl

theorem authenticate_congr {L : Library} {expected expected' : Text} {s : Stream}
    (h : ¬Answers L expected s) (h' : ¬Answers L expected' s) :
    authenticate L expected s = authenticate L expected' s := by
  unfold authenticate
  split
  · rename_i fields rest hread
    rw [verifyResponse_congr (fun hv => h ⟨fields, rest, hread, hv⟩)
      (fun hv => h' ⟨fields, rest, hread, hv⟩)]
  all_goals rfl

theorem authenticate_ne_accepted {L : Library} {expected : Text} {s : Stream}
    (h : ¬Answers L expected s) (rest : Stream) : authenticate L expected s ≠ .accepted rest := by
  intro hauth
  unfold authenticate at hauth
  split at hauth
  · rename_i fields rest' hread
    split at hauth
    · cases hauth
    · rename_i hv
      exact h ⟨fields, rest', hread, verifyResponse_eq_true hv⟩
    · cases hauth
  all_goals cases hauth

section Refused

variable {σ τ : Type} (L : Library)

theorem writing_state {v : Answer} {state : σ} {rest : Session σ} (h : rest.state = state) :
    (writing L v state rest).state = state := by
  unfold writing
  split
  · rfl
  · exact h

theorem writing_written {v : Answer} {state : σ} {state' : τ} {rest : Session σ} {rest' : Session τ}
    (h : rest.written = rest'.written) :
    (writing L v state rest).written = (writing L v state' rest').written := by
  unfold writing
  split
  · rfl
  · exact congrArg _ h

/-- **Unauthenticated clients have no effect.** Handling one leaves the
state as it is, whatever the rest of the stream says, and what is
written is the same for every server, in every state, whose challenge
is the same and not answered. -/
theorem unauthenticated_no_effect (srv : Server σ) (challenge : Text) (state : σ) (s : Stream)
    (h : ¬Answers L (srv.computeResponse challenge) s) :
    (handleClient L srv true challenge state s).state = state ∧
    ∀ (srv' : Server τ) (state' : τ), ¬Answers L (srv'.computeResponse challenge) s →
      (handleClient L srv' true challenge state' s).written
        = (handleClient L srv true challenge state s).written := by
  have hnot := authenticate_ne_accepted h
  constructor
  · unfold handleClient
    rw [if_pos rfl]
    refine writing_state L ?_
    split
    · rename_i rest hauth
      exact absurd hauth (hnot rest)
    · exact writing_state L rfl
    · rfl
    · rfl
    · rfl
  · intro srv' state' h'
    unfold handleClient
    rw [if_pos rfl, if_pos rfl, authenticate_congr h' h]
    refine writing_written L ?_
    split
    · rename_i rest hauth
      exact absurd hauth (hnot rest)
    · exact writing_written L rfl
    · rfl
    · rfl
    · rfl

/-- A server that counts its requests. -/
def counting : Server Nat where
  handle := fun n _ _ => (n + 1, .ok acceptance)
  computeResponse := fun _ => Py.text "r"

/-- The premise is satisfiable: `[]` for an answer, and a request behind it. -/
theorem unauthenticated_no_effect_list :
    (handleClient plainLibrary counting true (List.replicate 64 48) 5
      ⟨[0, 0, 0, 2, 0x5b, 0x5d, 0, 0, 0, 2, 0x7b, 0x7d], .eof⟩).state = 5 := by
  refine (unauthenticated_no_effect (τ := Nat) plainLibrary counting (List.replicate 64 48) 5 _ ?_).1
  decide +kernel

end Refused

/-! ## What a session is made of -/

/-- The requests on a stream, up to where reading stops, and what stops it. -/
def incoming (w : Wire) : Nat → Option Bytes → Stream → List Py × Frame
  | 0, _, _ => ([], .waits)
  | fuel + 1, pending, s =>
      match readFrame w pending s with
      | .request v rest =>
          (v :: (incoming w fuel none rest).1, (incoming w fuel none rest).2)
      | f => ([], f)

/-- The report about the frame that stops the reading. -/
def report (L : Library) (c : Codec) : Frame → List Bytes
  | .oversized length =>
      ((L.wire c).frame ((failed (Py.text (oversizedText length))).value c)).toList
  | .undecodable message => ((L.wire c).frame ((failed message).value c)).toList
  | _ => []

section Answering

variable {σ : Type} (L : Library) (srv : Server σ) (c : Codec)

/-- What the request needs: a text can be made of its `op`, and if the
answer has values the server did not make itself, the codec can write it. -/
def suits (state : σ) (fields : Object) : Bool :=
  (opOf fields).nesting ≤ L.formatRoom &&
    match (srv.handle state fields c).2 with
    | .ok answer => answer.own || ((L.wire c).frame (answer.value c)).isSome
    | .error _ => true

/-- Every request is an object, and has what it needs. -/
def conforms : σ → List Py → Bool
  | _, [] => true
  | state, .dict fields :: rest =>
      suits L srv c state fields && conforms (respond L srv c state fields).1 rest
  | _, _ :: _ => false

/-- One frame for each request, in order. -/
def replies : σ → List Py → List Bytes
  | _, [] => []
  | state, .dict fields :: rest =>
      (frameOf L c (respond L srv c state fields).2).getD []
        :: replies (respond L srv c state fields).1 rest
  | state, _ :: rest => [] :: replies state rest

/-- The request came in a frame. -/
def Received (fields : Object) : Prop :=
  ∃ raw, raw.length ≤ Config.maxRpcMessageSize ∧ (L.wire c).decode raw = .ok (.dict fields)

end Answering

/-- How `_dispatch` answers requests that came in a frame: it raises for
operations it knows, with texts that are not too long, and its own
answers are short too. -/
structure Server.Speaks {σ : Type} (srv : Server σ) (L : Library) : Prop where
  named : ∀ {state fields c message}, (srv.handle state fields c).2 = .error message →
    ∃ op, Py.get fields "op" = some (.str op)
  reports : ∀ {state fields c message}, Received L c fields →
    (srv.handle state fields c).2 = .error message → (failed message).Speakable c
  answers : ∀ {state fields c answer}, Received L c fields →
    (srv.handle state fields c).2 = .ok answer → answer.own = true → answer.Speakable c

section Responding

variable {σ : Type} {L : Library} {srv : Server σ}

theorem respond_deep {c : Codec} {state : σ} {fields : Object}
    (h : L.formatRoom < (opOf fields).nesting) : (respond L srv c state fields).2 = none := by
  have hlog : L.logRoom < (opOf fields).nesting := Nat.lt_of_le_of_lt L.logRoom_le h
  simp only [respond, dispatch, if_pos h, if_pos hlog]

/-- A request is answered exactly when it has what it needs. -/
theorem frameOf_respond (hsrv : srv.Speaks L) {c : Codec} (state : σ) {fields : Object}
    (hreceived : Received L c fields) :
    (frameOf L c (respond L srv c state fields).2).isSome = suits L srv c state fields := by
  by_cases hdeep : L.formatRoom < (opOf fields).nesting
  · have hnot : ¬(opOf fields).nesting ≤ L.formatRoom := Nat.not_le.mpr hdeep
    simp [respond_deep hdeep, frameOf, suits, hnot]
  · have hle : (opOf fields).nesting ≤ L.formatRoom := Nat.le_of_not_lt hdeep
    simp only [respond, dispatch, if_neg hdeep, suits, hle, decide_true, Bool.true_and]
    cases hhandle : srv.handle state fields c with
    | mk state' res =>
      have hres : (srv.handle state fields c).2 = res := by rw [hhandle]
      cases res with
      | ok answer =>
        cases hown : answer.own with
        | false => simp [frameOf, hown]
        | true =>
          obtain ⟨b, hb⟩ := frame_answer L (hsrv.answers hreceived hres hown)
          simp [frameOf, hb, hown]
      | error message =>
        obtain ⟨op, hop⟩ := hsrv.named hres
        have hshallow : ¬L.logRoom < (opOf fields).nesting := by simp [opOf, hop, Py.nesting]
        obtain ⟨b, hb⟩ := frame_answer L (hsrv.reports hreceived hres)
        simp [frameOf, hshallow, hb]

end Responding

/-! ## Reading -/

theorem readExactly_got {n : Nat} {s rest : Stream} {b : Bytes} (h : readExactly n s = .got b rest) :
    b.length = n ∧ rest.bytes.length + n = s.bytes.length ∧ rest.ending = s.ending := by
  unfold readExactly at h
  split at h
  · cases h
    refine ⟨?_, ?_, rfl⟩
    · rw [List.length_take]
      omega
    · simp only [List.length_drop]
      omega
  · split at h <;> cases h

theorem readExactly_ne_waits {n : Nat} {s : Stream} (h : s.ending ≠ .silent) :
    readExactly n s ≠ .waits := by
  intro hread
  unfold readExactly at hread
  split at hread
  · cases hread
  · split at hread
    · cases hread
    · cases hread
    · rename_i hsilent
      exact h hsilent

theorem readBody_request {w : Wire} {length : Nat} {s rest : Stream} {v : Py}
    (h : readBody w length s = .request v rest) :
    rest.bytes.length + length = s.bytes.length ∧ rest.ending = s.ending ∧
      ∃ raw, raw.length = length ∧ w.decode raw = .ok v := by
  unfold readBody at h
  split at h
  · rename_i raw rest' hread
    obtain ⟨hlength, hbytes, hending⟩ := readExactly_got hread
    split at h
    · rename_i hdecode
      cases h
      exact ⟨hbytes, hending, raw, hlength, hdecode⟩
    · cases h
    · cases h
  all_goals cases h

theorem readBody_undecodable {w : Wire} {length : Nat} {s : Stream} {message : Text}
    (h : readBody w length s = .undecodable message) :
    ∃ raw, w.decode raw = .error (.value message) := by
  unfold readBody at h
  split at h
  · rename_i raw rest' hread
    split at h
    · cases h
    · rename_i hdecode
      cases h
      exact ⟨raw, hdecode⟩
    · cases h
  all_goals cases h

theorem readBody_ne_oversized {w : Wire} {length n : Nat} {s : Stream} :
    readBody w length s ≠ .oversized n := by
  intro h
  unfold readBody at h
  split at h
  · split at h <;> cases h
  all_goals cases h

theorem readBody_ne_waits {w : Wire} {length : Nat} {s : Stream} (hend : s.ending ≠ .silent) :
    readBody w length s ≠ .waits := by
  intro h
  unfold readBody at h
  split at h
  · split at h <;> cases h
  · cases h
  · cases h
  · rename_i hread
    exact readExactly_ne_waits hend hread

/-- A frame is read from its length on. -/
theorem readFrame_cases (w : Wire) (pending : Option Bytes) (s : Stream)
    (hpending : ∀ p, pending = some p → p.length = 4) :
    (∃ p rest, p.length = 4 ∧ rest.ending = s.ending ∧
      rest.bytes.length + (if pending.isSome then 0 else 4) = s.bytes.length ∧
      readFrame w pending s
        = if Config.maxRpcMessageSize < BigEndian.unpack p then .oversized (BigEndian.unpack p)
          else readBody w (BigEndian.unpack p) rest) ∨
    readFrame w pending s = .incomplete ∨ readFrame w pending s = .reset ∨
      (s.ending = .silent ∧ readFrame w pending s = .waits) := by
  cases pending with
  | some p => exact .inl ⟨p, s, hpending p rfl, rfl, by simp, rfl⟩
  | none =>
    cases hread : readExactly 4 s with
    | got p rest =>
      obtain ⟨hlen, hbytes, hending⟩ := readExactly_got hread
      exact .inl ⟨p, rest, hlen, hending, by simpa using hbytes, by simp only [readFrame, hread]⟩
    | incomplete => exact .inr (.inl (by simp only [readFrame, hread]))
    | reset => exact .inr (.inr (.inl (by simp only [readFrame, hread])))
    | waits =>
      refine .inr (.inr (.inr ⟨?_, by simp only [readFrame, hread]⟩))
      by_contra hend
      exact readExactly_ne_waits hend hread

section Frames

variable {w : Wire} {pending : Option Bytes} {s : Stream}
  (hpending : ∀ p, pending = some p → p.length = 4)

include hpending

theorem readFrame_request {v : Py} {rest : Stream} (h : readFrame w pending s = .request v rest) :
    rest.bytes.length < s.bytes.length + (if pending.isSome then 1 else 0) ∧
      rest.ending = s.ending ∧
      ∃ raw, raw.length ≤ Config.maxRpcMessageSize ∧ w.decode raw = .ok v := by
  rcases readFrame_cases w pending s hpending with ⟨p, mid, -, hend, hlen, heq⟩ | heq | heq | ⟨-, heq⟩
  · rw [heq] at h
    split at h
    · cases h
    · rename_i hle
      obtain ⟨hbytes, hending, raw, hraw, hdecode⟩ := readBody_request h
      refine ⟨?_, hending.trans hend, raw, by omega, hdecode⟩
      split at hlen <;> rename_i hsome <;> simp only [hsome] <;> simp <;> omega
  all_goals
    rw [heq] at h
    cases h

theorem readFrame_oversized {n : Nat} (h : readFrame w pending s = .oversized n) : n < 2 ^ 32 := by
  rcases readFrame_cases w pending s hpending with ⟨p, mid, hp, -, -, heq⟩ | heq | heq | ⟨-, heq⟩
  · rw [heq] at h
    split at h
    · cases h
      have := BigEndian.unpack_lt p
      rw [hp] at this
      exact this
    · exact absurd h readBody_ne_oversized
  all_goals
    rw [heq] at h
    cases h

theorem readFrame_undecodable {message : Text} (h : readFrame w pending s = .undecodable message) :
    ∃ raw, w.decode raw = .error (.value message) := by
  rcases readFrame_cases w pending s hpending with ⟨p, mid, -, -, -, heq⟩ | heq | heq | ⟨-, heq⟩
  · rw [heq] at h
    split at h
    · cases h
    · exact readBody_undecodable h
  all_goals
    rw [heq] at h
    cases h

theorem readFrame_ne_waits (hend : s.ending ≠ .silent) : readFrame w pending s ≠ .waits := by
  intro h
  rcases readFrame_cases w pending s hpending with ⟨p, mid, -, hmid, -, heq⟩ | heq | heq | ⟨hs, -⟩
  · rw [heq] at h
    split at h
    · cases h
    · exact readBody_ne_waits (hmid ▸ hend) h
  · rw [heq] at h
    cases h
  · rw [heq] at h
    cases h
  · exact hend hs

end Frames

/-- A frame that stops the reading can be reported. -/
theorem stop_readFrame {σ : Type} (L : Library) (srv : Server σ) (c : Codec)
    {pending : Option Bytes} {s : Stream} (hpending : ∀ p, pending = some p → p.length = 4)
    (fuel : Nat) (state : σ)
    (hstop : ∀ v rest, readFrame (L.wire c) pending s ≠ .request v rest)
    (hend : s.ending ≠ .silent) :
    serve L srv c (fuel + 1) state pending s
      = ⟨state, report L c (readFrame (L.wire c) pending s), true, .returned⟩ := by
  rw [serve]
  cases hread : readFrame (L.wire c) pending s with
  | request v rest => exact absurd hread (hstop v rest)
  | oversized n =>
    obtain ⟨b, hb⟩ := frame_oversized L c (readFrame_oversized hpending hread)
    simp only [stop, report, hb, Option.toList_some]
  | undecodable message =>
    obtain ⟨raw, hraw⟩ := readFrame_undecodable hpending hread
    obtain ⟨b, hb⟩ := frame_undecodable L c hraw
    simp only [stop, report, hb, Option.toList_some]
  | waits => exact absurd hread (readFrame_ne_waits hpending hend)
  | _ => rfl

/-! ## The read loop -/

/-- The handler returned, with the writer closed, and wrote these frames. -/
structure Session.Ends {σ : Type} (session : Session σ) (frames : List Bytes) : Prop where
  returned : session.outcome = .returned
  closed : session.closed = true
  written : session.written = frames

theorem Session.Ends.after {σ : Type} {session : Session σ} {frames : List Bytes}
    (h : session.Ends frames) (before : List Bytes) : (session.after before).Ends (before ++ frames) :=
  ⟨h.returned, h.closed, congrArg (before ++ ·) h.written⟩

section Loop

variable {σ : Type} {L : Library} {srv : Server σ} (hsrv : srv.Speaks L) (c : Codec)

include hsrv

/-- The read loop answers the requests on the stream one by one and ends
as the stream ends, unless a request is not an object or lacks what it
needs. The induction is on the bytes that are left. -/
theorem serve_spec (fuel : Nat) (state : σ) (pending : Option Bytes) (s : Stream)
    (hpending : ∀ p, pending = some p → p.length = 4) (hend : s.ending ≠ .silent)
    (hfuel : s.bytes.length + (if pending.isSome then 1 else 0) < fuel) :
    (conforms L srv c state (incoming (L.wire c) fuel pending s).1 = true →
      (serve L srv c fuel state pending s).Ends
        (replies L srv c state (incoming (L.wire c) fuel pending s).1
          ++ report L c (incoming (L.wire c) fuel pending s).2)) ∧
    (conforms L srv c state (incoming (L.wire c) fuel pending s).1 = false →
      (serve L srv c fuel state pending s).outcome = .raised) := by
  induction fuel generalizing state pending s with
  | zero => omega
  | succ fuel ih =>
    cases hread : readFrame (L.wire c) pending s with
    | request v rest =>
      obtain ⟨hlen, hending, hreceived⟩ := readFrame_request hpending hread
      have hrest := fun state' => ih state' none rest (by simp) (hending ▸ hend) (by simp; omega)
      simp only [incoming, hread, serve]
      cases v with
      | dict fields =>
        have hsuits := frameOf_respond hsrv state hreceived
        cases hframe : frameOf L c (respond L srv c state fields).2 with
        | none =>
          rw [hframe] at hsuits
          simp only [conforms, ← hsuits, Option.isSome_none, Bool.false_and, Bool.false_eq_true,
            false_imp_iff, true_and, true_imp_iff, hframe]
        | some b =>
          rw [hframe] at hsuits
          obtain ⟨hgood, hbad⟩ := hrest (respond L srv c state fields).1
          simp only [conforms, ← hsuits, hframe, Option.isSome_some, Bool.true_and, replies,
            Option.getD_some, List.cons_append]
          exact ⟨fun hc => (hgood hc).after [b], fun hc => hbad hc⟩
      | _ => simp [conforms]
    | _ =>
      have hstop : ∀ v rest, readFrame (L.wire c) pending s ≠ .request v rest := by simp [hread]
      have hserve := stop_readFrame L srv c hpending fuel state hstop hend
      simp only [incoming, hread, conforms, replies, List.nil_append, true_imp_iff, reduceCtorEq,
        false_imp_iff, and_true]
      rw [hserve, hread]
      exact ⟨rfl, rfl, rfl⟩

end Loop

/-! ## The whole session -/

/-- A session after codec negotiation: its codec, the greeting it got, a
length that was read already, and what is still to be read. -/
structure Opening where
  codec : Codec
  greeting : List Bytes
  pending : Option Bytes
  rest : Stream

def opening (L : Library) (s : Stream) : Option Opening :=
  match readExactly Config.rpcMagicLen s with
  | .got p rest =>
      if p = Config.rpcMsgpackMagic then
        some ⟨.msgpack, ((L.wire .msgpack).frame (greeting.value .msgpack)).toList, none, rest⟩
      else some ⟨.json, [], some p, rest⟩
  | _ => none

/-- The requests of a session, and what ends it. -/
def Opening.requests (L : Library) (o : Opening) : List Py × Frame :=
  incoming (L.wire o.codec) (o.rest.bytes.length + 2) o.pending o.rest

/-- The answer to the challenge is an object, whose response can be compared. -/
def Comparable : Py → Prop
  | .dict fields => ∀ response, Py.get fields "response" = some (.str response) → ∀ u ∈ response, u < 0x80
  | _ => False

/-- The first frame is nested too deeply, or an answer that cannot be compared. -/
def BadAnswer (L : Library) (s : Stream) : Prop :=
  readFrame (L.wire .json) none s = .broken ∨
    ∃ v rest, readFrame (L.wire .json) none s = .request v rest ∧ ¬Comparable v

theorem verifyResponse_eq_none_iff {expected : Text} {v : Option Py} :
    verifyResponse expected v = none ↔ ∃ response, v = some (.str response) ∧ ∃ u ∈ response, 0x80 ≤ u := by
  unfold verifyResponse
  split
  · rename_i response
    simp
  · rename_i hnot
    simp only [reduceCtorEq, false_iff, not_exists, not_and]
    intro response heq
    exact absurd heq (hnot response)

theorem authenticate_raised_iff {L : Library} {expected : Text} {s : Stream} :
    authenticate L expected s = .raised ↔ BadAnswer L s := by
  unfold authenticate BadAnswer
  cases hread : readFrame (L.wire .json) none s with
  | request v rest =>
    cases v with
    | dict fields =>
      have hcomparable : ¬Comparable (.dict fields) ↔
          verifyResponse expected (Py.get fields "response") = none := by
        rw [verifyResponse_eq_none_iff]
        simp only [Comparable, not_forall, Nat.not_lt, exists_prop]
      simp only [reduceCtorEq, false_or, Frame.request.injEq]
      cases hv : verifyResponse expected (Py.get fields "response") with
      | none => simp only [true_iff]; exact ⟨_, rest, ⟨rfl, rfl⟩, hcomparable.mpr hv⟩
      | some b =>
        have hgood : Comparable (.dict fields) := by
          by_contra hbad
          rw [hcomparable.mp hbad] at hv
          cases hv
        cases b <;> simp [hgood]
    | _ => simp [Comparable]
  | _ => simp

section Whole

variable {σ : Type} (L : Library) (srv : Server σ)

/-- The client is let in, and this is left of its stream. -/
def Admits (needsAuth : Bool) (challenge : Text) (s rest : Stream) : Prop :=
  if needsAuth then authenticate L (srv.computeResponse challenge) s = .accepted rest else rest = s

/-- Every request of the session is an object, and has what it needs. -/
def sessionConforms (state : σ) (s : Stream) : Bool :=
  match opening L s with
  | none => true
  | some o => conforms L srv o.codec state (o.requests L).1

/-- The greeting, one frame for each request, and a report about what
ends the session if that was a length or a body. -/
def sessionFrames (state : σ) (s : Stream) : List Bytes :=
  match opening L s with
  | none => []
  | some o =>
      o.greeting ++ (replies L srv o.codec state (o.requests L).1
        ++ report L o.codec (o.requests L).2)

/-- What is written before the session, to a client that is let in. -/
def preamble (needsAuth : Bool) (challenge : Text) : List Bytes :=
  if needsAuth then
    ((L.wire .json).frame ((challengeObject challenge).value .json)).toList
      ++ ((L.wire .json).frame (acceptance.value .json)).toList
  else []

theorem frame_greeting :
    ∃ b, (L.wire .msgpack).frame (greeting.value .msgpack) = some b := by
  refine frame_answer L ⟨by decide, by decide, ?_⟩
  intro f hf
  simp only [greeting, List.mem_cons, List.not_mem_nil, or_false] at hf
  rcases hf with rfl | rfl
  · exact ⟨by decide, trivial⟩
  · exact ⟨by decide, fun _ => ⟨_, Py.string_text "msgpack"⟩⟩

theorem frame_challenge {challenge : Text} (h : challenge.length = 64) :
    ∃ b, (L.wire .json).frame ((challengeObject challenge).value .json) = some b := by
  have hlength : (Py.text "challenge").length = 9 := by decide
  have hmax : Config.maxBlockSize = 2 ^ 26 := rfl
  refine frame_answer L ⟨by simp [challengeObject], ?_, ?_⟩
  · simp [challengeObject, Part.length, h, hlength, hmax]
  · intro f hf
    simp only [challengeObject, List.mem_cons, List.not_mem_nil, or_false] at hf
    rcases hf with rfl | rfl | rfl
    · exact ⟨by decide, fun h => by cases h⟩
    · exact ⟨by decide, by decide, by decide⟩
    · exact ⟨show "challenge".length ≤ 32 by decide, fun h => by cases h⟩

theorem speakable_acceptance (c : Codec) : acceptance.Speakable c := by
  refine ⟨by decide, by decide, ?_⟩
  intro f hf
  simp only [acceptance, List.mem_cons, List.not_mem_nil, or_false] at hf
  rw [hf]
  exact ⟨by decide, trivial⟩

variable {srv}

theorem negotiate_spec (hsrv : srv.Speaks L) (state : σ) {s : Stream} (hend : s.ending ≠ .silent) :
    (sessionConforms L srv state s = true →
      (negotiate L srv state s).Ends (sessionFrames L srv state s)) ∧
    (sessionConforms L srv state s = false → (negotiate L srv state s).outcome = .raised) := by
  unfold negotiate sessionConforms sessionFrames opening
  cases hread : readExactly Config.rpcMagicLen s with
  | got p rest =>
    obtain ⟨hlen, -, hending⟩ := readExactly_got hread
    have hrest : rest.ending ≠ .silent := hending ▸ hend
    obtain ⟨b, hb⟩ := frame_greeting L
    by_cases hmagic : p = Config.rpcMsgpackMagic
    · obtain ⟨hgood, hbad⟩ := serve_spec hsrv .msgpack (rest.bytes.length + 2) state none rest
        (by simp) hrest (by simp)
      simp only [hmagic, if_true, hb, Option.toList_some]
      exact ⟨fun hc => (hgood hc).after [b], fun hc => hbad hc⟩
    · obtain ⟨hgood, hbad⟩ := serve_spec hsrv .json (rest.bytes.length + 2) state (some p) rest
        (fun q hq => by cases hq; exact hlen) hrest (by simp)
      simp only [hmagic, if_false, List.nil_append]
      exact ⟨hgood, hbad⟩
  | waits => exact absurd hread (readExactly_ne_waits hend)
  | _ =>
    simp only [reduceCtorEq, false_imp_iff, true_imp_iff, and_true]
    exact ⟨rfl, rfl, rfl⟩

variable (srv)

/-- A client that is let in gets a session. -/
theorem handleClient_admitted {needsAuth : Bool} {challenge : Text} (hchallenge : challenge.length = 64)
    (state : σ) {s rest : Stream} (h : Admits L srv needsAuth challenge s rest) :
    handleClient L srv needsAuth challenge state s
      = (negotiate L srv state rest).after (preamble L needsAuth challenge) := by
  obtain ⟨b, hb⟩ := frame_challenge L hchallenge
  obtain ⟨b', hb'⟩ := frame_answer L (speakable_acceptance .json)
  cases needsAuth with
  | false =>
    rw [show rest = s from h]
    rfl
  | true =>
    have hauth : authenticate L (srv.computeResponse challenge) s = .accepted rest := h
    simp only [handleClient, hauth, if_true, writing, hb, hb', preamble, Option.toList_some,
      Session.after, List.cons_append, List.nil_append]

/-- A client that is not let in: the handler returns and closes, unless
the answer could not be compared. -/
theorem handleClient_refused {challenge : Text} (hchallenge : challenge.length = 64) (state : σ)
    {s : Stream} (h : ∀ rest, ¬Admits L srv true challenge s rest) :
    ((handleClient L srv true challenge state s).outcome = .returned ∧
      (handleClient L srv true challenge state s).closed = true) ↔ ¬BadAnswer L s := by
  obtain ⟨b, hb⟩ := frame_challenge L hchallenge
  obtain ⟨b', hb'⟩ : ∃ b, (L.wire .json).frame
      ((failed (Py.text "authentication failed")).value .json) = some b :=
    frame_answer L (speakable_report .json (by decide))
  simp only [handleClient, if_true, writing, hb, Session.after]
  cases hauth : authenticate L (srv.computeResponse challenge) s with
  | accepted rest => exact absurd hauth (h rest)
  | raised => simp [authenticate_raised_iff.mp hauth]
  | _ =>
    have hgood : ¬BadAnswer L s := by
      intro hbad
      rw [authenticate_raised_iff.mpr hbad] at hauth
      cases hauth
    simp [hgood, hb']

theorem not_badAnswer {challenge : Text} {s rest : Stream} (h : Admits L srv true challenge s rest) :
    ¬BadAnswer L s := by
  intro hbad
  have hauth : authenticate L (srv.computeResponse challenge) s = .accepted rest := h
  rw [authenticate_raised_iff.mpr hbad] at hauth
  cases hauth

theorem admits_unique {needsAuth : Bool} {challenge : Text} {s rest rest' : Stream}
    (h : Admits L srv needsAuth challenge s rest) (h' : Admits L srv needsAuth challenge s rest') :
    rest' = rest := by
  cases needsAuth with
  | false => exact Eq.trans h' (Eq.symm h)
  | true =>
    have hauth : authenticate L (srv.computeResponse challenge) s = .accepted rest := h
    have hauth' : authenticate L (srv.computeResponse challenge) s = .accepted rest' := h'
    rw [hauth] at hauth'
    cases hauth'
    rfl

/-- What is still to be read ends as the whole stream does. -/
theorem Admits.ending {needsAuth : Bool} {challenge : Text} {s rest : Stream}
    (h : Admits L srv needsAuth challenge s rest) : rest.ending = s.ending := by
  cases needsAuth with
  | false => rw [show rest = s from h]
  | true =>
    have hauth : authenticate L (srv.computeResponse challenge) s = .accepted rest := h
    unfold authenticate at hauth
    split at hauth
    · rename_i hread
      split at hauth
      · cases hauth
      · cases hauth
        exact (readFrame_request (by simp) hread).2.1
      · cases hauth
    all_goals cases hauth

end Whole

/-- A server that counts its requests, knows the operation `peers` and
raises for `free`. -/
def tallying : Server Nat where
  handle := fun n fields _ =>
    match Py.get fields "op" with
    | some (.str op) =>
        if op = Py.text "peers" then
          (n + 1, .ok [("ok", .bool true), ("peers", .foreign (.list []))])
        else if op = Py.text "free" then (n + 1, .error (Py.text "'block_id'"))
        else (n + 1, .ok acceptance)
    | _ => (n + 1, .ok acceptance)
  computeResponse := fun _ => Py.text "r"

/-- What it answers. -/
theorem tallying_cases (n : Nat) (fields : Object) (c : Codec) :
    (tallying.handle n fields c).2 = .ok [("ok", .bool true), ("peers", .foreign (.list []))] ∨
    ((tallying.handle n fields c).2 = .error (Py.text "'block_id'") ∧
      ∃ op, Py.get fields "op" = some (.str op)) ∨
    (tallying.handle n fields c).2 = .ok acceptance := by
  simp only [tallying]
  split
  · rename_i op hop
    split
    · exact .inl rfl
    · split
      · exact .inr (.inl ⟨rfl, op, hop⟩)
      · exact .inr (.inr rfl)
  · exact .inr (.inr rfl)

theorem tallying_speaks (L : Library) : tallying.Speaks L where
  named := by
    intro state fields c message h
    rcases tallying_cases state fields c with heq | ⟨-, hop⟩ | heq
    · rw [heq] at h
      cases h
    · exact hop
    · rw [heq] at h
      cases h
  reports := by
    intro state fields c message _ h
    rcases tallying_cases state fields c with heq | ⟨heq, -⟩ | heq <;> rw [heq] at h <;> cases h
    exact speakable_report c (by decide)
  answers := by
    intro state fields c answer _ h hown
    rcases tallying_cases state fields c with heq | ⟨heq, -⟩ | heq <;> rw [heq] at h <;> cases h
    · cases hown
    · exact speakable_acceptance c

/-- The requests `peers`, `free` and one without an `op`. -/
def threeRequests : Stream :=
  ⟨[0, 0, 0, 0xe, 0x7b, 0x22, 0x6f, 0x70, 0x22, 0x3a, 0x22, 0x70, 0x65, 0x65, 0x72, 0x73, 0x22, 0x7d,
    0, 0, 0, 0xd, 0x7b, 0x22, 0x6f, 0x70, 0x22, 0x3a, 0x22, 0x66, 0x72, 0x65, 0x65, 0x22, 0x7d,
    0, 0, 0, 2, 0x7b, 0x7d], .eof⟩

/-- The same behind the right answer to the challenge. -/
def authenticated : Stream :=
  ⟨[0, 0, 0, 0x10, 0x7b, 0x22, 0x72, 0x65, 0x73, 0x70, 0x6f, 0x6e, 0x73, 0x65, 0x22, 0x3a, 0x22, 0x72, 0x22, 0x7d]
    ++ threeRequests.bytes, .eof⟩

theorem admits_authenticated :
    Admits plainLibrary tallying true (List.replicate 64 48) authenticated threeRequests := by
  have hcheck : (match authenticate plainLibrary (Py.text "r") authenticated with
      | .accepted rest => decide (rest = threeRequests)
      | _ => false) = true := by decide +kernel
  cases hauth : authenticate plainLibrary (Py.text "r") authenticated with
  | accepted rest =>
    rw [hauth] at hcheck
    rw [← of_decide_eq_true hcheck]
    exact hauth
  | _ =>
    rw [hauth] at hcheck
    cases hcheck

end Memnode.Rpc
