/-
Memnode.Mux.Link — two muxes over one connection, end to end.

An `End` is what one side of a connection runs: the mux with its writer
task, the `SecureChannel` under it, and the loop of `run` that reads and
dispatches. A `Link` is two ends and the bytes on the way between them
in both directions. Everything is here at once: the queues and the
rotation, `encode`, the sealing and rekeying of `send`, `write_frame`,
`read_frame`, the replay window and rekeying of `recv`, `decode` and the
dispatch, with the steps of all tasks of both ends interleaved at will.

  §1 an end and what it can do (`End.act`), and the link;
  §2 the sending side: what is queued on a stream is what was written,
     the writer's hand and the queue (`Sends`);
  §3 the way across: what was written is what was dispatched and what
     the bytes on the way still carry (`Crosses`);
  §4 per stream, the messages dispatched are the first of those queued,
     and none is missing (`link_in_order`); whatever is on the way can be
     read and is dispatched (`link_progress`).

Left out: a mux without `on_message`, which `PeerManager` never makes.
-/
import Memnode.Frames
import Memnode.Mux.Channel
import Memnode.Protocol
import Memnode.Security.Duplex

set_option linter.unusedSectionVars false

namespace Memnode.Mux

open Lib Security

/-! ## §1 The link -/

/-- Where the loop of `run` is. -/
inductive Reader where
  /-- in `channel.recv_msg()` -/
  | waiting
  /-- in `on_message(msg)` -/
  | handling
  | ended
  deriving DecidableEq

/-- One end of a connection. The last three fields keep what has happened
there: the messages queued, those whose frame was handed to the
transport, and those dispatched. -/
structure End (params : ChannelParams) where
  mux : ChannelMux Int Message
  channel : SecureChannel params
  /-- the frame of the message in the writer's hand is with the transport -/
  flushed : Bool
  reader : Reader
  messagesReceived : Nat
  queued : List (Int × Message)
  written : List (Int × Message)
  dispatched : List Message

/-- What the tasks of an end can do next. -/
inductive Act where
  /-- a step of the mux other than the end of `send_msg` -/
  | mux (e : Event Int Message)
  /-- `send_msg` seals the message and writes its frame, with the clock readings of `send` -/
  | transmit (checkedAt rekeyedAt : Rat)
  /-- `drain()` returns, and `send_msg` with it -/
  | drained
  | drainFailed
  /-- `recv_msg` reads on -/
  | arrive
  /-- `on_message` returns or raises -/
  | handled
  /-- the connection is gone, or `run` is cancelled -/
  | hangUp

/-- An end after an act, the bytes it wrote and the bytes it left unread. -/
structure Acted (params : ChannelParams) where
  after : End params
  out : Bytes
  unread : Bytes

namespace End

variable {params : ChannelParams} (C : Crypto) (P : Packer)

/-- A mux over a channel, with `run` just started. -/
def init (maxQueued : Nat) (channel : SecureChannel params) : End params :=
  ⟨ChannelMux.init maxQueued, channel, false, .waiting, 0, [], [], []⟩

/-- A step of the mux. -/
def muxStep (x : End params) (e : Event Int Message) : Option (End params) :=
  (x.mux.step e).map (fun s => { x with mux := s.mux, queued := x.queued ++ s.queued.toList })

/-- The end of `run`: `finally: self.close()`. -/
def stop (x : End params) : Option (End params) :=
  (x.muxStep .close).map (fun y => { y with reader := .ended })

/-- `channel.send_msg(msg)` up to the `drain` of `write_frame`. The
number is taken only when `write_frame` returns. -/
def transmit (x : End params) (checkedAt rekeyedAt : Rat) : Option (End params × Bytes) :=
  match x.mux.hand with
  | none => none
  | some (s, m) =>
      if x.flushed then none
      else
        match m.encode P with
        | none => (x.muxStep .sendFailed).map (fun y => (y, []))
        | some raw =>
            match x.channel.send C ⟨raw, checkedAt, rekeyedAt⟩ with
            | (c, .error _) =>
                (({ x with channel := c }).muxStep .sendFailed).map (fun y => (y, []))
            | (_, .ok frame) =>
                some ({ x with
                  channel := x.channel.prepare C ⟨raw, checkedAt, rekeyedAt⟩
                  flushed := true
                  written := x.written ++ [(s, m)] },
                  BigEndian.pack 4 frame.length ++ frame)

/-- `recv_msg` with the bytes that are there; `none` while they are not a
whole frame. -/
def arrive (x : End params) (inbound : Bytes) : Option (End params × Bytes) :=
  match Frames.readFrame Config.maxFrameSize inbound with
  | (.error (.frameTooLarge _ _), rest) => x.stop.map (fun y => (y, rest))
  | (.error _, _) => none
  | (.ok frame, rest) =>
      match x.channel.onFrame C frame with
      | (c, none) => some ({ x with channel := c }, rest)
      | (c, some (.error _)) => (({ x with channel := c }).stop).map (fun y => (y, rest))
      | (c, some (.ok plaintext)) =>
          match Message.decode P plaintext with
          | none => (({ x with channel := c }).stop).map (fun y => (y, rest))
          | some m =>
              some ({ x with
                channel := c
                reader := .handling
                messagesReceived := x.messagesReceived + 1
                dispatched := x.dispatched ++ [m] }, rest)

/-- One act of an end that has `inbound` to read; `none` if it cannot
happen now. -/
def act (x : End params) (inbound : Bytes) : Act → Option (Acted params)
  | .mux .sent => none
  | .mux .sendFailed => none
  | .mux .writerCancelled =>
      (({ x with flushed := false }).muxStep .writerCancelled).map (fun y => ⟨y, [], inbound⟩)
  | .mux e => (x.muxStep e).map (fun y => ⟨y, [], inbound⟩)
  | .transmit checkedAt rekeyedAt =>
      (x.transmit C P checkedAt rekeyedAt).map (fun r => ⟨r.1, r.2, inbound⟩)
  | .drained =>
      if x.flushed then
        (({ x with
          channel := { x.channel with sendSeq := x.channel.sendSeq + 1 }
          flushed := false }).muxStep .sent).map (fun y => ⟨y, [], inbound⟩)
      else none
  | .drainFailed =>
      if x.flushed then
        (({ x with flushed := false }).muxStep .sendFailed).map (fun y => ⟨y, [], inbound⟩)
      else none
  | .arrive =>
      match x.reader with
      | .waiting => (x.arrive C P inbound).map (fun r => ⟨r.1, [], r.2⟩)
      | _ => none
  | .handled =>
      match x.reader with
      | .handling => some ⟨{ x with reader := .waiting }, [], inbound⟩
      | _ => none
  | .hangUp =>
      match x.reader with
      | .ended => none
      | _ => x.stop.map (fun y => ⟨y, [], inbound⟩)

end End

/-- Two ends and the bytes on the way between them. -/
structure Link (params : ChannelParams) where
  left : End params
  right : End params
  toRight : Bytes
  toLeft : Bytes

namespace Link

variable {params : ChannelParams} (C : Crypto) (P : Packer)

/-- A connection right after the handshake: crossed keys, nothing on the way. -/
def init (params : ChannelParams) (key key' tHash : Bytes) (now now' : Rat)
    (maxQueued maxQueued' : Nat) : Link params :=
  ⟨.init maxQueued (.init params key key' tHash now), .init maxQueued' (.init params key' key tHash now'),
    [], []⟩

/-- One act of one end. The network delivers all bytes, in order. -/
inductive Step : Link params → Link params → Prop where
  | left (l : Link params) (a : Act) (r : Acted params) : l.left.act C P l.toLeft a = some r →
      Step l ⟨r.after, l.right, l.toRight ++ r.out, r.unread⟩
  | right (l : Link params) (a : Act) (r : Acted params) : l.right.act C P l.toRight a = some r →
      Step l ⟨l.left, r.after, r.unread, l.toLeft ++ r.out⟩

/-- The states of a connection some run leads to. -/
def Reachable (start l : Link params) : Prop := Relation.ReflTransGen (Step C P) start l

end Link

/-! ## §2 The sending side -/

variable {params : ChannelParams} {C : Crypto} {P : Packer}

/-- The ways through the code of an end, with what was found there. -/
inductive Does (C : Crypto) (P : Packer) (x : End params) (inbound : Bytes) : Act → Acted params → Prop where
  | muxes (e : Event Int Message) (s : Stepped Int Message) (hs : x.mux.step e = some s)
      (hsent : e ≠ .sent) (hfailed : e ≠ .sendFailed) (hcancel : e ≠ .writerCancelled) :
      Does C P x inbound (.mux e)
        ⟨{ x with mux := s.mux, queued := x.queued ++ s.queued.toList }, [], inbound⟩
  | cancels (s : Stepped Int Message) (hs : x.mux.step .writerCancelled = some s) :
      Does C P x inbound (.mux .writerCancelled)
        ⟨{ x with flushed := false, mux := s.mux, queued := x.queued ++ s.queued.toList }, [], inbound⟩
  /-- `send_msg` raises, before or after it wrote -/
  | fails (a : Act) (c : SecureChannel params) (flushed : Bool) (s : Stepped Int Message)
      (hc : c.recvHalf = x.channel.recvHalf) (hs : x.mux.step .sendFailed = some s)
      (ha : a = .drainFailed ∨ ∃ t t', a = .transmit t t' ∧ ∀ s m raw, x.mux.hand = some (s, m) →
        m.encode P = some raw → ∃ e, (x.channel.send C ⟨raw, t, t'⟩).2 = .error e) :
      Does C P x inbound a
        ⟨{ x with
            channel := c
            flushed := flushed
            mux := s.mux
            queued := x.queued ++ s.queued.toList }, [], inbound⟩
  | transmits (t t' : Rat) (s : Int) (m : Message) (raw frame : Bytes)
      (hhand : x.mux.hand = some (s, m)) (hflushed : x.flushed = false)
      (hraw : m.encode P = some raw) (hsend : (x.channel.send C ⟨raw, t, t'⟩).2 = .ok frame) :
      Does C P x inbound (.transmit t t')
        ⟨{ x with
            channel := x.channel.prepare C ⟨raw, t, t'⟩
            flushed := true
            written := x.written ++ [(s, m)] }, BigEndian.pack 4 frame.length ++ frame, inbound⟩
  | drains (s : Stepped Int Message) (hflushed : x.flushed = true)
      (hs : x.mux.step .sent = some s) :
      Does C P x inbound .drained
        ⟨{ x with
            channel := { x.channel with sendSeq := x.channel.sendSeq + 1 }
            flushed := false
            mux := s.mux
            queued := x.queued ++ s.queued.toList }, [], inbound⟩
  /-- the replay window drops a frame -/
  | drops (frame rest : Bytes) (c : SecureChannel params) (hw : x.reader = .waiting)
      (hread : Frames.readFrame Config.maxFrameSize inbound = (.ok frame, rest))
      (hturn : x.channel.onFrame C frame = (c, none)) :
      Does C P x inbound .arrive ⟨{ x with channel := c }, [], rest⟩
  | hears (frame rest plaintext : Bytes) (c : SecureChannel params) (m : Message)
      (hw : x.reader = .waiting)
      (hread : Frames.readFrame Config.maxFrameSize inbound = (.ok frame, rest))
      (hturn : x.channel.onFrame C frame = (c, some (.ok plaintext)))
      (hdec : Message.decode P plaintext = some m) :
      Does C P x inbound .arrive
        ⟨{ x with
            channel := c
            reader := .handling
            messagesReceived := x.messagesReceived + 1
            dispatched := x.dispatched ++ [m] }, [], rest⟩
  /-- `run` ends and closes the mux -/
  | stops (a : Act) (c : SecureChannel params) (rest : Bytes) (s : Stepped Int Message)
      (hc : c.sendHalf = x.channel.sendHalf) (hs : x.mux.step .close = some s)
      (ha : a = .arrive ∨ a = .hangUp) :
      Does C P x inbound a
        ⟨{ x with
            channel := c
            mux := s.mux
            queued := x.queued ++ s.queued.toList
            reader := .ended }, [], rest⟩
  | handles (hw : x.reader = .handling) :
      Does C P x inbound .handled ⟨{ x with reader := .waiting }, [], inbound⟩

namespace End

theorem muxStep_eq {x y : End params} {e : Event Int Message} (h : x.muxStep e = some y) :
    ∃ s, x.mux.step e = some s ∧
      y = { x with mux := s.mux, queued := x.queued ++ s.queued.toList } := by
  obtain ⟨s, hs, rfl⟩ := Option.map_eq_some_iff.mp h
  exact ⟨s, hs, rfl⟩

theorem stop_eq {x y : End params} (h : x.stop = some y) :
    ∃ s, x.mux.step .close = some s ∧
      y = { x with
        mux := s.mux
        queued := x.queued ++ s.queued.toList
        reader := .ended } := by
  obtain ⟨z, hz, rfl⟩ := Option.map_eq_some_iff.mp h
  obtain ⟨s, hs, rfl⟩ := muxStep_eq hz
  exact ⟨s, hs, rfl⟩

theorem transmit_cases {x : End params} {inbound : Bytes} {t t' : Rat} {r : End params × Bytes}
    (h : x.transmit C P t t' = some r) : Does C P x inbound (.transmit t t') ⟨r.1, r.2, inbound⟩ := by
  unfold transmit at h
  split at h
  · cases h
  rename_i s m hhand
  split at h
  · cases h
  rename_i hflushed
  split at h
  · rename_i hnone
    obtain ⟨y, hy, rfl⟩ := Option.map_eq_some_iff.mp h
    obtain ⟨s', hs', rfl⟩ := muxStep_eq hy
    refine .fails _ x.channel x.flushed s' rfl hs' (.inr ⟨t, t', rfl, fun s₁ m₁ raw hhand₁ hraw => ?_⟩)
    rw [hhand] at hhand₁
    cases hhand₁
    rw [hnone] at hraw
    cases hraw
  rename_i raw hraw
  split at h
  · rename_i c e hsend
    obtain ⟨y, hy, rfl⟩ := Option.map_eq_some_iff.mp h
    obtain ⟨s', hs', rfl⟩ := muxStep_eq hy
    refine .fails _ c x.flushed s' ?_ hs' (.inr ⟨t, t', rfl, fun s₁ m₁ raw₁ hhand₁ hraw₁ => ?_⟩)
    · rcases SecureChannel.send_cases (C := C) x.channel ⟨raw, t, t'⟩ with ⟨e', heq, _⟩ |
          ⟨_, f, _, _, heq⟩
      · rw [heq] at hsend
        cases hsend
        exact SecureChannel.recvHalf_prepare x.channel _
      · rw [heq] at hsend
        cases hsend
    · rw [hhand] at hhand₁
      cases hhand₁
      rw [hraw] at hraw₁
      cases hraw₁
      exact ⟨e, congrArg Prod.snd hsend⟩
  · rename_i c frame hsend
    cases h
    exact .transmits t t' s m raw frame hhand (Bool.eq_false_iff.mpr hflushed) hraw (by rw [hsend])

theorem arrive_cases {x : End params} {inbound : Bytes} {r : End params × Bytes}
    (hw : x.reader = .waiting) (h : x.arrive C P inbound = some r) :
    Does C P x inbound .arrive ⟨r.1, [], r.2⟩ := by
  have hstop : ∀ (c : SecureChannel params) (rest : Bytes), c.sendHalf = x.channel.sendHalf →
      ({ x with channel := c } : End params).stop.map (fun y => (y, rest)) = some r →
      Does C P x inbound .arrive ⟨r.1, [], r.2⟩ := by
    intro c rest hc hr
    obtain ⟨y, hy, rfl⟩ := Option.map_eq_some_iff.mp hr
    obtain ⟨s, hs, rfl⟩ := stop_eq hy
    exact .stops .arrive c rest s hc hs (.inl rfl)
  unfold arrive at h
  split at h
  · exact hstop x.channel _ rfl h
  · cases h
  rename_i frame rest hread
  split at h
  · rename_i c hturn
    cases h
    exact .drops frame rest c hw hread hturn
  · rename_i c e hturn
    refine hstop c rest ?_ h
    have := SecureChannel.sendHalf_onFrame (C := C) x.channel frame
    rwa [hturn] at this
  · rename_i c plaintext hturn
    have hhalf : c.sendHalf = x.channel.sendHalf := by
      have := SecureChannel.sendHalf_onFrame (C := C) x.channel frame
      rwa [hturn] at this
    split at h
    · exact hstop c rest hhalf h
    · rename_i m hdec
      cases h
      exact .hears frame rest plaintext c m hw hread hturn hdec

theorem act_cases {x : End params} {inbound : Bytes} {a : Act} {r : Acted params}
    (h : x.act C P inbound a = some r) : Does C P x inbound a r := by
  have hmux : ∀ e, e ≠ .sent → e ≠ .sendFailed → e ≠ .writerCancelled →
      (x.muxStep e).map (fun y => (⟨y, [], inbound⟩ : Acted params)) = some r →
      Does C P x inbound (.mux e) r := by
    intro e h₁ h₂ h₃ he
    obtain ⟨y, hy, rfl⟩ := Option.map_eq_some_iff.mp he
    obtain ⟨s, hs, rfl⟩ := muxStep_eq hy
    exact .muxes e s hs h₁ h₂ h₃
  cases a with
  | mux e =>
    cases e with
    | sent => cases h
    | sendFailed => cases h
    | writerCancelled =>
      obtain ⟨y, hy, rfl⟩ := Option.map_eq_some_iff.mp h
      obtain ⟨s, hs, rfl⟩ := muxStep_eq hy
      exact .cancels s hs
    | send s m => exact hmux _ (by simp) (by simp) (by simp) h
    | resume i => exact hmux _ (by simp) (by simp) (by simp) h
    | cancel i => exact hmux _ (by simp) (by simp) (by simp) h
    | run => exact hmux _ (by simp) (by simp) (by simp) h
    | close => exact hmux _ (by simp) (by simp) (by simp) h
  | transmit t t' =>
    obtain ⟨y, hy, rfl⟩ := Option.map_eq_some_iff.mp h
    exact transmit_cases hy
  | drained =>
    simp only [act] at h
    split at h
    · rename_i hflushed
      obtain ⟨y, hy, rfl⟩ := Option.map_eq_some_iff.mp h
      obtain ⟨s, hs, rfl⟩ := muxStep_eq hy
      exact .drains s hflushed hs
    · cases h
  | drainFailed =>
    simp only [act] at h
    split at h
    · obtain ⟨y, hy, rfl⟩ := Option.map_eq_some_iff.mp h
      obtain ⟨s, hs, rfl⟩ := muxStep_eq hy
      exact .fails _ x.channel false s rfl hs (.inl rfl)
    · cases h
  | arrive =>
    simp only [act] at h
    split at h
    · rename_i hw
      obtain ⟨y, hy, rfl⟩ := Option.map_eq_some_iff.mp h
      exact arrive_cases hw hy
    · cases h
  | handled =>
    simp only [act] at h
    split at h
    · rename_i hw
      cases h
      exact .handles hw
    · cases h
  | hangUp =>
    simp only [act] at h
    split at h
    · cases h
    · obtain ⟨y, hy, rfl⟩ := Option.map_eq_some_iff.mp h
      obtain ⟨s, hs, rfl⟩ := stop_eq hy
      exact .stops .hangUp x.channel inbound s rfl hs (.inr rfl)

end End

section Mux

variable {σ μ : Type} [DecidableEq σ] {c : ChannelMux σ μ} {e : Event σ μ} {x : Stepped σ μ}

theorem sent_writerLoop (c : ChannelMux σ μ) (sent : Option (σ × μ)) :
    (c.writerLoop sent).sent = sent := by
  unfold ChannelMux.writerLoop
  split
  · rfl
  · split <;> rfl

/-- A writer that goes on keeps hand and queue of every stream, closed
mux or not. -/
theorem step_keeps (h : c.step e = some x) (ho : c.rotation.Ordered) (hne : x.mux.writer ≠ .ended)
    (s : σ) :
    onStream s c.hand ++ c.rotation.queue s ++ onStream s x.queued
      = onStream s x.sent ++ (onStream s x.mux.hand ++ x.mux.rotation.queue s) := by
  have hopen : ∀ (d : ChannelMux σ μ) (sent : Option (σ × μ)), x = d.writerLoop sent →
      x.mux.closed = false := by
    rintro d sent rfl
    rw [ChannelMux.closed_writerLoop]
    refine Bool.eq_false_iff.mpr (fun hclosed => hne ?_)
    simp [ChannelMux.writerLoop, hclosed]
  cases ChannelMux.step_cases h with
  | refuses | waits | abandons | closes | closesAgain =>
    simp [ChannelMux.still, ChannelMux.hand, onStream]
  | queues t m | resumes i t m =>
    simp only [ChannelMux.enqueue, Rotation.queue_put, onStream, ChannelMux.hand]
    by_cases hst : s = t
    · subst hst
      simp
    · have hts : ¬ t = s := fun h => hst h.symm
      simp [hst, hts]
  | serves => exact (step_conserves h ho (hopen _ _ rfl) s).1
  | sends => exact (step_conserves h ho (hopen _ _ rfl) s).1
  | fails | drops | stops => exact absurd rfl hne

/-- Only the end of `send_msg` sends. -/
theorem step_sent (h : c.step e = some x) :
    (e = .sent ∧ x.sent = c.hand ∧ x.queued = none) ∨ (e ≠ .sent ∧ x.sent = none) := by
  cases ChannelMux.step_cases h with
  | sends s m hw =>
    exact .inl ⟨rfl, by rw [sent_writerLoop]; simp [ChannelMux.hand, hw],
      ChannelMux.queued_writerLoop _ _⟩
  | serves => exact .inr ⟨by simp, sent_writerLoop _ _⟩
  | refuses | queues | waits | resumes | abandons | closes | closesAgain | fails | drops | stops =>
    exact .inr ⟨by simp, rfl⟩

/-- The writer does not come back. -/
theorem step_ended (h : c.step e = some x) (hw : c.writer = .ended) : x.mux.writer = .ended := by
  cases ChannelMux.step_cases h with
  | serves hs => rcases hs with hs | ⟨hs, _⟩ <;> · rw [hw] at hs; cases hs
  | sends s m hs | fails s m hs | drops s m _ hs =>
    rw [hw] at hs
    cases hs
  | stops => rfl
  | refuses | queues | waits | resumes | abandons | closes | closesAgain => exact hw

/-- A step that the writer does not make leaves its hand alone. -/
theorem step_hand (h : c.step e = some x) (hsent : e ≠ .sent) (hne : x.mux.writer ≠ .ended)
    (hhand : c.hand ≠ none) : x.mux.hand = c.hand := by
  cases ChannelMux.step_cases h with
  | serves hw => exact absurd (ChannelMux.hand_idle (hw.imp_right And.left)) hhand
  | sends => exact absurd rfl hsent
  | fails | drops | stops => exact absurd rfl hne
  | refuses | queues | waits | resumes | abandons | closes | closesAgain => rfl

end Mux

/-- The messages of one stream. -/
def ofStream (s : Int) (l : List (Int × Message)) : List Message :=
  l.flatMap (fun sm => onStream s (some sm))

@[simp] theorem ofStream_append (s : Int) (l l' : List (Int × Message)) :
    ofStream s (l ++ l') = ofStream s l ++ ofStream s l' := List.flatMap_append

@[simp] theorem ofStream_toList (s : Int) (o : Option (Int × Message)) :
    ofStream s o.toList = onStream s o := by
  cases o <;> simp [ofStream, onStream]

theorem mem_ofStream {s : Int} {m : Message} {l : List (Int × Message)} :
    m ∈ ofStream s l ↔ (s, m) ∈ l := by
  simp only [ofStream, onStream, List.mem_flatMap]
  constructor
  · rintro ⟨⟨t, m'⟩, hmem, hm⟩
    split at hm
    · rename_i hts
      rw [List.mem_singleton.mp hm, ← hts]
      exact hmem
    · cases hm
  · intro hmem
    exact ⟨(s, m), hmem, by simp⟩

theorem ofStream_mono {l l' : List (Int × Message)} (h : l <+: l') (s : Int) :
    ofStream s l <+: ofStream s l' := by
  obtain ⟨r, rfl⟩ := h
  rw [ofStream_append]
  exact List.prefix_append _ _

/-- What is queued on a stream and not written yet: the writer's hand,
unless its frame is out, and the queue. -/
def End.pendingOn (x : End params) (s : Int) : List Message :=
  (if x.flushed then [] else onStream s x.mux.hand) ++ x.mux.rotation.queue s

/-- The sending side of an end. -/
structure Sends (x : End params) : Prop where
  ordered : x.mux.rotation.Ordered
  held : x.mux.writer ≠ .ended → x.flushed = true → x.mux.hand ≠ none
  /-- while the writer goes on, nothing queued is lost -/
  kept : x.mux.writer ≠ .ended → ∀ s, ofStream s x.queued = ofStream s x.written ++ x.pendingOn s
  first : ∀ s, ofStream s x.written <+: ofStream s x.queued

theorem sends_init (maxQueued : Nat) (channel : SecureChannel params) :
    Sends (End.init maxQueued channel) where
  ordered := Rotation.ordered_empty
  held := fun _ h => by cases h
  kept := fun _ s => rfl
  first := fun s => List.prefix_refl _

theorem writes_of_hand {c : ChannelMux Int Message} {sm : Int × Message} (h : c.hand = some sm) :
    c.writer ≠ .ended := by
  intro hw
  simp [ChannelMux.hand, hw] at h

/-- The message in the writer's hand was queued. -/
theorem Sends.queued_of_hand {x : End params} (h : Sends x) {s : Int} {m : Message}
    (hhand : x.mux.hand = some (s, m)) (hflushed : x.flushed = false) : (s, m) ∈ x.queued := by
  rw [← mem_ofStream, h.kept (writes_of_hand hhand) s, End.pendingOn, hflushed, hhand]
  simp [onStream]

/-- A step of the mux other than the end of `send_msg`. -/
theorem Sends.muxStep {x y : End params} (h : Sends x) {e : Event Int Message}
    {s : Stepped Int Message} (hs : x.mux.step e = some s) (hsent : e ≠ .sent)
    (hmux : y.mux = s.mux) (hqueued : y.queued = x.queued ++ s.queued.toList)
    (hwritten : y.written = x.written) (hflushed : s.mux.writer ≠ .ended → y.flushed = x.flushed) :
    Sends y := by
  obtain ⟨hs', -⟩ | ⟨-, hnone⟩ := step_sent hs
  · exact absurd hs' hsent
  have hfirst : ∀ t, ofStream t y.written <+: ofStream t y.queued := by
    intro t
    rw [hwritten, hqueued]
    exact (h.first t).trans (ofStream_mono (List.prefix_append _ _) t)
  have hback : s.mux.writer ≠ .ended → x.mux.writer ≠ .ended :=
    fun hne hw => hne (step_ended hs hw)
  refine ⟨by rw [hmux]; exact ChannelMux.step_ordered hs h.ordered, ?_, ?_, hfirst⟩
  · rw [hmux]
    intro hne hf
    have hx := h.held (hback hne) (by rw [← hflushed hne]; exact hf)
    rwa [step_hand hs hsent hne hx]
  · rw [hmux]
    intro hne t
    have hkeeps := step_keeps hs h.ordered hne t
    rw [hnone] at hkeeps
    rw [hqueued, hwritten, ofStream_append, ofStream_toList, h.kept (hback hne) t, End.pendingOn,
      End.pendingOn, hmux, hflushed hne]
    cases hf : x.flushed with
    | false => simpa [onStream] using hkeeps
    | true =>
      -- the hand is written already, and stays in the hand
      rw [step_hand hs hsent hne (h.held (hback hne) hf)] at hkeeps
      simpa [onStream] using hkeeps

theorem Sends.act {x : End params} (h : Sends x) {inbound : Bytes} {a : Act} {r : Acted params}
    (hr : Does C P x inbound a r) : Sends r.after := by
  cases hr with
  | muxes e s hs hsent _ _ => exact h.muxStep hs hsent rfl rfl rfl (fun _ => rfl)
  | cancels s hs =>
    refine h.muxStep hs (by simp) rfl rfl rfl (fun hne => absurd ?_ hne)
    cases ChannelMux.step_cases hs <;> rfl
  | fails _ c flushed s hc hs _ =>
    refine h.muxStep hs (by simp) rfl rfl rfl (fun hne => absurd ?_ hne)
    cases ChannelMux.step_cases hs
    rfl
  | stops _ c rest s hc hs _ => exact h.muxStep hs (by simp) rfl rfl rfl (fun _ => rfl)
  | transmits t t' s m raw frame hhand hflushed hraw hsend =>
    have hne := writes_of_hand hhand
    have hkept : ∀ u, ofStream u x.queued
        = ofStream u (x.written ++ [(s, m)]) ++ x.mux.rotation.queue u := by
      intro u
      rw [h.kept hne u, End.pendingOn, hflushed, hhand, ofStream_append]
      simp [ofStream]
    refine ⟨h.ordered, fun _ _ => by simp [hhand], fun _ u => by simpa [End.pendingOn] using hkept u,
      fun u => ?_⟩
    rw [hkept u]
    exact List.prefix_append _ _
  | drains s hflushed hs =>
    obtain ⟨-, hsent, hqueued⟩ | ⟨hne, -⟩ := step_sent hs
    · have hkept : s.mux.writer ≠ .ended → ∀ u, ofStream u x.queued = ofStream u x.written ++
          (onStream u s.mux.hand ++ s.mux.rotation.queue u) := by
        intro hne u
        have hkeeps := step_keeps hs h.ordered hne u
        have hx := h.kept (fun hw => hne (step_ended hs hw)) u
        rw [hsent, hqueued] at hkeeps
        rw [hx, End.pendingOn, hflushed]
        simpa [onStream] using hkeeps
      refine ⟨ChannelMux.step_ordered hs h.ordered, (fun _ hf => by cases hf),
        fun hne u => ?_, fun u => ?_⟩
      · simpa [End.pendingOn, hqueued] using hkept hne u
      · simpa [hqueued] using h.first u
    · exact absurd rfl hne
  | drops | hears | handles => exact ⟨h.ordered, h.held, h.kept, h.first⟩

/-! ## §3 The way across -/

/-- The channel as it is once the frame with the transport is accepted. -/
def End.ahead (x : End params) : SecureChannel params :=
  if x.flushed then { x.channel with sendSeq := x.channel.sendSeq + 1 } else x.channel

theorem End.ahead_congr {x x' : End params} (hf : x'.flushed = x.flushed)
    (hc : x'.channel.sendHalf = x.channel.sendHalf) : x'.ahead.sendHalf = x.ahead.sendHalf := by
  unfold End.ahead
  rw [hf]
  split
  · exact congrArg (fun c : SecureChannel params => { c with sendSeq := c.sendSeq + 1 }) hc
  · exact hc

/-- What the bytes from `x` to `y` stand for. -/
inductive Crosses (C : Crypto) (P : Packer) (tHash base : Bytes) (x : End params) (wire : Bytes)
    (y : End params) : Prop where
  /-- `y` reads no more; what it dispatched are the first messages written -/
  | done (hended : y.reader = .ended) (hfirst : y.dispatched <+: x.written.map Prod.snd)
  /-- the messages written are those dispatched and those on the way -/
  | live (a : SecureChannel params) (frames raws : List Bytes) (coming : List Message)
      (hready : y.reader ≠ .ended)
      (hahead : x.mux.writer ≠ .ended → a.sendHalf = x.ahead.sendHalf)
      (hflight : InFlight C tHash base a y.channel frames raws)
      (hfits : ∀ f ∈ frames, f.length ≤ Config.maxFrameSize)
      (hwire : wire = Frames.stream frames)
      (hdec : raws.map (Message.decode P) = coming.map some)
      (hall : x.written.map Prod.snd = y.dispatched ++ coming)
      (hclean : y.channel.replaysDropped = 0)

variable {tHash base : Bytes} {x y : End params} {wire : Bytes}

theorem Crosses.first (h : Crosses C P tHash base x wire y) :
    y.dispatched <+: x.written.map Prod.snd := by
  cases h with
  | done _ hfirst => exact hfirst
  | live a frames raws coming _ _ _ _ _ _ hall =>
    rw [hall]
    exact List.prefix_append _ _

/-- The receiver's other half, and the sender's writer, change nothing on
the way. -/
theorem Crosses.congr {x' y' : End params} (h : Crosses C P tHash base x wire y)
    (hwriter : x'.mux.writer ≠ .ended → x.mux.writer ≠ .ended ∧ x'.ahead.sendHalf = x.ahead.sendHalf)
    (hwritten : x'.written = x.written) (hhalf : y'.channel.recvHalf = y.channel.recvHalf)
    (hreader : y'.reader = .ended ↔ y.reader = .ended) (hdispatched : y'.dispatched = y.dispatched) :
    Crosses C P tHash base x' wire y' := by
  cases h with
  | done hended hfirst => exact .done (hreader.mpr hended) (by rw [hdispatched, hwritten]; exact hfirst)
  | live a frames raws coming hready hahead hflight hfits hwire hdec hall hclean =>
    have hdropped : y'.channel.replaysDropped = y.channel.replaysDropped := by
      simp only [SecureChannel.recvHalf, SecureChannel.mk.injEq] at hhalf
      exact hhalf.2.2.2.2.2.2.2.2.2.2
    exact .live a frames raws coming (fun he => hready (hreader.mp he))
      (fun hne => (hahead (hwriter hne).1).trans (hwriter hne).2.symm) (hflight.congr rfl hhalf) hfits
      hwire hdec (by rw [hwritten, hdispatched]; exact hall) (hdropped.trans hclean)

/-- An act that puts no byte out leaves the writer's part of the way across as it was. -/
theorem Does.silent {inbound : Bytes} {a : Act} {r : Acted params} (hr : Does C P x inbound a r)
    (hout : r.out = []) :
    r.after.written = x.written ∧ (r.after.mux.writer ≠ .ended →
      x.mux.writer ≠ .ended ∧ r.after.ahead.sendHalf = x.ahead.sendHalf) := by
  have hturned : ∀ {frame : Bytes} {c : SecureChannel params} {o : Option (Except RecvError Bytes)},
      x.channel.onFrame C frame = (c, o) → c.sendHalf = x.channel.sendHalf := by
    intro frame c o hturn
    have hhalf := SecureChannel.sendHalf_onFrame (C := C) x.channel frame
    rwa [hturn] at hhalf
  cases hr with
  | muxes e s hstep _ _ _ => exact ⟨rfl, fun hne => ⟨fun hw => hne (step_ended hstep hw), rfl⟩⟩
  | cancels s hstep =>
    have hended : s.mux.writer = .ended := by cases ChannelMux.step_cases hstep <;> rfl
    exact ⟨rfl, fun hne => absurd hended hne⟩
  | fails _ c flushed s hc hstep _ =>
    have hended : s.mux.writer = .ended := by cases ChannelMux.step_cases hstep; rfl
    exact ⟨rfl, fun hne => absurd hended hne⟩
  | drains s hflushed hstep =>
    exact ⟨rfl, fun hne => ⟨fun hw => hne (step_ended hstep hw), by simp [End.ahead, hflushed]⟩⟩
  | drops frame rest c _ hread hturn => exact ⟨rfl, fun hne => ⟨hne, End.ahead_congr rfl (hturned hturn)⟩⟩
  | hears frame rest plaintext c m _ hread hturn hdec =>
    exact ⟨rfl, fun hne => ⟨hne, End.ahead_congr rfl (hturned hturn)⟩⟩
  | stops _ c rest s hc hstep _ =>
    exact ⟨rfl, fun hne => ⟨fun hw => hne (step_ended hstep hw), End.ahead_congr rfl hc⟩⟩
  | handles => exact ⟨rfl, fun hne => ⟨hne, rfl⟩⟩
  | transmits t t' s m raw frame =>
    have hlen := congrArg List.length hout
    rw [List.length_append, BigEndian.length_pack] at hlen
    simp at hlen

/-- The sender takes a step. -/
theorem Crosses.sender (h : Crosses C P tHash base x wire y) {inbound : Bytes} {a : Act}
    {r : Acted params} (hr : Does C P x inbound a r) :
    Crosses C P tHash base r.after (wire ++ r.out) y := by
  have hsilent := hr.silent
  cases hr with
  | transmits t t' s m raw frame hhand hflushed hraw hsend =>
    cases h with
    | done hended hfirst =>
      refine .done hended (hfirst.trans ?_)
      simp
    | live a frames raws coming hready hahead hflight hfits hwire hdec hall hclean =>
      have hhalf : a.sendHalf = x.channel.sendHalf := by
        have hhalf := hahead (writes_of_hand hhand)
        rwa [End.ahead, if_neg (by simp [hflushed])] at hhalf
      obtain ⟨hstate, hresult⟩ := SecureChannel.send_congr (C := C) hhalf ⟨raw, t, t'⟩
      have hnext := hflight.sent (hresult.trans hsend)
      obtain ⟨-, -, hlen, heq⟩ := SecureChannel.send_ok hsend
      refine .live _ (frames ++ [frame]) (raws ++ [raw]) (coming ++ [m]) hready (fun _ => ?_) hnext ?_
        ?_ ?_ ?_ hclean
      · rw [hstate, heq]
        simp [End.ahead]
      · intro f hf
        rcases List.mem_append.mp hf with hf | hf
        · exact hfits f hf
        · rw [List.mem_singleton.mp hf]
          exact hlen
      · rw [hwire]
        simp [Frames.stream]
      · simp [hdec, Message.decode_encode hraw]
      · simp [hall]
  | _ =>
    obtain ⟨hwritten, hwriter⟩ := hsilent rfl
    rw [List.append_nil]
    exact h.congr hwriter hwritten rfl Iff.rfl rfl

/-- A whole frame at the front of a stream of frames is the first of them. -/
theorem readFrame_stream {frames : List Bytes} (hfits : ∀ f ∈ frames, f.length ≤ Config.maxFrameSize) :
    (frames = [] ∧ Frames.readFrame Config.maxFrameSize (Frames.stream frames)
        = (.error (.incompleteRead 0 4), [])) ∨
      ∃ f rest, frames = f :: rest ∧ Frames.readFrame Config.maxFrameSize (Frames.stream frames)
        = (.ok f, Frames.stream rest) := by
  have hsmall : Config.maxFrameSize < 256 ^ 4 := by decide
  cases frames with
  | nil => exact .inl ⟨rfl, rfl⟩
  | cons f rest =>
    have hf := hfits f List.mem_cons_self
    refine .inr ⟨f, rest, rfl, ?_⟩
    rw [Frames.stream_cons, Frames.readFrame_frame hf (by omega)]

/-- The frame that can be read opens and decodes to the next message. -/
theorem Crosses.arrives (correct : C.AeadCorrect) (hskip : 1 ≤ params.maxEpochSkip)
    (h : Crosses C P tHash base x wire y) (hw : y.reader = .waiting) {frame rest : Bytes}
    (hread : Frames.readFrame Config.maxFrameSize wire = (.ok frame, rest)) :
    ∃ c plaintext m, y.channel.onFrame C frame = (c, some (.ok plaintext)) ∧
      Message.decode P plaintext = some m ∧
      Crosses C P tHash base x rest { y with
        channel := c
        reader := .handling
        messagesReceived := y.messagesReceived + 1
        dispatched := y.dispatched ++ [m] } := by
  cases h with
  | done hended => exact absurd (hw.symm.trans hended) (by simp)
  | live a frames raws coming hready hahead hflight hfits hwire hdec hall hclean =>
    rw [hwire] at hread
    rcases readFrame_stream hfits with ⟨-, hnone⟩ | ⟨f, more, rfl, hsome⟩
    · rw [hnone] at hread
      cases hread
    · rw [hsome] at hread
      cases hread
      obtain ⟨p, raws', c, rfl, hturn, hdropped, hflight'⟩ := hflight.delivered correct hskip
      cases coming with
      | nil => simp at hdec
      | cons m coming =>
        obtain ⟨hm, hdec'⟩ : Message.decode P p = some m ∧
            raws'.map (Message.decode P) = coming.map some := by simpa using hdec
        exact ⟨c, p, m, hturn, hm, .live a more raws' coming (by simp) hahead hflight'
          (fun g hg => hfits g (List.mem_cons_of_mem _ hg)) rfl hdec' (by simp [hall])
          (hdropped.trans hclean)⟩

/-- The receiver takes a step. -/
theorem Crosses.receiver (correct : C.AeadCorrect) (hskip : 1 ≤ params.maxEpochSkip)
    (h : Crosses C P tHash base x wire y) {a : Act} {r : Acted params} (hr : Does C P y wire a r) :
    Crosses C P tHash base x r.unread r.after := by
  cases hr with
  | muxes e s hstep _ _ _ => exact h.congr (fun hne => ⟨hne, rfl⟩) rfl rfl Iff.rfl rfl
  | cancels s hstep => exact h.congr (fun hne => ⟨hne, rfl⟩) rfl rfl Iff.rfl rfl
  | fails _ c flushed s hc hstep _ => exact h.congr (fun hne => ⟨hne, rfl⟩) rfl hc Iff.rfl rfl
  | drains s hflushed hstep => exact h.congr (fun hne => ⟨hne, rfl⟩) rfl rfl Iff.rfl rfl
  | transmits t t' s m raw frame hhand hflushed hraw hsend =>
    exact h.congr (fun hne => ⟨hne, rfl⟩) rfl (SecureChannel.recvHalf_prepare y.channel _) Iff.rfl rfl
  | handles hw => exact h.congr (fun hne => ⟨hne, rfl⟩) rfl rfl (by simp [hw]) rfl
  | stops _ c rest s hc hstep _ => exact .done rfl h.first
  | drops frame rest c hw hread hturn =>
    obtain ⟨c', p, m, hturn', -, -⟩ := h.arrives correct hskip hw hread
    rw [hturn] at hturn'
    cases hturn'
  | hears frame rest plaintext c m hw hread hturn hdec =>
    obtain ⟨c', p, m', hturn', hdec', hnext⟩ := h.arrives correct hskip hw hread
    rw [hturn] at hturn'
    cases hturn'
    rw [hdec] at hdec'
    cases hdec'
    exact hnext

theorem stream_eq_nil {frames : List Bytes} (h : Frames.stream frames = []) : frames = [] := by
  cases frames with
  | nil => rfl
  | cons f rest =>
    have hlen := congrArg List.length h
    rw [Frames.stream_cons, List.length_append, List.length_append, BigEndian.length_pack] at hlen
    simp at hlen

/-- With no byte on the way, everything written was dispatched. -/
theorem Crosses.all_dispatched (h : Crosses C P tHash base x [] y) (hr : y.reader ≠ .ended) :
    x.written.length = y.dispatched.length := by
  cases h with
  | done hended => exact absurd hended hr
  | live a frames raws coming _ _ hflight _ hwire hdec hall =>
    -- no frame, no plaintext, no message
    have hframes : frames = [] := stream_eq_nil hwire.symm
    have hraws : raws = [] := by
      have hlen := hflight.length_eq
      rw [hframes] at hlen
      exact List.length_eq_zero_iff.mp hlen.symm
    have hcoming : coming = [] := by
      rw [hraws] at hdec
      exact List.map_eq_nil_iff.mp hdec.symm
    have hlen := congrArg List.length hall
    rwa [hcoming, List.append_nil, List.length_map] at hlen

/-- A byte on the way is part of a whole frame. -/
theorem Crosses.readable (h : Crosses C P tHash base x wire y) (hw : y.reader = .waiting)
    (hbytes : wire ≠ []) :
    ∃ frame rest, Frames.readFrame Config.maxFrameSize wire = (.ok frame, rest) := by
  cases h with
  | done hended => exact absurd (hw.symm.trans hended) (by simp)
  | live a frames raws coming _ _ _ hfits hwire =>
    rcases readFrame_stream hfits with ⟨rfl, -⟩ | ⟨f, more, -, hread⟩
    · exact absurd hwire hbytes
    · exact ⟨f, _, hwire ▸ hread⟩

/-- A reader that waits while bytes are on the way goes on. -/
theorem Crosses.goes_on (correct : C.AeadCorrect) (hskip : 1 ≤ params.maxEpochSkip)
    (h : Crosses C P tHash base x wire y) (hw : y.reader = .waiting) (hbytes : wire ≠ []) :
    ∃ r m, y.act C P wire .arrive = some r ∧ r.after.reader = .handling ∧
      r.after.dispatched = y.dispatched ++ [m] ∧ r.after.dispatched <+: x.written.map Prod.snd := by
  obtain ⟨frame, rest, hread⟩ := h.readable hw hbytes
  obtain ⟨c, p, m, hturn, hdec, hnext⟩ := h.arrives correct hskip hw hread
  refine ⟨⟨_, [], rest⟩, m, ?_, rfl, rfl, hnext.first⟩
  simp only [End.act, hw, End.arrive, hread, hturn, hdec, Option.map_some]

/-! ## §4 End to end -/

/-- One direction of a link. -/
structure Flow (C : Crypto) (P : Packer) (tHash base : Bytes) (x : End params) (wire : Bytes)
    (y : End params) : Prop where
  sends : Sends x
  crosses : Crosses C P tHash base x wire y

/-- The direction from left to right, at every moment of a run. -/
theorem Link.Reachable.flow (correct : C.AeadCorrect) (hskip : 1 ≤ params.maxEpochSkip)
    {key key' tHash : Bytes} {now now' : Rat} {maxQueued maxQueued' : Nat} {l : Link params}
    (h : Link.Reachable C P (.init params key key' tHash now now' maxQueued maxQueued') l) :
    Flow C P tHash key l.left l.toRight l.right := by
  induction h with
  | refl =>
    refine ⟨sends_init _ _, .live _ [] [] [] (by simp [Link.init, End.init]) (fun _ => rfl)
      (InFlight.init params key key' tHash now now') (by simp) rfl rfl rfl rfl⟩
  | tail _ hstep ih =>
    cases hstep with
    | left a r hr =>
      have hdoes := End.act_cases hr
      exact ⟨ih.sends.act hdoes, ih.crosses.sender hdoes⟩
    | right a r hr =>
      exact ⟨ih.sends, ih.crosses.receiver correct hskip (End.act_cases hr)⟩

/-- Two ends, and a ping queued, written and not read yet. -/
theorem reachable_ping :
    ∃ l : Link (⟨4, by decide, 100, by decide, 0, 1⟩ : ChannelParams),
      Link.Reachable .tagging .msgpack (.init _ [1] [2] [] 0 0 2 2) l ∧
        l.left.queued = [(0, ⟨.ping, .map []⟩)] ∧ l.toRight ≠ [] ∧ l.right.reader = .waiting := by
  let start : Link (⟨4, by decide, 100, by decide, 0, 1⟩ : ChannelParams) := .init _ [1] [2] [] 0 0 2 2
  have h₁ : Link.Reachable .tagging .msgpack start _ :=
    .single (.left start (.mux (.send 0 ⟨.ping, .map []⟩)) _ rfl)
  have h₂ : Link.Reachable .tagging .msgpack start _ := h₁.tail (.left _ (.mux .run) _ rfl)
  have h₃ : Link.Reachable .tagging .msgpack start _ :=
    h₂.tail (.left _ (.transmit 0 0) _ (by with_unfolding_all rfl))
  exact ⟨_, h₃, rfl, by decide +kernel, rfl⟩

/-- **In order and complete, stream by stream.** Whatever the tasks of
both ends do, and in whatever order, the messages dispatched at one end
are, on every stream, the first of those queued on it at the other end,
in the order they were queued and each once. While the reader and the
other end's writer go on, what is queued on a stream is what was
dispatched, what is on the way, and what waits at the writer; with no
byte on the way there is no message on the way. -/
theorem link_in_order (C : Crypto) (P : Packer) (correct : C.AeadCorrect) (params : ChannelParams)
    (hskip : 1 ≤ params.maxEpochSkip) (key key' tHash : Bytes) (now now' : Rat)
    (maxQueued maxQueued' : Nat) (l : Link params)
    (h : Link.Reachable C P (.init params key key' tHash now now' maxQueued maxQueued') l) :
    ∃ arrived, l.right.dispatched = arrived.map Prod.snd ∧
      (∀ s, ofStream s arrived <+: ofStream s l.left.queued) ∧
      (l.right.reader ≠ .ended → l.left.mux.writer ≠ .ended →
        ∃ coming, (l.toRight = [] → coming = []) ∧
          ∀ s, ofStream s l.left.queued
            = ofStream s arrived ++ ofStream s coming ++ l.left.pendingOn s) := by
  obtain ⟨hsends, hcrosses⟩ := h.flow correct hskip
  have hsplit := List.take_append_drop l.right.dispatched.length l.left.written
  have htake : (l.left.written.take l.right.dispatched.length).map Prod.snd = l.right.dispatched := by
    rw [List.map_take, ← List.prefix_iff_eq_take.mp hcrosses.first]
  refine ⟨l.left.written.take l.right.dispatched.length, htake.symm, fun s => ?_, fun hr hw => ?_⟩
  · exact (ofStream_mono (List.take_prefix _ _) s).trans (hsends.first s)
  · refine ⟨l.left.written.drop l.right.dispatched.length, fun hempty => ?_, fun s => ?_⟩
    · rw [hempty] at hcrosses
      exact List.drop_of_length_le (hcrosses.all_dispatched hr).le
    · rw [← ofStream_append, hsplit]
      exact hsends.kept hw s

theorem link_in_order_ping :
    ∃ l : Link (⟨4, by decide, 100, by decide, 0, 1⟩ : ChannelParams),
      Link.Reachable .tagging .msgpack (.init _ [1] [2] [] 0 0 2 2) l ∧
      ∃ arrived, l.right.dispatched = arrived.map Prod.snd ∧
        ∀ s, ofStream s arrived <+: ofStream s [(0, ⟨.ping, .map []⟩)] := by
  obtain ⟨l, hreach, hqueued, -, -⟩ := reachable_ping
  obtain ⟨arrived, harrived, hfirst, -⟩ := link_in_order .tagging .msgpack Crypto.tagging_aeadCorrect _
    (by decide) [1] [2] [] 0 0 2 2 l hreach
  exact ⟨l, hreach, arrived, harrived, fun s => hqueued ▸ hfirst s⟩

/-- **The connection does not break by itself.** Whatever is on the way
to a reader that waits can be read: framing, rekeying, the replay window
and the codec of the two ends agree, so the next message is dispatched
and no frame is dropped as a replay. -/
theorem link_progress (C : Crypto) (P : Packer) (correct : C.AeadCorrect) (params : ChannelParams)
    (hskip : 1 ≤ params.maxEpochSkip) (key key' tHash : Bytes) (now now' : Rat)
    (maxQueued maxQueued' : Nat) (l : Link params)
    (h : Link.Reachable C P (.init params key key' tHash now now' maxQueued maxQueued') l)
    (hw : l.right.reader = .waiting) :
    l.right.channel.replaysDropped = 0 ∧
      (l.toRight ≠ [] → ∃ r m, l.right.act C P l.toRight .arrive = some r ∧ r.after.reader = .handling ∧
        r.after.dispatched = l.right.dispatched ++ [m] ∧
        r.after.dispatched <+: l.left.written.map Prod.snd) := by
  have hcrosses := (h.flow correct hskip).crosses
  constructor
  · cases hcrosses with
    | done hended => exact absurd (hw.symm.trans hended) (by simp)
    | live a frames raws coming _ _ _ _ _ _ _ hclean => exact hclean
  · exact hcrosses.goes_on correct hskip hw

/-- The ping is read and dispatched. -/
theorem link_progress_ping :
    ∃ l : Link (⟨4, by decide, 100, by decide, 0, 1⟩ : ChannelParams),
      Link.Reachable .tagging .msgpack (.init _ [1] [2] [] 0 0 2 2) l ∧
      ∃ r m, l.right.act .tagging .msgpack l.toRight .arrive = some r ∧ r.after.reader = .handling ∧
        r.after.dispatched = l.right.dispatched ++ [m] ∧
        r.after.dispatched <+: l.left.written.map Prod.snd := by
  obtain ⟨l, hreach, hqueued, hbytes, hw⟩ := reachable_ping
  exact ⟨l, hreach, (link_progress .tagging .msgpack Crypto.tagging_aeadCorrect _ (by decide) [1] [2]
    [] 0 0 2 2 l hreach hw).2 hbytes⟩

end Memnode.Mux
