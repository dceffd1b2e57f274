/-
Memnode.Security.Channel — `SecureChannel`: the key schedule and the two
data paths.

A frame body is `seq (8 bytes) || ciphertext`. `send` and `recv` follow
the source statement by statement, on one record with the fields of the
object. `send` takes the two clock readings it makes and either returns
the frame it put on the wire or raises; what it changed before raising
stays changed. `onFrame` is one turn of the loop in `recv`; `recv` runs
it over the frames that arrive and, with no frame left, is still waiting.

The lemmas at the end say what one `send` and one turn of `recv` do, and
are all that the results about runs use.
-/
import Mathlib.Algebra.Order.Ring.Rat
import Mathlib.Logic.Function.Iterate
import Memnode.Lib.BigEndian
import Memnode.Security.Crypto
import Memnode.Security.ReplayWindow

set_option linter.unusedSectionVars false

namespace Memnode.Security

open Lib

/-- `SEQ_LEN`. -/
def seqLen : Nat := 8

/-- `AEAD_TAG_LEN`. -/
def aeadTagLen : Nat := 16

/-- The constructor's parameters that do not change later. -/
structure ChannelParams where
  replayWindowSize : Nat
  replayWindowSize_pos : 1 ≤ replayWindowSize
  rekeyMessages : Nat
  rekeyMessages_pos : 1 ≤ rekeyMessages
  rekeySeconds : Rat
  maxEpochSkip : Int

/-- `SecureChannel`. A cipher object is its key. -/
structure SecureChannel (params : ChannelParams) where
  transcriptHash : Bytes
  sendKey : Bytes
  recvKey : Bytes
  sendSeq : Nat
  sendEpoch : Nat
  recvEpoch : Nat
  replay : ReplayWindow params.replayWindowSize
  lastRekeyAt : Rat
  rekeysSent : Nat
  rekeysReceived : Nat
  replaysDropped : Nat

/-- What `send` can raise. -/
inductive SendError where
  /-- `struct.error` from `SEQ_STRUCT.pack` -/
  | seqOverflow
  | frameTooLarge (size : Nat)
  deriving DecidableEq, Repr

/-- What `recv` can raise. -/
inductive RecvError where
  | frameTooLarge (size : Nat)
  | truncated
  | expiredEpoch (epoch current : Nat)
  | epochJump (jump : Nat) (max : Int)
  | authFailed
  deriving DecidableEq, Repr

/-- One `encrypt` call: its arguments and its result. -/
structure Sealing where
  key : Bytes
  nonce : Bytes
  aad : Bytes
  plaintext : Bytes
  ciphertext : Bytes
  deriving DecidableEq, Repr

/-- One `send` call: the plaintext and the clock at the two places that read it. -/
structure SendCall where
  plaintext : Bytes
  checkedAt : Rat
  rekeyedAt : Rat

/-- What a `recv` call ended with, and the frame it read last. -/
structure Received where
  frame : Bytes
  result : Except RecvError Bytes
  deriving DecidableEq

/-- `_advance_key`. -/
def advanceKey (C : Crypto) (key transcriptHash : Bytes) (epoch : Nat) (direction : Bytes) : Bytes :=
  C.hkdf 32 transcriptHash
    (ascii "memnode-rekey-v1|" ++ direction ++ ascii "|" ++ ascii (toString epoch)) key

/-- `_nonce`. -/
def nonce (seq : Nat) : Bytes := [0, 0, 0, 0] ++ BigEndian.pack 8 seq

/-- The sequence number a frame carries. -/
def seqOf (frame : Bytes) : Nat := BigEndian.unpack (frame.take seqLen)

namespace SecureChannel

variable {params : ChannelParams} (C : Crypto)

/-- `__init__`. -/
def init (params : ChannelParams) (sendKey recvKey transcriptHash : Bytes) (now : Rat) :
    SecureChannel params where
  transcriptHash := transcriptHash
  sendKey := sendKey
  recvKey := recvKey
  sendSeq := 0
  sendEpoch := 0
  recvEpoch := 0
  replay := .init _
  lastRekeyAt := now
  rekeysSent := 0
  rekeysReceived := 0
  replaysDropped := 0

/-! ## Key schedule -/

/-- `_epoch_for`. -/
def epochFor (params : ChannelParams) (seq : Nat) : Nat := seq / params.rekeyMessages

/-- The body of the loop in `_advance_send_to`. -/
def rekeySend (c : SecureChannel params) : SecureChannel params :=
  { c with
    sendEpoch := c.sendEpoch + 1
    sendKey := advanceKey C c.sendKey c.transcriptHash (c.sendEpoch + 1) (ascii "send")
    rekeysSent := c.rekeysSent + 1 }

/-- `_advance_send_to`. Each turn of the loop raises the epoch by one. -/
def advanceSendTo (c : SecureChannel params) (epoch : Nat) (now : Rat) : SecureChannel params :=
  { (rekeySend C)^[epoch - c.sendEpoch] c with lastRekeyAt := now }

/-- The body of the loop in `_advance_recv_to`, with the sender's label. -/
def rekeyRecv (c : SecureChannel params) : SecureChannel params :=
  { c with
    recvEpoch := c.recvEpoch + 1
    recvKey := advanceKey C c.recvKey c.transcriptHash (c.recvEpoch + 1) (ascii "send")
    rekeysReceived := c.rekeysReceived + 1 }

/-- `_advance_recv_to`. -/
def advanceRecvTo (c : SecureChannel params) (epoch : Nat) :
    Except RecvError (SecureChannel params) :=
  if epoch < c.recvEpoch then .error (.expiredEpoch epoch c.recvEpoch)
  else if ((epoch - c.recvEpoch : Nat) : Int) > params.maxEpochSkip then
    .error (.epochJump (epoch - c.recvEpoch) params.maxEpochSkip)
  else .ok ((rekeyRecv C)^[epoch - c.recvEpoch] c)

/-- `_maybe_time_rekey`. -/
def maybeTimeRekey (c : SecureChannel params) (now : Rat) : SecureChannel params :=
  if params.rekeySeconds ≤ 0 then c
  else if now - c.lastRekeyAt < params.rekeySeconds then c
  else
    let boundary := (c.sendEpoch + 1) * params.rekeyMessages
    if c.sendSeq < boundary then { c with sendSeq := boundary } else c

/-! ## Data path -/

/-- `send`, up to the point where the epoch is right for the sequence number. -/
def prepare (c : SecureChannel params) (call : SendCall) : SecureChannel params :=
  let c := c.maybeTimeRekey call.checkedAt
  let epoch := epochFor params c.sendSeq
  if epoch ≠ c.sendEpoch then c.advanceSendTo C epoch call.rekeyedAt else c

/-- The `encrypt` call of `send`. -/
def sealing (c : SecureChannel params) (plaintext : Bytes) : Sealing :=
  let seqBytes := BigEndian.pack 8 c.sendSeq
  ⟨c.sendKey, nonce c.sendSeq, seqBytes, plaintext,
    C.encrypt c.sendKey (nonce c.sendSeq) plaintext seqBytes⟩

/-- `send`: the frame written, or the exception raised. -/
def send (c : SecureChannel params) (call : SendCall) :
    SecureChannel params × Except SendError Bytes :=
  let c := c.prepare C call
  if c.sendSeq ≥ 2 ^ 64 then (c, .error .seqOverflow)
  else
    let frame := BigEndian.pack 8 c.sendSeq ++ (c.sealing C call.plaintext).ciphertext
    if frame.length > Config.maxFrameSize then (c, .error (.frameTooLarge frame.length))
    else ({ c with sendSeq := c.sendSeq + 1 }, .ok frame)

/-- One turn of the loop in `recv`: `none` is a dropped frame. -/
def onFrame (c : SecureChannel params) (frame : Bytes) :
    SecureChannel params × Option (Except RecvError Bytes) :=
  if frame.length > Config.maxFrameSize then (c, some (.error (.frameTooLarge frame.length)))
  else if frame.length < seqLen + aeadTagLen then (c, some (.error .truncated))
  else
    let seqBytes := frame.take seqLen
    let seq := BigEndian.unpack seqBytes
    let ciphertext := frame.drop seqLen
    match c.replay.checkAndUpdate seq with
    | (w, false) => ({ c with replay := w, replaysDropped := c.replaysDropped + 1 }, none)
    | (w, true) =>
        match advanceRecvTo C { c with replay := w } (epochFor params seq) with
        | .error e => ({ c with replay := w }, some (.error e))
        | .ok c' =>
            match C.decrypt c'.recvKey (nonce seq) ciphertext seqBytes with
            | some plaintext => (c', some (.ok plaintext))
            | none => (c', some (.error .authFailed))

/-- `recv` over the frames that arrive. With none left it is still waiting. -/
def recv (c : SecureChannel params) :
    List Bytes → SecureChannel params × Option Received × List Bytes
  | [] => (c, none, [])
  | f :: rest =>
      match c.onFrame C f with
      | (c', none) => recv c' rest
      | (c', some result) => (c', some ⟨f, result⟩, rest)

/-- `n` calls of `recv`, whatever each of them ends with. -/
def recvs : Nat → SecureChannel params → List Bytes →
    List Received × SecureChannel params × List Bytes
  | 0, c, frames => ([], c, frames)
  | n + 1, c, frames =>
      match c.recv C frames with
      | (c', none, rest) => ([], c', rest)
      | (c', some x, rest) =>
          let (xs, c'', rest') := recvs n c' rest
          (x :: xs, c'', rest')

/-- A dropped frame costs the waiting `recv` call nothing. -/
theorem recvs_drop {c c' : SecureChannel params} {f : Bytes} (h : c.onFrame C f = (c', none))
    (n : Nat) (fs : List Bytes) : recvs C (n + 1) c (f :: fs) = recvs C (n + 1) c' fs := by
  simp only [recvs, recv, h]

/-- Any other frame ends the call. -/
theorem recvs_result {c c' : SecureChannel params} {f : Bytes} {r : Except RecvError Bytes}
    (h : c.onFrame C f = (c', some r)) (n : Nat) (fs : List Bytes) :
    recvs C (n + 1) c (f :: fs)
      = (⟨f, r⟩ :: (recvs C n c' fs).1, (recvs C n c' fs).2) := by
  simp only [recvs, recv, h]

/-! ## The key chain -/

/-- The key of an epoch, from the key of epoch 0. -/
def chainKey (C : Crypto) (transcriptHash base : Bytes) : Nat → Bytes
  | 0 => base
  | e + 1 => advanceKey C (chainKey C transcriptHash base e) transcriptHash (e + 1) (ascii "send")

variable {C} {tHash base : Bytes} {c c' : SecureChannel params}

/-- The send half is where the key chain and the counter say: the key is
that of the epoch, and the next number is in the epoch or just past it. -/
structure SendOk (C : Crypto) (tHash base : Bytes) (c : SecureChannel params) : Prop where
  hash : c.transcriptHash = tHash
  key : c.sendKey = chainKey C tHash base c.sendEpoch
  low : c.sendEpoch * params.rekeyMessages ≤ c.sendSeq
  high : c.sendSeq ≤ (c.sendEpoch + 1) * params.rekeyMessages

/-- The receive key is that of the receive epoch. -/
structure RecvOk (C : Crypto) (tHash base : Bytes) (c : SecureChannel params) : Prop where
  hash : c.transcriptHash = tHash
  key : c.recvKey = chainKey C tHash base c.recvEpoch

theorem sendOk_init (params : ChannelParams) (k k' tHash : Bytes) (now : Rat) :
    SendOk C tHash k (init params k k' tHash now) :=
  ⟨rfl, rfl, by simp [init], by simp [init]⟩

theorem recvOk_init (params : ChannelParams) (k k' tHash : Bytes) (now : Rat) :
    RecvOk C tHash k' (init params k k' tHash now) :=
  ⟨rfl, rfl⟩

theorem iterate_rekeySend (h : c.sendKey = chainKey C c.transcriptHash base c.sendEpoch) (n : Nat) :
    ((rekeySend C)^[n] c).sendEpoch = c.sendEpoch + n ∧
      ((rekeySend C)^[n] c).sendKey = chainKey C c.transcriptHash base (c.sendEpoch + n) ∧
      ((rekeySend C)^[n] c).sendSeq = c.sendSeq ∧
      ((rekeySend C)^[n] c).transcriptHash = c.transcriptHash := by
  induction n with
  | zero => exact ⟨rfl, h, rfl, rfl⟩
  | succ n ih =>
    obtain ⟨hepoch, hkey, hseq, hhash⟩ := ih
    rw [Function.iterate_succ_apply']
    refine ⟨by simp only [rekeySend, hepoch]; rfl, ?_, by simp only [rekeySend, hseq],
      by simp only [rekeySend, hhash]⟩
    simp only [rekeySend, hepoch, hkey, hhash]
    rfl

theorem iterate_rekeyRecv (h : c.recvKey = chainKey C c.transcriptHash base c.recvEpoch) (n : Nat) :
    ((rekeyRecv C)^[n] c).recvEpoch = c.recvEpoch + n ∧
      ((rekeyRecv C)^[n] c).recvKey = chainKey C c.transcriptHash base (c.recvEpoch + n) ∧
      ((rekeyRecv C)^[n] c).replay = c.replay ∧
      ((rekeyRecv C)^[n] c).replaysDropped = c.replaysDropped ∧
      ((rekeyRecv C)^[n] c).transcriptHash = c.transcriptHash := by
  induction n with
  | zero => exact ⟨rfl, h, rfl, rfl, rfl⟩
  | succ n ih =>
    obtain ⟨hepoch, hkey, hreplay, hdropped, hhash⟩ := ih
    rw [Function.iterate_succ_apply']
    refine ⟨by simp only [rekeyRecv, hepoch]; rfl, ?_, by simp only [rekeyRecv, hreplay],
      by simp only [rekeyRecv, hdropped], by simp only [rekeyRecv, hhash]⟩
    simp only [rekeyRecv, hepoch, hkey, hhash]
    rfl

/-! ## What one `send` does -/

theorem maybeTimeRekey_spec (h : SendOk C tHash base c) (now : Rat) :
    SendOk C tHash base (c.maybeTimeRekey now) ∧ (c.maybeTimeRekey now).sendEpoch = c.sendEpoch ∧
      c.sendSeq ≤ (c.maybeTimeRekey now).sendSeq := by
  unfold maybeTimeRekey
  split
  · exact ⟨h, rfl, le_refl _⟩
  split
  · exact ⟨h, rfl, le_refl _⟩
  simp only
  split
  · rename_i hlt
    refine ⟨⟨h.hash, h.key, ?_, le_refl _⟩, rfl, hlt.le⟩
    exact Nat.mul_le_mul_right _ (Nat.le_succ _)
  · exact ⟨h, rfl, le_refl _⟩

/-- Before it encrypts, `send` has moved on by at most one epoch, and the
key is that of the sequence number. -/
theorem prepare_spec (h : SendOk C tHash base c) (call : SendCall) :
    (c.prepare C call).transcriptHash = tHash ∧
      (c.prepare C call).sendEpoch = epochFor params (c.prepare C call).sendSeq ∧
      (c.prepare C call).sendKey
        = chainKey C tHash base (epochFor params (c.prepare C call).sendSeq) ∧
      c.sendSeq ≤ (c.prepare C call).sendSeq ∧
      c.sendEpoch ≤ epochFor params (c.prepare C call).sendSeq ∧
      epochFor params (c.prepare C call).sendSeq ≤ c.sendEpoch + 1 := by
  obtain ⟨h₁, hepoch, hseq⟩ := maybeTimeRekey_spec h call.checkedAt
  rw [← hepoch]
  unfold prepare
  generalize c.maybeTimeRekey call.checkedAt = c₁ at h₁ hseq
  have hR := params.rekeyMessages_pos
  have hlow : c₁.sendEpoch ≤ epochFor params c₁.sendSeq :=
    (Nat.le_div_iff_mul_le hR).mpr h₁.low
  have hhigh : epochFor params c₁.sendSeq ≤ c₁.sendEpoch + 1 :=
    Nat.div_le_of_le_mul (by rw [Nat.mul_comm]; exact h₁.high)
  simp only
  split
  · have hkey : c₁.sendKey = chainKey C c₁.transcriptHash base c₁.sendEpoch := by
      rw [h₁.hash]; exact h₁.key
    obtain ⟨he, hk, hs, hh⟩ := iterate_rekeySend hkey (epochFor params c₁.sendSeq - c₁.sendEpoch)
    rw [Nat.add_sub_cancel' hlow] at he hk
    simp only [advanceSendTo, hs]
    exact ⟨hh.trans h₁.hash, he, by rw [hk, h₁.hash], hseq, hlow, hhigh⟩
  · rename_i heq
    have heq' : epochFor params c₁.sendSeq = c₁.sendEpoch := by simpa using heq
    exact ⟨h₁.hash, heq'.symm, by rw [heq']; exact h₁.key, hseq, hlow, hhigh⟩

/-- The two ways a `send` ends. -/
theorem send_cases (c : SecureChannel params) (call : SendCall) :
    (∃ e, c.send C call = (c.prepare C call, .error e) ∧
      ((c.prepare C call).sendSeq ≥ 2 ^ 64 ∨
        (BigEndian.pack 8 (c.prepare C call).sendSeq
          ++ ((c.prepare C call).sealing C call.plaintext).ciphertext).length
          > Config.maxFrameSize)) ∨
    ((c.prepare C call).sendSeq < 2 ^ 64 ∧
      ∃ frame, frame = BigEndian.pack 8 (c.prepare C call).sendSeq
          ++ ((c.prepare C call).sealing C call.plaintext).ciphertext ∧
        frame.length ≤ Config.maxFrameSize ∧
        c.send C call
          = ({ c.prepare C call with sendSeq := (c.prepare C call).sendSeq + 1 }, .ok frame)) := by
  unfold send
  generalize c.prepare C call = p
  by_cases hseq : p.sendSeq ≥ 2 ^ 64
  · exact Or.inl ⟨.seqOverflow, by simp only [if_pos hseq], Or.inl hseq⟩
  · by_cases hlen : (BigEndian.pack 8 p.sendSeq
        ++ (p.sealing C call.plaintext).ciphertext).length > Config.maxFrameSize
    · exact Or.inl ⟨_, by simp only [if_neg hseq, if_pos hlen]; rfl, Or.inr hlen⟩
    · exact Or.inr ⟨Nat.lt_of_not_ge hseq, _, rfl, Nat.le_of_not_gt hlen,
        by simp only [if_neg hseq, if_neg hlen]⟩

/-- Before it encrypts, `send` has a number inside the epoch. -/
theorem SendOk.prepare (h : SendOk C tHash base c) (call : SendCall) :
    SendOk C tHash base (c.prepare C call) ∧
      (c.prepare C call).sendSeq < ((c.prepare C call).sendEpoch + 1) * params.rekeyMessages := by
  obtain ⟨hhash, hepoch, hkey, _⟩ := prepare_spec h call
  have hR := params.rekeyMessages_pos
  have hmod := Nat.div_add_mod (c.prepare C call).sendSeq params.rekeyMessages
  have hlt := Nat.mod_lt (c.prepare C call).sendSeq hR
  have hlow : (c.prepare C call).sendEpoch * params.rekeyMessages ≤ (c.prepare C call).sendSeq := by
    rw [hepoch, epochFor]
    exact Nat.div_mul_le_self _ _
  have hhigh : (c.prepare C call).sendSeq
      < ((c.prepare C call).sendEpoch + 1) * params.rekeyMessages := by
    rw [hepoch, epochFor, Nat.add_mul, Nat.mul_comm]
    omega
  exact ⟨⟨hhash, by rw [hkey, hepoch], hlow, hhigh.le⟩, hhigh⟩

/-- A number inside the epoch has been used. -/
theorem SendOk.next (h : SendOk C tHash base c)
    (hlt : c.sendSeq < (c.sendEpoch + 1) * params.rekeyMessages) :
    SendOk C tHash base { c with sendSeq := c.sendSeq + 1 } :=
  ⟨h.hash, h.key, h.low.trans (Nat.le_succ _), hlt⟩

/-- `send` keeps the send half in order, whether it raises or not. -/
theorem SendOk.send (h : SendOk C tHash base c) (call : SendCall) :
    SendOk C tHash base (c.send C call).1 := by
  obtain ⟨hok, hlt⟩ := h.prepare call
  rcases send_cases (C := C) c call with ⟨e, heq, _⟩ | ⟨_, frame, _, _, heq⟩
  · rw [heq]
    exact hok
  · rw [heq]
    exact hok.next hlt

/-! ## What one turn of `recv` does -/

/-- What `recv` makes of the frame once the epoch is right. -/
def opened (C : Crypto) (c : SecureChannel params) (f : Bytes) : Except RecvError Bytes :=
  match C.decrypt c.recvKey (nonce (seqOf f)) (f.drop seqLen) (f.take seqLen) with
  | some p => .ok p
  | none => .error .authFailed

/-- Rekeying the receive half leaves the window and the counter of drops alone. -/
theorem iterate_rekeyRecv_frame (c : SecureChannel params) (n : Nat) :
    ((rekeyRecv C)^[n] c).recvEpoch = c.recvEpoch + n ∧ ((rekeyRecv C)^[n] c).replay = c.replay := by
  induction n with
  | zero => exact ⟨rfl, rfl⟩
  | succ n ih =>
    rw [Function.iterate_succ_apply']
    exact ⟨by simp only [rekeyRecv, ih.1]; rfl, by simp only [rekeyRecv, ih.2]⟩

/-- The ways one turn of the loop ends, on any channel. -/
theorem onFrame_ends (c : SecureChannel params) (f : Bytes) :
    (∃ e, c.onFrame C f = (c, some (.error e)) ∧
      (f.length > Config.maxFrameSize ∨ f.length < seqLen + aeadTagLen)) ∨
    (f.length ≤ Config.maxFrameSize ∧ seqLen + aeadTagLen ≤ f.length ∧
      ((∃ w, c.replay.checkAndUpdate (seqOf f) = (w, false) ∧
          c.onFrame C f
            = ({ c with replay := w, replaysDropped := c.replaysDropped + 1 }, none)) ∨
        (∃ w e, e ≠ .authFailed ∧ c.replay.checkAndUpdate (seqOf f) = (w, true) ∧
          (epochFor params (seqOf f) < c.recvEpoch ∨
            params.maxEpochSkip < ((epochFor params (seqOf f) - c.recvEpoch : Nat) : Int)) ∧
          c.onFrame C f = ({ c with replay := w }, some (.error e))) ∨
        (∃ w c₁, c.replay.checkAndUpdate (seqOf f) = (w, true) ∧
          c.recvEpoch ≤ epochFor params (seqOf f) ∧
          c₁ = (rekeyRecv C)^[epochFor params (seqOf f) - c.recvEpoch] { c with replay := w } ∧
          c.onFrame C f = (c₁, some (opened C c₁ f))))) := by
  by_cases hbig : f.length > Config.maxFrameSize
  · exact Or.inl ⟨.frameTooLarge f.length, by simp only [onFrame, if_pos hbig], Or.inl hbig⟩
  by_cases hsmall : f.length < seqLen + aeadTagLen
  · exact Or.inl ⟨.truncated, by simp only [onFrame, if_neg hbig, if_pos hsmall], Or.inr hsmall⟩
  refine Or.inr ⟨Nat.le_of_not_gt hbig, Nat.le_of_not_lt hsmall, ?_⟩
  have hturn : c.onFrame C f = match c.replay.checkAndUpdate (seqOf f) with
      | (w, false) => ({ c with replay := w, replaysDropped := c.replaysDropped + 1 }, none)
      | (w, true) =>
          match advanceRecvTo C { c with replay := w } (epochFor params (seqOf f)) with
          | .error e => ({ c with replay := w }, some (.error e))
          | .ok c' =>
              match C.decrypt c'.recvKey (nonce (seqOf f)) (f.drop seqLen) (f.take seqLen) with
              | some p => (c', some (.ok p))
              | none => (c', some (.error .authFailed)) := by
    simp only [onFrame, if_neg hbig, if_neg hsmall]
    rfl
  rcases hw : c.replay.checkAndUpdate (seqOf f) with ⟨w, ok⟩
  rw [hw] at hturn
  cases ok with
  | false => exact Or.inl ⟨w, rfl, hturn⟩
  | true =>
    refine Or.inr ?_
    by_cases hold : epochFor params (seqOf f) < c.recvEpoch
    · refine Or.inl ⟨w, .expiredEpoch (epochFor params (seqOf f)) c.recvEpoch, by simp, rfl, Or.inl hold,
        ?_⟩
      simpa only [advanceRecvTo, if_pos hold] using hturn
    by_cases hjump : ((epochFor params (seqOf f) - c.recvEpoch : Nat) : Int) > params.maxEpochSkip
    · refine Or.inl ⟨w, .epochJump (epochFor params (seqOf f) - c.recvEpoch) params.maxEpochSkip,
        by simp, rfl, Or.inr hjump, ?_⟩
      simpa only [advanceRecvTo, if_neg hold, if_pos hjump] using hturn
    refine Or.inr ⟨w, _, rfl, Nat.le_of_not_lt hold, rfl, ?_⟩
    simp only [advanceRecvTo, if_neg hold, if_neg hjump] at hturn
    rw [hturn, opened]
    split <;> simp_all

/-- The ways one turn of the loop ends, when the key is that of the epoch. -/
theorem onFrame_cases (h : RecvOk C tHash base c) (f : Bytes) :
    (∃ e, c.onFrame C f = (c, some (.error e)) ∧
      (f.length > Config.maxFrameSize ∨ f.length < seqLen + aeadTagLen)) ∨
    (f.length ≤ Config.maxFrameSize ∧ seqLen + aeadTagLen ≤ f.length ∧
      ((∃ w, c.replay.checkAndUpdate (seqOf f) = (w, false) ∧
          c.onFrame C f
            = ({ c with replay := w, replaysDropped := c.replaysDropped + 1 }, none)) ∨
        (∃ w e, c.replay.checkAndUpdate (seqOf f) = (w, true) ∧
          (epochFor params (seqOf f) < c.recvEpoch ∨
            params.maxEpochSkip < ((epochFor params (seqOf f) - c.recvEpoch : Nat) : Int)) ∧
          c.onFrame C f = ({ c with replay := w }, some (.error e))) ∨
        (∃ w c₁, c.replay.checkAndUpdate (seqOf f) = (w, true) ∧
          c₁.recvEpoch = epochFor params (seqOf f) ∧ RecvOk C tHash base c₁ ∧ c₁.replay = w ∧
          c₁.replaysDropped = c.replaysDropped ∧
          c.onFrame C f = (c₁, some (match C.decrypt c₁.recvKey (nonce (seqOf f)) (f.drop seqLen)
            (f.take seqLen) with
            | some p => .ok p
            | none => .error .authFailed))))) := by
  rcases onFrame_ends (C := C) c f with hbad | ⟨hmax, hmin, hdrop | ⟨w, e, _, hskip⟩ |
      ⟨w, c₁, hw, hle, rfl, heq⟩⟩
  · exact Or.inl hbad
  · exact Or.inr ⟨hmax, hmin, Or.inl hdrop⟩
  · exact Or.inr ⟨hmax, hmin, Or.inr (Or.inl ⟨w, e, hskip⟩)⟩
  · have hkey : ({ c with replay := w } : SecureChannel params).recvKey
        = chainKey C c.transcriptHash base c.recvEpoch := by
      rw [h.hash]; exact h.key
    obtain ⟨he, hk, hr, hd, hh⟩ := iterate_rekeyRecv hkey (epochFor params (seqOf f) - c.recvEpoch)
    rw [Nat.add_sub_cancel' hle] at he hk
    refine Or.inr ⟨hmax, hmin, Or.inr (Or.inr ⟨w, _, hw, he, ⟨hh.trans h.hash, ?_⟩, hr, hd, heq⟩)⟩
    rw [hk, he, h.hash]

end SecureChannel

end Memnode.Security
