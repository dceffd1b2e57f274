/-
Memnode.Security.Duplex — the two directions of a connection.

A `SecureChannel` sends with one half of its fields and receives with
the other, and the two ends of a connection do both at any time, with
any number of frames on the way. `sendHalf` and `recvHalf` cut the
record in two: `send` reads and writes the first, `recv` the second.

`InFlight` is one direction: the sender has written frames the receiver
has not read yet. It says that the receiver is in `Lockstep` with the
sender as it was before the first of these frames. `InFlight.sent` puts
one more frame on the way, `InFlight.delivered` takes the first one off,
and neither cares what the other direction did in between.
-/
import Memnode.Security.Lockstep

set_option linter.unusedSectionVars false

namespace Memnode.Security

open Lib

variable {params : ChannelParams} {C : Crypto} {tHash base : Bytes}

namespace SecureChannel

/-! ## The two halves -/

/-- The fields `send` works on; the others are blank. -/
def sendHalf (c : SecureChannel params) : SecureChannel params :=
  { c with
    recvKey := []
    recvEpoch := 0
    replay := .init _
    rekeysReceived := 0
    replaysDropped := 0 }

/-- The fields `recv` works on; the others are blank. -/
def recvHalf (c : SecureChannel params) : SecureChannel params :=
  { c with
    sendKey := []
    sendSeq := 0
    sendEpoch := 0
    lastRekeyAt := 0
    rekeysSent := 0 }

theorem sendHalf_maybeTimeRekey (c : SecureChannel params) (now : Rat) :
    (c.maybeTimeRekey now).sendHalf = c.sendHalf.maybeTimeRekey now := by
  simp only [maybeTimeRekey, apply_ite sendHalf]
  rfl

theorem sendHalf_iterate_rekeySend (n : Nat) (c : SecureChannel params) :
    ((rekeySend C)^[n] c).sendHalf = (rekeySend C)^[n] c.sendHalf := by
  induction n with
  | zero => rfl
  | succ n ih =>
    rw [Function.iterate_succ_apply', Function.iterate_succ_apply', ← ih]
    rfl

theorem sendHalf_prepare (c : SecureChannel params) (call : SendCall) :
    (c.prepare C call).sendHalf = c.sendHalf.prepare C call := by
  simp only [prepare, ← sendHalf_maybeTimeRekey]
  generalize c.maybeTimeRekey call.checkedAt = d
  have hseq : d.sendHalf.sendSeq = d.sendSeq := rfl
  have hepoch : d.sendHalf.sendEpoch = d.sendEpoch := rfl
  rw [hseq, hepoch]
  split
  · simp only [advanceSendTo, hepoch, ← sendHalf_iterate_rekeySend]
    rfl
  · rfl

/-- What a `send` that returns a frame has done. -/
theorem send_ok {c : SecureChannel params} {call : SendCall} {frame : Bytes}
    (h : (c.send C call).2 = .ok frame) :
    (c.prepare C call).sendSeq < 2 ^ 64 ∧ frame = BigEndian.pack 8 (c.prepare C call).sendSeq
        ++ ((c.prepare C call).sealing C call.plaintext).ciphertext ∧
      frame.length ≤ Config.maxFrameSize ∧
      (c.send C call).1 = { c.prepare C call with sendSeq := (c.prepare C call).sendSeq + 1 } := by
  rcases send_cases (C := C) c call with ⟨e, heq, _⟩ | ⟨hseq, f, hf, hlen, heq⟩
  · rw [heq] at h
    cases h
  · rw [heq] at h ⊢
    cases h
    exact ⟨hseq, hf, hlen, rfl⟩

/-- `send` does not look at the receive half. -/
theorem send_sendHalf (c : SecureChannel params) (call : SendCall) :
    c.sendHalf.send C call = ((c.send C call).1.sendHalf, (c.send C call).2) := by
  simp only [send, ← sendHalf_prepare]
  generalize c.prepare C call = p
  have hseq : p.sendHalf.sendSeq = p.sendSeq := rfl
  have hseal : p.sendHalf.sealing C call.plaintext = p.sealing C call.plaintext := rfl
  simp only [hseq, hseal]
  split
  · rfl
  · split <;> rfl

theorem send_congr {c d : SecureChannel params} (h : c.sendHalf = d.sendHalf) (call : SendCall) :
    (c.send C call).1.sendHalf = (d.send C call).1.sendHalf ∧
      (c.send C call).2 = (d.send C call).2 := by
  have hc := send_sendHalf (C := C) c call
  rw [h, send_sendHalf] at hc
  obtain ⟨h₁, h₂⟩ := Prod.mk.inj hc
  exact ⟨h₁.symm, h₂.symm⟩

theorem recvHalf_maybeTimeRekey (c : SecureChannel params) (now : Rat) :
    (c.maybeTimeRekey now).recvHalf = c.recvHalf := by
  unfold maybeTimeRekey
  split
  · rfl
  · split
    · rfl
    · simp only
      split <;> rfl

/-- `send` does not write the receive half. -/
theorem recvHalf_prepare (c : SecureChannel params) (call : SendCall) :
    (c.prepare C call).recvHalf = c.recvHalf := by
  rw [← recvHalf_maybeTimeRekey c call.checkedAt]
  simp only [prepare]
  generalize c.maybeTimeRekey call.checkedAt = d
  split
  · show ((rekeySend C)^[epochFor params d.sendSeq - d.sendEpoch] d).recvHalf = d.recvHalf
    generalize epochFor params d.sendSeq - d.sendEpoch = n
    induction n with
    | zero => rfl
    | succ n ih =>
      rw [Function.iterate_succ_apply']
      exact ih
  · rfl

/-- `recv` does not write the send half. -/
theorem sendHalf_onFrame (c : SecureChannel params) (f : Bytes) :
    (c.onFrame C f).1.sendHalf = c.sendHalf := by
  have hiterate : ∀ (n : Nat) (d : SecureChannel params),
      ((rekeyRecv C)^[n] d).sendHalf = d.sendHalf := by
    intro n d
    induction n with
    | zero => rfl
    | succ n ih =>
      rw [Function.iterate_succ_apply']
      exact ih
  rcases onFrame_ends (C := C) c f with ⟨e, heq, _⟩ | ⟨_, _, ⟨w, _, heq⟩ | ⟨w, e, _, _, _, heq⟩ |
      ⟨w, c₁, _, _, rfl, heq⟩⟩
  · rw [heq]
  · rw [heq]
    rfl
  · rw [heq]
    rfl
  · rw [heq]
    exact hiterate _ _

end SecureChannel

open SecureChannel

/-- The receiver's part of `Lockstep` is in its receive half. -/
theorem Lockstep.congr {a b b' : SecureChannel params} {seen : List Bytes}
    (h : Lockstep C tHash base a b seen) (hb : b'.recvHalf = b.recvHalf) :
    Lockstep C tHash base a b' seen := by
  simp only [recvHalf, SecureChannel.mk.injEq, true_and] at hb
  obtain ⟨hhash, hkey, hepoch, hreplay, -, -⟩ := hb
  exact ⟨h.sendOk, ⟨hhash.trans h.recvOk.hash, by rw [hkey, hepoch]; exact h.recvOk.key⟩,
    hepoch.trans h.epoch, by rw [hreplay]; exact h.window, h.fits⟩

/-! ## Frames on the way -/

theorem sendAll_append (a : SecureChannel params) (calls calls' : List SendCall) :
    sendAll C a (calls ++ calls') =
      ((sendAll C (sendAll C a calls).1 calls').1,
        (sendAll C a calls).2 ++ (sendAll C (sendAll C a calls).1 calls').2) := by
  induction calls generalizing a with
  | nil => rfl
  | cons call rest ih => simp only [List.cons_append, sendAll, ih]

/-- The sender `a` has written `frames`, which carry `plains` and are
still on their way to the receiver `b`. -/
def InFlight (C : Crypto) (tHash base : Bytes) (a b : SecureChannel params)
    (frames plains : List Bytes) : Prop :=
  ∃ a₀ calls seen, Lockstep C tHash base a₀ b seen ∧ (sendAll C a₀ calls).2 = frames.map .ok ∧
    (sendAll C a₀ calls).1.sendHalf = a.sendHalf ∧ calls.map SendCall.plaintext = plains

namespace InFlight

variable {a b : SecureChannel params} {frames plains : List Bytes}

theorem init (params : ChannelParams) (key key' tHash : Bytes) (now now' : Rat) :
    InFlight C tHash key (.init params key key' tHash now) (.init params key' key tHash now') [] [] :=
  ⟨_, [], [], lockstep_init params key key' tHash now now', rfl, rfl, rfl⟩

/-- What the other direction does at either end changes nothing. -/
theorem congr (h : InFlight C tHash base a b frames plains) {a' b' : SecureChannel params}
    (ha : a'.sendHalf = a.sendHalf) (hb : b'.recvHalf = b.recvHalf) :
    InFlight C tHash base a' b' frames plains := by
  obtain ⟨a₀, calls, seen, hlock, hsent, hhalf, hplain⟩ := h
  exact ⟨a₀, calls, seen, hlock.congr hb, hsent, hhalf.trans ha.symm, hplain⟩

/-- A `send` that does not raise puts its frame behind the others. -/
theorem sent (h : InFlight C tHash base a b frames plains) {call : SendCall} {f : Bytes}
    (hsend : (a.send C call).2 = .ok f) :
    InFlight C tHash base (a.send C call).1 b (frames ++ [f]) (plains ++ [call.plaintext]) := by
  obtain ⟨a₀, calls, seen, hlock, hsent, hhalf, rfl⟩ := h
  obtain ⟨hstate, hresult⟩ := send_congr (C := C) hhalf call
  refine ⟨a₀, calls ++ [call], seen, hlock, ?_, ?_, by simp⟩
  · rw [sendAll_append, hsent]
    simp [sendAll, hresult, hsend]
  · rw [sendAll_append]
    exact hstate

/-- The first frame on the way is received as what it carries. -/
theorem delivered (correct : C.AeadCorrect) (hskip : 1 ≤ params.maxEpochSkip) {f : Bytes}
    (h : InFlight C tHash base a b (f :: frames) plains) :
    ∃ p rest b', plains = p :: rest ∧ b.onFrame C f = (b', some (.ok p)) ∧
      b'.replaysDropped = b.replaysDropped ∧ InFlight C tHash base a b' frames rest := by
  obtain ⟨a₀, calls, seen, hlock, hsent, hhalf, rfl⟩ := h
  cases calls with
  | nil => simp [sendAll] at hsent
  | cons call calls =>
    obtain ⟨hf, hsent'⟩ : (a₀.send C call).2 = .ok f ∧
        (sendAll C (a₀.send C call).1 calls).2 = frames.map .ok := by
      simpa [sendAll] using hsent
    obtain ⟨b', hturn, hdropped, hlock'⟩ := hlock.deliver correct hskip hf
    exact ⟨call.plaintext, calls.map SendCall.plaintext, b', rfl, hturn, hdropped,
      (a₀.send C call).1, calls, f :: seen, hlock', hsent', hhalf, rfl⟩

/-- Frames on the way are as many as what they carry, and fit. -/
theorem length_eq (h : InFlight C tHash base a b frames plains) : frames.length = plains.length := by
  obtain ⟨a₀, calls, seen, -, hsent, -, rfl⟩ := h
  have hlen : ∀ (calls : List SendCall) (c : SecureChannel params),
      (sendAll C c calls).2.length = calls.length := by
    intro calls
    induction calls with
    | nil => intro c; rfl
    | cons call rest ih => intro c; simp [sendAll, ih]
  have := congrArg List.length hsent
  rw [hlen, List.length_map] at this
  simpa using this.symm

end InFlight

end Memnode.Security
