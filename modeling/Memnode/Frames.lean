/-
Memnode.Frames — `read_frame` and `write_frame` of `protocol.py`.

A frame is a length in four bytes and that many bytes of payload. The
stream is the list of the bytes that are still to come before the peer
closes it; every read returns what it consumed and what is left.

`readFrame_frame` reads one frame and leaves the rest of the stream
untouched, and `readFrame_cut` is the same frame cut short: an error and
nothing left. `readFrames_cut` folds the two along a list of frames. A
stream that ends anywhere therefore yields its complete frames and then
an error.
-/
import Mathlib.Tactic.Ring
import Memnode.Config
import Memnode.Lib.BigEndian

namespace Memnode.Frames

open Lib

/-! ## The code -/

/-- What `read_frame` can raise. -/
inductive ReadError where
  /-- `IncompleteReadError`, from the read of the length -/
  | incompleteRead (got expected : Nat)
  | frameTooLarge (length maxSize : Nat)
  | connectionClosed
  deriving DecidableEq, Repr

/-- The `FrameTooLarge` that `write_frame` raises. -/
structure WriteError where
  size : Nat
  deriving DecidableEq, Repr

/-- `reader.readexactly(n)`: the bytes, or how many there were. What is
left of a stream that is too short is gone. -/
def readExactly (n : Nat) (s : Bytes) : Except Nat Bytes × Bytes :=
  if n ≤ s.length then (.ok (s.take n), s.drop n) else (.error s.length, [])

/-- `read_frame`. -/
def readFrame (maxSize : Nat) (s : Bytes) : Except ReadError Bytes × Bytes :=
  match readExactly 4 s with
  | (.error got, rest) => (.error (.incompleteRead got 4), rest)
  | (.ok lenBytes, rest) =>
      let length := BigEndian.unpack lenBytes
      if length > maxSize then (.error (.frameTooLarge length maxSize), rest)
      else if length = 0 then (.ok [], rest)
      else
        match readExactly length rest with
        | (.error _, rest) => (.error .connectionClosed, rest)
        | (.ok payload, rest) => (.ok payload, rest)

/-- `struct.pack(">I", len(payload)) + payload`; the length must have four bytes. -/
def frame (payload : Bytes) : Option Bytes :=
  if payload.length < 256 ^ 4 then some (BigEndian.pack 4 payload.length ++ payload) else none

/-- `write_frame`: what it hands to the writer. -/
def writeFrame (payload : Bytes) : Except WriteError Bytes :=
  if payload.length > Config.maxFrameSize then .error ⟨payload.length⟩
  else .ok (BigEndian.pack 4 payload.length ++ payload)

/-- Calls of `read_frame`, up to the first that raises: the payloads, the
exception if there was one, and the rest of the stream. -/
def readFrames (maxSize : Nat) : Nat → Bytes → List Bytes × Option ReadError × Bytes
  | 0, s => ([], none, s)
  | n + 1, s =>
      match readFrame maxSize s with
      | (.error e, rest) => ([], some e, rest)
      | (.ok payload, rest) =>
          let (payloads, e, rest') := readFrames maxSize n rest
          (payload :: payloads, e, rest')

/-! ## One frame -/

variable {maxSize : Nat}

/-- The prefix of a frame, and then: an exception, the empty payload, or the body. -/
theorem readFrame_lenBytes (lenBytes s : Bytes) (hlen : lenBytes.length = 4) :
    readFrame maxSize (lenBytes ++ s) =
      if BigEndian.unpack lenBytes > maxSize then
        (.error (.frameTooLarge (BigEndian.unpack lenBytes) maxSize), s)
      else if BigEndian.unpack lenBytes ≤ s.length then
        (.ok (s.take (BigEndian.unpack lenBytes)), s.drop (BigEndian.unpack lenBytes))
      else (.error .connectionClosed, []) := by
  have hread : readExactly 4 (lenBytes ++ s) = (.ok lenBytes, s) := by
    rw [readExactly, if_pos (by rw [List.length_append]; omega), List.take_left' hlen,
      List.drop_left' hlen]
  simp only [readFrame, hread]
  generalize BigEndian.unpack lenBytes = length
  by_cases hbig : length > maxSize
  · rw [if_pos hbig, if_pos hbig]
  rw [if_neg hbig, if_neg hbig]
  by_cases hzero : length = 0
  · subst hzero
    simp
  rw [if_neg hzero]
  by_cases hfit : length ≤ s.length
  · simp only [readExactly, if_pos hfit]
  · simp only [readExactly, if_neg hfit]

/-- A frame within the limit is read back, and what follows it stays. -/
theorem readFrame_frame {payload : Bytes} (hmax : payload.length ≤ maxSize)
    (hfit : payload.length < 256 ^ 4) (tail : Bytes) :
    readFrame maxSize (BigEndian.pack 4 payload.length ++ payload ++ tail) = (.ok payload, tail) := by
  rw [List.append_assoc, readFrame_lenBytes _ _ (BigEndian.length_pack 4 _),
    BigEndian.unpack_pack_of_lt hfit, if_neg (Nat.not_lt_of_ge hmax),
    if_pos (by rw [List.length_append]; omega), List.take_left' rfl, List.drop_left' rfl]

/-- A frame cut short is an error, and nothing is left. -/
theorem readFrame_cut {payload : Bytes} (hmax : payload.length ≤ maxSize)
    (hfit : payload.length < 256 ^ 4) {k : Nat} (hk : k < 4 + payload.length) :
    ∃ e, readFrame maxSize ((BigEndian.pack 4 payload.length ++ payload).take k) = (.error e, []) := by
  have hpack := BigEndian.length_pack 4 payload.length
  by_cases hshort : k < 4
  · -- inside the length
    refine ⟨.incompleteRead k 4, ?_⟩
    have hlen : ((BigEndian.pack 4 payload.length ++ payload).take k).length = k := by
      rw [List.length_take, List.length_append, hpack]
      omega
    simp only [readFrame, readExactly, hlen, if_neg (Nat.not_le_of_lt hshort)]
  · -- after the length, or inside the payload
    have hsplit : (BigEndian.pack 4 payload.length ++ payload).take k
        = BigEndian.pack 4 payload.length ++ payload.take (k - 4) := by
      rw [List.take_append, hpack, List.take_of_length_le (by omega)]
    refine ⟨.connectionClosed, ?_⟩
    rw [hsplit, readFrame_lenBytes _ _ hpack, BigEndian.unpack_pack_of_lt hfit,
      if_neg (Nat.not_lt_of_ge hmax), if_neg (by rw [List.length_take]; omega)]

/-! ## Streams of frames -/

theorem writeFrame_ok {payload : Bytes} (h : payload.length ≤ Config.maxFrameSize) :
    writeFrame payload = .ok (BigEndian.pack 4 payload.length ++ payload) := by
  rw [writeFrame, if_neg (Nat.not_lt_of_ge h)]

/-- The bytes of a list of frames. -/
def stream (payloads : List Bytes) : Bytes :=
  payloads.flatMap (fun p => BigEndian.pack 4 p.length ++ p)

theorem stream_cons (p : Bytes) (payloads : List Bytes) :
    stream (p :: payloads) = BigEndian.pack 4 p.length ++ p ++ stream payloads :=
  List.flatMap_cons

/-- All frames are read back, in order, and the tail stays. -/
theorem readFrames_stream (hsmall : maxSize < 256 ^ 4) {payloads : List Bytes}
    (h : ∀ p ∈ payloads, p.length ≤ maxSize) (tail : Bytes) :
    readFrames maxSize payloads.length (stream payloads ++ tail) = (payloads, none, tail) := by
  induction payloads with
  | nil => rfl
  | cons p rest ih =>
    have hp := h p List.mem_cons_self
    rw [stream_cons, List.append_assoc, List.length_cons, readFrames,
      readFrame_frame hp (by omega)]
    simp only [ih (fun q hq => h q (List.mem_cons_of_mem _ hq))]

/-- A stream of frames cut after `k` bytes: the frames that are complete,
then an error and nothing left. -/
theorem readFrames_cut (hsmall : maxSize < 256 ^ 4) {payloads : List Bytes}
    (h : ∀ p ∈ payloads, p.length ≤ maxSize) (k : Nat) :
    ∃ n ≤ payloads.length, (stream (payloads.take n)).length ≤ k ∧
      (n < payloads.length → k < (stream (payloads.take (n + 1))).length) ∧
      ∃ e, ∀ calls, n < calls →
        readFrames maxSize calls ((stream payloads).take k) = (payloads.take n, some e, []) := by
  induction payloads generalizing k with
  | nil =>
    refine ⟨0, le_refl _, Nat.zero_le _, fun hlt => absurd hlt (Nat.lt_irrefl _),
      .incompleteRead 0 4, fun calls hcalls => ?_⟩
    obtain ⟨m, rfl⟩ := Nat.exists_eq_add_of_lt hcalls
    rw [Nat.zero_add, readFrames]
    simp [stream, readFrame, readExactly]
  | cons p rest ih =>
    have hp := h p List.mem_cons_self
    have hlen : (BigEndian.pack 4 p.length ++ p).length = 4 + p.length := by
      rw [List.length_append, BigEndian.length_pack]
    have hhead : ∀ l, (stream (p :: l)).length = 4 + p.length + (stream l).length := by
      intro l
      rw [stream_cons, List.length_append, hlen]
    by_cases hk : k < 4 + p.length
    · -- the first frame is cut
      obtain ⟨e, he⟩ := readFrame_cut hp (by omega) hk
      refine ⟨0, Nat.zero_le _, Nat.zero_le _, fun _ => ?_, e, fun calls hcalls => ?_⟩
      · rw [List.take_succ_cons, hhead]
        omega
      · obtain ⟨m, rfl⟩ := Nat.exists_eq_add_of_lt hcalls
        rw [stream_cons, List.take_append_of_le_length (by omega), Nat.zero_add, readFrames, he]
        rfl
    · obtain ⟨n, hn, hlow, hhigh, e, hread⟩ :=
        ih (fun q hq => h q (List.mem_cons_of_mem _ hq)) (k - (4 + p.length))
      refine ⟨n + 1, Nat.succ_le_succ hn, ?_, fun hlt => ?_, e, fun calls hcalls => ?_⟩
      · rw [List.take_succ_cons, hhead]
        omega
      · have hnext := hhigh (Nat.lt_of_succ_lt_succ hlt)
        rw [List.take_succ_cons, hhead]
        omega
      · obtain ⟨m, rfl⟩ := Nat.exists_eq_add_of_lt hcalls
        have hcut : (stream (p :: rest)).take k
            = BigEndian.pack 4 p.length ++ p ++ (stream rest).take (k - (4 + p.length)) := by
          rw [stream_cons, List.take_append, List.take_of_length_le (by omega), hlen]
        rw [hcut, show n + 1 + m + 1 = (n + m + 1) + 1 by omega, readFrames,
          readFrame_frame hp (by omega)]
        simp only [hread (n + m + 1) (by omega)]
        rfl

/-- Writing a list of payloads within the limit never raises. -/
theorem mapM_writeFrame {payloads : List Bytes} (h : ∀ p ∈ payloads, p.length ≤ Config.maxFrameSize) :
    payloads.mapM writeFrame = .ok (payloads.map (fun p => BigEndian.pack 4 p.length ++ p)) := by
  induction payloads with
  | nil => rfl
  | cons p rest ih =>
    rw [List.mapM_cons, writeFrame_ok (h p List.mem_cons_self),
      ih (fun q hq => h q (List.mem_cons_of_mem _ hq))]
    rfl

/-- The two ends draw the same line: a payload is written exactly when its frame is read. -/
theorem written_iff_read (payload : Bytes) :
    (∃ f, writeFrame payload = .ok f) ↔
      ∃ f q rest, frame payload = some f ∧ readFrame Config.maxFrameSize f = (.ok q, rest) := by
  have hsmall : Config.maxFrameSize < 256 ^ 4 := by decide
  by_cases hmax : payload.length ≤ Config.maxFrameSize
  · have hfit : payload.length < 256 ^ 4 := by omega
    have hread := readFrame_frame hmax hfit []
    rw [List.append_nil] at hread
    exact ⟨fun _ => ⟨_, payload, [], by rw [frame, if_pos hfit], hread⟩,
      fun _ => ⟨_, writeFrame_ok hmax⟩⟩
  · constructor
    · rintro ⟨f, hf⟩
      rw [writeFrame, if_pos (Nat.lt_of_not_le hmax)] at hf
      cases hf
    · rintro ⟨f, q, rest, hf, hread⟩
      rw [frame] at hf
      split at hf
      · rename_i hfit
        obtain rfl := Option.some.inj hf
        rw [readFrame_lenBytes _ _ (BigEndian.length_pack 4 _), BigEndian.unpack_pack_of_lt hfit,
          if_pos (Nat.lt_of_not_le hmax)] at hread
        cases hread
      · cases hf

/-- **Frame stream round trip.** Payloads within the limit are all
written, and with any tail behind them read back in order with the tail
left unread. Cut after any number of bytes, the stream yields the frames
that are complete and then an error, however often it is read. A length
above the limit raises with the four bytes consumed, and `write_frame`
accepts a payload exactly when `read_frame` accepts its frame. -/
theorem frame_stream_round_trip (payloads : List Bytes)
    (h : ∀ p ∈ payloads, p.length ≤ Config.maxFrameSize) :
    (∃ frames, payloads.mapM writeFrame = .ok frames ∧
      (∀ tail, readFrames Config.maxFrameSize payloads.length (frames.flatten ++ tail)
        = (payloads, none, tail)) ∧
      ∀ k, ∃ n ≤ payloads.length, (frames.take n).flatten.length ≤ k ∧
        (n < payloads.length → k < (frames.take (n + 1)).flatten.length) ∧
        ∃ e, ∀ calls, n < calls →
          readFrames Config.maxFrameSize calls (frames.flatten.take k)
            = (payloads.take n, some e, [])) ∧
    (∀ lenBytes s : Bytes, lenBytes.length = 4 → BigEndian.unpack lenBytes > Config.maxFrameSize →
      readFrame Config.maxFrameSize (lenBytes ++ s)
        = (.error (.frameTooLarge (BigEndian.unpack lenBytes) Config.maxFrameSize), s)) ∧
    (∀ payload, (∃ f, writeFrame payload = .ok f) ↔
      ∃ f q rest, frame payload = some f ∧ readFrame Config.maxFrameSize f = (.ok q, rest)) := by
  have hsmall : Config.maxFrameSize < 256 ^ 4 := by decide
  have hstream : ∀ l : List Bytes,
      (l.map (fun p => BigEndian.pack 4 p.length ++ p)).flatten = stream l := by
    intro l
    rw [stream, List.flatMap_def]
  refine ⟨⟨_, mapM_writeFrame h, fun tail => ?_, fun k => ?_⟩, fun lenBytes s hlen hbig => ?_,
    written_iff_read⟩
  · rw [hstream]
    exact readFrames_stream hsmall h tail
  · simp only [← List.map_take, hstream]
    exact readFrames_cut hsmall h k
  · rw [readFrame_lenBytes lenBytes s hlen, if_pos hbig]

/-- An empty payload and one of two bytes, cut inside the second. -/
theorem frame_stream_round_trip_two :
    readFrames Config.maxFrameSize 2 ([0, 0, 0, 0, 0, 0, 0, 2, 7, 8] ++ [9]) = ([[], [7, 8]], none, [9]) ∧
      readFrames Config.maxFrameSize 2 [0, 0, 0, 0, 0, 0, 0, 2, 7]
        = ([[]], some .connectionClosed, []) := by
  obtain ⟨⟨frames, hwrite, hread, _⟩, _⟩ := frame_stream_round_trip [[], [7, 8]] (by decide)
  obtain rfl : [[0, 0, 0, 0], [0, 0, 0, 2, 7, 8]] = frames := Except.ok.inj hwrite
  exact ⟨hread [9], by decide⟩

end Memnode.Frames
