/-
Memnode.Security.Reordering — frames that arrive out of order.

The arrivals are frames the sender wrote, each at most once, in any order
and with any of them missing. The replay window takes every one that is
not too far behind. The key epoch only moves forward, so the frame is
also refused when a frame of a later epoch came before it. Within the
window, then, everything arrives exactly when the epochs do not go back.

  §1 Written frames — `written`, `written_genuine`: what a frame of the
                      sender holds, and that no number is used twice.
  §2 One arrival    — `genuine_arrives`: accepted by the window; then the
                      epoch decides between delivery and an exception.
  §3 All arrivals   — the induction over the order of arrival.
-/
import Mathlib.Data.List.Perm.Subperm
import Memnode.Security.Delivery
import Memnode.Security.Lockstep

set_option linter.unusedSectionVars false

namespace Memnode.Security

open Lib SecureChannel

variable {params : ChannelParams} {C : Crypto} {tHash base : Bytes}

/-! ## §1 Written frames -/

/-- The frame and the plaintext of a call that succeeded. -/
def SendStep.written (C : Crypto) (s : SendStep params) : Option (Bytes × Bytes) :=
  match (s.before.send C s.call).2 with
  | .ok f => some (f, s.call.plaintext)
  | .error _ => none

/-- The frames a run of `send` calls wrote, each with its plaintext. -/
def written (C : Crypto) (c : SecureChannel params) (calls : List SendCall) : List (Bytes × Bytes) :=
  (sendSteps C c calls).filterMap (SendStep.written C)

/-- The frame holds the plaintext, sealed under the key of its number. -/
def Genuine (C : Crypto) (params : ChannelParams) (tHash base : Bytes) (x : Bytes × Bytes) : Prop :=
  x.1.length ≤ Config.maxFrameSize ∧
    ∃ seq < 2 ^ 64, x.1 = BigEndian.pack 8 seq ++
      C.encrypt (chainKey C tHash base (epochFor params seq)) (nonce seq) x.2 (BigEndian.pack 8 seq)

/-- One call: what it wrote, and its number above all earlier ones. -/
theorem SendStep.written_spec {c : SecureChannel params} (h : c.SendOk C tHash base)
    (call : SendCall) {x : Bytes × Bytes} (hx : SendStep.written C ⟨c, call⟩ = some x) :
    Genuine C params tHash base x ∧ SendStep.delivery C ⟨c, call⟩ = some (seqOf x.1, x.2) := by
  obtain ⟨_, _, hkey, _⟩ := prepare_spec h call
  rcases send_cases (C := C) c call with ⟨e, heq, _⟩ | ⟨hseq, frame, hframe, hmax, heq⟩
  · simp only [SendStep.written, heq] at hx
    cases hx
  · simp only [SendStep.written, heq, Option.some.injEq] at hx
    subst hx
    refine ⟨⟨hmax, _, hseq, ?_⟩, ?_⟩
    · rw [← hkey]
      exact hframe
    · have hnum := (frame_parts hseq ((c.prepare C call).sealing C call.plaintext).ciphertext).2.2
      rw [← hframe] at hnum
      simp only [SendStep.delivery, heq, SendStep.seq, hnum]

theorem written_genuine {c : SecureChannel params} (h : c.SendOk C tHash base)
    (calls : List SendCall) :
    (∀ x ∈ written C c calls, Genuine C params tHash base x) ∧
      (written C c calls).map (fun x => (seqOf x.1, x.2)) = sent C c calls := by
  induction calls generalizing c with
  | nil => exact ⟨by simp [written, sendSteps], rfl⟩
  | cons call rest ih =>
    obtain ⟨hall, hmap⟩ := ih (h.send call)
    cases hx : SendStep.written C ⟨c, call⟩ with
    | none =>
      have hnone : SendStep.delivery C ⟨c, call⟩ = none := by
        rcases send_cases (C := C) c call with ⟨e, heq, _⟩ | ⟨_, frame, _, _, heq⟩
        · simp only [SendStep.delivery, heq]
        · simp only [SendStep.written, heq] at hx
          cases hx
      simp only [written, sent, sendSteps, List.filterMap_cons, hx, hnone]
      exact ⟨hall, hmap⟩
    | some x =>
      obtain ⟨hgen, hdel⟩ := SendStep.written_spec h call hx
      simp only [written, sent, sendSteps, List.filterMap_cons, hx, hdel, List.map_cons,
        List.mem_cons]
      refine ⟨?_, congrArg (List.cons _) hmap⟩
      rintro y (rfl | hy)
      · exact hgen
      · exact hall y hy

/-- No two of the arrivals carry the same number. -/
theorem seqs_nodup {c : SecureChannel params} (h : c.SendOk C tHash base) {calls : List SendCall}
    {arrivals : List (Bytes × Bytes)} (harrive : arrivals.Subperm (written C c calls)) :
    (arrivals.map (fun x => seqOf x.1)).Nodup := by
  obtain ⟨l, hperm, hsub⟩ := harrive
  have hall : ((written C c calls).map (fun x => seqOf x.1)).Nodup := by
    have hpair := (sent_increasing h calls).2
    rw [← (written_genuine h calls).2, List.pairwise_map] at hpair
    rw [List.nodup_iff_pairwise_ne, List.pairwise_map]
    exact hpair.imp Nat.ne_of_lt
  exact ((hperm.map _).nodup_iff).mp (hall.sublist (hsub.map _))

/-! ## §2 One arrival -/

/-- A genuine frame the window has not seen and that is not too far
behind: an old epoch raises, otherwise the plaintext is returned, unless
the epoch is too far ahead. -/
theorem genuine_arrives (correct : C.AeadCorrect) {b : SecureChannel params} {acc : Set Int}
    {x : Bytes × Bytes} (hok : b.RecvOk C tHash base) (ht : b.replay.Tracks acc)
    (hx : Genuine C params tHash base x) (hfresh : (seqOf x.1 : Int) ∉ acc)
    (hnear : ∀ s ∈ acc, s - params.replayWindowSize < seqOf x.1)
    (hskip : (epochFor params (seqOf x.1) : Int) - b.recvEpoch ≤ params.maxEpochSkip) :
    (epochFor params (seqOf x.1) < b.recvEpoch ∧ ∃ b' e, b.onFrame C x.1 = (b', some (.error e))) ∨
      (b.recvEpoch ≤ epochFor params (seqOf x.1) ∧ ∃ b', b.onFrame C x.1 = (b', some (.ok x.2)) ∧
        b'.RecvOk C tHash base ∧ b'.replay.Tracks (insert (seqOf x.1 : Int) acc) ∧
        b'.recvEpoch = epochFor params (seqOf x.1)) := by
  obtain ⟨hmax, seq, hseq, hframe⟩ := hx
  obtain ⟨htake, hdrop, hnum⟩ := frame_parts hseq
    (C.encrypt (chainKey C tHash base (epochFor params seq)) (nonce seq) x.2 (BigEndian.pack 8 seq))
  rw [← hframe] at htake hdrop hnum
  have hmin : seqLen + aeadTagLen ≤ x.1.length := by
    rw [hframe, List.length_append, BigEndian.length_pack, correct.length_encrypt]
    simp only [seqLen, aeadTagLen]
    omega
  have hacc : (b.replay.checkAndUpdate (seqOf x.1)).2 = true := by
    refine (ht.accepts_iff _).mpr ⟨by omega, ?_, hfresh, fun hseen => hnear _ (ht.highest_mem hseen)⟩
    exact_mod_cast seqOf_lt x.1
  by_cases hold : epochFor params (seqOf x.1) < b.recvEpoch
  · refine Or.inl ⟨hold, ?_⟩
    rcases onFrame_ends (C := C) b x.1 with ⟨e, heq, _⟩ | ⟨_, _, ⟨w, hw, _⟩ | ⟨w, e, _, _, _, heq⟩ |
        ⟨w, c₁, _, hle, _⟩⟩
    · exact ⟨_, e, heq⟩
    · rw [hw] at hacc; cases hacc
    · exact ⟨_, e, heq⟩
    · omega
  · refine Or.inr ⟨Nat.le_of_not_lt hold, ?_⟩
    rcases onFrame_cases hok x.1 with ⟨e, _, hbad⟩ | ⟨_, _, ⟨w, hw, _⟩ | ⟨w, e, _, hbad, _⟩ |
        ⟨w, b', hw, hepoch, hok', hreplay, _, hturn⟩⟩
    · omega
    · rw [hw] at hacc; cases hacc
    · omega
    · have hdec : C.decrypt b'.recvKey (nonce (seqOf x.1)) (x.1.drop seqLen) (x.1.take seqLen)
          = some x.2 := by
        rw [hok'.key, hepoch, hnum, htake, hdrop]
        exact correct.decrypt_encrypt _ _ _ _
      rw [hdec] at hturn
      exact ⟨b', hturn, hok', by rw [hreplay]; exact ht.checkAndUpdate hw, hepoch⟩

/-! ## §3 All arrivals -/

/-- No frame, on arrival, is more than `max_epoch_skip` epochs ahead of the receiver. -/
def WithinSkip (C : Crypto) (b : SecureChannel params) : List Bytes → Prop
  | [] => True
  | f :: fs => (epochFor params (seqOf f) : Int) - b.recvEpoch ≤ params.maxEpochSkip ∧
      WithinSkip C (b.onFrame C f).1 fs

/-- The induction over the arrivals: all are delivered exactly when none
is of an epoch before the receiver's, and none of an epoch before that of
an earlier arrival. -/
theorem delivered_iff (correct : C.AeadCorrect) {b : SecureChannel params} {acc : Set Int}
    {arrivals : List (Bytes × Bytes)} (hok : b.RecvOk C tHash base) (ht : b.replay.Tracks acc)
    (hgen : ∀ x ∈ arrivals, Genuine C params tHash base x)
    (hnodup : (arrivals.map (fun x => seqOf x.1)).Nodup)
    (hfresh : ∀ x ∈ arrivals, (seqOf x.1 : Int) ∉ acc)
    (hnear : ∀ x ∈ arrivals, ∀ s ∈ acc, s - params.replayWindowSize < seqOf x.1)
    (hwindow : arrivals.Pairwise (fun x y => (seqOf x.1 : Int) - params.replayWindowSize < seqOf y.1))
    (hskip : WithinSkip C b (arrivals.map Prod.fst)) :
    (recvs C (arrivals.length + 1) b (arrivals.map Prod.fst)).1
        = arrivals.map (fun x => ⟨x.1, .ok x.2⟩) ↔
      (∀ x ∈ arrivals, b.recvEpoch ≤ epochFor params (seqOf x.1)) ∧
        arrivals.Pairwise (fun x y => epochFor params (seqOf x.1) ≤ epochFor params (seqOf y.1)) := by
  induction arrivals generalizing b acc with
  | nil => simp [recvs, recv]
  | cons x rest ih =>
    simp only [List.forall_mem_cons] at hgen hfresh hnear
    simp only [List.map_cons, List.nodup_cons, List.mem_map, not_exists, not_and] at hnodup
    rw [List.pairwise_cons] at hwindow
    rw [List.map_cons] at hskip
    rw [List.map_cons, List.length_cons, List.forall_mem_cons, List.pairwise_cons]
    rcases genuine_arrives correct hok ht hgen.1 hfresh.1 hnear.1 hskip.1 with
      ⟨hold, b', e, hturn⟩ | ⟨hle, b', hturn, hok', ht', hepoch⟩
    · -- an expired epoch: the call raises
      rw [recvs_result C hturn]
      constructor
      · intro hall
        simp only [List.map_cons, List.cons.injEq, Received.mk.injEq] at hall
        cases hall.1.2
      · intro hall
        exact absurd hold (Nat.not_lt_of_ge hall.1.1)
    · rw [recvs_result C hturn, List.map_cons, List.cons.injEq]
      have hrest := ih hok' ht' hgen.2 hnodup.2
        (fun y hy hmem => by
          rcases hmem with heq | hmem
          · exact hnodup.1 y hy (by exact_mod_cast heq)
          · exact hfresh.2 y hy hmem)
        (fun y hy s hs => by
          rcases hs with rfl | hs
          · exact hwindow.1 y hy
          · exact hnear.2 y hy s hs)
        hwindow.2 (by have htail := hskip.2; rwa [hturn] at htail)
      rw [hepoch] at hrest
      rw [and_iff_right rfl, hrest]
      constructor
      · rintro ⟨hlater, hpair⟩
        exact ⟨⟨hle, fun y hy => hle.trans (hlater y hy)⟩, hlater, hpair⟩
      · rintro ⟨-, hlater, hpair⟩
        exact ⟨hlater, hpair⟩

/-- **Reordering is tolerated within an epoch.** Frames of any run of
`send` calls arrive in any order, with any losses, each number above the
highest received minus the window size and no epoch too far ahead of the
receiver. The `recv` calls return every payload once, never raise, and
the call after the last is left waiting, if and only if no frame arrives
after one of a later epoch. -/
theorem reordered_delivered_iff (C : Crypto) (correct : C.AeadCorrect) (params : ChannelParams)
    (key key' tHash : Bytes) (now now' : Rat) (calls : List SendCall)
    (arrivals : List (Bytes × Bytes))
    (harrive : arrivals.Subperm (written C (.init params key key' tHash now) calls))
    (hwindow : arrivals.Pairwise (fun x y => (seqOf x.1 : Int) - params.replayWindowSize < seqOf y.1))
    (hskip : WithinSkip C (.init params key' key tHash now') (arrivals.map Prod.fst)) :
    (recvs C (arrivals.length + 1) (.init params key' key tHash now') (arrivals.map Prod.fst)).1
        = arrivals.map (fun x => ⟨x.1, .ok x.2⟩) ↔
      arrivals.Pairwise (fun x y => epochFor params (seqOf x.1) ≤ epochFor params (seqOf y.1)) := by
  have hsend := sendOk_init (C := C) params key key' tHash now
  have hgen : ∀ x ∈ arrivals, Genuine C params tHash key x :=
    fun x hx => (written_genuine hsend calls).1 x (harrive.subset hx)
  rw [delivered_iff correct (recvOk_init params key' key tHash now') (ReplayWindow.tracks_init _) hgen
    (seqs_nodup hsend harrive) (by simp) (by simp) hwindow hskip]
  exact and_iff_right (fun x _ => Nat.zero_le _)

/-- Two frames of one epoch, swapped. -/
theorem reordered_delivered_swapped :
    let params : ChannelParams := ⟨2, by decide, 2, by decide, 0, 3⟩
    let frame := fun (key : Bytes) (seq : Nat) (data : Bytes) =>
      BigEndian.pack 8 seq ++ Crypto.tagging.encrypt key (nonce seq) data (BigEndian.pack 8 seq)
    let f := frame [1] 0 [7]
    let g := frame [1] 1 [8]
    (recvs .tagging 3 (.init params [2] [1] [] 0) [g, f]).1 = [⟨g, .ok [8]⟩, ⟨f, .ok [7]⟩] := by
  intro params frame f g
  have hwritten : written .tagging (.init params [1] [2] [] 0) [⟨[7], 0, 0⟩, ⟨[8], 0, 0⟩]
      = [(f, [7]), (g, [8])] := by decide +kernel
  have hskip : WithinSkip .tagging (.init params [2] [1] [] 0) [g, f] :=
    ⟨by decide +kernel, by decide +kernel, trivial⟩
  have hdelivered := reordered_delivered_iff .tagging Crypto.tagging_aeadCorrect params [1] [2] [] 0 0
    [⟨[7], 0, 0⟩, ⟨[8], 0, 0⟩] [(g, [8]), (f, [7])]
    (by rw [hwritten]; exact (List.Perm.swap _ _ _).subperm) (by decide +kernel) hskip
  exact hdelivered.mpr (by decide +kernel)

/-- Two frames of neighbouring epochs, swapped: both are inside the window
and neither is too far ahead, and `recv` raises on the second. -/
theorem swapped_epochs_refused :
    let params : ChannelParams := ⟨64, by decide, 1, by decide, 0, 3⟩
    let frame := fun (key : Bytes) (seq : Nat) (data : Bytes) =>
      BigEndian.pack 8 seq ++ Crypto.tagging.encrypt key (nonce seq) data (BigEndian.pack 8 seq)
    let f := frame [1] 0 [7]
    let g := frame [1, 1] 1 [8]
    written .tagging (.init params [1] [2] [] 0) [⟨[7], 0, 0⟩, ⟨[8], 0, 0⟩] = [(f, [7]), (g, [8])] ∧
      (seqOf g : Int) - params.replayWindowSize < seqOf f ∧
      WithinSkip .tagging (.init params [2] [1] [] 0) [g, f] ∧
      (recvs .tagging 3 (.init params [2] [1] [] 0) [g, f]).1
        = [⟨g, .ok [8]⟩, ⟨f, .error (.expiredEpoch 0 1)⟩] := by
  intro params frame f g
  exact ⟨by decide +kernel, by decide +kernel, ⟨by decide +kernel, by decide +kernel, trivial⟩,
    by decide +kernel⟩

end Memnode.Security
