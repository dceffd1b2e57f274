/-
Memnode.Security.Rejected — what is left of a frame that `recv` refuses.

`recv` records the sequence number, then moves the key epoch, and only
then checks the tag. So of the frames it raises on, those it never looked
into (too short, or too large to be read) leave the receive half as it
was, and every other one leaves its number behind in the replay window:
the genuine frame with that number is not delivered any more, and with a
number far ahead none of the frames below it is.

  §1 The window  — `Blocked`, what the window will not accept again. It
                   holds of every number the window accepted and is kept
                   by every call (`Blocked.checkAndUpdate`).
  §2 One turn    — `onFrame_dropped` and `onFrame_ended`, the receive half
                   after a frame that was not delivered, on any channel.
  §3 Runs        — a blocked number is never delivered (`recvs_blocked`),
                   and the count of dropped frames decides nothing
                   (`recvs_count`).
-/
import Memnode.Security.Delivery
import Memnode.Security.Lockstep

set_option linter.unusedSectionVars false

namespace Memnode.Security

open Lib

variable {params : ChannelParams} {C : Crypto}

/-! ## §1 The window -/

namespace ReplayWindow

variable {size : Nat} {w w' : ReplayWindow size} {s t : Int}

/-- The window has moved past the number, or has its bit set. -/
structure Blocked (w : ReplayWindow size) (s : Int) : Prop where
  seen : w.seenAny = true
  le : s ≤ w.highest
  mark : size ≤ (w.highest - s).toNat ∨ w.bitmap.testBit (w.highest - s).toNat = true

theorem Blocked.refused (h : w.Blocked s) : w.checkAndUpdate s = (w, false) := by
  rcases w.checkAndUpdate_cases s with ⟨heq, _⟩ | ⟨_, w', _, _, hcase⟩
  · exact heq
  exfalso
  have hseen := h.seen
  have hle := h.le
  rcases hcase with ⟨hno, _⟩ | ⟨_, hgt, _⟩ | ⟨_, _, _, hoff, hbit, _⟩
  · rw [hseen] at hno
    cases hno
  · omega
  · rcases h.mark with hfar | hset
    · omega
    · rw [hset] at hbit
      cases hbit

/-- An accepted number is blocked from then on. -/
theorem blocked_of_accepted (hsize : 1 ≤ size) (h : w.checkAndUpdate s = (w', true)) :
    w'.Blocked s := by
  rcases w.checkAndUpdate_cases s with ⟨heq, _⟩ | ⟨_, w'', heq, hseen, hcase⟩
  · rw [heq] at h
    cases h
  obtain rfl : w'' = w' := by rw [heq] at h; exact (Prod.mk.inj h).1
  rcases hcase with ⟨_, htop, hbits⟩ | ⟨_, _, htop, hbits⟩ | ⟨_, hle, htop, _, _, hbits⟩
  · exact ⟨hseen, htop.ge, Or.inr (by rw [htop, hbits, sub_self]; rfl)⟩
  · refine ⟨hseen, htop.ge, Or.inr ?_⟩
    rw [htop, sub_self, Int.toNat_zero, hbits 0 hsize]
    rfl
  · refine ⟨hseen, by omega, Or.inr ?_⟩
    rw [htop, hbits, decide_eq_true rfl, Bool.or_true]

/-- Whatever is offered, a blocked number stays blocked. -/
theorem Blocked.checkAndUpdate (h : w.Blocked s) (t : Int) : (w.checkAndUpdate t).1.Blocked s := by
  have hseen := h.seen
  have hle := h.le
  rcases w.checkAndUpdate_cases t with ⟨heq, _⟩ | ⟨_, w', heq, hseen', hcase⟩
  · rw [heq]
    exact h
  rw [heq]
  show w'.Blocked s
  rcases hcase with ⟨hno, _⟩ | ⟨_, hgt, htop, hbits⟩ | ⟨_, _, htop, _, _, hbits⟩
  · rw [hseen] at hno
    cases hno
  · -- the bit moves up with the window, or out of it
    refine ⟨hseen', by omega, ?_⟩
    by_cases hfar : size ≤ (w'.highest - s).toNat
    · exact Or.inl hfar
    · have hset : w.bitmap.testBit (w.highest - s).toNat = true := by
        rcases h.mark with hout | hset
        · omega
        · exact hset
      refine Or.inr ?_
      rw [hbits _ (by omega), Bool.or_eq_true, Bool.and_eq_true, decide_eq_true_eq]
      have hoff : (w'.highest - s).toNat - (t - w.highest).toNat = (w.highest - s).toNat := by omega
      exact Or.inr ⟨by simp only [decide_eq_true_eq]; omega, by rw [hoff]; exact hset⟩
  · refine ⟨hseen', by omega, ?_⟩
    rw [htop, hbits]
    rcases h.mark with hout | hset
    · exact Or.inl hout
    · exact Or.inr (by rw [hset, Bool.true_or])

/-- A window that accepts a number is another window afterwards. -/
theorem ne_of_accepted (hsize : 1 ≤ size) (h : w.checkAndUpdate s = (w', true)) : w' ≠ w := by
  rintro rfl
  rw [(blocked_of_accepted hsize h).refused] at h
  cases h

end ReplayWindow

/-! ## §2 One turn -/

namespace SecureChannel

/-- The frame is one `recv` looks into: `read_frame` returns it and it
holds a sequence number and a tag. -/
def Readable (f : Bytes) : Prop := seqLen + aeadTagLen ≤ f.length ∧ f.length ≤ Config.maxFrameSize

/-- A dropped frame only counts. -/
theorem onFrame_dropped {c c' : SecureChannel params} {f : Bytes}
    (h : c.onFrame C f = (c', none)) : c' = { c with replaysDropped := c.replaysDropped + 1 } := by
  rcases onFrame_ends (C := C) c f with ⟨e, heq, _⟩ | ⟨_, _, ⟨w, hw, heq⟩ | ⟨w, e, _, _, _, heq⟩ |
      ⟨w, c₁, _, _, _, heq⟩⟩
  · rw [heq] at h; cases h
  · obtain rfl := ReplayWindow.eq_of_checkAndUpdate_false hw
    rw [heq] at h
    exact (Prod.mk.inj h).1.symm
  · rw [heq] at h; cases h
  · rw [heq] at h; cases h

/-- The receive half after a turn that ended a `recv` call: untouched if
the frame was not looked into. Otherwise the window has taken the frame's
number, and the epoch is the frame's if the tag was looked at. -/
theorem onFrame_ended {c c' : SecureChannel params} {f : Bytes} {r : Except RecvError Bytes}
    (h : c.onFrame C f = (c', some r)) :
    (¬ Readable f ∧ c' = c ∧ ∃ e, r = .error e) ∨
      (Readable f ∧ c.replay.checkAndUpdate (seqOf f) = (c'.replay, true) ∧
        ((c'.recvEpoch = c.recvEpoch ∧ c'.recvKey = c.recvKey ∧ r ≠ .error .authFailed) ∨
          (c'.recvEpoch = epochFor params (seqOf f) ∧ ∀ e, r = .error e → e = .authFailed))) := by
  rcases onFrame_ends (C := C) c f with ⟨e, heq, hbad⟩ | ⟨hmax, hmin, ⟨w, _, heq⟩ |
      ⟨w, e, he, hw, _, heq⟩ | ⟨w, c₁, hw, hle, hc₁, heq⟩⟩
  · rw [heq] at h
    obtain ⟨rfl, hr⟩ := Prod.mk.inj h
    refine Or.inl ⟨fun hread => ?_, rfl, e, (Option.some.inj hr).symm⟩
    have := hread.1
    have := hread.2
    omega
  · rw [heq] at h; cases h
  · rw [heq] at h
    obtain ⟨rfl, hr⟩ := Prod.mk.inj h
    obtain rfl := Option.some.inj hr
    exact Or.inr ⟨⟨hmin, hmax⟩, hw, Or.inl ⟨rfl, rfl, fun hauth => he (Except.error.inj hauth)⟩⟩
  · rw [heq] at h
    obtain ⟨rfl, hr⟩ := Prod.mk.inj h
    obtain rfl := Option.some.inj hr
    obtain ⟨hepoch, hreplay⟩ := iterate_rekeyRecv_frame (C := C) { c with replay := w }
      (epochFor params (seqOf f) - c.recvEpoch)
    rw [← hc₁] at hepoch hreplay
    refine Or.inr ⟨⟨hmin, hmax⟩, by rw [hw, hreplay], Or.inr ⟨by rw [hepoch]; simp only; omega, ?_⟩⟩
    intro e hr
    unfold opened at hr
    split at hr
    · cases hr
    · exact (Except.error.inj hr).symm

/-! ## §3 Runs -/

/-- One `recv` call: frames are dropped until one ends it. -/
theorem recv_ends {c c' : SecureChannel params} {fs rest : List Bytes} {x : Received}
    (h : c.recv C fs = (c', some x, rest)) :
    ∃ k, ({ c with replaysDropped := k } : SecureChannel params).onFrame C x.frame
      = (c', some x.result) := by
  induction fs generalizing c with
  | nil => cases h
  | cons f fs ih =>
    rcases hturn : c.onFrame C f with ⟨c₁, _ | r⟩
    · simp only [recv, hturn] at h
      obtain ⟨k, hk⟩ := ih h
      rw [onFrame_dropped hturn] at hk
      exact ⟨k, hk⟩
    · simp only [recv, hturn] at h
      cases h
      exact ⟨c.replaysDropped, hturn⟩

/-- The count of dropped frames is carried along and decides nothing. -/
theorem onFrame_count (c : SecureChannel params) (k : Nat) (f : Bytes) :
    ∃ k', ({ c with replaysDropped := k } : SecureChannel params).onFrame C f
      = ({ (c.onFrame C f).1 with replaysDropped := k' }, (c.onFrame C f).2) := by
  have hrekey : ∀ (n : Nat) (d : SecureChannel params),
      (rekeyRecv C)^[n] { d with replaysDropped := k }
        = { (rekeyRecv C)^[n] d with replaysDropped := k } := by
    intro n
    induction n with
    | zero => exact fun d => rfl
    | succ n ih =>
      intro d
      rw [Function.iterate_succ_apply, Function.iterate_succ_apply, ← ih]
      rfl
  simp only [onFrame]
  split
  · exact ⟨k, rfl⟩
  split
  · exact ⟨k, rfl⟩
  rcases c.replay.checkAndUpdate (BigEndian.unpack (f.take seqLen)) with ⟨w, _ | _⟩
  · exact ⟨k + 1, rfl⟩
  generalize epochFor params (BigEndian.unpack (f.take seqLen)) = epoch
  by_cases hold : epoch < c.recvEpoch
  · simp only [advanceRecvTo, if_pos hold]
    exact ⟨k, rfl⟩
  by_cases hjump : ((epoch - c.recvEpoch : Nat) : Int) > params.maxEpochSkip
  · simp only [advanceRecvTo, if_neg hold, if_pos hjump]
    exact ⟨k, rfl⟩
  simp only [advanceRecvTo, if_neg hold, if_neg hjump]
  rw [hrekey _ { c with replay := w }]
  generalize (rekeyRecv C)^[epoch - c.recvEpoch] { c with replay := w } = d
  cases C.decrypt d.recvKey (nonce (BigEndian.unpack (f.take seqLen))) (f.drop seqLen) (f.take seqLen) with
  | none => exact ⟨k, rfl⟩
  | some p => exact ⟨k, rfl⟩

theorem recv_count (c : SecureChannel params) (k : Nat) (fs : List Bytes) :
    ∃ k', ({ c with replaysDropped := k } : SecureChannel params).recv C fs
      = ({ (c.recv C fs).1 with replaysDropped := k' }, (c.recv C fs).2) := by
  induction fs generalizing c k with
  | nil => exact ⟨k, rfl⟩
  | cons f fs ih =>
    obtain ⟨k', hk'⟩ := onFrame_count (C := C) c k f
    rcases hturn : c.onFrame C f with ⟨c₁, _ | r⟩
    · rw [hturn] at hk'
      simp only [recv, hturn, hk']
      exact ih c₁ k'
    · rw [hturn] at hk'
      simp only [recv, hturn, hk']
      exact ⟨k', rfl⟩

theorem recvs_count (c : SecureChannel params) (k n : Nat) (fs : List Bytes) :
    (recvs C n { c with replaysDropped := k } fs).1 = (recvs C n c fs).1 := by
  induction n generalizing c k fs with
  | zero => rfl
  | succ n ih =>
    obtain ⟨k', hk'⟩ := recv_count (C := C) c k fs
    rcases hr : c.recv C fs with ⟨c₁, _ | x, rest⟩
    · rw [hr] at hk'
      simp only [recvs, hr, hk']
    · rw [hr] at hk'
      simp only [recvs, hr, hk']
      rw [ih c₁ k' rest]

/-- A blocked number stays blocked over one turn, and is not delivered. -/
theorem onFrame_blocked {c c' : SecureChannel params} {f : Bytes}
    {r : Option (Except RecvError Bytes)} {s : Nat} (h : c.replay.Blocked s)
    (hturn : c.onFrame C f = (c', r)) :
    c'.replay.Blocked s ∧ ∀ p, r = some (.ok p) → seqOf f ≠ s := by
  cases r with
  | none =>
    rw [onFrame_dropped hturn]
    exact ⟨h, fun p hp => by cases hp⟩
  | some r =>
    rcases onFrame_ended hturn with ⟨_, rfl, e, rfl⟩ | ⟨_, hw, _⟩
    · exact ⟨h, fun p hp => by cases hp⟩
    · have hnext := h.checkAndUpdate (seqOf f)
      rw [hw] at hnext
      refine ⟨hnext, fun p _ hs => ?_⟩
      rw [hs, h.refused] at hw
      exact absurd (Prod.mk.inj hw).2 (by decide)

theorem recv_blocked {c c' : SecureChannel params} {fs rest : List Bytes} {x : Option Received}
    {s : Nat} (h : c.replay.Blocked s) (hrecv : c.recv C fs = (c', x, rest)) :
    c'.replay.Blocked s ∧ ∀ y p, x = some y → y.result = .ok p → seqOf y.frame ≠ s := by
  induction fs generalizing c with
  | nil =>
    cases hrecv
    exact ⟨h, fun y p hy => by cases hy⟩
  | cons f fs ih =>
    rcases hturn : c.onFrame C f with ⟨c₁, _ | r⟩
    · simp only [recv, hturn] at hrecv
      exact ih (onFrame_blocked h hturn).1 hrecv
    · simp only [recv, hturn] at hrecv
      cases hrecv
      obtain ⟨hnext, hnot⟩ := onFrame_blocked h hturn
      refine ⟨hnext, fun y p hy hp => ?_⟩
      cases hy
      exact hnot p (by rw [← hp])

/-- Whatever arrives, a blocked number is not delivered. -/
theorem recvs_blocked {c : SecureChannel params} {s : Nat} (h : c.replay.Blocked s) (n : Nat)
    (fs : List Bytes) : s ∉ deliveredSeqs (recvs C n c fs).1 := by
  induction n generalizing c fs with
  | zero => simp [recvs, deliveredSeqs]
  | succ n ih =>
    rcases hr : c.recv C fs with ⟨c', _ | x, rest⟩
    · simp [recvs, hr, deliveredSeqs]
    · obtain ⟨hnext, hnot⟩ := recv_blocked h hr
      have hrest := ih hnext rest
      simp only [recvs, hr]
      cases hres : x.result with
      | error e => simpa [deliveredSeqs, hres] using hrest
      | ok p =>
        have hne := hnot x p rfl hres
        simp only [deliveredSeqs, hres, List.filterMap_cons, List.mem_cons, not_or]
        exact ⟨hne.symm, hrest⟩

end SecureChannel

open SecureChannel

/-- **A refused frame leaves no trace exactly when it was not looked
into.** On any channel, when a `recv` call raises on a frame: window,
epoch and key are as before the call if and only if the frame was too
short or too large to be read. After a short frame all later calls end as
they would have ended without it. After any other, no later call delivers
a frame with the number that frame carried; and if it was the tag that
failed, the epoch is the one that number selects. -/
theorem refused_unchanged_iff_unread (C : Crypto) (params : ChannelParams)
    (c c' : SecureChannel params) (fs rest : List Bytes) (x : Received) (e : RecvError)
    (hrecv : c.recv C fs = (c', some x, rest)) (hraise : x.result = .error e) :
    ((c'.replay = c.replay ∧ c'.recvEpoch = c.recvEpoch ∧ c'.recvKey = c.recvKey) ↔
      x.frame.length < seqLen + aeadTagLen ∨ Config.maxFrameSize < x.frame.length) ∧
    (x.frame.length < seqLen + aeadTagLen →
      ∀ n later, (recvs C n c' later).1 = (recvs C n c later).1) ∧
    (seqLen + aeadTagLen ≤ x.frame.length → x.frame.length ≤ Config.maxFrameSize →
      (∀ n later, seqOf x.frame ∉ deliveredSeqs (recvs C n c' later).1) ∧
      (e = .authFailed → c'.recvEpoch = epochFor params (seqOf x.frame)) ∧
      (e ≠ .authFailed → c'.recvEpoch = c.recvEpoch ∧ c'.recvKey = c.recvKey)) := by
  obtain ⟨k, hturn⟩ := recv_ends hrecv
  have hunread : x.frame.length < seqLen + aeadTagLen ∨ Config.maxFrameSize < x.frame.length ↔
      ¬ Readable x.frame := by
    unfold Readable
    omega
  rw [hunread]
  rcases onFrame_ended hturn with ⟨hnot, rfl, _⟩ | ⟨hread, hw, hepoch⟩
  · exact ⟨⟨fun _ => hnot, fun _ => ⟨rfl, rfl, rfl⟩⟩, fun _ n later => recvs_count c k n later,
      fun hmin hmax => absurd ⟨hmin, hmax⟩ hnot⟩
  · have hsize := params.replayWindowSize_pos
    refine ⟨⟨fun hsame => ?_, fun hnot => absurd hread hnot⟩, fun hshort => ?_, fun _ _ => ⟨?_, ?_⟩⟩
    · exact absurd hsame.1 (ReplayWindow.ne_of_accepted hsize hw)
    · exact absurd hread.1 (Nat.not_le_of_lt hshort)
    · exact recvs_blocked (ReplayWindow.blocked_of_accepted hsize hw)
    · rw [hraise] at hepoch
      rcases hepoch with ⟨hsame, hkey, hne⟩ | ⟨hmoved, hauth⟩
      · exact ⟨fun he => absurd (congrArg Except.error he) hne, fun _ => ⟨hsame, hkey⟩⟩
      · exact ⟨fun _ => hmoved, fun hne => absurd (hauth e rfl) hne⟩

/-- A forged frame of the number 0: no frame of that number is delivered after it. -/
theorem refused_unchanged_iff_unread_zero :
    let params : ChannelParams := ⟨64, by decide, 100, by decide, 0, 3⟩
    let b : SecureChannel params := .init params [2] [1] [] 0
    let forged := List.replicate 24 (0 : UInt8)
    (b.recv .tagging [forged]).2 = (some ⟨forged, .error .authFailed⟩, []) ∧
      ∀ n later, 0 ∉ deliveredSeqs (recvs .tagging n (b.recv .tagging [forged]).1 later).1 := by
  intro params b forged
  have hend : (b.recv .tagging [forged]).2 = (some ⟨forged, .error .authFailed⟩, []) := by
    decide +kernel
  have hafter := refused_unchanged_iff_unread .tagging params b (b.recv .tagging [forged]).1 [forged]
    [] ⟨forged, .error .authFailed⟩ .authFailed (Prod.ext rfl hend) rfl
  exact ⟨hend, (hafter.2.2 (by decide) (by decide)).1⟩

/-- One forged frame with the largest number: `recv` refuses its epoch,
and then drops the genuine frame it would have delivered. -/
theorem forged_number_blocks_genuine :
    let params : ChannelParams := ⟨64, by decide, 100, by decide, 0, 3⟩
    let a : SecureChannel params := .init params [1] [2] [] 0
    let b : SecureChannel params := .init params [2] [1] [] 0
    let genuine := BigEndian.pack 8 0 ++ Crypto.tagging.encrypt [1] (nonce 0) [7] (BigEndian.pack 8 0)
    let forged := List.replicate 24 (255 : UInt8)
    (sendAll .tagging a [⟨[7], 0, 0⟩]).2 = [.ok genuine] ∧
      (recvs .tagging 2 b [genuine]).1.map Received.result = [.ok [7]] ∧
      (recvs .tagging 2 b [forged, genuine]).1.map Received.result
        = [.error (.epochJump 184467440737095516 3)] ∧
      (recvs .tagging 2 b [forged, genuine]).2.1.replay ≠ b.replay := by
  decide +kernel

end Memnode.Security
