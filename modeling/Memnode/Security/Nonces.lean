/-
Memnode.Security.Nonces — sequence numbers under failing `drain` calls.

`send` hands the frame to the writer, awaits `drain` and only then moves
its counter on. When `drain` raises, or the call is cancelled there, the
frame is written and the counter still holds its number. `attempt` is
`send` with that ending; `handed` is what the writer got over a run.

The key of a frame is always that of its number (`attempt_cases`). Numbers
never go back, and one is used again exactly when the next frame is
written before the clock has moved the counter (`movesOn_iff`), which
`Recovers` says of a whole run. Without reuse an epoch has no more frames
than it has numbers.
-/
import Mathlib.Order.Interval.Finset.Nat
import Memnode.Security.Delivery
import Memnode.Security.Lockstep

set_option linter.unusedSectionVars false

namespace Memnode.Security

open Lib SecureChannel

variable {params : ChannelParams} {C : Crypto} {tHash base : Bytes}

/-- How the `drain` of a `write_frame` call ends, if it comes to that. -/
inductive Drain where
  | returned
  /-- it raises, or the call is cancelled in it -/
  | raised
  deriving DecidableEq, Repr

/-- One `send` call, with the ending of its `drain`. -/
structure Attempt where
  call : SendCall
  drain : Drain

/-- A frame handed to the writer and the `encrypt` call that made it. -/
structure Handed where
  frame : Bytes
  sealing : Sealing
  deriving DecidableEq, Repr

namespace SecureChannel

/-- `send`, with the await in `write_frame`: the channel after it and what was written. -/
def attempt (C : Crypto) (c : SecureChannel params) (a : Attempt) :
    SecureChannel params × Option Handed :=
  let c := c.prepare C a.call
  if c.sendSeq ≥ 2 ^ 64 then (c, none)
  else
    let sealing := c.sealing C a.call.plaintext
    let frame := BigEndian.pack 8 c.sendSeq ++ sealing.ciphertext
    if frame.length > Config.maxFrameSize then (c, none)
    else
      match a.drain with
      | .raised => (c, some ⟨frame, sealing⟩)
      | .returned => ({ c with sendSeq := c.sendSeq + 1 }, some ⟨frame, sealing⟩)

/-- The frames handed to the writer over a run, in order. -/
def handed (C : Crypto) (c : SecureChannel params) : List Attempt → List Handed
  | [] => []
  | a :: rest => (c.attempt C a).2.toList ++ handed C (c.attempt C a).1 rest

/-! ## One attempt -/

/-- The sealing is the frame's: its key is that of the epoch of the
number the frame carries, and its nonce and associated data that number's. -/
def KeyedByNumber (C : Crypto) (params : ChannelParams) (tHash base : Bytes) (x : Handed) : Prop :=
  x.sealing.key = chainKey C tHash base (epochFor params (seqOf x.frame)) ∧
    x.sealing.nonce = nonce (seqOf x.frame) ∧
    x.sealing.ciphertext
      = C.encrypt x.sealing.key x.sealing.nonce x.sealing.plaintext x.sealing.aad ∧
    x.frame = x.sealing.aad ++ x.sealing.ciphertext

/-- The ways an attempt ends: nothing written and the number kept, or a
frame written, and the number kept or not as `drain` ends. -/
theorem attempt_cases {c : SecureChannel params} (h : c.SendOk C tHash base) (a : Attempt) :
    (c.attempt C a).1.SendOk C tHash base ∧
      (((c.attempt C a).2 = none ∧ (c.attempt C a).1.sendSeq = (c.prepare C a.call).sendSeq) ∨
        ∃ x, (c.attempt C a).2 = some x ∧ KeyedByNumber C params tHash base x ∧
          seqOf x.frame = (c.prepare C a.call).sendSeq ∧
          (c.attempt C a).1.sendSeq
            = (c.prepare C a.call).sendSeq + if a.drain = .returned then 1 else 0) := by
  obtain ⟨hok, hlt⟩ := h.prepare a.call
  obtain ⟨_, _, hkey, _⟩ := prepare_spec h a.call
  simp only [attempt]
  generalize c.prepare C a.call = p at hok hlt hkey
  by_cases hover : p.sendSeq ≥ 2 ^ 64
  · rw [if_pos hover]
    exact ⟨hok, Or.inl ⟨rfl, rfl⟩⟩
  obtain ⟨_, _, hnum⟩ := frame_parts (Nat.lt_of_not_ge hover) (p.sealing C a.call.plaintext).ciphertext
  have hkeyed : KeyedByNumber C params tHash base
      ⟨BigEndian.pack 8 p.sendSeq ++ (p.sealing C a.call.plaintext).ciphertext,
        p.sealing C a.call.plaintext⟩ := by
    refine ⟨?_, ?_, rfl, rfl⟩
    · rw [hnum, ← hkey]
      rfl
    · rw [hnum]
      rfl
  rw [if_neg hover]
  split
  · exact ⟨hok, Or.inl ⟨rfl, rfl⟩⟩
  · cases a.drain with
    | raised => exact ⟨hok, Or.inr ⟨_, rfl, hkeyed, hnum, rfl⟩⟩
    | returned => exact ⟨hok.next hlt, Or.inr ⟨_, rfl, hkeyed, hnum, rfl⟩⟩

/-! ## Runs -/

/-- Every frame of a run is keyed by its number, and no number is below
the counter the run started with. -/
theorem handed_spec {c : SecureChannel params} (h : c.SendOk C tHash base) (as : List Attempt) :
    ∀ x ∈ handed C c as, KeyedByNumber C params tHash base x ∧ c.sendSeq ≤ seqOf x.frame := by
  induction as generalizing c with
  | nil => simp [handed]
  | cons a rest ih =>
    obtain ⟨hok, hend⟩ := attempt_cases h a
    obtain ⟨_, _, _, hmono, _⟩ := prepare_spec h a.call
    intro x hx
    rcases List.mem_append.mp hx with hx | hx
    · rcases hend with ⟨hnone, _⟩ | ⟨y, hy, hkeyed, hnum, _⟩
      · rw [hnone] at hx
        cases hx
      · rw [hy, Option.toList_some, List.mem_singleton] at hx
        subst hx
        exact ⟨hkeyed, by omega⟩
    · obtain ⟨hkeyed, hle⟩ := ih hok x hx
      refine ⟨hkeyed, ?_⟩
      rcases hend with ⟨_, hseq⟩ | ⟨y, _, _, _, hseq⟩
      · omega
      · omega

/-- The clock moves the counter on before the next frame is written, if
there is a next one. -/
def MovesOn (C : Crypto) (c : SecureChannel params) : List Attempt → Prop
  | [] => True
  | a :: rest => c.sendSeq < (c.maybeTimeRekey a.call.checkedAt).sendSeq ∨
      ((c.attempt C a).2 = none ∧ MovesOn C (c.attempt C a).1 rest)

/-- After every written frame whose `drain` failed, the counter moves on. -/
def Recovers (C : Crypto) (c : SecureChannel params) : List Attempt → Prop
  | [] => True
  | a :: rest =>
      ((c.attempt C a).2 ≠ none → a.drain = .raised → MovesOn C (c.attempt C a).1 rest) ∧
        Recovers C (c.attempt C a).1 rest

/-- Only the clock changes the number `send` uses. -/
theorem prepare_sendSeq {c : SecureChannel params} (h : c.SendOk C tHash base) (call : SendCall) :
    (c.prepare C call).sendSeq = (c.maybeTimeRekey call.checkedAt).sendSeq := by
  obtain ⟨hok, _, _⟩ := maybeTimeRekey_spec h call.checkedAt
  unfold prepare
  generalize c.maybeTimeRekey call.checkedAt = c₁ at hok
  simp only
  split
  · have hkey : c₁.sendKey = chainKey C c₁.transcriptHash base c₁.sendEpoch := by
      rw [hok.hash]; exact hok.key
    exact (iterate_rekeySend hkey _).2.2.1
  · rfl

/-- The counter moves on exactly when its number is not written again. -/
theorem movesOn_iff {c : SecureChannel params} (h : c.SendOk C tHash base) (as : List Attempt) :
    MovesOn C c as ↔ ∀ x ∈ handed C c as, seqOf x.frame ≠ c.sendSeq := by
  induction as generalizing c with
  | nil => simp [MovesOn, handed]
  | cons a rest ih =>
    obtain ⟨hok, hend⟩ := attempt_cases h a
    obtain ⟨_, _, hmono⟩ := maybeTimeRekey_spec h a.call.checkedAt
    rw [← prepare_sendSeq h a.call] at hmono
    rw [MovesOn, ← prepare_sendSeq h a.call]
    by_cases hjump : c.sendSeq < (c.prepare C a.call).sendSeq
    · refine ⟨fun _ x hx => ?_, fun _ => Or.inl hjump⟩
      rcases List.mem_append.mp hx with hx | hx
      · rcases hend with ⟨hnone, _⟩ | ⟨y, hy, _, hnum, _⟩
        · rw [hnone] at hx
          cases hx
        · rw [hy, Option.toList_some, List.mem_singleton] at hx
          subst hx
          omega
      · have hle := (handed_spec hok rest x hx).2
        rcases hend with ⟨_, hseq⟩ | ⟨y, _, _, _, hseq⟩
        · omega
        · omega
    · have hsame : (c.prepare C a.call).sendSeq = c.sendSeq := by omega
      rw [or_iff_right hjump, handed]
      rcases hend with ⟨hnone, hseq⟩ | ⟨y, hy, _, hnum, _⟩
      · rw [hnone, Option.toList_none, List.nil_append, and_iff_right rfl, ih hok, hseq, hsame]
      · rw [hy]
        constructor
        · rintro ⟨hnone, _⟩
          cases hnone
        · intro hall
          exact absurd (hnum.trans hsame) (hall y (by simp))

/-- Numbers are not used twice exactly when the run recovers. -/
theorem nodup_iff_recovers {c : SecureChannel params} (h : c.SendOk C tHash base)
    (as : List Attempt) :
    ((handed C c as).map (fun x => seqOf x.frame)).Nodup ↔ Recovers C c as := by
  induction as generalizing c with
  | nil => simp [Recovers, handed]
  | cons a rest ih =>
    obtain ⟨hok, hend⟩ := attempt_cases h a
    rw [handed, Recovers, ← ih hok]
    rcases hend with ⟨hnone, _⟩ | ⟨x, hx, _, hnum, hseq⟩
    · simp [hnone]
    · have hfresh : (a.drain = .raised → MovesOn C (c.attempt C a).1 rest) ↔
          seqOf x.frame ∉ (handed C (c.attempt C a).1 rest).map (fun x => seqOf x.frame) := by
        rw [List.mem_map, movesOn_iff hok]
        cases hdrain : a.drain with
        | raised =>
          rw [hseq, hdrain, ← hnum]
          simp only [forall_true_left, reduceCtorEq, if_false, Nat.add_zero]
          exact ⟨fun hall ⟨y, hy, heq⟩ => hall y hy heq, fun hno y hy heq => hno ⟨y, hy, heq⟩⟩
        | returned =>
          -- the counter is past the number
          refine ⟨fun _ ⟨y, hy, heq⟩ => ?_, fun _ hraised => nomatch hraised⟩
          have hle := (handed_spec hok rest y hy).2
          rw [hseq, hdrain, if_pos rfl] at hle
          omega
      rw [hx, Option.toList_some, List.singleton_append, List.map_cons, List.nodup_cons, ← hfresh]
      simp

/-- Frames with different numbers: at most as many of one epoch as the epoch has numbers. -/
theorem epoch_count_le {xs : List Handed} (hnodup : (xs.map (fun x => seqOf x.frame)).Nodup)
    (epoch : Nat) (hepoch : ∀ x ∈ xs, epochFor params (seqOf x.frame) = epoch) :
    xs.length ≤ params.rekeyMessages := by
  have hR := params.rekeyMessages_pos
  have hrange : (xs.map (fun x => seqOf x.frame)).toFinset
      ⊆ Finset.Ico (epoch * params.rekeyMessages) (epoch * params.rekeyMessages + params.rekeyMessages) := by
    intro s hs
    obtain ⟨x, hx, rfl⟩ := List.mem_map.mp (List.mem_toFinset.mp hs)
    have hdiv := hepoch x hx
    have hmod := Nat.div_add_mod (seqOf x.frame) params.rekeyMessages
    have hlt := Nat.mod_lt (seqOf x.frame) hR
    rw [epochFor] at hdiv
    rw [hdiv, Nat.mul_comm] at hmod
    rw [Finset.mem_Ico]
    omega
  have hcard := Finset.card_le_card hrange
  rwa [List.toFinset_card_of_nodup hnodup, List.length_map, Nat.card_Ico, Nat.add_sub_cancel_left]
    at hcard

end SecureChannel

/-- **When a nonce is used twice.** Over any run of `send` calls, with any
clock and any of the `drain` calls failing: every frame handed to the
writer is sealed under the key of the epoch of its number; no two of them
carry the same number if and only if after each frame whose `drain`
failed the clock moves the counter on before another frame is written;
and then no key that belongs to one epoch seals more frames than an epoch
has numbers. -/
theorem numbers_distinct_iff_recovers (C : Crypto) (params : ChannelParams)
    (key key' tHash : Bytes) (now : Rat) (attempts : List Attempt) :
    let c : SecureChannel params := .init params key key' tHash now
    let out := handed C c attempts
    (∀ x ∈ out, KeyedByNumber C params tHash key x) ∧
    ((out.map (fun x => seqOf x.frame)).Nodup ↔ Recovers C c attempts) ∧
    (Recovers C c attempts → ∀ k,
      (∀ e e', chainKey C tHash key e = k → chainKey C tHash key e' = k → e = e') →
        (out.filter (fun x => x.sealing.key = k)).length ≤ params.rekeyMessages) := by
  intro c out
  have hok := sendOk_init (C := C) params key key' tHash now
  have hkeyed : ∀ x ∈ out, KeyedByNumber C params tHash key x :=
    fun x hx => (handed_spec hok attempts x hx).1
  refine ⟨hkeyed, nodup_iff_recovers hok attempts, fun hrec k honly => ?_⟩
  have hnodup := ((nodup_iff_recovers hok attempts).mpr hrec)
  have hsub : (out.filter (fun x => x.sealing.key = k)).Sublist out := List.filter_sublist
  by_cases hempty : out.filter (fun x => x.sealing.key = k) = []
  · rw [hempty]
    exact Nat.zero_le _
  -- all of them are of the epoch of the first
  obtain ⟨y, hy⟩ := List.exists_mem_of_ne_nil _ hempty
  have hchain : ∀ x ∈ out.filter (fun x => x.sealing.key = k),
      chainKey C tHash key (epochFor params (seqOf x.frame)) = k := by
    intro x hx
    obtain ⟨hmem, hk⟩ := List.mem_filter.mp hx
    rw [← (hkeyed x hmem).1]
    exact of_decide_eq_true hk
  exact epoch_count_le (hnodup.sublist (hsub.map _)) _
    (fun x hx => honly _ (epochFor params (seqOf y.frame)) (hchain x hx) (hchain y hy))

/-- The `drain` of the first frame fails, and the clock moves the counter
to the next epoch before the second: no number is used twice. -/
theorem numbers_distinct_after_jump :
    let params : ChannelParams := ⟨64, by decide, 2, by decide, 900, 3⟩
    let attempts : List Attempt := [⟨⟨[7], 0, 0⟩, .raised⟩, ⟨⟨[8], 1000, 1000⟩, .returned⟩]
    let out := handed .tagging (.init params [1] [2] [] 0) attempts
    out.map (fun x => seqOf x.frame) = [0, 2] ∧ (out.map (fun x => seqOf x.frame)).Nodup := by
  intro params attempts out
  have hrec : Recovers .tagging (.init params [1] [2] [] 0) attempts :=
    And.intro (fun _ _ => Or.inl (by decide +kernel)) (And.intro (fun _ hraised => nomatch hraised) trivial)
  exact ⟨by decide +kernel,
    (numbers_distinct_iff_recovers .tagging params [1] [2] [] 0 attempts).2.1.mpr hrec⟩

/-- The `drain` of the first frame fails and the second follows at once:
two different plaintexts are sealed under one key with one nonce, and both
frames are handed to the writer. -/
theorem nonce_reused_after_drain_failure :
    let params : ChannelParams := ⟨64, by decide, 100, by decide, 900, 3⟩
    let attempts : List Attempt := [⟨⟨[7], 0, 0⟩, .raised⟩, ⟨⟨[8], 1, 1⟩, .returned⟩]
    let out := handed .tagging (.init params [1] [2] [] 0) attempts
    out.map (fun x => seqOf x.frame) = [0, 0] ∧
      out.map (fun x => (x.sealing.key, x.sealing.nonce, x.sealing.plaintext))
        = [([1], nonce 0, [7]), ([1], nonce 0, [8])] := by
  decide +kernel

end Memnode.Security
