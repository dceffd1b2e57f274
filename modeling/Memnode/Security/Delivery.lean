/-
Memnode.Security.Delivery — what `recv` returns was sent, and no
sequence number is delivered twice.

The sender makes any list of `send` calls, some of which may raise; the
receiver gets any frames at all and keeps calling `recv` after an
exception. The cipher is ideal (`IdealAead`): under a key of this
direction's chain, none of the arriving ciphertexts opens unless the
sender produced it with that key, nonce and associated data.

`onFrame_delivers` is one turn of the receive loop, with the set of
numbers the replay window has accepted; `recv_delivers` and
`recvs_deliver` are the inductions over the frames and over the calls.
A delivered frame then leads back to an `encrypt` call of the sender.
That call's frame was written, since one that `write_frame` refuses is
too long for `read_frame` as well.
-/
import Memnode.Security.Channel

set_option linter.unusedSectionVars false

namespace Memnode.Security

open Lib

variable {params : ChannelParams} {C : Crypto} {tHash base : Bytes}

/-! ## The sender's run -/

/-- A `send` call of a run, with the channel it ran on. -/
structure SendStep (params : ChannelParams) where
  before : SecureChannel params
  call : SendCall

namespace SendStep

/-- The sequence number the call used. -/
def seq (C : Crypto) (s : SendStep params) : Nat := (s.before.prepare C s.call).sendSeq

/-- The `encrypt` call it made, if it got that far. -/
def sealing (C : Crypto) (s : SendStep params) : Option Sealing :=
  if s.seq C ≥ 2 ^ 64 then none
  else some ((s.before.prepare C s.call).sealing C s.call.plaintext)

/-- The number and the plaintext of a call that succeeded. -/
def delivery (C : Crypto) (s : SendStep params) : Option (Nat × Bytes) :=
  match (s.before.send C s.call).2 with
  | .ok _ => some (s.seq C, s.call.plaintext)
  | .error _ => none

end SendStep

/-- The calls of a run. -/
def sendSteps (C : Crypto) (c : SecureChannel params) : List SendCall → List (SendStep params)
  | [] => []
  | call :: rest => ⟨c, call⟩ :: sendSteps C (c.send C call).1 rest

/-- What was successfully sent, in order: number and plaintext. -/
def sent (C : Crypto) (c : SecureChannel params) (calls : List SendCall) : List (Nat × Bytes) :=
  (sendSteps C c calls).filterMap (SendStep.delivery C)

/-- Every `encrypt` call of the run, those of refused frames included. -/
def produced (C : Crypto) (c : SecureChannel params) (calls : List SendCall) : List Sealing :=
  (sendSteps C c calls).filterMap (SendStep.sealing C)

/-- Under the keys of one direction, an arriving ciphertext opens only as
what it was produced from. -/
def IdealAead (C : Crypto) (keys : Nat → Bytes) (log : List Sealing) (arrivals : List Bytes) : Prop :=
  ∀ f ∈ arrivals, ∀ epoch n aad plaintext,
    C.decrypt (keys epoch) n (f.drop seqLen) aad = some plaintext →
      ⟨keys epoch, n, aad, plaintext, f.drop seqLen⟩ ∈ log

/-- Sequence numbers of successful sends strictly increase. -/
theorem sent_increasing {c : SecureChannel params} (h : c.SendOk C tHash base)
    (calls : List SendCall) :
    (∀ x ∈ sent C c calls, c.sendSeq ≤ x.1) ∧
      (sent C c calls).Pairwise (fun x y => x.1 < y.1) := by
  induction calls generalizing c with
  | nil => simp [sent, sendSteps]
  | cons call rest ih =>
    obtain ⟨_, _, _, hmono, _⟩ := SecureChannel.prepare_spec h call
    obtain ⟨hle, hpair⟩ := ih (h.send call)
    have hcons : sent C c (call :: rest)
        = (SendStep.delivery C ⟨c, call⟩).toList ++ sent C (c.send C call).1 rest := by
      simp only [sent, sendSteps, List.filterMap_cons]
      cases SendStep.delivery C (⟨c, call⟩ : SendStep params) <;> rfl
    rw [hcons]
    rcases SecureChannel.send_cases (C := C) c call with ⟨e, heq, _⟩ | ⟨_, frame, _, _, heq⟩
    · -- a refused frame leaves its number to the next call
      have hnone : SendStep.delivery C ⟨c, call⟩ = none := by simp [SendStep.delivery, heq]
      rw [heq] at hle hpair ⊢
      rw [hnone]
      exact ⟨fun x hx => hmono.trans (hle x hx), hpair⟩
    · have hsome : SendStep.delivery C ⟨c, call⟩
          = some ((c.prepare C call).sendSeq, call.plaintext) := by
        simp [SendStep.delivery, heq, SendStep.seq]
      rw [heq] at hle hpair ⊢
      rw [hsome]
      simp only [Option.toList_some, List.singleton_append, List.mem_cons, List.pairwise_cons]
      refine ⟨?_, fun y hy => Nat.lt_of_succ_le (hle y hy), hpair⟩
      rintro x (rfl | hx)
      · exact hmono
      · exact hmono.trans (Nat.le_of_succ_le (hle x hx))

/-! ## The receiver's run -/

/-- The sequence numbers of the frames whose payload was returned. -/
def deliveredSeqs (out : List Received) : List Nat :=
  out.filterMap (fun x => match x.result with
    | .ok _ => some (seqOf x.frame)
    | .error _ => none)

/-- The frame opened under a key of the chain, with the number it carries. -/
def Opens (C : Crypto) (tHash base f p : Bytes) : Prop :=
  f.length ≤ Config.maxFrameSize ∧ seqLen + aeadTagLen ≤ f.length ∧
    ∃ epoch, C.decrypt (SecureChannel.chainKey C tHash base epoch) (nonce (seqOf f)) (f.drop seqLen)
      (f.take seqLen) = some p

/-- One turn of the receive loop. -/
theorem onFrame_delivers {c c' : SecureChannel params} {acc : Set Int} {f : Bytes}
    {r : Option (Except RecvError Bytes)} (h : c.RecvOk C tHash base) (ht : c.replay.Tracks acc)
    (hturn : c.onFrame C f = (c', r)) :
    ∃ acc', acc ⊆ acc' ∧ c'.RecvOk C tHash base ∧ c'.replay.Tracks acc' ∧
      ∀ p, r = some (.ok p) →
        Opens C tHash base f p ∧ (seqOf f : Int) ∉ acc ∧ (seqOf f : Int) ∈ acc' := by
  rcases SecureChannel.onFrame_cases h f with ⟨e, heq, _⟩ | ⟨hmax, hmin, ⟨w, hw, heq⟩ |
      ⟨w, e, hw, _, heq⟩ | ⟨w, c₁, hw, hepoch, hok, hreplay, _, heq⟩⟩
  · rw [heq] at hturn
    cases hturn
    exact ⟨acc, subset_rfl, h, ht, fun p hp => by simp at hp⟩
  · rw [heq] at hturn
    cases hturn
    obtain rfl := ReplayWindow.eq_of_checkAndUpdate_false hw
    exact ⟨acc, subset_rfl, ⟨h.hash, h.key⟩, ht, fun p hp => by simp at hp⟩
  · rw [heq] at hturn
    cases hturn
    exact ⟨_, Set.subset_insert _ _, ⟨h.hash, h.key⟩, ht.checkAndUpdate hw, fun p hp => by simp at hp⟩
  · rw [heq] at hturn
    cases hturn
    refine ⟨_, Set.subset_insert _ _, hok, by rw [hreplay]; exact ht.checkAndUpdate hw,
      fun p hp => ⟨⟨hmax, hmin, c'.recvEpoch, ?_⟩, fun hmem => ?_, Set.mem_insert _ _⟩⟩
    · rw [← hok.key]
      split at hp
      · rename_i p' hdec
        cases hp
        exact hdec
      · simp at hp
    · rw [ht.reject hmem] at hw
      cases hw

/-- One `recv` call, over whatever arrives. -/
theorem recv_delivers {c c' : SecureChannel params} {acc : Set Int} {fs rest : List Bytes}
    {x : Option Received} (h : c.RecvOk C tHash base) (ht : c.replay.Tracks acc)
    (hrecv : c.recv C fs = (c', x, rest)) :
    ∃ acc', acc ⊆ acc' ∧ c'.RecvOk C tHash base ∧ c'.replay.Tracks acc' ∧ rest ⊆ fs ∧
      ∀ y p, x = some y → y.result = .ok p → y.frame ∈ fs ∧
        Opens C tHash base y.frame p ∧ (seqOf y.frame : Int) ∉ acc ∧ (seqOf y.frame : Int) ∈ acc' := by
  induction fs generalizing c acc with
  | nil =>
    cases hrecv
    exact ⟨acc, subset_rfl, h, ht, List.Subset.refl _, fun y p hy => by cases hy⟩
  | cons f fs ih =>
    rcases hturn : c.onFrame C f with ⟨c₁, _ | result⟩
    · obtain ⟨acc₁, hsub, hok, htr, _⟩ := onFrame_delivers h ht hturn
      simp only [SecureChannel.recv, hturn] at hrecv
      obtain ⟨acc', hsub', hok', htr', hrest, hdel⟩ := ih hok htr hrecv
      refine ⟨acc', hsub.trans hsub', hok', htr', fun g hg => List.mem_cons_of_mem _ (hrest hg), ?_⟩
      intro y p hy hp
      obtain ⟨hmem, hopen, hnot, hin⟩ := hdel y p hy hp
      exact ⟨List.mem_cons_of_mem _ hmem, hopen, fun hacc => hnot (hsub hacc), hin⟩
    · obtain ⟨acc₁, hsub, hok, htr, hdel⟩ := onFrame_delivers h ht hturn
      simp only [SecureChannel.recv, hturn] at hrecv
      cases hrecv
      refine ⟨acc₁, hsub, hok, htr, fun g hg => List.mem_cons_of_mem _ hg, ?_⟩
      intro y p hy hp
      cases hy
      obtain ⟨hopen, hnot, hin⟩ := hdel p (by rw [← hp])
      exact ⟨List.mem_cons_self, hopen, hnot, hin⟩

/-- Any number of `recv` calls. -/
theorem recvs_deliver {c : SecureChannel params} {acc : Set Int} (h : c.RecvOk C tHash base)
    (ht : c.replay.Tracks acc) (n : Nat) (fs : List Bytes) :
    (∀ x ∈ (SecureChannel.recvs C n c fs).1, ∀ p, x.result = .ok p →
        x.frame ∈ fs ∧ Opens C tHash base x.frame p) ∧
      (deliveredSeqs (SecureChannel.recvs C n c fs).1).Nodup ∧
      ∀ s ∈ deliveredSeqs (SecureChannel.recvs C n c fs).1, (s : Int) ∉ acc := by
  induction n generalizing c acc fs with
  | zero => simp [SecureChannel.recvs, deliveredSeqs]
  | succ n ih =>
    rcases hr : c.recv C fs with ⟨c', _ | x, rest⟩
    · simp [SecureChannel.recvs, hr, deliveredSeqs]
    · obtain ⟨acc', hsub, hok, htr, hrest, hdel⟩ := recv_delivers h ht hr
      obtain ⟨hopen, hnd, hnew⟩ := ih hok htr rest
      have hout : (SecureChannel.recvs C (n + 1) c fs).1
          = x :: (SecureChannel.recvs C n c' rest).1 := by simp only [SecureChannel.recvs, hr]
      rw [hout]
      refine ⟨fun y hy p hp => ?_, ?_⟩
      · rcases List.mem_cons.mp hy with rfl | hy
        · obtain ⟨hmem, hop, _⟩ := hdel y p rfl hp
          exact ⟨hmem, hop⟩
        · obtain ⟨hmem, hop⟩ := hopen y hy p hp
          exact ⟨hrest hmem, hop⟩
      · cases hres : x.result with
        | error e =>
          have hskip : deliveredSeqs (x :: (SecureChannel.recvs C n c' rest).1)
              = deliveredSeqs (SecureChannel.recvs C n c' rest).1 := by
            simp [deliveredSeqs, hres]
          rw [hskip]
          exact ⟨hnd, fun s hs hacc => hnew s hs (hsub hacc)⟩
        | ok p =>
          obtain ⟨_, _, hnot, hin⟩ := hdel x p rfl hres
          have hkeep : deliveredSeqs (x :: (SecureChannel.recvs C n c' rest).1)
              = seqOf x.frame :: deliveredSeqs (SecureChannel.recvs C n c' rest).1 := by
            simp [deliveredSeqs, hres]
          rw [hkeep, List.nodup_cons]
          refine ⟨⟨fun hmem => hnew _ hmem hin, hnd⟩, fun s hs => ?_⟩
          rcases List.mem_cons.mp hs with rfl | hs
          · exact hnot
          · exact fun hacc => hnew s hs (hsub hacc)

/-! ## Back to the sender -/

theorem seqOf_lt (f : Bytes) : seqOf f < 2 ^ 64 := by
  have hlt := BigEndian.unpack_lt (f.take seqLen)
  have hlen : (f.take seqLen).length ≤ 8 := by simp [seqLen]
  calc seqOf f < 256 ^ (f.take seqLen).length := hlt
    _ ≤ 256 ^ 8 := Nat.pow_le_pow_right (by decide) hlen
    _ = 2 ^ 64 := by decide

theorem nonce_inj {s t : Nat} (hs : s < 2 ^ 64) (ht : t < 2 ^ 64) (h : nonce s = nonce t) : s = t := by
  have hpack : BigEndian.pack 8 s = BigEndian.pack 8 t := List.append_cancel_left h
  exact BigEndian.pack_inj (by omega) (by omega) hpack

/-- A frame that opens as something the sender encrypted carries what the
sender successfully sent under that number. -/
theorem opens_sent {c : SecureChannel params} {calls : List SendCall} {arrivals : List Bytes}
    {f p : Bytes} (ideal : IdealAead C (SecureChannel.chainKey C tHash base) (produced C c calls) arrivals)
    (hf : f ∈ arrivals) (hopen : Opens C tHash base f p) : (seqOf f, p) ∈ sent C c calls := by
  obtain ⟨hmax, hmin, epoch, hdec⟩ := hopen
  obtain ⟨s, hs, hseal⟩ := List.mem_filterMap.mp (ideal f hf epoch _ _ p hdec)
  have hrange : ¬ s.seq C ≥ 2 ^ 64 := by
    intro hge
    rw [SendStep.sealing, if_pos hge] at hseal
    cases hseal
  simp only [SendStep.sealing, if_neg hrange, Option.some.injEq, SecureChannel.sealing,
    Sealing.mk.injEq] at hseal
  obtain ⟨_, hnonce, _, hplain, hcipher⟩ := hseal
  have hseq : s.seq C = seqOf f :=
    nonce_inj (Nat.lt_of_not_ge hrange) (seqOf_lt f) hnonce
  refine List.mem_filterMap.mpr ⟨s, hs, ?_⟩
  rcases SecureChannel.send_cases (C := C) s.before s.call with ⟨e, _, hover | hlong⟩ |
      ⟨_, frame, _, _, heq⟩
  · exact absurd hover hrange
  · -- the refused frame is as long as the one that arrived
    exfalso
    have hlen : (f.drop seqLen).length = f.length - 8 := by simp [seqLen]
    simp only [SecureChannel.sealing] at hlong
    rw [List.length_append, BigEndian.length_pack, hcipher, hlen] at hlong
    simp only [seqLen] at hmin
    omega
  · simp [SendStep.delivery, heq, hseq, hplain]

/-- **Only genuine payloads, each at most once.** Whatever arrives, every
payload a `recv` call returns is the plaintext that was successfully sent
under the sequence number its frame carries, no number is used for two
successful sends, and none is delivered twice. -/
theorem delivers_genuine_once (C : Crypto) (params : ChannelParams) (key key' tHash : Bytes)
    (now now' : Rat) (calls : List SendCall) (arrivals : List Bytes) (n : Nat)
    (ideal : IdealAead C (SecureChannel.chainKey C tHash key)
      (produced C (.init params key key' tHash now) calls) arrivals) :
    let out := (SecureChannel.recvs C n (.init params key' key tHash now') arrivals).1
    (∀ x ∈ out, ∀ p, x.result = .ok p →
      (seqOf x.frame, p) ∈ sent C (.init params key key' tHash now) calls) ∧
    ((sent C (.init params key key' tHash now) calls).map Prod.fst).Nodup ∧
    (deliveredSeqs out).Nodup := by
  intro out
  have hrecv := SecureChannel.recvOk_init (C := C) params key' key tHash now'
  have hsend := SecureChannel.sendOk_init (C := C) params key key' tHash now
  obtain ⟨hopen, hnd, _⟩ := recvs_deliver hrecv (ReplayWindow.tracks_init _) n arrivals
  refine ⟨fun x hx p hp => ?_, ?_, hnd⟩
  · obtain ⟨hmem, hop⟩ := hopen x hx p hp
    exact opens_sent ideal hmem hop
  · rw [List.nodup_iff_pairwise_ne, List.pairwise_map]
    exact (sent_increasing hsend calls).2.imp (fun hlt => Nat.ne_of_lt hlt)

/-- A cipher that opens one sealing and nothing else. -/
def Crypto.opening (s : Sealing) : Crypto where
  sha256 := id
  hkdf := fun _ _ _ ikm => 0 :: ikm
  encrypt := fun _ _ data _ => data ++ List.replicate 16 0
  decrypt := fun key n data aad =>
    if key = s.key ∧ n = s.nonce ∧ aad = s.aad ∧ data = s.ciphertext then some s.plaintext else none
  ephPublic := id
  exchange := fun _ _ => none
  idPublic := id
  sign := fun _ _ => []
  verify := fun _ _ _ => false

/-- One payload sent, and the frame delivered between a forgery and a replay. -/
theorem delivers_genuine_once_replayed :
    let s : Sealing := ⟨[1], nonce 0, BigEndian.pack 8 0, [7], [7] ++ List.replicate 16 0⟩
    let params : ChannelParams := ⟨4, by decide, 100, by decide, 0, 1⟩
    let genuine := BigEndian.pack 8 0 ++ s.ciphertext
    let forged := BigEndian.pack 8 3 ++ s.ciphertext
    let out := (SecureChannel.recvs (.opening s) 3 (.init params [2] [1] [] 0)
      [forged, genuine, genuine]).1
    deliveredSeqs out = [0] ∧ out.map Received.frame = [forged, genuine] ∧
      (deliveredSeqs out).Nodup := by
  intro s params genuine forged out
  have ideal : IdealAead (.opening s) (SecureChannel.chainKey (.opening s) [] [1])
      (produced (.opening s) (.init params [1] [2] [] 0) [⟨[7], 0, 0⟩]) [forged, genuine, genuine] := by
    intro f hf epoch n aad p hdec
    simp only [Crypto.opening] at hdec
    split at hdec
    · rename_i hs
      obtain ⟨hk, hn, ha, hd⟩ := hs
      have hp : s.plaintext = p := Option.some.inj hdec
      rw [show SecureChannel.chainKey (.opening s) [] [1] epoch = s.key from hk, hn, ha, hd, ← hp]
      decide
    · cases hdec
  exact ⟨by decide, by decide,
    (delivers_genuine_once (.opening s) params [1] [2] [] 0 0 [⟨[7], 0, 0⟩]
      [forged, genuine, genuine] 3 ideal).2.2⟩

end Memnode.Security
