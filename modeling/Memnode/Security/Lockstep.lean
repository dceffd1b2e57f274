/-
Memnode.Security.Lockstep — sender and receiver rekey together.

The receiver gets the sent frames in order, with copies of frames it has
already seen put in anywhere (`WithCopies`). `Lockstep` is what holds
between the two ends: same epoch on the same key chain, every accepted
number below the sender's next one, and every frame seen so far
accepted. `Lockstep.deliver` moves it over a sent frame, which is at
most one epoch ahead and above everything accepted; `Lockstep.drop`
moves it over a copy, which the replay window stops before the epoch is
looked at. The theorem is the induction over the arrivals.
-/
import Memnode.Security.Channel

set_option linter.unusedSectionVars false

namespace Memnode.Security

open Lib

variable {params : ChannelParams} {C : Crypto} {tHash base : Bytes}

/-- All `send` calls of a list, whatever each of them ends with. -/
def sendAll (C : Crypto) (c : SecureChannel params) :
    List SendCall → SecureChannel params × List (Except SendError Bytes)
  | [] => (c, [])
  | call :: rest =>
      let (c', r) := c.send C call
      let (c'', rs) := sendAll C c' rest
      (c'', r :: rs)

/-- The arrivals are the frames to come, in order, with copies of frames
already delivered in between. -/
inductive WithCopies : (seen frames arrivals : List Bytes) → Prop where
  | nil (seen : List Bytes) : WithCopies seen [] []
  | next {seen frames arrivals : List Bytes} (f : Bytes) :
      WithCopies (f :: seen) frames arrivals → WithCopies seen (f :: frames) (f :: arrivals)
  | copy {seen frames arrivals : List Bytes} (f : Bytes) : f ∈ seen →
      WithCopies seen frames arrivals → WithCopies seen frames (f :: arrivals)

/-- The receiver `b` has seen the frames `seen` and is level with the sender `a`. -/
structure Lockstep (C : Crypto) (tHash base : Bytes) (a b : SecureChannel params)
    (seen : List Bytes) : Prop where
  sendOk : a.SendOk C tHash base
  recvOk : b.RecvOk C tHash base
  epoch : b.recvEpoch = a.sendEpoch
  window : ∃ acc, b.replay.Tracks acc ∧ (∀ s ∈ acc, s < (a.sendSeq : Int)) ∧
    ∀ f ∈ seen, (seqOf f : Int) ∈ acc
  fits : ∀ f ∈ seen, f.length ≤ Config.maxFrameSize ∧ seqLen + aeadTagLen ≤ f.length

theorem lockstep_init (params : ChannelParams) (key key' tHash : Bytes) (now now' : Rat) :
    Lockstep C tHash key (.init params key key' tHash now) (.init params key' key tHash now') [] where
  sendOk := SecureChannel.sendOk_init params key key' tHash now
  recvOk := SecureChannel.recvOk_init params key' key tHash now'
  epoch := rfl
  window := ⟨∅, ReplayWindow.tracks_init _, by simp, by simp⟩
  fits := by simp

/-- A frame is its sequence number and its ciphertext. -/
theorem frame_parts {seq : Nat} (hseq : seq < 2 ^ 64) (ciphertext : Bytes) :
    (BigEndian.pack 8 seq ++ ciphertext).take seqLen = BigEndian.pack 8 seq ∧
      (BigEndian.pack 8 seq ++ ciphertext).drop seqLen = ciphertext ∧
      seqOf (BigEndian.pack 8 seq ++ ciphertext) = seq := by
  have htake : (BigEndian.pack 8 seq ++ ciphertext).take seqLen = BigEndian.pack 8 seq :=
    List.take_left' (BigEndian.length_pack 8 seq)
  refine ⟨htake, List.drop_left' (BigEndian.length_pack 8 seq), ?_⟩
  rw [seqOf, htake, BigEndian.unpack_pack_of_lt (by omega)]

/-- A copy of a delivered frame is dropped. -/
theorem Lockstep.drop {a b : SecureChannel params} {seen : List Bytes} {f : Bytes}
    (h : Lockstep C tHash base a b seen) (hf : f ∈ seen) :
    ∃ b', b.onFrame C f = (b', none) ∧ b'.replaysDropped = b.replaysDropped + 1 ∧
      Lockstep C tHash base a b' seen := by
  obtain ⟨acc, htracks, hbelow, hseen⟩ := h.window
  have hrej := htracks.reject (hseen f hf)
  obtain ⟨hmax, hmin⟩ := h.fits f hf
  rcases SecureChannel.onFrame_cases h.recvOk f with ⟨e, _, hbad⟩ | ⟨_, _, ⟨w, hw, heq⟩ |
      ⟨w, e, hw, _⟩ | ⟨w, c₁, hw, _⟩⟩
  · omega
  · rw [hrej] at hw
    cases hw
    exact ⟨_, heq, rfl, h.sendOk, ⟨h.recvOk.hash, h.recvOk.key⟩, h.epoch,
      ⟨acc, htracks, hbelow, hseen⟩, h.fits⟩
  · rw [hrej] at hw; cases hw
  · rw [hrej] at hw; cases hw

/-- The next sent frame is delivered, and the ends are level again. -/
theorem Lockstep.deliver {a b : SecureChannel params} {seen : List Bytes} {call : SendCall}
    {f : Bytes} (correct : C.AeadCorrect) (hskip : 1 ≤ params.maxEpochSkip)
    (h : Lockstep C tHash base a b seen) (hsend : (a.send C call).2 = .ok f) :
    ∃ b', b.onFrame C f = (b', some (.ok call.plaintext)) ∧
      b'.replaysDropped = b.replaysDropped ∧
      Lockstep C tHash base (a.send C call).1 b' (f :: seen) := by
  obtain ⟨acc, htracks, hbelow, hseen⟩ := h.window
  obtain ⟨_, hepoch, hkey, hmono, hlow, hhigh⟩ := SecureChannel.prepare_spec h.sendOk call
  have hsendOk := h.sendOk.send call
  rcases SecureChannel.send_cases (C := C) a call with ⟨e, heq, _⟩ | ⟨hseq, frame, hframe, hmax, heq⟩
  · rw [heq] at hsend; cases hsend
  rw [heq] at hsend hsendOk ⊢
  cases hsend
  generalize a.prepare C call = p at hframe hepoch hkey hmono hlow hhigh hseq hsendOk
  obtain ⟨htake, hdrop, hseqOf⟩ := frame_parts hseq (p.sealing C call.plaintext).ciphertext
  rw [← hframe] at htake hdrop hseqOf
  have hmin : seqLen + aeadTagLen ≤ f.length := by
    rw [hframe, List.length_append, BigEndian.length_pack]
    simp only [SecureChannel.sealing, correct.length_encrypt, seqLen, aeadTagLen]
    omega
  -- the window takes the number: it is above everything accepted
  have hnew : ∀ s ∈ acc, s < (seqOf f : Int) := by
    intro s hs
    have := hbelow s hs
    rw [hseqOf]
    omega
  have hacc := htracks.accept (by omega) (by rw [hseqOf]; exact_mod_cast hseq) hnew
  rcases SecureChannel.onFrame_cases h.recvOk f with ⟨e, _, hbad⟩ | ⟨_, _, ⟨w, hw, _⟩ |
      ⟨w, e, _, hbad, _⟩ | ⟨w, b', hw, hb', hok, hreplay, hdropped, hturn⟩⟩
  · omega
  · rw [hw] at hacc; cases hacc
  · -- the epoch is the receiver's or the next one
    rw [hseqOf, h.epoch] at hbad
    omega
  · have hdec : C.decrypt b'.recvKey (nonce (seqOf f)) (f.drop seqLen) (f.take seqLen)
        = some call.plaintext := by
      rw [hok.key, hb', hseqOf, htake, hdrop, ← hkey]
      exact correct.decrypt_encrypt _ _ _ _
    rw [hdec] at hturn
    refine ⟨b', hturn, hdropped, hsendOk, hok, by rw [hb', hseqOf, hepoch], ?_, ?_⟩
    · refine ⟨insert (seqOf f : Int) acc, by rw [hreplay]; exact htracks.checkAndUpdate hw, ?_, ?_⟩
      · rintro s (rfl | hs)
        · rw [hseqOf]; push_cast; omega
        · have := hbelow s hs
          push_cast
          omega
      · intro g hg
        rcases List.mem_cons.mp hg with rfl | hg
        · exact Set.mem_insert _ _
        · exact Set.mem_insert_of_mem _ (hseen g hg)
    · intro g hg
      rcases List.mem_cons.mp hg with rfl | hg
      · exact ⟨hmax, hmin⟩
      · exact h.fits g hg

/-- The induction over the arrivals, from any two ends that are level. -/
theorem Lockstep.run {a b : SecureChannel params} {seen frames arrivals : List Bytes}
    (correct : C.AeadCorrect) (hskip : 1 ≤ params.maxEpochSkip)
    (h : Lockstep C tHash base a b seen) (harrive : WithCopies seen frames arrivals)
    {calls : List SendCall} (hsent : (sendAll C a calls).2 = frames.map .ok) :
    (SecureChannel.recvs C (frames.length + 1) b arrivals).1.map Received.result
        = calls.map (fun call => .ok call.plaintext) ∧
      (SecureChannel.recvs C (frames.length + 1) b arrivals).2.2 = [] ∧
      (SecureChannel.recvs C (frames.length + 1) b arrivals).2.1.replaysDropped + frames.length
        = b.replaysDropped + arrivals.length ∧
      ∃ seen', Lockstep C tHash base (sendAll C a calls).1
        (SecureChannel.recvs C (frames.length + 1) b arrivals).2.1 seen' := by
  induction harrive generalizing a b calls with
  | nil seen =>
    have hnil : calls = [] := by
      cases calls with
      | nil => rfl
      | cons call rest => simp [sendAll] at hsent
    subst hnil
    exact ⟨rfl, rfl, rfl, seen, h⟩
  | @next seen frames arrivals f _ ih =>
    obtain ⟨call, rest, rfl⟩ : ∃ call rest, calls = call :: rest := by
      cases calls with
      | nil => simp [sendAll] at hsent
      | cons call rest => exact ⟨call, rest, rfl⟩
    obtain ⟨hf, hsent'⟩ : (a.send C call).2 = .ok f ∧
        (sendAll C (a.send C call).1 rest).2 = frames.map .ok := by
      simpa [sendAll] using hsent
    obtain ⟨b₁, hturn, hdropped, h₁⟩ := h.deliver correct hskip hf
    obtain ⟨hout, hrest, hcount, hend⟩ := ih h₁ hsent'
    rw [List.length_cons, SecureChannel.recvs_result C hturn]
    refine ⟨?_, hrest, ?_, hend⟩
    · simp only [List.map_cons, hout]
    · simp only [List.length_cons]
      omega
  | @copy seen frames arrivals f hf _ ih =>
    obtain ⟨b₁, hturn, hdropped, h₁⟩ := h.drop hf
    obtain ⟨hout, hrest, hcount, hend⟩ := ih h₁ hsent
    rw [SecureChannel.recvs_drop C hturn]
    refine ⟨hout, hrest, ?_, hend⟩
    rw [List.length_cons]
    omega

/-- **Lockstep rekeying.** However the clock runs, when the sent frames
arrive in order with copies of delivered frames put in anywhere, the
`recv` calls return the plaintexts in order and never raise (the call
after the last is left waiting), the receiver's epoch and key are the
sender's after the last frame, and each copy counts as one dropped replay. -/
theorem rekeys_in_lockstep (C : Crypto) (correct : C.AeadCorrect) (params : ChannelParams)
    (hskip : 1 ≤ params.maxEpochSkip) (key key' tHash : Bytes) (now now' : Rat)
    (calls : List SendCall) (frames arrivals : List Bytes)
    (hsent : (sendAll C (.init params key key' tHash now) calls).2 = frames.map .ok)
    (harrive : WithCopies [] frames arrivals) :
    let a := (sendAll C (.init params key key' tHash now) calls).1
    let received :=
      SecureChannel.recvs C (frames.length + 1) (.init params key' key tHash now') arrivals
    let b := received.2.1
    received.1.map Received.result = calls.map (fun call => .ok call.plaintext) ∧
      received.2.2 = [] ∧
      b.recvEpoch = a.sendEpoch ∧ b.recvKey = a.sendKey ∧
      b.replaysDropped + frames.length = arrivals.length := by
  obtain ⟨hout, hrest, hcount, seen, hend⟩ :=
    (lockstep_init params key key' tHash now now').run correct hskip harrive hsent
  intro a received b
  refine ⟨hout, hrest, hend.epoch, ?_, ?_⟩
  · rw [hend.recvOk.key, hend.sendOk.key, hend.epoch]
  · rw [hcount]
    exact Nat.zero_add _

/-- A cipher that sends the plaintext in the clear under a tag made from
the key, the nonce and the associated data. -/
def Crypto.tagging : Crypto where
  sha256 := id
  hkdf := fun _ _ _ ikm => 1 :: ikm
  encrypt := fun key n data aad => data ++ ((key ++ n ++ aad) ++ List.replicate 16 0).take 16
  decrypt := fun key n data aad =>
    if data.drop (data.length - 16) = ((key ++ n ++ aad) ++ List.replicate 16 0).take 16 then
      some (data.take (data.length - 16))
    else none
  ephPublic := id
  exchange := fun _ _ => none
  idPublic := id
  sign := fun _ _ => []
  verify := fun _ _ _ => false

theorem Crypto.tagging_aeadCorrect : Crypto.tagging.AeadCorrect := by
  have htag : ∀ key n aad : Bytes,
      (((key ++ n ++ aad) ++ List.replicate 16 0).take 16).length = 16 := by
    intro key n aad
    simp only [List.length_take, List.length_append, List.length_replicate]
    omega
  refine ⟨fun key n data aad => ?_, fun key n data aad => ?_⟩
  · have hlen : (data ++ ((key ++ n ++ aad) ++ List.replicate 16 0).take 16).length - 16
        = data.length := by rw [List.length_append, htag, Nat.add_sub_cancel]
    simp only [Crypto.tagging, hlen]
    rw [if_pos (List.drop_left' rfl), List.take_left' rfl]
  · simp only [Crypto.tagging, List.length_append, htag]

/-- Three sends, the second after a time-triggered jump from number 1 to
number 2, and two replays of the first frame. -/
theorem rekeys_in_lockstep_jump :
    let params : ChannelParams := ⟨1, by decide, 2, by decide, 900, 1⟩
    let calls : List SendCall := [⟨[7], 0, 0⟩, ⟨[8], 1000, 1000⟩, ⟨[9], 1001, 1001⟩]
    let frame := fun (key : Bytes) (seq : Nat) (data : Bytes) =>
      BigEndian.pack 8 seq ++ Crypto.tagging.encrypt key (nonce seq) data (BigEndian.pack 8 seq)
    let f := frame [1] 0 [7]
    let g := frame [1, 1] 2 [8]
    let h := frame [1, 1] 3 [9]
    (sendAll .tagging (.init params [1] [2] [] 0) calls).2 = [.ok f, .ok g, .ok h] ∧
      (SecureChannel.recvs .tagging 4 (.init params [2] [1] [] 0) [f, f, g, f, h]).1.map
        Received.result = [.ok [7], .ok [8], .ok [9]] := by
  intro params calls frame f g h
  have hsent : (sendAll .tagging (.init params [1] [2] [] 0) calls).2 = [f, g, h].map .ok := by
    decide +kernel
  have harrive : WithCopies [] [f, g, h] [f, f, g, f, h] :=
    .next f (.copy f (by simp) (.next g (.copy f (by simp) (.next h (.nil _)))))
  exact ⟨hsent, (rekeys_in_lockstep .tagging Crypto.tagging_aeadCorrect params (by decide) [1] [2] []
    0 0 calls _ _ hsent harrive).1⟩

end Memnode.Security
