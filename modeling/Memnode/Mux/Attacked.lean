/-
Memnode.Mux.Attacked — a link whose bytes an attacker writes.

The ends are those of `Mux.Link`; the network now hands the right end
any bytes at any time: what the left end wrote, parts of it, copies,
other orders, or bytes of the attacker's own. The cipher is ideal in the
sense of `Security.Delivery`: a frame that the right end read opens under
a key of this direction only if the left end sealed it. A `Tapped` link
keeps what that assumption is about, the sealings of the left end and
the frames the right end read.

  §1 the left end: every sealing belongs to a written message and its
     number, or its frame was refused (`Seals`);
  §2 the right end: every dispatched message came out of a frame that
     opened, each under a number of its own (`Hears`);
  §3 so the dispatched messages are written ones, each at most once
     (`attacked_link_genuine`).
-/
import Memnode.Mux.Link
import Memnode.Security.Delivery

set_option linter.unusedSectionVars false

namespace Memnode.Mux

open Lib Security

variable {params : ChannelParams} {C : Crypto} {P : Packer} {tHash base : Bytes}

/-! ## §1 What the left end seals -/

/-- The `encrypt` call an act makes. -/
def End.sealing (C : Crypto) (P : Packer) (x : End params) : Act → Option Sealing
  | .transmit checkedAt rekeyedAt =>
      match x.mux.hand, x.flushed with
      | some (_, m), false =>
          match m.encode P with
          | none => none
          | some raw =>
              let c := x.channel.prepare C ⟨raw, checkedAt, rekeyedAt⟩
              if c.sendSeq ≥ 2 ^ 64 then none else some (c.sealing C raw)
      | _, _ => none
  | _ => none

/-- The frame of the sealing is over the limit. -/
def Refused (e : Sealing) : Prop := Config.maxFrameSize < seqLen + e.ciphertext.length

/-- The `i`-th written message was sealed under number `n` as `e`. -/
structure SealedAs (P : Packer) (written : List (Int × Message)) (numbers : List Nat) (e : Sealing)
    (i n : Nat) (m : Message) : Prop where
  number : numbers[i]? = some n
  message : ∃ s, written[i]? = some (s, m)
  encoded : m.encode P = some e.plaintext
  range : n < 2 ^ 64
  nonce : e.nonce = Security.nonce n

theorem SealedAs.append {written : List (Int × Message)} {numbers : List Nat} {e : Sealing} {i n : Nat}
    {m : Message} (h : SealedAs P written numbers e i n m) (sm : Int × Message) (k : Nat) :
    SealedAs P (written ++ [sm]) (numbers ++ [k]) e i n m := by
  obtain ⟨s, hs⟩ := h.message
  have hi := (List.getElem?_eq_some_iff.mp h.number).1
  have hi' := (List.getElem?_eq_some_iff.mp hs).1
  exact ⟨by rw [List.getElem?_append_left hi]; exact h.number,
    ⟨s, by rw [List.getElem?_append_left hi']; exact hs⟩, h.encoded, h.range, h.nonce⟩

/-- The sealings of an end, and the numbers of its written messages. -/
structure Seals (C : Crypto) (P : Packer) (tHash base : Bytes) (x : End params) (log : List Sealing)
    (numbers : List Nat) : Prop where
  ready : x.mux.writer ≠ .ended → x.ahead.SendOk C tHash base
  length : numbers.length = x.written.length
  increasing : numbers.Pairwise (· < ·)
  below : x.mux.writer ≠ .ended → ∀ n ∈ numbers, n < x.ahead.sendSeq
  logged : ∀ e ∈ log, Refused e ∨ ∃ i n m, SealedAs P x.written numbers e i n m

theorem SendOk.congr {c c' : SecureChannel params} (h : c.SendOk C tHash base)
    (hc : c'.sendHalf = c.sendHalf) : c'.SendOk C tHash base := by
  simp only [SecureChannel.sendHalf, SecureChannel.mk.injEq, true_and, and_true] at hc
  obtain ⟨hhash, hkey, hseq, hepoch, -, -⟩ := hc
  exact ⟨hhash.trans h.hash, by rw [hkey, hepoch]; exact h.key, by rw [hseq, hepoch]; exact h.low,
    by rw [hseq, hepoch]; exact h.high⟩

theorem Seals.congr {x x' : End params} {log : List Sealing} {numbers : List Nat}
    (h : Seals C P tHash base x log numbers)
    (hwriter : x'.mux.writer ≠ .ended → x.mux.writer ≠ .ended ∧ x'.ahead.sendHalf = x.ahead.sendHalf)
    (hwritten : x'.written = x.written) : Seals C P tHash base x' log numbers where
  ready := fun hne => SendOk.congr (h.ready (hwriter hne).1) (hwriter hne).2
  length := by
    rw [hwritten]
    exact h.length
  increasing := h.increasing
  below := by
    intro hne n hn
    have hseq : x'.ahead.sendHalf.sendSeq = x.ahead.sendHalf.sendSeq := by rw [(hwriter hne).2]
    show n < x'.ahead.sendHalf.sendSeq
    rw [hseq]
    exact h.below (hwriter hne).1 n hn
  logged := by
    rw [hwritten]
    exact h.logged

/-- A refused frame is logged, and nothing more is written. -/
theorem Seals.refused {x : End params} {log : List Sealing} {numbers : List Nat} {e : Sealing}
    (h : Seals C P tHash base x log numbers) (he : Refused e) :
    Seals C P tHash base x (log ++ [e]) numbers :=
  ⟨h.ready, h.length, h.increasing, h.below, fun e' he' => by
    rcases List.mem_append.mp he' with he' | he'
    · exact h.logged e' he'
    · exact .inl (List.mem_singleton.mp he' ▸ he)⟩

/-- An act that seals nothing. -/
theorem Seals.quiet {x : End params} {log : List Sealing} {numbers : List Nat} {o : Option Sealing}
    (h : Seals C P tHash base x log numbers) (ho : o = none) :
    ∃ numbers', Seals C P tHash base x (log ++ o.toList) numbers' :=
  ⟨numbers, by simpa [ho] using h⟩

theorem End.sealing_transmit {x : End params} {t t' : Rat} {e : Sealing}
    (h : x.sealing C P (.transmit t t') = some e) :
    ∃ s m raw, x.mux.hand = some (s, m) ∧ m.encode P = some raw ∧
      (x.channel.prepare C ⟨raw, t, t'⟩).sendSeq < 2 ^ 64 ∧
      e = (x.channel.prepare C ⟨raw, t, t'⟩).sealing C raw := by
  simp only [End.sealing] at h
  split at h
  · rename_i s m hhand _
    split at h
    · cases h
    · rename_i raw hraw
      split at h
      · cases h
      · rename_i hseq
        cases h
        exact ⟨s, m, raw, hhand, hraw, Nat.lt_of_not_ge hseq, rfl⟩
  · cases h

/-- A written message is sealed under a number above all others. -/
theorem Seals.transmit {x : End params} {log : List Sealing} {numbers : List Nat}
    (h : Seals C P tHash base x log numbers) {t t' : Rat} {s : Int} {m : Message} {raw frame : Bytes}
    (hhand : x.mux.hand = some (s, m)) (hflushed : x.flushed = false) (hraw : m.encode P = some raw)
    (hsend : (x.channel.send C ⟨raw, t, t'⟩).2 = .ok frame) :
    ∃ numbers', Seals C P tHash base
      { x with
        channel := x.channel.prepare C ⟨raw, t, t'⟩
        flushed := true
        written := x.written ++ [(s, m)] }
      (log ++ (x.sealing C P (.transmit t t')).toList) numbers' := by
  have hne := writes_of_hand hhand
  have hahead : x.ahead = x.channel := by simp [End.ahead, hflushed]
  have hok := h.ready hne
  have hbelow := h.below hne
  rw [hahead] at hok hbelow
  obtain ⟨-, -, -, hmono, -⟩ := SecureChannel.prepare_spec hok ⟨raw, t, t'⟩
  obtain ⟨hseq, -, -, heq⟩ := SecureChannel.send_ok hsend
  have hnext := hok.send ⟨raw, t, t'⟩
  rw [heq] at hnext
  have hseal : x.sealing C P (.transmit t t')
      = some ((x.channel.prepare C ⟨raw, t, t'⟩).sealing C raw) := by
    simp only [End.sealing, hhand, hflushed, hraw, if_neg (Nat.not_le_of_lt hseq)]
  rw [hseal]
  generalize x.channel.prepare C ⟨raw, t, t'⟩ = p at hmono hnext hseq
  refine ⟨numbers ++ [p.sendSeq], fun _ => by simpa [End.ahead] using hnext, by simp [h.length], ?_, ?_,
    ?_⟩
  · refine List.pairwise_append.mpr ⟨h.increasing, by simp, fun n hn k hk => ?_⟩
    rw [List.mem_singleton.mp hk]
    exact (hbelow n hn).trans_le hmono
  · intro _ n hn
    show n < (if true = true then { p with sendSeq := p.sendSeq + 1 } else p).sendSeq
    rcases List.mem_append.mp hn with hn | hn
    · exact Nat.lt_succ_of_lt ((hbelow n hn).trans_le hmono)
    · rw [List.mem_singleton.mp hn]
      exact Nat.lt_succ_self _
  · intro e he
    rcases List.mem_append.mp he with he | he
    · refine (h.logged e he).imp_right ?_
      rintro ⟨i, n, m', hs⟩
      exact ⟨i, n, m', hs.append _ _⟩
    · simp only [Option.toList_some, List.mem_singleton] at he
      subst he
      refine .inr ⟨numbers.length, p.sendSeq, m, by simp, ⟨s, ?_⟩, hraw, hseq, rfl⟩
      rw [h.length]
      simp

/-- An act of the left end. -/
theorem Seals.act {x : End params} {log : List Sealing} {numbers : List Nat} {inbound : Bytes} {a : Act}
    {r : Acted params} (h : Seals C P tHash base x log numbers) (hr : Does C P x inbound a r) :
    ∃ numbers', Seals C P tHash base r.after (log ++ (x.sealing C P a).toList) numbers' := by
  have hold : r.out = [] → Seals C P tHash base r.after log numbers :=
    fun hout => h.congr (hr.silent hout).2 (hr.silent hout).1
  cases hr with
  | transmits t t' s m raw frame hhand hflushed hraw hsend => exact h.transmit hhand hflushed hraw hsend
  | fails _ c flushed s hc hstep ha =>
    cases hseal : x.sealing C P a with
    | none => exact (hold rfl).quiet rfl
    | some e =>
      refine ⟨numbers, (hold rfl).refused ?_⟩
      -- `send` raised although it sealed, so the frame was too long
      rcases ha with rfl | ⟨t, t', rfl, hraise⟩
      · cases hseal
      · obtain ⟨s', m, raw, hhand, hraw, hseq, rfl⟩ := End.sealing_transmit hseal
        obtain ⟨e, he⟩ := hraise s' m raw hhand hraw
        rcases SecureChannel.send_cases (C := C) x.channel ⟨raw, t, t'⟩ with ⟨_, _, hover | hlong⟩ |
            ⟨_, f, _, _, heq⟩
        · exact absurd hover (Nat.not_le_of_lt hseq)
        · rw [List.length_append, BigEndian.length_pack] at hlong
          exact hlong
        · rw [heq] at he
          cases he
  | stops _ c rest s hc hstep ha =>
    refine (hold rfl).quiet ?_
    rcases ha with rfl | rfl <;> rfl
  | _ => exact (hold rfl).quiet rfl

/-! ## §2 What the right end hears -/

/-- The frame an act reads. -/
def End.reads (y : End params) (inbound : Bytes) : Act → Option Bytes
  | .arrive =>
      match y.reader, Frames.readFrame Config.maxFrameSize inbound with
      | .waiting, (.ok frame, _) => some frame
      | _, _ => none
  | _ => none

/-- The frames behind the dispatched messages, with their plaintexts. -/
structure Hears (C : Crypto) (P : Packer) (tHash base : Bytes) (y : End params) (read : List Bytes)
    (heard : List (Bytes × Bytes)) : Prop where
  dispatched : heard.map (fun fp => Message.decode P fp.2) = y.dispatched.map some
  opened : ∀ fp ∈ heard, fp.1 ∈ read ∧ Opens C tHash base fp.1 fp.2
  distinct : (heard.map (fun fp => seqOf fp.1)).Nodup
  window : y.reader ≠ .ended → ∃ acc, y.channel.RecvOk C tHash base ∧ y.channel.replay.Tracks acc ∧
    ∀ fp ∈ heard, (seqOf fp.1 : Int) ∈ acc

theorem RecvOk.congr {c c' : SecureChannel params} (h : c.RecvOk C tHash base)
    (hc : c'.recvHalf = c.recvHalf) : c'.RecvOk C tHash base ∧ c'.replay = c.replay := by
  simp only [SecureChannel.recvHalf, SecureChannel.mk.injEq, true_and] at hc
  obtain ⟨hhash, hkey, hepoch, hreplay, -, -⟩ := hc
  exact ⟨⟨hhash.trans h.hash, by rw [hkey, hepoch]; exact h.key⟩, hreplay⟩

/-- The sending side of the right end, and a reader that stops. -/
theorem Hears.quiet {y y' : End params} {read : List Bytes} {heard : List (Bytes × Bytes)}
    (h : Hears C P tHash base y read heard) (o : Option Bytes) (hdispatched : y'.dispatched = y.dispatched)
    (hreader : y'.reader ≠ .ended →
      y.reader ≠ .ended ∧ y'.channel.recvHalf = y.channel.recvHalf) :
    ∃ heard', Hears C P tHash base y' (read ++ o.toList) heard' := by
  refine ⟨heard, by rw [hdispatched]; exact h.dispatched, fun fp hfp => ?_, h.distinct, fun hne => ?_⟩
  · exact ⟨List.mem_append_left _ (h.opened fp hfp).1, (h.opened fp hfp).2⟩
  · obtain ⟨acc, hok, htracks, hacc⟩ := h.window (hreader hne).1
    obtain ⟨hok', hreplay⟩ := RecvOk.congr hok (hreader hne).2
    exact ⟨acc, hok', by rw [hreplay]; exact htracks, hacc⟩

/-- An act of the right end. -/
theorem Hears.act {y : End params} {read : List Bytes} {heard : List (Bytes × Bytes)} {inbound : Bytes}
    {a : Act} {r : Acted params} (h : Hears C P tHash base y read heard) (hr : Does C P y inbound a r) :
    ∃ heard', Hears C P tHash base r.after (read ++ (y.reads inbound a).toList) heard' := by
  cases hr with
  | muxes | cancels | drains => exact h.quiet _ rfl (fun hne => ⟨hne, rfl⟩)
  | fails _ c flushed s hc => exact h.quiet _ rfl (fun hne => ⟨hne, hc⟩)
  | transmits => exact h.quiet _ rfl (fun hne => ⟨hne, SecureChannel.recvHalf_prepare y.channel _⟩)
  | handles hw => exact h.quiet _ rfl (fun _ => ⟨by simp [hw], rfl⟩)
  | stops => exact h.quiet _ rfl (fun hne => absurd rfl hne)
  | drops frame rest c hw hread hturn =>
    obtain ⟨acc, hok, htracks, hacc⟩ := h.window (by simp [hw])
    obtain ⟨acc', hsub, hok', htracks', -⟩ := onFrame_delivers hok htracks hturn
    refine ⟨heard, h.dispatched, fun fp hfp => ?_, h.distinct, fun _ => ?_⟩
    · exact ⟨List.mem_append_left _ (h.opened fp hfp).1, (h.opened fp hfp).2⟩
    · exact ⟨acc', hok', htracks', fun fp hfp => hsub (hacc fp hfp)⟩
  | hears frame rest plaintext c m hw hread hturn hdec =>
    obtain ⟨acc, hok, htracks, hacc⟩ := h.window (by simp [hw])
    obtain ⟨acc', hsub, hok', htracks', hdel⟩ := onFrame_delivers hok htracks hturn
    obtain ⟨hopens, hnew, hin⟩ := hdel plaintext rfl
    have hreads : y.reads inbound .arrive = some frame := by simp [End.reads, hw, hread]
    refine ⟨heard ++ [(frame, plaintext)], by simp [h.dispatched, hdec], fun fp hfp => ?_, ?_,
      fun _ => ⟨acc', hok', htracks', fun fp hfp => ?_⟩⟩
    · rcases List.mem_append.mp hfp with hfp | hfp
      · exact ⟨List.mem_append_left _ (h.opened fp hfp).1, (h.opened fp hfp).2⟩
      · rw [List.mem_singleton.mp hfp, hreads]
        exact ⟨by simp, hopens⟩
    · rw [List.map_append, List.nodup_append]
      refine ⟨h.distinct, by simp, fun n hn k hk => ?_⟩
      obtain ⟨fp, hfp, rfl⟩ := List.mem_map.mp hn
      simp only [List.map_cons, List.map_nil, List.mem_singleton] at hk
      rintro heq
      exact hnew (by rw [← hk, ← heq]; exact hacc fp hfp)
    · rcases List.mem_append.mp hfp with hfp | hfp
      · exact hsub (hacc fp hfp)
      · rw [List.mem_singleton.mp hfp]
        exact hin

/-! ## §3 The attacked link -/

/-- A link with the sealings of its left end and the frames its right end read. -/
structure Tapped (params : ChannelParams) where
  link : Link params
  sealed : List Sealing
  read : List Bytes

namespace Tapped

def init (params : ChannelParams) (key key' tHash : Bytes) (now now' : Rat)
    (maxQueued maxQueued' : Nat) : Tapped params :=
  ⟨.init params key key' tHash now now' maxQueued maxQueued', [], []⟩

/-- One act of one end, or the attacker's. -/
inductive Step (C : Crypto) (P : Packer) : Tapped params → Tapped params → Prop where
  | left (t : Tapped params) (a : Act) (r : Acted params) :
      t.link.left.act C P t.link.toLeft a = some r →
      Step C P t ⟨⟨r.after, t.link.right, t.link.toRight ++ r.out, r.unread⟩,
        t.sealed ++ (t.link.left.sealing C P a).toList, t.read⟩
  | right (t : Tapped params) (a : Act) (r : Acted params) :
      t.link.right.act C P t.link.toRight a = some r →
      Step C P t ⟨⟨t.link.left, r.after, r.unread, t.link.toLeft ++ r.out⟩, t.sealed,
        t.read ++ (t.link.right.reads t.link.toRight a).toList⟩
  /-- the attacker puts any bytes in place of those on the way -/
  | tamper (t : Tapped params) (toRight toLeft : Bytes) :
      Step C P t ⟨⟨t.link.left, t.link.right, toRight, toLeft⟩, t.sealed, t.read⟩

def Reachable (C : Crypto) (P : Packer) (start t : Tapped params) : Prop :=
  Relation.ReflTransGen (Step C P) start t

/-- What holds of the two ends, whatever the attacker does. -/
theorem Reachable.ends {key key' tHash : Bytes} {now now' : Rat} {maxQueued maxQueued' : Nat}
    {t : Tapped params}
    (h : Reachable C P (.init params key key' tHash now now' maxQueued maxQueued') t) :
    Sends t.link.left ∧ (∃ numbers, Seals C P tHash key t.link.left t.sealed numbers) ∧
      ∃ heard, Hears C P tHash key t.link.right t.read heard := by
  induction h with
  | refl =>
    refine ⟨sends_init _ _, ⟨[], fun _ => ?_, rfl, .nil, by simp, by simp [init]⟩, [], rfl, by simp,
      .nil, fun _ => ⟨∅, ?_, ReplayWindow.tracks_init _, by simp⟩⟩
    · exact SecureChannel.sendOk_init params key key' tHash now
    · exact SecureChannel.recvOk_init params key' key tHash now'
  | tail _ hstep ih =>
    obtain ⟨hsends, ⟨numbers, hseals⟩, heard, hhears⟩ := ih
    cases hstep with
    | left a r hr =>
      have hdoes := End.act_cases hr
      exact ⟨hsends.act hdoes, hseals.act hdoes, heard, hhears⟩
    | right a r hr => exact ⟨hsends, ⟨numbers, hseals⟩, hhears.act (End.act_cases hr)⟩
    | tamper => exact ⟨hsends, ⟨numbers, hseals⟩, heard, hhears⟩

end Tapped

/-- The written messages behind a list of frames. -/
theorem exists_sources {written : List (Int × Message)} {numbers : List Nat}
    {heard : List (Bytes × Bytes)} {dispatched : List Message}
    (hd : heard.map (fun fp => Message.decode P fp.2) = dispatched.map some)
    (hsource : ∀ fp ∈ heard, ∃ (i : Nat) (s : Int) (m : Message), numbers[i]? = some (seqOf fp.1) ∧
      written[i]? = some (s, m) ∧ Message.decode P fp.2 = some m) :
    ∃ source : List Nat,
      source.map (fun i => numbers[i]?) = heard.map (fun fp => some (seqOf fp.1)) ∧
        List.Forall₂ (fun m i => ∃ s, written[i]? = some (s, m)) dispatched source := by
  induction heard generalizing dispatched with
  | nil =>
    have hnil : dispatched = [] := List.map_eq_nil_iff.mp hd.symm
    exact ⟨[], rfl, by rw [hnil]; exact .nil⟩
  | cons fp heard ih =>
    cases dispatched with
    | nil => simp at hd
    | cons m dispatched =>
      obtain ⟨hm, hd'⟩ : Message.decode P fp.2 = some m ∧
          heard.map (fun fp => Message.decode P fp.2) = dispatched.map some := by simpa using hd
      obtain ⟨source, hnumbers, hall⟩ :=
        ih hd' (fun fp' hfp' => hsource fp' (List.mem_cons_of_mem _ hfp'))
      obtain ⟨i, s, m', hnumber, hmessage, hdec⟩ := hsource fp List.mem_cons_self
      rw [hm] at hdec
      cases hdec
      exact ⟨i :: source, by simp [hnumber, hnumbers], .cons ⟨s, hmessage⟩ hall⟩

/-- **No forged message, none twice.** Whatever bytes an attacker hands
to either end, and whenever, every message dispatched at the right end is
one that the left end wrote, no two of them are the same written message,
and the messages written on a stream are the first of those queued there. -/
theorem attacked_link_genuine (C : Crypto) (P : Packer) (params : ChannelParams) (key key' tHash : Bytes)
    (now now' : Rat) (maxQueued maxQueued' : Nat) (t : Tapped params)
    (h : Tapped.Reachable C P (.init params key key' tHash now now' maxQueued maxQueued') t)
    (ideal : IdealAead C (SecureChannel.chainKey C tHash key) t.sealed t.read) :
    (∃ source : List Nat, source.Nodup ∧
      List.Forall₂ (fun m i => ∃ s, t.link.left.written[i]? = some (s, m)) t.link.right.dispatched
        source) ∧
    ∀ s, ofStream s t.link.left.written <+: ofStream s t.link.left.queued := by
  obtain ⟨hsends, ⟨numbers, hseals⟩, heard, hhears⟩ := h.ends
  refine ⟨?_, hsends.first⟩
  have hsource : ∀ fp ∈ heard, ∃ (i : Nat) (s : Int) (m : Message), numbers[i]? = some (seqOf fp.1) ∧
      t.link.left.written[i]? = some (s, m) ∧ Message.decode P fp.2 = some m := by
    rintro ⟨f, p⟩ hfp
    obtain ⟨hread, hmax, hmin, epoch, hdec⟩ := hhears.opened _ hfp
    rcases hseals.logged _ (ideal f hread epoch _ _ p hdec) with hrefused | ⟨i, n, m, hs⟩
    · -- a frame that was read is not over the limit
      simp only [Refused, List.length_drop, seqLen, aeadTagLen] at hrefused hmin hmax
      omega
    · obtain ⟨s, hs'⟩ := hs.message
      have hn : n = seqOf f := nonce_inj hs.range (seqOf_lt f) hs.nonce.symm
      exact ⟨i, s, m, hn ▸ hs.number, hs', Message.decode_encode hs.encoded⟩
  obtain ⟨source, hnumbers, hall⟩ := exists_sources hhears.dispatched hsource
  refine ⟨source, ?_, hall⟩
  have hnodup : (source.map (fun i => numbers[i]?)).Nodup := by
    have hsome : heard.map (fun fp => some (seqOf fp.1))
        = (heard.map (fun fp => seqOf fp.1)).map some := by simp
    rw [hnumbers, hsome]
    exact hhears.distinct.map (Option.some_injective _)
  exact hnodup.of_map

/-- The link after an act of one end, the same if it cannot happen now. -/
def Tapped.leftDoes (C : Crypto) (P : Packer) (t : Tapped params) (a : Act) : Tapped params :=
  match t.link.left.act C P t.link.toLeft a with
  | none => t
  | some r => ⟨⟨r.after, t.link.right, t.link.toRight ++ r.out, r.unread⟩,
      t.sealed ++ (t.link.left.sealing C P a).toList, t.read⟩

@[inherit_doc Tapped.leftDoes]
def Tapped.rightDoes (C : Crypto) (P : Packer) (t : Tapped params) (a : Act) : Tapped params :=
  match t.link.right.act C P t.link.toRight a with
  | none => t
  | some r => ⟨⟨t.link.left, r.after, r.unread, t.link.toLeft ++ r.out⟩, t.sealed,
      t.read ++ (t.link.right.reads t.link.toRight a).toList⟩

theorem Tapped.Reachable.leftDoes {start t : Tapped params} (h : Tapped.Reachable C P start t) (a : Act) :
    Tapped.Reachable C P start (t.leftDoes C P a) := by
  unfold Tapped.leftDoes
  split
  · exact h
  · rename_i r hr
    exact h.tail (.left t a r hr)

theorem Tapped.Reachable.rightDoes {start t : Tapped params} (h : Tapped.Reachable C P start t) (a : Act) :
    Tapped.Reachable C P start (t.rightDoes C P a) := by
  unfold Tapped.rightDoes
  split
  · exact h
  · rename_i r hr
    exact h.tail (.right t a r hr)

/-- A ping whose frame the attacker doubles: the copy is dropped. -/
theorem attacked_link_genuine_replayed :
    let params : ChannelParams := ⟨4, by decide, 100, by decide, 0, 1⟩
    let raw := (Message.encode .msgpack ⟨.ping, .map []⟩).getD []
    let e : Sealing := ⟨[1], nonce 0, BigEndian.pack 8 0, raw, raw ++ List.replicate 16 0⟩
    ∃ t : Tapped params, Tapped.Reachable (.opening e) .msgpack (.init params [1] [2] [] 0 0 2 2) t ∧
      t.link.right.dispatched.map Message.type = [.ping] ∧ t.link.right.channel.replaysDropped = 1 ∧
      ∃ source : List Nat, source.Nodup ∧
        List.Forall₂ (fun m i => ∃ s, t.link.left.written[i]? = some (s, m))
          t.link.right.dispatched source := by
  intro params raw e
  have hstart : Tapped.Reachable (.opening e) .msgpack (.init params [1] [2] [] 0 0 2 2)
      (.init params [1] [2] [] 0 0 2 2) := .refl
  have hsent := ((hstart.leftDoes (.mux (.send 0 ⟨.ping, .map []⟩))).leftDoes (.mux .run)).leftDoes
    (.transmit 0 0)
  have hdoubled : Tapped.Reachable (.opening e) .msgpack (.init params [1] [2] [] 0 0 2 2) _ :=
    hsent.tail (.tamper _ (Frames.stream [BigEndian.pack 8 0 ++ e.ciphertext,
      BigEndian.pack 8 0 ++ e.ciphertext]) [])
  have h := ((hdoubled.rightDoes .arrive).rightDoes .handled).rightDoes .arrive
  refine ⟨_, h, by decide +kernel, by decide +kernel, (attacked_link_genuine (.opening e)
    .msgpack params [1] [2] [] 0 0 2 2 _ h ?_).1⟩
  intro f _ epoch n aad p hdec
  simp only [Crypto.opening] at hdec
  split at hdec
  · rename_i hs
    obtain ⟨hk, hn, ha, hd⟩ := hs
    have hp : e.plaintext = p := Option.some.inj hdec
    rw [show SecureChannel.chainKey (.opening e) [] [1] epoch = e.key from hk, hn, ha, hd, ← hp]
    decide +kernel
  · cases hdec

end Memnode.Mux
