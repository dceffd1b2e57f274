/-
Memnode.Replication.Bounds — how much a peer can make the reassembly
buffers hold.

The hub's peers send whatever they like. A header of a push is checked
before its buffer is opened, and every chunk is counted against the
checked size, so pushes are bounded in every reachable state
(`push_bounded`). A chunked reply opens its buffer without the check:
pulls are bounded in the runs whose headers would have passed it, and a
header that would not have is taken like any other (`pull_bounded`);
`pull_unbounded` is a peer that makes one buffer hold any number of
bytes.

  §1 which buffers a message leaves (`handled_buffers`);
  §2 pushes: each one, their number, their total;
  §3 pulls.
-/
import Memnode.Replication.Hub

namespace Memnode.Replication

open Lib Blocks

variable {K : Type} [DecidableEq K] {I : Interpreter K}

/-! ## §1 The buffers after a message -/

/-- A reply opens a buffer: it is the header of a chunked answer, and
`_gc_buffers` did not raise. -/
structure OpensPull (I : Interpreter K) (now : Rat) (c : Coordinator K) (msg : Message) (k : K)
    (f : Nat) : Prop extends PullHeader I c msg k f where
  collected : (gcBuffers I now c).2.2 = true

/-- The header of a push gets its buffer. -/
structure OpensPush (I : Interpreter K) (now : Rat) (c : Coordinator K) (msg : Message) (k : K) :
    Prop extends PushHeader I c msg k where
  collected : (gcBuffers I now c).2.2 = true
  room : (gcBuffers I now c).1.buffers.size < Config.maxInboundStreams

section Handled

variable {now : Rat} {c : Coordinator K} {peer : String} {msg : Message}

/-- The buffer is opened whatever size the header declares. -/
theorem OpensPull.handled {k : K} {f : Nat} (h : OpensPull I now c msg k f) (peer : String) :
    ∃ c' rs, gcBuffers I now c = (c', rs, true) ∧
      handleMessage I now c peer msg
        = ⟨{ c' with
              buffers := c'.buffers.set k (.new (.pull f) (totalSizeOf msg) peer now)
              pullFutures := c'.pullFutures.set k f
              pending := c'.pending.erase k },
            rs ++ [(f, .reply msg)], .idle⟩ := by
  obtain ⟨hheader, hok⟩ := h
  cases hgc : gcBuffers I now c with
  | mk c' r =>
    obtain ⟨rs, ok⟩ := r
    rw [hgc] at hok
    simp only at hok
    subst hok
    refine ⟨c', rs, rfl, ?_⟩
    rw [handleMessage_answers I now peer hheader.toAnswers]
    have hcond : msg.type = .blockData ∧ ((msg.get "chunked").getD .nil).truthy = true :=
      ⟨hheader.data, hheader.chunked⟩
    simp only [handleReply, if_pos hcond, hgc]
    rfl

/-- A buffer after a message was there before, has one more chunk within
the declared size, or is new. -/
theorem handled_buffer {k : K} {b : Buffer}
    (hb : (handleMessage I now c peer msg).coordinator.buffers.get k = some b) :
    c.buffers.get k = some b ∨
    (∃ b₀ chunk, ChunkFor I c msg k b₀ ∧ chunkOf msg = some chunk ∧
      (b₀.add chunk).overrun I ≠ some true ∧ b = b₀.add chunk) ∨
    (∃ f, OpensPull I now c msg k f ∧ b = .new (.pull f) (totalSizeOf msg) peer now) ∨
    (OpensPush I now c msg k ∧ b = .new (pushMode msg) (totalSizeOf msg) peer now) := by
  have herase : ∀ {k'}, (c.buffers.erase k').get k = some b → c.buffers.get k = some b := by
    intro k' hget
    rw [Dict.get_erase] at hget
    split at hget
    · cases hget
    · exact hget
  generalize hh : handleMessage I now c peer msg = h at hb
  have heffect : Effect I now c peer msg h := hh ▸ handleMessage_effect I now c peer msg
  cases heffect with
  | quiet next => exact Or.inl hb
  | collected _ hgc => exact Or.inl ((gcBuffers_collected hgc).of_get hb)
  | answered => exact Or.inl hb
  | openedPull hheader hgc =>
    simp only [Dict.get_set] at hb
    split at hb
    · rename_i hk
      rw [hk]
      exact Or.inr (Or.inr (Or.inl ⟨_, ⟨hheader, by rw [hgc]⟩, (Option.some.inj hb).symm⟩))
    · exact Or.inl ((gcBuffers_collected hgc).of_get hb)
  | openedPush hheader hgc hroom =>
    simp only [Dict.get_set] at hb
    split at hb
    · rename_i hk
      rw [hk]
      exact Or.inr (Or.inr (Or.inr ⟨⟨hheader, by rw [hgc], by rw [hgc]; exact hroom⟩,
        (Option.some.inj hb).symm⟩))
    · exact Or.inl ((gcBuffers_collected hgc).of_get hb)
  | ended => exact Or.inl (herase hb)
  | extended hf hchunk hover =>
    simp only [Handled.ended, Dict.get_set] at hb
    split at hb
    · rename_i hk
      rw [hk]
      refine Or.inr (Or.inl ⟨_, _, hf, hchunk, ?_, (Option.some.inj hb).symm⟩)
      intro htrue
      rcases hover with hnone | ⟨hfalse, _⟩
      · simp [hnone] at htrue
      · simp [hfalse] at htrue
    · exact Or.inl hb
  | overran =>
    rw [afterOverrun_coordinator] at hb
    exact Or.inl (herase hb)
  | completed =>
    rw [completeTransfer_coordinator] at hb
    exact Or.inl (herase hb)

/-- A property of buffers that the two kinds of new buffer have, and that
a chunk within the declared size keeps, is kept by every message. -/
theorem handled_buffers {P : K → Buffer → Prop} (hc : ∀ k b, c.buffers.get k = some b → P k b)
    (hpull : ∀ k f, OpensPull I now c msg k f → P k (.new (.pull f) (totalSizeOf msg) peer now))
    (hpush : ∀ k, PushHeader I c msg k → P k (.new (pushMode msg) (totalSizeOf msg) peer now))
    (hadd : ∀ k b chunk, ChunkFor I c msg k b → chunkOf msg = some chunk →
      (b.add chunk).overrun I ≠ some true → P k b → P k (b.add chunk)) :
    ∀ k b, (handleMessage I now c peer msg).coordinator.buffers.get k = some b → P k b := by
  intro k b hb
  rcases handled_buffer hb with hold | ⟨b₀, chunk, hf, hchunk, hover, rfl⟩ | ⟨f, hopens, rfl⟩ |
    ⟨hopens, rfl⟩
  · exact hc k b hold
  · exact hadd k b₀ chunk hf hchunk hover (hc k b₀ hf.buffer)
  · exact hpull k f hopens
  · exact hpush k hopens.toPushHeader

end Handled

namespace Hub

variable {hub hub' : Hub K} {e : Event K}

/-- `handled_buffers` along a run. -/
theorem Reachable.buffers {ok : Hub K → Event K → Prop} {P : Buffer → Prop}
    (hpull : ∀ {hub : Hub K} {peer msg now}, ok hub (.receive peer msg now) → ∀ k f,
      OpensPull I now hub.coordinator msg k f → P (.new (.pull f) (totalSizeOf msg) peer now))
    (hpush : ∀ {hub : Hub K} {peer msg now}, ok hub (.receive peer msg now) → ∀ k,
      PushHeader I hub.coordinator msg k → P (.new (pushMode msg) (totalSizeOf msg) peer now))
    (hadd : ∀ {b : Buffer} {chunk : Bytes}, (b.add chunk).overrun I ≠ some true → P b →
      P (b.add chunk)) (h : Reachable I ok hub) :
    ∀ k b, hub.coordinator.buffers.get k = some b → P b := by
  refine Reachable.invariant (I := I)
    (P := fun hub => ∀ k b, hub.coordinator.buffers.get k = some b → P b) ?_ ?_ h
  · intro hub hfresh k b hb
    simp [hfresh.coordinator, Coordinator.init] at hb
  · intro hub hub' e ih hok hmove
    rcases hmove.quiet with ⟨peer, msg, now, rfl, rfl⟩ | hquiet
    · exact handled_buffers (P := fun _ => P) ih (hpull hok) (hpush hok) (fun _ _ _ _ _ hover hb => hadd hover hb)
    · intro k b hb
      exact ih k b (hquiet.buffer_get hb)

end Hub

/-! ## §2 Pushes -/

/-- `buf.mode == "store"`. -/
def Buffer.isPush (b : Buffer) : Bool :=
  match b.mode with
  | .store _ _ => true
  | .pull _ => false

/-- `received` is the number of bytes in `parts`. -/
def Buffer.Counted (b : Buffer) : Prop := b.received = b.assemble.length

/-- The declared size is a number of bytes within `MAX_BLOCK_SIZE`, and
the bytes received are within the declared size. -/
def Buffer.Within (b : Buffer) : Prop :=
  ∃ n : Int, b.totalSize.asInt = some n ∧ (b.received : Int) ≤ n ∧ n ≤ Config.maxBlockSize

namespace Buffer

theorem counted_new (mode : Mode) (total : Value) (peer : String) (now : Rat) :
    (Buffer.new mode total peer now).Counted := rfl

theorem Counted.add {b : Buffer} (h : b.Counted) (chunk : Bytes) : (b.add chunk).Counted := by
  unfold Counted at *
  simp [Buffer.add, assemble, h]

theorem within_new {mode : Mode} {total : Value} {peer : String} {now : Rat}
    (h : acceptable total = true) : (Buffer.new mode total peer now).Within := by
  unfold acceptable at h
  split at h
  · cases h
  · rename_i n hn
    have hsize : 0 < n ∧ n ≤ Config.maxBlockSize := of_decide_eq_true h
    exact ⟨n, hn, Int.le_of_lt hsize.1, hsize.2⟩

omit [DecidableEq K] in
/-- The overrun test sees every chunk that exceeds an integer size. -/
theorem overrun_asInt {b : Buffer} {n : Int} (h : b.totalSize.asInt = some n) :
    b.overrun I = some (decide (n < b.received)) := by
  unfold overrun
  cases htotal : b.totalSize with
  | int i =>
    simp only [htotal, Value.asInt, Option.some.injEq] at h
    simp [h]
  | bool i =>
    simp only [htotal, Value.asInt, Option.some.injEq] at h
    subst h
    cases i <;> simp
  | _ => simp [htotal, Value.asInt] at h

omit [DecidableEq K] in
theorem Within.add {b : Buffer} {chunk : Bytes} (h : b.Within)
    (hover : (b.add chunk).overrun I ≠ some true) : (b.add chunk).Within := by
  obtain ⟨n, hn, _, hmax⟩ := h
  have hn' : (b.add chunk).totalSize.asInt = some n := hn
  refine ⟨n, hn', ?_, hmax⟩
  rw [overrun_asInt hn'] at hover
  simpa using hover

end Buffer

/-- The buffers of pushes. -/
def Coordinator.pushes (c : Coordinator K) : Nat :=
  c.buffers.sumBy (fun _ b => if b.isPush then 1 else 0)

/-- The payload bytes that pushes hold. -/
def Coordinator.pushBytes (c : Coordinator K) : Nat :=
  c.buffers.sumBy (fun _ b => if b.isPush then b.assemble.length else 0)

section Counting

variable {now : Rat} {c : Coordinator K} {peer : String} {msg : Message}

omit [DecidableEq K] in
theorem pushes_of_sublist {c c' : Coordinator K}
    (h : c'.buffers.entries.Sublist c.buffers.entries) : c'.pushes ≤ c.pushes :=
  Dict.sumBy_sublist h _

/-- Only a header that found room adds a push. -/
theorem handled_pushes (hc : c.pushes ≤ Config.maxInboundStreams) :
    (handleMessage I now c peer msg).coordinator.pushes ≤ Config.maxInboundStreams := by
  have hsub : ∀ {c' : Coordinator K}, c'.buffers.entries.Sublist c.buffers.entries →
      c'.pushes ≤ Config.maxInboundStreams :=
    fun h => Nat.le_trans (pushes_of_sublist h) hc
  have herase : ∀ k, (c.buffers.erase k).entries.Sublist c.buffers.entries :=
    fun k => List.filter_sublist
  generalize hh : handleMessage I now c peer msg = h
  have heffect : Effect I now c peer msg h := hh ▸ handleMessage_effect I now c peer msg
  cases heffect with
  | quiet next => exact hc
  | collected _ hgc => exact hsub (gcBuffers_collected hgc).entries
  | answered => exact hc
  | openedPull hheader hgc =>
    -- the new buffer is none of the counted ones
    exact Nat.le_trans (Dict.sumBy_set_le _ _ _ _) (hsub (gcBuffers_collected hgc).entries)
  | openedPush hheader hgc hroom =>
    rename_i k c' rs
    have hsize := Dict.sumBy_set_le c'.buffers k (.new (pushMode msg) (totalSizeOf msg) peer now)
      (fun _ _ => 1)
    rw [← Dict.size_eq_sumBy, ← Dict.size_eq_sumBy] at hsize
    refine Nat.le_trans (Dict.sumBy_le_sumBy (g := fun _ _ => 1) ?_) ?_
    · intro _ b _
      split <;> omega
    · rw [← Dict.size_eq_sumBy]
      exact Nat.le_trans hsize hroom
  | ended => exact hsub (herase _)
  | extended hf hchunk =>
    rename_i k b chunk _
    have hsum := Dict.sumBy_set_of_some hf.buffer (b.add chunk)
      (fun _ b => if b.isPush then 1 else 0)
    exact Nat.le_trans (Nat.le_of_eq (Nat.add_right_cancel hsum)) hc
  | overran =>
    rw [afterOverrun_coordinator]
    exact hsub (herase _)
  | completed =>
    rw [completeTransfer_coordinator]
    exact hsub (herase _)

end Counting

namespace Hub

variable {hub : Hub K}

theorem Reachable.pushes {ok : Hub K → Event K → Prop} (h : Reachable I ok hub) :
    hub.coordinator.pushes ≤ Config.maxInboundStreams := by
  refine Reachable.invariant (I := I)
    (P := fun hub => hub.coordinator.pushes ≤ Config.maxInboundStreams) ?_ ?_ h
  · intro hub hfresh
    rw [hfresh.coordinator]
    exact Nat.zero_le _
  · intro hub hub' e ih _ hmove
    rcases hmove.quiet with ⟨peer, msg, now, rfl, rfl⟩ | hquiet
    · exact handled_pushes ih
    · exact Nat.le_trans (pushes_of_sublist hquiet.buffers) ih

theorem Reachable.counted {ok : Hub K → Event K → Prop} (h : Reachable I ok hub) :
    ∀ k b, hub.coordinator.buffers.get k = some b → b.Counted :=
  h.buffers (fun _ _ _ _ => Buffer.counted_new ..) (fun _ _ _ => Buffer.counted_new ..)
    (fun _ hb => hb.add _)

theorem Reachable.pushWithin {ok : Hub K → Event K → Prop} (h : Reachable I ok hub) :
    ∀ k b, hub.coordinator.buffers.get k = some b → b.isPush = true → b.Within := by
  refine h.buffers (P := fun b => b.isPush = true → b.Within) ?_ ?_ ?_
  · intro _ _ _ _ _ k f _ hpush
    cases hpush
  · intro _ _ _ _ _ k hheader _
    exact Buffer.within_new hheader.size
  · intro b chunk hover hb hpush
    exact (hb hpush).add hover

/-- Pushes are bounded: there are at most `MAX_INBOUND_STREAMS` of them,
each counts its bytes and stays within a declared size within
`MAX_BLOCK_SIZE`, and their total is bounded by the product. -/
theorem push_bounded (h : Reachable I Anything hub) :
    hub.coordinator.pushes ≤ Config.maxInboundStreams ∧
      (∀ k b, hub.coordinator.buffers.get k = some b → b.isPush = true →
        b.received = b.assemble.length ∧ ∃ n : Int, b.totalSize.asInt = some n ∧
          (b.received : Int) ≤ n ∧ n ≤ Config.maxBlockSize) ∧
      hub.coordinator.pushBytes ≤ Config.maxInboundStreams * Config.maxBlockSize := by
  refine ⟨h.pushes, ?_, ?_⟩
  · intro k b hb hpush
    exact ⟨h.counted k b hb, h.pushWithin k b hb hpush⟩
  · have hbytes : hub.coordinator.pushBytes ≤
        hub.coordinator.buffers.sumBy (fun _ b => Config.maxBlockSize * if b.isPush then 1 else 0) := by
      refine Dict.sumBy_le_sumBy ?_
      intro k b hb
      split
      · rename_i hpush
        obtain ⟨n, _, hle, hmax⟩ := h.pushWithin k b hb hpush
        rw [← h.counted k b hb, Nat.mul_one]
        omega
      · exact Nat.zero_le _
    calc hub.coordinator.pushBytes
        ≤ Config.maxBlockSize * hub.coordinator.pushes := by
          rw [Coordinator.pushes, Dict.sumBy, ← List.sum_map_mul_left]
          exact hbytes
      _ ≤ Config.maxInboundStreams * Config.maxBlockSize := by
          rw [Nat.mul_comm]
          exact Nat.mul_le_mul_right _ h.pushes

/-- A push is open, and two bytes of it are in. -/
def pushing : List (Event (Option String ⊕ Int)) :=
  [.receive "p" (storeHeader "t" 3 .pinned .nil 1) 0,
    .receive "p" (chunkFrame (.str "t") 1 0 [1, 2] false) 0]

/-- A node with two stripes. -/
def twoStripes : Hub (Option String ⊕ Int) :=
  .init ⟨100, 2, Nat.two_pos, fun _ => 0⟩ ⟨2, Nat.two_pos, 2⟩

theorem push_bounded_pushing :
    ∃ hub, Reachable plainKeys Anything hub ∧ hub.coordinator.pushBytes = 2 ∧
      hub.coordinator.pushes ≤ Config.maxInboundStreams ∧
      hub.coordinator.pushBytes ≤ Config.maxInboundStreams * Config.maxBlockSize := by
  have hbytes : (twoStripes.run plainKeys pushing).map (fun hub => hub.coordinator.pushBytes)
      = some 2 := by decide +kernel
  obtain ⟨hub, hrun, hhub⟩ := Option.map_eq_some_iff.mp hbytes
  have hreach : Reachable plainKeys Anything hub := .run pushing (.start (fresh_init _ _)) hrun
  obtain ⟨hpushes, _, htotal⟩ := push_bounded hreach
  exact ⟨hub, hreach, hhub, hpushes, htotal⟩

end Hub

/-! ## §3 Pulls -/

namespace Hub

/-- A reply that opens a buffer declares a size that a push could declare. -/
def DeclaresWithin (I : Interpreter K) (hub : Hub K) : Event K → Prop
  | .receive _ msg now =>
      ∀ k f, OpensPull I now hub.coordinator msg k f → acceptable (totalSizeOf msg) = true
  | _ => True

variable {hub : Hub K}

theorem Reachable.within (h : Reachable I (DeclaresWithin I) hub) :
    ∀ k b, hub.coordinator.buffers.get k = some b → b.Within := by
  refine h.buffers ?_ ?_ ?_
  · intro _ _ _ _ hok k f hopens
    exact Buffer.within_new (hok k f hopens)
  · intro _ _ _ _ _ k hheader
    exact Buffer.within_new hheader.size
  · intro b chunk hover hb
    exact hb.add hover

/-- The collector of the call is then the future of that buffer. -/
theorem receive_openedPull (peer : String) {msg : Message} {now : Rat} {k : K} {f : Nat}
    (h : OpensPull I now hub.coordinator msg k f) :
    (hub.receive I peer msg now).coordinator.buffers.get k
        = some (.new (.pull f) (totalSizeOf msg) peer now) ∧
      (hub.receive I peer msg now).coordinator.pullFutures.get k = some f := by
  obtain ⟨c', rs, _, heq⟩ := h.handled peer
  unfold receive
  rw [heq]
  exact ⟨Dict.get_set_self .., Dict.get_set_self ..⟩

/-- Pulls are bounded as long as the headers that open them declare an
acceptable size; a header that declares another is not refused. -/
theorem pull_bounded (I : Interpreter K) :
    (∀ hub, Reachable I (DeclaresWithin I) hub → ∀ k b,
      hub.coordinator.buffers.get k = some b → b.isPush = false →
        b.assemble.length ≤ Config.maxBlockSize) ∧
    ∀ (hub : Hub K) peer msg now, ¬ hub.DeclaresWithin I (.receive peer msg now) →
      ∃ k f b, (hub.receive I peer msg now).coordinator.buffers.get k = some b ∧
        b.mode = .pull f ∧ acceptable b.totalSize = false ∧
        (hub.receive I peer msg now).coordinator.pullFutures.get k = some f := by
  constructor
  · intro hub h k b hb _
    have hcounted : b.received = b.assemble.length := h.counted k b hb
    obtain ⟨n, _, hle, hmax⟩ := h.within k b hb
    omega
  · intro hub peer msg now hdeclares
    simp only [DeclaresWithin, not_forall, Bool.not_eq_true] at hdeclares
    obtain ⟨k, f, hopens, hsize⟩ := hdeclares
    obtain ⟨hbuffer, hfuture⟩ := receive_openedPull peer hopens
    exact ⟨k, f, _, hbuffer, rfl, hsize, hfuture⟩

/-- A load of three bytes, of which two have come in. -/
theorem pull_bounded_filling :
    ∃ hub, Reachable plainKeys (DeclaresWithin plainKeys) hub ∧
      ∃ k b, hub.coordinator.buffers.get k = some b ∧ b.isPush = false ∧ b.assemble = [7, 8] ∧
        b.assemble.length ≤ Config.maxBlockSize := by
  have hrun : ∃ hub₁ hub₂ hub₃ hub₄,
      twoStripes.step plainKeys (.call "p" .load "r" "30.0") = some hub₁ ∧
      hub₁.step plainKeys (.out 0) = some hub₂ ∧
      hub₂.step plainKeys (.receive "p" (replyHeader (.str "r") 3 1) 0) = some hub₃ ∧
      hub₃.step plainKeys (.receive "p" (chunkFrame (.str "r") 1 0 [7, 8] false) 0) = some hub₄ ∧
      ∃ b, hub₄.coordinator.buffers.get (.inl (some "r")) = some b ∧ b.isPush = false ∧
        b.assemble = [7, 8] :=
    ⟨_, _, _, _, rfl, rfl, rfl, rfl, _, rfl, rfl, rfl⟩
  obtain ⟨hub₁, hub₂, hub₃, hub₄, h₁, h₂, h₃, h₄, b, hb, hpull, hdata⟩ := hrun
  have hcalled : Reachable plainKeys (DeclaresWithin plainKeys) hub₂ :=
    .step (e := .out 0) (.step (e := .call "p" .load "r" "30.0") (.start (fresh_init _ _)) trivial h₁)
      trivial h₂
  have hreach : Reachable plainKeys (DeclaresWithin plainKeys) hub₄ := by
    refine .step (.step hcalled ?_ h₃) ?_ h₄
    · exact fun _ _ _ => by decide
    · exact fun _ _ hopens => absurd hopens.data (by decide)
  exact ⟨hub₄, hreach, _, b, hb, hpull, hdata, (pull_bounded plainKeys).1 hub₄ hreach _ b hb hpull⟩

/-! ### A peer that does not stop -/

/-- A call that loads from `p`, and the header of its answer. -/
def answering (total : Nat) : List (Event (Option String ⊕ Int)) :=
  [.call "p" .load "r" "30.0", .out 0, .receive "p" (replyHeader (.str "r") total 1) 0]

/-- The buffer of the pull, while the peer can go on with it. -/
structure Pulling (hub : Hub K) (I : Interpreter K) (reqId : String) (total n : Nat) : Prop where
  reachable : Reachable I Anything hub
  idle : hub.handlers "p" = .idle
  buffer : ∃ b, hub.coordinator.buffers.get (I.strKey reqId) = some b ∧ b.isPush = false ∧
    b.totalSize = .int total ∧ b.received = n

/-- One more byte. -/
theorem Pulling.more {reqId : String} {total n : Nat} (h : hub.Pulling I reqId total n)
    (hid : reqId ≠ "") (hn : n < total) : ∃ hub' : Hub K, hub'.Pulling I reqId total (n + 1) := by
  obtain ⟨b, hb, hpull, htotal, hreceived⟩ := h.buffer
  have hfits : b.received + ([0] : Bytes).length ≤ total := by
    simp
    omega
  have hhandled := handle_chunk I 0 "p" 1 0 false hid hb htotal hfits
  refine ⟨hub.receive I "p" (chunkFrame (.str reqId) 1 0 [0] false) 0,
    .step (e := .receive "p" (chunkFrame (.str reqId) 1 0 [0] false) 0) h.reachable trivial ?_,
    ?_, ?_⟩
  · simp only [step, h.idle]
  · simp [receive, hhandled, Handled.ended]
  · refine ⟨b.add [0], ?_, hpull, htotal, by simp [Buffer.add, hreceived]⟩
    simp [receive, hhandled, Handled.ended]

/-- The header is taken, whatever it declares. -/
theorem pulling_answering (total : Nat) :
    ∃ hub : Hub (Option String ⊕ Int), hub.Pulling plainKeys "r" total 0 := by
  have hrun : ∃ hub, twoStripes.run plainKeys (answering total) = some hub ∧
      hub.handlers "p" = .idle ∧ ∃ b, hub.coordinator.buffers.get (plainKeys.strKey "r") = some b ∧
        b.isPush = false ∧ b.totalSize = .int total ∧ b.received = 0 := by
    refine ⟨_, rfl, rfl, _, rfl, rfl, rfl, rfl⟩
  obtain ⟨hub, hrun, hidle, hbuffer⟩ := hrun
  exact ⟨hub, .run _ (.start (fresh_init _ _)) hrun, hidle, hbuffer⟩

/-- A peer can make the buffer of a pull hold any number of bytes. -/
theorem pull_unbounded (total : Nat) :
    ∀ n ≤ total, ∃ hub : Hub (Option String ⊕ Int), hub.Pulling plainKeys "r" total n := by
  intro n
  induction n with
  | zero =>
    intro _
    exact pulling_answering total
  | succ n ih =>
    intro hn
    obtain ⟨hub, hpulling⟩ := ih (Nat.le_of_lt hn)
    exact hpulling.more (by decide) hn

/-- One byte more than a block can have. -/
theorem pull_exceeds_block :
    ∃ (hub : Hub (Option String ⊕ Int)) (k : Option String ⊕ Int) (b : Buffer),
      Reachable plainKeys Anything hub ∧ hub.coordinator.buffers.get k = some b ∧
        b.isPush = false ∧ Config.maxBlockSize < b.assemble.length := by
  obtain ⟨hub, hpulling⟩ := pull_unbounded (Config.maxBlockSize + 1) _ (Nat.le_refl _)
  obtain ⟨b, hb, hpull, _, hreceived⟩ := hpulling.buffer
  have hcounted : b.received = b.assemble.length := hpulling.reachable.counted _ b hb
  refine ⟨hub, _, b, hpulling.reachable, hb, hpull, ?_⟩
  rw [← hcounted, hreceived]
  exact Nat.lt_succ_self _

end Hub

end Memnode.Replication
