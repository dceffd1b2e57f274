/-
Memnode.Replication.Circuit — two nodes over one connection, with nothing
between them left out.

`Network` gives a node a list of messages from which any stream's first
may be delivered. Here the messages go the whole way: `send_to` takes a
slot of the mux or waits for one, the writer takes turns between the
streams, `send_msg` packs and seals, the frame goes out as bytes, and the
other read loop reads, opens and unpacks it and calls `handle_message`.
A `Terminal` is a node with its end of a `Mux.Link`; a `Circuit` is two of
them and the bytes on the way.

  §1 the circuit;
  §2 one end: what an act leaves as it was, and when nothing is left to do;
  §3 the ends of a circuit (`Wired`);
  §4 nodes, and the messages they wait to send.

Left out: a task that is cancelled while it waits in `mux.send`, and a
transport without room, which `Stall` is about: here `drain` can return.
-/
import Memnode.Mux.Backpressure
import Memnode.Mux.Closing
import Memnode.Mux.Link
import Memnode.Replication.Stall
import Memnode.Replication.Exact

set_option linter.unusedSectionVars false

namespace Memnode.Replication

open Lib Blocks Mux Security

/-! ## §1 The circuit -/

/-- A node with its end of the connection, and the tasks that wait in
`mux.send`, in the order of the waiters of its semaphore. -/
structure Terminal (K : Type) (params : ChannelParams) where
  node : Node K
  port : End params
  senders : List Task

/-- Two terminals, and the bytes each side has written that the other
side has not read. -/
structure Circuit (K : Type) (params : ChannelParams) where
  side : Side → Terminal K params
  wire : Side → Bytes

/-- What only the writer and the transport do. -/
def ofTransport : Mux.Act → Bool
  | .mux .run => true
  | .mux .close => true
  | .mux .writerCancelled => true
  | .transmit _ _ => true
  | .drained => true
  | .drainFailed => true
  | .hangUp => true
  | _ => false

/-- Of these, what needs nobody to close or cancel and no `drain` to fail. -/
def unforced : Mux.Act → Bool
  | .mux .run => true
  | .transmit _ _ => true
  | .drained => true
  | _ => false

namespace Circuit

variable {K : Type} [DecidableEq K] {params : ChannelParams} (C : Crypto) (I : Interpreter K)

inductive Event (K : Type) where
  /-- a client of side `s` starts a remote call -/
  | call (s : Side) (request : Request) (reqId timeout : String)
  /-- call `i` of side `s` goes on after its reply -/
  | go (s : Side) (i : Nat)
  /-- a task of side `s` calls `send_to` -/
  | offer (s : Side) (t : Task)
  /-- the `k`-th task that waits for a slot goes on -/
  | resume (s : Side) (k : Nat)
  /-- the handler of side `s` makes its BlockManager call -/
  | serve (s : Side) (sh : (stripes : Nat) → Shuffles stripes)
  /-- call `i` of side `s` times out -/
  | timeout (s : Side) (i : Nat)
  /-- a BlockManager call that no peer asked for -/
  | own (s : Side) (sh : (stripes : Nat) → Shuffles stripes) (c : Call (KeyObject K))
  /-- the writer or the transport of side `s` -/
  | port (s : Side) (a : Mux.Act)
  /-- the read loop of side `s` reads on -/
  | read (s : Side) (now : Rat)
  /-- `handle_message` has returned to the read loop of side `s` -/
  | handled (s : Side)

/-- The two nodes and their connection working off what was asked of them. -/
def Event.Progress : Event K → Prop
  | .call _ _ _ _ => False
  | .timeout _ _ => False
  | .own _ _ _ => False
  | .port _ a => unforced a = true
  | _ => True

/-- One act of the end of side `s`. -/
def act (c : Circuit K params) (s : Side) (a : Mux.Act) : Option (Acted params) :=
  (c.side s).port.act C I.packer (c.wire s.other) a

/-- The circuit after an act of side `s`. -/
def put (c : Circuit K params) (s : Side) (n : Node K) (senders : List Task) (r : Acted params) :
    Circuit K params where
  side := Function.update c.side s ⟨n, r.after, senders⟩
  wire := Function.update (Function.update c.wire s (c.wire s ++ r.out)) s.other r.unread

/-- The circuit after a step of the node of side `s`. -/
def setNode (c : Circuit K params) (s : Side) (n : Node K) : Circuit K params :=
  { c with side := Function.update c.side s { c.side s with node := n } }

/-- `send_to` of task `t`: the mux is closed, or there is a slot, or the
task waits for one. -/
def offer (c : Circuit K params) (s : Side) (t : Task) : Option (Circuit K params) :=
  let x := c.side s
  match Station.upcoming x.node t with
  | none => none
  | some (stream, m) =>
      if t ∈ x.senders then none
      else
        (c.act C I s (.mux (.send stream m))).map (fun r =>
          if x.port.mux.closed then c.put s (Station.passed I x.node false t) x.senders r
          else if (x.port.mux.slots.acquire (stream, m)).2 then
            c.put s (Station.passed I x.node true t) x.senders r
          else c.put s x.node (x.senders ++ [t]) r)

/-- The `k`-th waiting task has a slot, and `send_to` returns True. -/
def resume (c : Circuit K params) (s : Side) (k : Nat) : Option (Circuit K params) :=
  let x := c.side s
  match x.senders[k]? with
  | none => none
  | some t =>
      (c.act C I s (.mux (.resume k))).map
        (c.put s (Station.passed I x.node true t) (x.senders.eraseIdx k))

/-- Call `i` goes on, if it is not about to send. -/
def go (c : Circuit K params) (s : Side) (i : Nat) : Option (Circuit K params) :=
  match Station.upcoming (c.side s).node (.call i) with
  | some _ => none
  | none => ((c.side s).node.advance I i).map (c.setNode s)

/-- The messages an act has dispatched. -/
def news (x : End params) (r : Acted params) : List Message := r.after.dispatched.drop x.dispatched.length

/-- `recv_msg`, and `handle_message` up to its first await if there is a message. -/
def read (c : Circuit K params) (s : Side) (now : Rat) : Option (Circuit K params) :=
  let x := c.side s
  (c.act C I s .arrive).map (fun r =>
    c.put s ((news x.port r).foldl (fun n m => n.receive I now (c.side s.other).node.pubkey m) x.node)
      x.senders r)

/-- One event; `none` if it cannot happen now. -/
def step (c : Circuit K params) : Event K → Option (Circuit K params)
  | .call s request reqId timeout =>
      some (c.setNode s
        ((c.side s).node.call I (c.side s.other).node.pubkey request reqId timeout))
  | .go s i => c.go I s i
  | .offer s t => c.offer C I s t
  | .resume s k => c.resume C I s k
  | .serve s sh => ((c.side s).node.serve sh).map (c.setNode s)
  | .timeout s i => ((c.side s).node.expire I i).map (c.setNode s)
  | .own s sh call =>
      some (c.setNode s { (c.side s).node with
        manager := AnyKey.after (c.side s).node.manager (sh (c.side s).node.cfg.stripeCount) call })
  | .port s a =>
      if ofTransport a then (c.act C I s a).map (c.put s (c.side s).node (c.side s).senders) else none
  | .read s now => c.read C I s now
  | .handled s =>
      match (c.side s).node.handler with
      | .idle => (c.act C I s .handled).map (c.put s (c.side s).node (c.side s).senders)
      | _ => none

/-- Two nodes right after their handshake. -/
def connect (params : ChannelParams) (nodes : Side → Node K) (key : Side → Bytes) (tHash : Bytes)
    (now : Side → Rat) (maxQueued : Side → Nat) : Circuit K params where
  side := fun s =>
    ⟨nodes s, .init (maxQueued s) (.init params (key s) (key s.other) tHash (now s)), []⟩
  wire := fun _ => []

/-- The connection is up. -/
def Up (c : Circuit K params) : Prop := ∀ s, (c.side s).port.mux.closed = false

/-- As for the network: no timeout, no buffer dropped, room for one more
transfer, request ids that are new, and keys that have a hash. -/
def Undisturbed (c : Circuit K params) : Event K → Prop
  | .call _ request reqId _ =>
      reqId ≠ "" ∧ (∀ s, ∀ d ∈ (c.side s).node.calls, d.reqId ≠ reqId) ∧ request.hashable I = true
  | .read s now =>
      (∀ e ∈ (c.side s).node.coordinator.buffers.entries, e.2.stale now = false) ∧
        ∀ r, c.act C I s .arrive = some r → ∀ m ∈ news (c.side s).port r, m.type = .storeBlock →
          (c.side s).node.coordinator.buffers.size < Config.maxInboundStreams
  | .timeout _ _ => False
  | .own _ _ (.store r) => hashError r.key = none
  | _ => True

/-- A step that nothing disturbs and after which the connection is up. -/
def Steps (c c' : Circuit K params) : Prop :=
  ∃ e, c.Undisturbed C I e ∧ c.step C I e = some c' ∧ c'.Up

/-- Such a step on what was asked of the nodes. -/
def Works (c c' : Circuit K params) : Prop :=
  ∃ e : Event K, e.Progress ∧ c.Undisturbed C I e ∧ c.step C I e = some c' ∧ c'.Up

/-- The connection as a link, seen from side `s`. -/
def link (c : Circuit K params) (s : Side) : Link params :=
  ⟨(c.side s).port, (c.side s.other).port, c.wire s, c.wire s.other⟩

end Circuit

/-! ## §2 One end -/

section OneMux

variable {σ μ : Type} [DecidableEq σ] {c : ChannelMux σ μ} {e : Mux.Event σ μ} {x : Stepped σ μ}

/-- The writer of an open mux has not ended. -/
theorem step_alive (h : c.step e = some x) (hopen : x.mux.closed = false) (hw : c.writer ≠ .ended) :
    x.mux.writer ≠ .ended := by
  have hloop : ∀ (d : ChannelMux σ μ) (sent : Option (σ × μ)), x = d.writerLoop sent →
      x.mux.writer ≠ .ended := by
    rintro d sent rfl
    rw [ChannelMux.closed_writerLoop] at hopen
    unfold ChannelMux.writerLoop
    rw [if_neg (by simp [hopen])]
    split <;> simp
  cases ChannelMux.step_cases h with
  | serves => exact hloop _ _ rfl
  | sends => exact hloop _ _ rfl
  | fails => cases hopen
  | drops s m hc | stops hc => exact absurd (hopen.symm.trans hc) Bool.false_ne_true
  | refuses | queues | waits | resumes | abandons | closes | closesAgain => exact hw

/-- A writer that waits and was not woken has nothing to write. -/
def Asleep (c : ChannelMux σ μ) : Prop :=
  c.writer = .waiting → c.wake = false → c.rotation.order = []

theorem asleep_writerLoop (d : ChannelMux σ μ) (ho : d.rotation.Ordered) (sent : Option (σ × μ)) :
    Asleep (d.writerLoop sent).mux := by
  unfold ChannelMux.writerLoop
  split
  · intro hw
    cases hw
  · obtain ⟨horder, htake⟩ | ⟨s, rest, m, q, r', -, -, htake, -⟩ := ho.take_cases
    · rw [htake]
      exact fun _ _ => horder
    · rw [htake]
      intro hw
      cases hw

theorem step_asleep (h : c.step e = some x) (ho : c.rotation.Ordered) (ha : Asleep c) :
    Asleep x.mux := by
  cases ChannelMux.step_cases h with
  | serves => exact asleep_writerLoop c ho none
  | sends s m =>
    refine asleep_writerLoop _ ?_ _
    exact ho
  | queues | resumes | closes =>
    intro _ hwake
    cases hwake
  | fails | drops | stops =>
    intro hw
    cases hw
  | refuses | waits | abandons | closesAgain => exact ha

/-- What holds of a mux while it is open. -/
structure Serving (maxQueued : Nat) (c : ChannelMux σ μ) : Prop where
  writes : c.writer ≠ .ended
  ordered : c.rotation.Ordered
  balanced : c.Balanced maxQueued
  handed : c.slots.Handed
  asleep : Asleep c

theorem Serving.step {maxQueued : Nat} (hc : Serving maxQueued c) (h : c.step e = some x)
    (hopen : x.mux.closed = false) : Serving maxQueued x.mux where
  writes := step_alive h hopen hc.writes
  ordered := ChannelMux.step_ordered h hc.ordered
  balanced := hc.balanced.step h
  handed := ChannelMux.step_handed h hc.handed
  asleep := step_asleep h hc.ordered hc.asleep

/-- Nothing in the order, nothing in the queues. -/
theorem queue_of_order_nil {r : Rotation σ μ} (ho : r.Ordered) (h : r.order = []) :
    r.depth = 0 ∧ ∀ s, r.queue s = [] := by
  have hempty : ∀ s, r.queue s = [] := by
    intro s
    by_contra hne
    have hmem := (ho.mem_order s).mpr hne
    rw [h] at hmem
    cases hmem
  refine ⟨?_, hempty⟩
  have hkeys : r.queues.keys = [] := by
    refine List.eq_nil_iff_forall_not_mem.mpr (fun s hs => ?_)
    have hmem := (ho.mem_order_iff_mem_keys s).mpr hs
    rw [h] at hmem
    cases hmem
  rw [Rotation.depth, Dict.sumBy, List.map_eq_nil_iff.mp hkeys]
  rfl

end OneMux

section OneEnd

variable {params : ChannelParams} {C : Crypto} {P : Packer} {x : End params} {inbound : Bytes}

/-- An act is at most one step of the mux. -/
theorem does_mux {a : Mux.Act} {r : Acted params} (hr : Does C P x inbound a r) :
    r.after.mux = x.mux ∨ ∃ e s, x.mux.step e = some s ∧ r.after.mux = s.mux := by
  cases hr with
  | muxes e s hs => exact .inr ⟨e, s, hs, rfl⟩
  | cancels s hs => exact .inr ⟨_, s, hs, rfl⟩
  | fails _ c flushed s hc hs => exact .inr ⟨_, s, hs, rfl⟩
  | drains s hflushed hs => exact .inr ⟨_, s, hs, rfl⟩
  | stops _ c rest s hc hs => exact .inr ⟨_, s, hs, rfl⟩
  | transmits | drops | hears | handles => exact .inl rfl

/-- A task in `mux.send` takes one step of the mux. -/
theorem muxes_of_does {e : Mux.Event Int Message} {r : Acted params} (hr : Does C P x inbound (.mux e) r)
    (hne : e ≠ .writerCancelled) :
    ∃ y, x.mux.step e = some y ∧
      r.after = { x with mux := y.mux, queued := x.queued ++ y.queued.toList } := by
  cases hr with
  | muxes _ y hs => exact ⟨y, hs, rfl⟩
  | cancels => exact absurd rfl hne
  | fails _ c flushed y hc hs ha =>
    rcases ha with ha | ⟨_, _, ha, _⟩ <;> cases ha
  | stops _ c rest y hc hs ha => rcases ha with ha | ha <;> cases ha

/-- What holds of an end while its mux is open. -/
structure Sound (maxQueued : Nat) (x : End params) : Prop where
  serving : Serving maxQueued x.mux
  reads : x.reader ≠ .ended
  sends : Sends x

theorem sound_init (maxQueued : Nat) (channel : SecureChannel params) :
    Sound maxQueued (End.init maxQueued channel) where
  serving := {
    writes := by simp [End.init, ChannelMux.init]
    ordered := Rotation.ordered_empty
    balanced := ChannelMux.balanced_init maxQueued
    handed := Semaphore.handed_init maxQueued
    asleep := fun hw => by cases hw }
  reads := by simp [End.init]
  sends := sends_init maxQueued channel

theorem closed_of_close {c : ChannelMux Int Message} {s : Stepped Int Message} (h : c.step .close = some s) :
    s.mux.closed = true := by
  cases ChannelMux.step_cases h with
  | closes => rfl
  | closesAgain hc => exact hc

theorem Sound.act {maxQueued : Nat} (h : Sound maxQueued x) {a : Mux.Act} {r : Acted params}
    (hr : Does C P x inbound a r) (hopen : r.after.mux.closed = false) : Sound maxQueued r.after := by
  have hreads : r.after.reader ≠ .ended := by
    cases hr with
    | stops _ c rest s hc hs => exact absurd (hopen.symm.trans (closed_of_close hs)) Bool.false_ne_true
    | handles | hears => simp
    | muxes | cancels | fails | transmits | drains | drops => exact h.reads
  refine ⟨?_, hreads, h.sends.act hr⟩
  rcases does_mux hr with hmux | ⟨e, s, hs, hmux⟩
  · rw [hmux]
    exact h.serving
  · rw [hmux] at hopen ⊢
    exact h.serving.step hs hopen

/-- What the writer has still to do. -/
def lag (x : End params) : Nat :=
  4 * x.mux.rotation.depth +
    match x.mux.writer with
    | .ready => 1
    | .waiting => if x.mux.wake then 1 else 0
    | .sending _ _ => if x.flushed then 2 else 3
    | .ended => 0

/-- A writer that can do nothing has nothing to do: no message is queued
or in its hand. -/
theorem Sound.quiet {maxQueued : Nat} (h : Sound maxQueued x)
    (hrun : x.act C P inbound (.mux .run) = none) (htransmit : x.act C P inbound (.transmit 0 0) = none)
    (hdrained : x.act C P inbound .drained = none) :
    x.mux.held = 0 ∧ ∀ s, x.pendingOn s = [] := by
  have hrun' : x.mux.step .run = none := by
    simpa [End.act, End.muxStep] using hrun
  cases hw : x.mux.writer with
  | ended => exact absurd hw h.serving.writes
  | ready => simp [ChannelMux.step, hw] at hrun'
  | waiting =>
    have hwake : x.mux.wake = false := by simpa [ChannelMux.step, hw] using hrun'
    obtain ⟨hdepth, hempty⟩ := queue_of_order_nil h.sends.ordered (h.serving.asleep hw hwake)
    have hhand : x.mux.hand = none := ChannelMux.hand_idle (.inr hw)
    refine ⟨by simp [ChannelMux.held, hhand, hdepth], fun s => ?_⟩
    simp [End.pendingOn, hhand, hempty s, onStream]
  | sending s m =>
    have hhand : x.mux.hand = some (s, m) := by simp [ChannelMux.hand, hw]
    have hstep : ∀ y : End params, y.mux = x.mux → y.muxStep .sent ≠ none ∧
        y.muxStep .sendFailed ≠ none := by
      intro y hy
      simp [End.muxStep, ChannelMux.step, hy, hw]
    cases hf : x.flushed with
    | true =>
      rw [End.act, if_pos hf, Option.map_eq_none_iff] at hdrained
      refine ((hstep _ ?_).1 hdrained).elim
      rfl
    | false =>
      rw [End.act, Option.map_eq_none_iff, End.transmit, hhand] at htransmit
      simp only [hf, Bool.false_eq_true, if_false] at htransmit
      split at htransmit
      · exact ((hstep x rfl).2 (Option.map_eq_none_iff.mp htransmit)).elim
      · split at htransmit
        · refine ((hstep _ ?_).2 (Option.map_eq_none_iff.mp htransmit)).elim
          rfl
        · cases htransmit

/-- The writer's turn brings the message nearest to the wire nearer. -/
theorem lag_writerLoop {d : ChannelMux Int Message} (ho : d.rotation.Ordered) (hopen : d.closed = false)
    (sent : Option (Int × Message)) {y : End params} (hy : y.mux = (d.writerLoop sent).mux) :
    lag y ≤ 4 * d.rotation.depth := by
  have hdepth := d.rotation.depth_take
  unfold lag
  rw [hy]
  unfold ChannelMux.writerLoop
  rw [if_neg (by simp [hopen])]
  obtain ⟨-, htake⟩ | ⟨s, rest, m, q, r', -, -, htake, -⟩ := ho.take_cases
  · rw [htake]
    simp
  · rw [htake] at hdepth ⊢
    simp only [Option.toList_some, List.length_singleton] at hdepth
    dsimp only
    split <;> omega

/-- What the writer and the transport do while the connection stays up:
they bring what is queued nearer to the wire. -/
structure Ferried (P : Packer) (x y : End params) : Prop where
  queued : y.queued = x.queued
  dispatched : y.dispatched = x.dispatched
  reader : y.reader = x.reader
  waiting : y.mux.slots.waiting = x.mux.slots.waiting
  written : ∃ more, y.written = x.written ++ more ∧
    ∀ sm ∈ more, sm ∈ x.queued ∧ ∃ raw, sm.2.encode P = some raw ∧
      raw.length + Message.frameOverhead ≤ Config.maxFrameSize
  lag : lag y < lag x

theorem Sound.ferried (correct : C.AeadCorrect) {maxQueued : Nat} (h : Sound maxQueued x) {a : Mux.Act}
    {r : Acted params} (hr : Does C P x inbound a r) (ha : ofTransport a = true)
    (hopen : r.after.mux.closed = false) : Ferried P x r.after := by
  -- what closes the mux, or needs a closed one, is not meant
  have hnot : ∀ {y : ChannelMux Int Message}, y.closed = true → y.closed = false → False :=
    fun ht hf => Bool.false_ne_true (hf.symm.trans ht)
  cases hr with
  | muxes e s hs hsent hfailed hcancel =>
    cases e with
    | run =>
      cases ChannelMux.step_cases hs with
      | serves hw =>
        have hopen' : x.mux.closed = false := by simpa using hopen
        refine ⟨by simp, rfl, rfl, by simp, ⟨[], by simp, by simp⟩, ?_⟩
        refine (lag_writerLoop h.sends.ordered hopen' none rfl).trans_lt ?_
        rcases hw with hw | ⟨hw, hwake⟩
        · simp [lag, hw]
        · simp [lag, hw, hwake]
    | close => exact (hnot (closed_of_close hs) hopen).elim
    | send | resume | cancel => cases ha
    | sent => exact absurd rfl hsent
    | sendFailed => exact absurd rfl hfailed
    | writerCancelled => exact absurd rfl hcancel
  | cancels s hs =>
    cases ChannelMux.step_cases hs with
    | drops t m hc => exact (hnot hc hopen).elim
    | stops hc => exact (hnot hc hopen).elim
  | fails _ c flushed s hc hs =>
    cases ChannelMux.step_cases hs with
    | fails => cases hopen
  | transmits t t' s m raw frame hhand hflushed hraw hsend =>
    have hsize : raw.length + Message.frameOverhead ≤ Config.maxFrameSize := by
      obtain ⟨-, hf, hlen, -⟩ := SecureChannel.send_ok hsend
      rw [hf, List.length_append, BigEndian.length_pack] at hlen
      have hseal := correct.length_encrypt
      simp only [SecureChannel.sealing, hseal] at hlen
      simp only [Message.frameOverhead]
      omega
    refine ⟨rfl, rfl, rfl, rfl, ⟨[(s, m)], rfl, ?_⟩, ?_⟩
    · simpa using ⟨h.sends.queued_of_hand hhand hflushed, raw, hraw, hsize⟩
    · have hw : x.mux.writer = .sending s m := by
        simp only [ChannelMux.hand] at hhand
        split at hhand
        · cases hhand
          assumption
        · cases hhand
      simp [lag, hw, hflushed]
  | drains s hflushed hs =>
    cases ChannelMux.step_cases hs with
    | sends t m hw =>
      have hopen' : x.mux.closed = false := by simpa using hopen
      refine ⟨by simp, rfl, rfl, by simp [(Semaphore.release_spec x.mux.slots).1], ⟨[], by simp, by simp⟩,
        ?_⟩
      refine (lag_writerLoop (d := { x.mux with
        messagesSent := x.mux.messagesSent + 1
        slots := x.mux.slots.release }) ?_ hopen' (some (t, m)) rfl).trans_lt ?_
      · exact h.sends.ordered
      · simp [lag, hw, hflushed]
  | stops _ c rest s hc hs => exact (hnot (closed_of_close hs) hopen).elim
  | drops | hears | handles => cases ha

end OneEnd

/-! ## §3 The ends of a circuit -/

section Ends

variable {K : Type} [DecidableEq K] {params : ChannelParams}

/-- What two nodes agree on in their handshake, and what each side sets up
by itself. -/
structure Setup (params : ChannelParams) where
  key : Side → Bytes
  tHash : Bytes
  now : Side → Rat
  maxQueued : Side → Nat

/-- The link at its start, seen from side `s`. -/
def Setup.link (S : Setup params) (s : Side) : Link params :=
  .init params (S.key s) (S.key s.other) S.tHash (S.now s) (S.now s.other) (S.maxQueued s)
    (S.maxQueued s.other)

variable {C : Crypto} {I : Interpreter K} {S : Setup params} {c : Circuit K params} {s : Side}
  {n : Node K} {senders : List Task} {r : Acted params} {a : Mux.Act}

namespace Circuit

@[simp] theorem put_self : (c.put s n senders r).side s = ⟨n, r.after, senders⟩ := by simp [put]

@[simp] theorem put_other : (c.put s n senders r).side s.other = c.side s.other := by simp [put]

theorem put_link : (c.put s n senders r).link s
    = ⟨r.after, (c.side s.other).port, c.wire s ++ r.out, r.unread⟩ := by
  simp [link, put]

theorem put_link_other : (c.put s n senders r).link s.other
    = ⟨(c.side s.other).port, r.after, r.unread, c.wire s ++ r.out⟩ := by
  simp [link, put]

/-- A step of a node is an act that does nothing to the end. -/
theorem setNode_eq_put : c.setNode s n
    = c.put s n (c.side s).senders ⟨(c.side s).port, [], c.wire s.other⟩ := by
  simp [setNode, put]

theorem setNode_link (t : Side) : (c.setNode s n).link t = c.link t := by
  rcases Side.eq_or_other s t with rfl | rfl <;> simp [link, setNode]

end Circuit

/-- The two ends of a connection that is up. -/
structure Wired (C : Crypto) (I : Interpreter K) (S : Setup params) (c : Circuit K params) : Prop where
  reached : ∀ s, Link.Reachable C I.packer (S.link s) (c.link s)
  sound : ∀ s, Sound (S.maxQueued s) (c.side s).port
  up : c.Up

theorem wired_connect (nodes : Side → Node K) :
    Wired C I S (.connect params nodes S.key S.tHash S.now S.maxQueued) where
  reached := fun s => by
    have hstart : (Circuit.connect params nodes S.key S.tHash S.now S.maxQueued).link s = S.link s := by
      simp [Circuit.link, Circuit.connect, Setup.link, Link.init]
    rw [hstart]
    exact .refl
  sound := fun s => sound_init _ _
  up := fun s => rfl

theorem Wired.setNode (h : Wired C I S c) (s : Side) (n : Node K) : Wired C I S (c.setNode s n) := by
  have hport : ∀ t, ((c.setNode s n).side t).port = (c.side t).port :=
    fun t => congrArg Link.left (Circuit.setNode_link t)
  refine ⟨fun t => ?_, fun t => ?_, fun t => ?_⟩
  · rw [Circuit.setNode_link]
    exact h.reached t
  · rw [hport]
    exact h.sound t
  · rw [hport]
    exact h.up t

theorem Wired.put (h : Wired C I S c) (hact : c.act C I s a = some r) (n : Node K) (senders : List Task)
    (hopen : r.after.mux.closed = false) : Wired C I S (c.put s n senders r) := by
  refine ⟨fun t => ?_, fun t => ?_, fun t => ?_⟩ <;> rcases Side.eq_or_other s t with rfl | rfl
  · rw [Circuit.put_link]
    exact (h.reached t).tail (.left _ a r hact)
  · rw [Circuit.put_link_other]
    have hback : Link.Step C I.packer (c.link s.other)
        ⟨(c.side s.other).port, r.after, r.unread, c.wire s ++ r.out⟩ := by
      have hstep := Link.Step.right (C := C) (P := I.packer) (c.link s.other) a r
      simp only [Circuit.link, Side.other_other] at hstep
      simpa only [Circuit.link, Side.other_other] using hstep hact
    exact (h.reached s.other).tail hback
  · rw [Circuit.put_self]
    exact (h.sound t).act (End.act_cases hact) hopen
  · rw [Circuit.put_other]
    exact h.sound s.other
  · rw [Circuit.put_self]
    exact hopen
  · rw [Circuit.put_other]
    exact h.up s.other

end Ends

/-! ## §4 Nodes -/

section Nodes

variable {K : Type} [DecidableEq K] (I : Interpreter K)

/-- The node with these messages in its outbox. -/
def Node.loaded (n : Node K) (outbox : List (Int × Message)) : Node K := { n with outbox := outbox }

/-- The event of the network in which a task sends its message. -/
def Task.event (s : Side) : Task → Event K
  | .reader => .reply s
  | .call i => .advance s i

variable {n : Node K} {t t' : Task} {m : Int × Message} {i : Nat} {outbox : List (Int × Message)}

/-- A call that is about to send. -/
theorem upcoming_call (h : Station.upcoming n (.call i) = some m) :
    ∃ c header rest, n.calls[i]? = some c ∧ c.phase = .send header m rest := by
  simp only [Station.upcoming] at h
  split at h
  · rename_i header m' rest hphase
    cases h
    obtain ⟨c, hc, hsend⟩ := Option.map_eq_some_iff.mp hphase
    exact ⟨c, header, rest, hc, hsend⟩
  · cases h

/-- A handler that is about to send. -/
theorem upcoming_handler (h : Station.upcoming n .reader = some m) :
    ∃ reqId rest, n.handler = .send reqId m rest := by
  simp only [Station.upcoming] at h
  split at h
  · rename_i reqId m' rest hsend
    cases h
    exact ⟨reqId, rest, hsend⟩
  · cases h

/-- The handler after its message is out. -/
theorem passed_handler {reqId : Value} {rest : List (Int × Message)} (h : n.handler = .send reqId m rest) :
    Station.passed I n true .reader
      = { n with handler := .sending reqId rest, outbox := [], closed := false } := by
  have hreply : ({ n with closed := !true } : Node K).reply
      = some { n with handler := .sending reqId rest, outbox := n.outbox ++ [m], closed := false } := by
    simp [Node.reply, h]
  unfold Station.passed
  dsimp only
  rw [hreply]
  rfl

/-- A call after its message is out. -/
theorem passed_calls {c : RemoteCall} {header : Bool} {rest : List (Int × Message)}
    (hc : n.calls[i]? = some c) (h : c.phase = .send header m rest) :
    Station.passed I n true (.call i)
      = { n with
          calls := n.calls.set i { c with phase := .afterSend rest }
          outbox := []
          closed := false } := by
  have hadvance : ({ n with closed := !true } : Node K).advance I i
      = some { n with
          calls := n.calls.set i { c with phase := .afterSend rest }
          outbox := n.outbox ++ [m]
          closed := false } := by
    simp [Node.advance, hc, h]
  unfold Station.passed
  dsimp only
  rw [hadvance]
  rfl

/-- In the network, a task that is about to send puts its message into the outbox. -/
theorem step_task {net : Net K} {s : Side} (hnode : net s = n.loaded outbox) (hopen : n.closed = false)
    (h : Station.upcoming n t = some m) :
    net.step I (t.event s)
      = some (Function.update net s ((Station.passed I n true t).loaded (outbox ++ [m]))) := by
  cases t with
  | reader =>
    obtain ⟨reqId, rest, hhandler⟩ := upcoming_handler h
    have hreply : (n.loaded outbox).reply
        = some ((Station.passed I n true .reader).loaded (outbox ++ [m])) := by
      rw [passed_handler I hhandler]
      simp [Node.reply, Node.loaded, hhandler, hopen]
    show (net s).reply.map (Function.update net s) = _
    rw [hnode, hreply]
    rfl
  | call i =>
    obtain ⟨c, header, rest, hc, hphase⟩ := upcoming_call h
    have hadvance : (n.loaded outbox).advance I i
        = some ((Station.passed I n true (.call i)).loaded (outbox ++ [m])) := by
      rw [passed_calls I hc hphase]
      simp [Node.advance, Node.loaded, hc, hphase, hopen]
    show ((net s).advance I i).map (Function.update net s) = _
    rw [hnode, hadvance]
    rfl

theorem passed_closed (n : Node K) (ok : Bool) (t : Task) : (Station.passed I n ok t).closed = false := rfl

/-- The other tasks are where they were. -/
theorem upcoming_passed (h : Station.upcoming n t = some m) (hne : t' ≠ t) :
    Station.upcoming (Station.passed I n true t) t' = Station.upcoming n t' := by
  cases t with
  | reader =>
    obtain ⟨reqId, rest, hhandler⟩ := upcoming_handler h
    cases t' with
    | reader => exact absurd rfl hne
    | call j => rw [passed_handler I hhandler]; rfl
  | call i =>
    obtain ⟨c, header, rest, hc, hphase⟩ := upcoming_call h
    rw [passed_calls I hc hphase]
    cases t' with
    | reader => rfl
    | call j =>
      have hij : i ≠ j := fun hij => hne (hij ▸ rfl)
      simp [Station.upcoming, hij]

/-- What a call does on its reply, whatever is in the outbox: it changes itself and the tables. -/
theorem onReply_loaded (n : Node K) (i : Nat) (c : RemoteCall) (reply : Message) :
    (∀ outbox, (n.loaded outbox).onReply I i c reply = (n.onReply I i c reply).loaded outbox) ∧
      ∃ tables c', n.onReply I i c reply = { n with coordinator := tables, calls := n.calls.set i c' } := by
  have hsame : ∀ outbox, (n.loaded outbox).coordinator = n.coordinator := fun _ => rfl
  simp only [Node.onReply, hsame]
  split
  · exact ⟨fun _ => rfl, _, _, rfl⟩
  · split
    · split <;> exact ⟨fun _ => rfl, _, _, rfl⟩
    · exact ⟨fun _ => rfl, _, _, rfl⟩

/-- The same of a call that goes on after its reply. -/
theorem advance_loaded (h : Station.upcoming n (.call i) = none) :
    (∀ outbox, (n.loaded outbox).advance I i = (n.advance I i).map (fun n' => n'.loaded outbox)) ∧
      ∀ n' ∈ n.advance I i, ∃ tables c, n' = { n with coordinator := tables, calls := n.calls.set i c } := by
  have hsame : ∀ outbox, (n.loaded outbox).calls = n.calls := fun _ => rfl
  simp only [Node.advance, hsame]
  cases hc : n.calls[i]? with
  | none => simp
  | some c =>
    dsimp only
    cases hphase : c.phase with
    | send header m rest => simp [Station.upcoming, hc, hphase] at h
    | awaitReply =>
      cases c.reply with
      | none => simp
      | some reply =>
        obtain ⟨hload, tables, c', hreply⟩ := onReply_loaded I n i c reply
        exact ⟨fun outbox => congrArg some (hload outbox), by simpa using ⟨tables, c', hreply⟩⟩
    | awaitPull f =>
      cases hpull : (n.calls[f]?).bind RemoteCall.pull with
      | none => simp [hpull]
      | some data =>
        simp only [hpull]
        cases data <;> exact ⟨fun _ => rfl, fun n' hn' => ⟨_, _, (Option.some.inj hn').symm⟩⟩
    | done r => simp

/-- A call that goes on after its reply leaves the others where they are. -/
theorem upcoming_set {tables : Coordinator K} {c : RemoteCall} (hne : t ≠ .call i) :
    Station.upcoming { n with coordinator := tables, calls := n.calls.set i c } t = Station.upcoming n t := by
  cases t with
  | reader => rfl
  | call j =>
    have hij : i ≠ j := fun hij => hne (hij ▸ rfl)
    simp only [Station.upcoming, List.getElem?_set_ne hij]

/-- A message resolves futures and leaves the calls where they are. -/
theorem upcoming_receive (now : Rat) (peer : String) (msg : Message) (i : Nat) :
    Station.upcoming (n.receive I now peer msg) (.call i) = Station.upcoming n (.call i) := by
  have hphase : ∀ (resolved : List (Nat × Resolution)) (calls : List RemoteCall),
      ((resolved.foldl (fun calls x => calls.modify x.1 (fun c => c.resolve x.2)) calls)[i]?).map
        RemoteCall.phase = (calls[i]?).map RemoteCall.phase := by
    intro resolved
    induction resolved with
    | nil => exact fun _ => rfl
    | cons x rest ih =>
      intro calls
      rw [List.foldl_cons, ih, List.getElem?_modify]
      cases calls[i]? with
      | none => rfl
      | some c =>
        have hresolve : (c.resolve x.2).phase = c.phase := by cases x.2 <;> rfl
        simp only [Option.map_eq_map, Option.map_some]
        split
        · rw [hresolve]
        · rfl
  simp only [Station.upcoming, Node.receive, hphase]

theorem serve_loaded (outbox : List (Int × Message)) (sh : (stripes : Nat) → Shuffles stripes) :
    (n.loaded outbox).serve sh = (n.serve sh).map (fun n' => n'.loaded outbox) := by
  obtain ⟨cfg, chunking, pubkey, manager, coordinator, calls, handler, old, closed, log⟩ := n
  simp only [Node.serve, Node.loaded]
  cases handler.serve chunking coordinator.nextStream manager (sh cfg.stripeCount) <;> rfl

/-- A handler that calls the BlockManager is not about to send. -/
theorem serve_frame {n' : Node K} {sh : (stripes : Nat) → Shuffles stripes} (hn : n.serve sh = some n') :
    n'.calls = n.calls ∧ n'.closed = n.closed ∧ Station.upcoming n .reader = none ∧ n.handler ≠ .idle := by
  unfold Node.serve at hn
  split at hn
  · cases hn
  · rename_i r hr
    cases hn
    refine ⟨rfl, rfl, ?_, ?_⟩
    · cases hh : n.handler <;> simp_all [Station.upcoming, Handler.serve]
    · rintro hidle
      simp [hidle, Handler.serve] at hr

end Nodes

end Memnode.Replication
