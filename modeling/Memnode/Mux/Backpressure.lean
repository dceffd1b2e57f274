/-
Memnode.Mux.Backpressure — the queues, the order and the slots are views
of one backlog.

A sender awaits a slot and then queues its message. The writer takes a
message out of its queue, awaits `send_msg` and then gives the slot back.
Either can be cancelled in its await, `send_msg` can raise, and the mux
can close in between.

`Balanced` ties the views together: the queued messages, the one in the
writer's hand and the slots that are free or handed to a sender make up
`max_queued`. A slot leaves the semaphore in the step that queues its
message and returns in the step that empties the writer's hand, whether
`send_msg` returned, raised or was cancelled (`Balanced.step`).

`backlog_consistent` is the whole invariant of a run: `Balanced`, and the
order of `_order` against the keys and queues of `_queues`.
-/
import Memnode.Mux.Channel

namespace Memnode.Mux

open Lib

variable {σ μ : Type} [DecidableEq σ]

namespace ChannelMux

/-- The messages a mux holds: those queued and the one being sent. -/
def held (c : ChannelMux σ μ) : Nat := c.rotation.depth + c.hand.toList.length

/-- Every slot is free, handed to a sender, or taken by a message. -/
structure Balanced (maxQueued : Nat) (c : ChannelMux σ μ) : Prop where
  slots : c.held + c.slots.available = maxQueued
  depth : c.maxQueueDepth ≤ maxQueued

/-! ## One step -/

omit [DecidableEq σ] in
theorem held_idle {c : ChannelMux σ μ} (hw : c.writer = .ready ∨ c.writer = .waiting) :
    c.held = c.rotation.depth := by
  simp [held, hand_idle hw]

omit [DecidableEq σ] in
theorem held_sending {c : ChannelMux σ μ} {s : σ} {m : μ} (hw : c.writer = .sending s m) :
    c.held = c.rotation.depth + 1 := by
  simp [held, hand, hw]

/-- The loop of the writer moves a message from its queue to the hand. -/
theorem held_writerLoop (c : ChannelMux σ μ) (sent : Option (σ × μ)) :
    (c.writerLoop sent).mux.held = c.rotation.depth := by
  have hdepth := c.rotation.depth_take
  unfold writerLoop
  split
  · rfl
  · rcases htake : c.rotation.take with ⟨taken, rotation⟩
    rw [htake] at hdepth
    cases taken <;> exact hdepth

@[simp] theorem maxQueueDepth_writerLoop (c : ChannelMux σ μ) (sent : Option (σ × μ)) :
    (c.writerLoop sent).mux.maxQueueDepth = c.maxQueueDepth := by
  unfold writerLoop
  split
  · rfl
  · split <;> rfl

/-- A message that is queued takes the slot its sender was given. -/
theorem Balanced.enqueue {maxQueued : Nat} {c : ChannelMux σ μ} (h : c.Balanced maxQueued)
    {slots : Semaphore (σ × μ)} (hslots : slots.available + 1 = c.slots.available) (s : σ) (m : μ) :
    (({ c with slots := slots }).enqueue s m).mux.Balanced maxQueued := by
  have hdepth : (({ c with slots := slots }).enqueue s m).mux.rotation.depth = c.rotation.depth + 1 :=
    c.rotation.depth_put s m
  have hheld : (({ c with slots := slots }).enqueue s m).mux.held = c.held + 1 := by
    show _ + c.hand.toList.length = c.rotation.depth + c.hand.toList.length + 1
    rw [hdepth]
    omega
  have hbalance := h.slots
  refine ⟨?_, max_le h.depth ?_⟩
  · rw [hheld]
    show c.held + 1 + slots.available = maxQueued
    omega
  · rw [c.rotation.depth_put s m]
    have hle : c.rotation.depth ≤ c.held := Nat.le_add_right _ _
    omega

omit [DecidableEq σ] in
/-- Whatever happens to the message in the hand, its slot comes back. -/
theorem Balanced.release {maxQueued : Nat} {c : ChannelMux σ μ} (h : c.Balanced maxQueued)
    {s : σ} {m : μ} (hw : c.writer = .sending s m) {d : ChannelMux σ μ}
    (hheld : d.held = c.rotation.depth) (hslots : d.slots = c.slots.release)
    (hdepth : d.maxQueueDepth = c.maxQueueDepth) : d.Balanced maxQueued := by
  have hbalance := h.slots
  rw [held_sending hw] at hbalance
  refine ⟨?_, hdepth ▸ h.depth⟩
  rw [hheld, hslots, (Semaphore.release_spec c.slots).2]
  omega

theorem Balanced.step {maxQueued : Nat} {c : ChannelMux σ μ} (h : c.Balanced maxQueued)
    {e : Event σ μ} {x : Stepped σ μ} (hstep : c.step e = some x) : x.mux.Balanced maxQueued := by
  cases step_cases hstep with
  | refuses | closesAgain => exact h
  | queues s m slots hc ha => exact h.enqueue (Semaphore.acquire_true ha).2 s m
  | waits s m slots hc ha =>
    refine ⟨?_, h.depth⟩
    show c.held + slots.available = maxQueued
    rw [(Semaphore.acquire_false ha).2]
    exact h.slots
  | resumes i s m slots hr => exact h.enqueue (Semaphore.resume_spec hr).2 s m
  | abandons i slots ha =>
    refine ⟨?_, h.depth⟩
    show c.held + slots.available = maxQueued
    rw [Semaphore.abandon_available ha]
    exact h.slots
  | serves hw =>
    refine ⟨?_, by simpa using h.depth⟩
    rw [held_writerLoop, slots_writerLoop, ← held_idle (hw.imp_right And.left)]
    exact h.slots
  | sends s m hw => exact h.release hw (held_writerLoop _ _) (slots_writerLoop _ _) (by simp)
  | fails s m hw | drops s m hc hw => exact h.release hw rfl rfl rfl
  | closes => exact ⟨h.slots, h.depth⟩
  | stops hc hw =>
    refine ⟨?_, h.depth⟩
    show c.rotation.depth + c.slots.available = maxQueued
    rw [← held_idle hw]
    exact h.slots

/-! ## A run -/

omit [DecidableEq σ] in
theorem balanced_init (maxQueued : Nat) :
    (init maxQueued : ChannelMux σ μ).Balanced maxQueued :=
  ⟨Nat.zero_add maxQueued, Nat.zero_le _⟩

theorem Balanced.run {maxQueued : Nat} {c d : ChannelMux σ μ} (h : c.Balanced maxQueued)
    {es : List (Event σ μ)} {xs : List (Stepped σ μ)} (hrun : c.run es = some (xs, d)) :
    d.Balanced maxQueued :=
  run_invariant (P := Balanced maxQueued) (fun hx hb => Balanced.step hb hx) hrun h

end ChannelMux

/-- **The backlog of a mux.** After any interleaving of senders, writer,
failures, cancellations and closing: `_order` has no stream twice and
lists exactly the keys of `_queues`; no stored queue is empty, and the
writer's next turn runs into none; the messages queued, the one in the
writer's hand and the slots free or handed to a sender about to resume
are `max_queued` in all. So no more than `max_queued` messages are held,
and `max_queue_depth` never showed more. -/
theorem backlog_consistent (maxQueued : Nat) (es : List (Event σ μ)) {xs : List (Stepped σ μ)}
    {c : ChannelMux σ μ} (h : (ChannelMux.init maxQueued).run es = some (xs, c)) :
    c.rotation.order.Nodup ∧
      (∀ s, s ∈ c.rotation.order ↔ s ∈ c.rotation.queues.keys) ∧
      (∀ s q, c.rotation.queues.get s = some q → q ≠ []) ∧
      c.rotation.skipped = [] ∧
      c.rotation.depth + c.hand.toList.length + (c.slots.value + c.slots.granted) = maxQueued ∧
      c.rotation.depth + c.hand.toList.length ≤ maxQueued ∧
      c.maxQueueDepth ≤ maxQueued := by
  have ho : c.rotation.Ordered := ChannelMux.run_ordered h Rotation.ordered_empty
  have hb := (ChannelMux.balanced_init maxQueued).run h
  have hslots : c.rotation.depth + c.hand.toList.length + (c.slots.value + c.slots.granted)
      = maxQueued := hb.slots
  refine ⟨ho.nodup, ho.mem_order_iff_mem_keys, ?_, ho.skipped_eq_nil, hslots, ?_, hb.depth⟩
  · rintro s q hq rfl
    exact ho.nonempty s hq
  · exact hslots ▸ Nat.le_add_right _ _

/-- Two slots, three senders on two streams, one more that gives up. The
third gets the slot of the first message while the writer is at the
second. -/
def saturated : List (Event Nat Nat) :=
  [.send 1 10, .send 1 11, .send 2 20, .send 2 21, .run, .cancel 1, .sent]

/-- One message is being sent and one slot is on its way to the sender;
then the sender queues its message and `send_msg` raises. -/
theorem backlog_consistent_saturated :
    (∃ xs c, (ChannelMux.init 2).run saturated = some (xs, c) ∧ c.hand = some (1, 11) ∧
      c.slots.waiters = [((2, 20), true)] ∧
      c.rotation.depth + c.hand.toList.length + (c.slots.value + c.slots.granted) = 2) ∧
    ∃ xs c, (ChannelMux.init 2).run (saturated ++ [.resume 0, .sendFailed]) = some (xs, c) ∧
      c.closed = true ∧ c.rotation.order = [2] ∧
      c.rotation.depth + c.hand.toList.length + (c.slots.value + c.slots.granted) = 2 := by
  refine ⟨⟨_, _, rfl, rfl, rfl, ?_⟩, ⟨_, _, rfl, rfl, rfl, ?_⟩⟩
  · exact (backlog_consistent 2 saturated rfl).2.2.2.2.1
  · exact (backlog_consistent 2 (saturated ++ [.resume 0, .sendFailed]) rfl).2.2.2.2.1

end Memnode.Mux
