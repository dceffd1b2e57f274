/-
Memnode.Mux.Closing — what becomes of the senders when a mux closes.

`send` tests `_closed` before it waits for a slot and not after. A call
that waits when the mux closes is therefore in one of two places: it gets
the slot of the message in flight, which the writer gives back on its way
out, and then appends to a queue that nobody empties and returns as if
all were well; or it waits for the slot of a queued message, which
belongs to a writer that is gone.

  §1 what an event does to the slots, and that none is left lying;
  §2 a closed mux with no waiter fails every sender (`Quiet.run`);
  §3 a mux whose writer has ended and that has no slot keeps its waiters
     for good (`Stranded.run`);
  §4 `close_fails_senders_iff`: the senders are failed exactly when none
     of them was waiting at the moment of closing.
-/
import Memnode.Mux.Channel

namespace Memnode.Mux

open Lib

variable {σ μ : Type} [DecidableEq σ]

namespace ChannelMux

/-! ## §1 Slots -/

/-- No step leaves a slot lying. -/
theorem step_handed {c : ChannelMux σ μ} {e : Event σ μ} {x : Stepped σ μ}
    (h : c.step e = some x) (hs : c.slots.Handed) : x.mux.slots.Handed := by
  cases step_cases h with
  | queues s m slots hc ha | waits s m slots hc ha =>
    have hacq := hs.acquire (s, m)
    rw [ha] at hacq
    exact hacq
  | resumes i s m slots hr => exact Semaphore.handed_resume hr
  | abandons i slots ha => exact Semaphore.handed_abandon ha
  | serves =>
    rw [slots_writerLoop]
    exact hs
  | sends =>
    rw [slots_writerLoop]
    exact Semaphore.handed_release _
  | fails | drops => exact Semaphore.handed_release _
  | refuses | closes | closesAgain | stops => exact hs

theorem run_handed {c d : ChannelMux σ μ} {es : List (Event σ μ)} {xs : List (Stepped σ μ)}
    (h : c.run es = some (xs, d)) (hs : c.slots.Handed) : d.slots.Handed :=
  run_invariant (P := fun c => c.slots.Handed) step_handed h hs

/-- A mux closes by `close`, which leaves the slots alone, or by an error
of `send_msg`, which gives one back and ends the writer. -/
theorem step_closes {c : ChannelMux σ μ} {e : Event σ μ} {x : Stepped σ μ}
    (h : c.step e = some x) (hopen : c.closed = false) (hclosed : x.mux.closed = true) :
    (x.mux.slots = c.slots ∧ x.mux.writer = c.writer) ∨
      (x.mux.slots = c.slots.release ∧ x.mux.writer = .ended) := by
  cases step_cases h with
  | closes => exact Or.inl ⟨rfl, rfl⟩
  | fails => exact Or.inr ⟨rfl, rfl⟩
  | serves | sends =>
    rw [closed_writerLoop] at hclosed
    exact absurd (hopen.symm.trans hclosed) Bool.false_ne_true
  | refuses | queues | waits | resumes | abandons | closesAgain | drops | stops =>
    exact absurd (hopen.symm.trans hclosed) Bool.false_ne_true

/-! ## §2 A closed mux with no waiter -/

/-- The mux is closed and no `send` waits for a slot. -/
structure Quiet (c : ChannelMux σ μ) : Prop where
  closed : c.closed = true
  nobody : c.slots.waiters = []

theorem Quiet.step {c : ChannelMux σ μ} (hq : c.Quiet) {e : Event σ μ} {x : Stepped σ μ}
    (h : c.step e = some x) : x.mux.Quiet ∧ x.queued = none := by
  have hclosed : x.mux.closed = true := step_closed h hq.closed
  have hrelease := Semaphore.release_waiters_nil hq.nobody
  cases step_cases h with
  | queues s m slots hc | waits s m slots hc =>
    exact absurd (hc.symm.trans hq.closed) Bool.false_ne_true
  | resumes i s m slots hr => simp [Semaphore.resume, hq.nobody] at hr
  | abandons i slots ha => simp [Semaphore.abandon, hq.nobody] at ha
  | serves =>
    refine ⟨⟨hclosed, ?_⟩, queued_writerLoop _ _⟩
    rw [slots_writerLoop]
    exact hq.nobody
  | sends =>
    refine ⟨⟨hclosed, ?_⟩, queued_writerLoop _ _⟩
    rw [slots_writerLoop]
    exact hrelease
  | fails | drops => exact ⟨⟨hclosed, hrelease⟩, rfl⟩
  | refuses | closes | closesAgain | stops => exact ⟨⟨hclosed, hq.nobody⟩, rfl⟩

theorem Quiet.run {c d : ChannelMux σ μ} {es : List (Event σ μ)} {xs : List (Stepped σ μ)}
    (hq : c.Quiet) (h : c.run es = some (xs, d)) : d.Quiet ∧ ∀ x ∈ xs, x.queued = none :=
  run_induction (P := Quiet) (Q := fun x => x.queued = none) (fun hx hq => Quiet.step hq hx) h hq

/-! ## §3 Stranded senders -/

/-- The mux is closed, its writer has ended, and there is no slot. -/
structure Stranded (c : ChannelMux σ μ) : Prop where
  closed : c.closed = true
  ended : c.writer = .ended
  dry : c.slots.Dry

theorem Stranded.step {c : ChannelMux σ μ} (hs : c.Stranded) {e : Event σ μ} {x : Stepped σ μ}
    (h : c.step e = some x) : x.mux.Stranded ∧ x.queued = none := by
  have hclosed : x.mux.closed = true := step_closed h hs.closed
  cases step_cases h with
  | refuses | closesAgain => exact ⟨hs, rfl⟩
  | abandons i slots ha => exact ⟨⟨hclosed, hs.ended, hs.dry.abandon ha⟩, rfl⟩
  | resumes i s m slots hr =>
    rw [hs.dry.resume i] at hr
    cases hr
  | queues s m slots hc | waits s m slots hc | closes hc =>
    exact absurd (hc.symm.trans hs.closed) Bool.false_ne_true
  | sends s m hw | fails s m hw | drops s m hc hw =>
    rw [hs.ended] at hw
    cases hw
  | serves hw =>
    rw [hs.ended] at hw
    rcases hw with hw | ⟨hw, _⟩ <;> cases hw
  | stops hc hw =>
    rw [hs.ended] at hw
    rcases hw with hw | hw <;> cases hw

theorem Stranded.run {c d : ChannelMux σ μ} {es : List (Event σ μ)} {xs : List (Stepped σ μ)}
    (hs : c.Stranded) (h : c.run es = some (xs, d)) : ∀ x ∈ xs, x.queued = none :=
  (run_induction (P := Stranded) (Q := fun x => x.queued = none)
    (fun hx hs => Stranded.step hs hx) h hs).2

/-! ## §4 Closing -/

/-- The writer has ended, and a `send` waits for a slot that it gets in
no continuation. -/
structure Forsaken (c : ChannelMux σ μ) : Prop where
  ended : c.writer = .ended
  waiting : c.slots.waiters ≠ []
  never : ∀ fs ys d, c.run fs = some (ys, d) → ∀ y ∈ ys, y.queued = none

/-- What closing is for: from here on no `send` returns normally, nothing
is added to a queue, and no `send` is left waiting for good. A `send`
returns normally exactly in the step that adds its message. -/
def FailsSenders (c : ChannelMux σ μ) : Prop :=
  ∀ fs ys d, c.run fs = some (ys, d) → (∀ y ∈ ys, y.queued = none) ∧ ¬ d.Forsaken

theorem run_single {c : ChannelMux σ μ} {e : Event σ μ} {x : Stepped σ μ}
    (h : c.step e = some x) : c.run [e] = some ([x], x.mux) := by
  simp [ChannelMux.run, h]

/-- A closed mux comes to the end of its writer, with the waiters it has. -/
theorem exists_ended {c : ChannelMux σ μ} (hclosed : c.closed = true) :
    ∃ fs ys d, c.run fs = some (ys, d) ∧ d.closed = true ∧ d.writer = .ended ∧
      d.slots.waiting = c.slots.waiting := by
  cases hw : c.writer with
  | ended => exact ⟨[], [], c, rfl, hclosed, hw, rfl⟩
  | ready =>
    have hstep : c.step .writerCancelled = some ({ c with writer := .ended }).still := by
      simp [ChannelMux.step, hclosed, hw]
    exact ⟨_, _, _, run_single hstep, hclosed, rfl, rfl⟩
  | waiting =>
    have hstep : c.step .writerCancelled = some ({ c with writer := .ended }).still := by
      simp [ChannelMux.step, hclosed, hw]
    exact ⟨_, _, _, run_single hstep, hclosed, rfl, rfl⟩
  | sending s m =>
    have hstep : c.step .writerCancelled
        = some ({ c with slots := c.slots.release, writer := .ended }).still := by
      simp [ChannelMux.step, hclosed, hw]
    exact ⟨_, _, _, run_single hstep, hclosed, rfl, (Semaphore.release_spec c.slots).1⟩

/-- A waiter with a slot adds its message, closed or not. -/
theorem resume_queues {c : ChannelMux σ μ} {w : (σ × μ) × Bool} (hw : w ∈ c.slots.waiters)
    (hg : w.2 = true) : ∃ fs ys d, c.run fs = some (ys, d) ∧ ∃ y ∈ ys, y.queued ≠ none := by
  obtain ⟨i, hi⟩ := List.mem_iff_getElem?.mp hw
  obtain ⟨⟨s, m⟩, g⟩ := w
  obtain rfl : g = true := hg
  obtain ⟨x, hstep, hqueued⟩ : ∃ x, c.step (.resume i) = some x ∧ x.queued = some (s, m) := by
    simp [ChannelMux.step, Semaphore.resume, hi, enqueue]
  exact ⟨_, _, _, run_single hstep, x, List.mem_singleton_self x, by simp [hqueued]⟩

theorem run_append {c d : ChannelMux σ μ} {es : List (Event σ μ)} {xs : List (Stepped σ μ)}
    (h : c.run es = some (xs, d)) (fs : List (Event σ μ)) :
    c.run (es ++ fs) = (d.run fs).map (fun r => (xs ++ r.1, r.2)) := by
  induction es generalizing c xs with
  | nil =>
    cases h
    simp
  | cons e es ih =>
    obtain ⟨x, xs', hx, hrun, rfl⟩ := run_cons h
    simp only [List.cons_append, ChannelMux.run, hx, ih hrun, Option.map_map]
    rfl

/-- If a `send` waits in a closed mux, its end comes to no good. -/
theorem not_failsSenders {c : ChannelMux σ μ} (hclosed : c.closed = true)
    (hs : c.slots.Handed) (hwait : c.slots.waiting ≠ []) : ¬ c.FailsSenders := by
  intro hfails
  obtain ⟨fs, ys, d, hrun, hdclosed, hended, hwaiting⟩ := exists_ended hclosed
  have hne : d.slots.waiters ≠ [] := by
    intro hnil
    apply hwait
    rw [← hwaiting, Semaphore.waiting, hnil]
    rfl
  by_cases hgranted : ∃ w ∈ d.slots.waiters, w.2 = true
  · -- it has the slot the writer gave back
    obtain ⟨w, hw, hg⟩ := hgranted
    obtain ⟨gs, zs, d', hrun', z, hz, hqueued⟩ := resume_queues hw hg
    have hall := run_append hrun gs
    rw [hrun', Option.map_some] at hall
    exact hqueued ((hfails _ _ _ hall).1 z (List.mem_append_right _ hz))
  · -- no waiter has a slot, and the writer that could give one back is gone
    have hnone : ∀ w ∈ d.slots.waiters, w.2 = false := by
      intro w hw
      cases hg : w.2 with
      | false => rfl
      | true => exact absurd ⟨w, hw, hg⟩ hgranted
    have hstranded : d.Stranded := ⟨hdclosed, hended, (run_handed hrun hs).dry hne hnone⟩
    exact (hfails fs ys d hrun).2 ⟨hended, hne, fun _ _ _ hrun' => hstranded.run hrun'⟩

end ChannelMux

/-- **What closing does to the senders.** At the step in which a mux
closes, by `close` or by an error of `send_msg`, after any run: all later
sends are failed, no message is queued any more and no send waits for
good, if and only if no `send` was waiting for a slot then. -/
theorem close_fails_senders_iff (maxQueued : Nat) (es : List (Event σ μ))
    {xs : List (Stepped σ μ)} {c : ChannelMux σ μ} {e : Event σ μ} {x : Stepped σ μ}
    (h : (ChannelMux.init maxQueued).run es = some (xs, c)) (hopen : c.closed = false)
    (hstep : c.step e = some x) (hclosed : x.mux.closed = true) :
    x.mux.FailsSenders ↔ c.slots.waiters = [] := by
  have hs : x.mux.slots.Handed :=
    ChannelMux.step_handed hstep (ChannelMux.run_handed h (Semaphore.handed_init maxQueued))
  have hcloses := ChannelMux.step_closes hstep hopen hclosed
  constructor
  · intro hfails
    by_contra hne
    refine ChannelMux.not_failsSenders hclosed hs ?_ hfails
    have hwaiting : x.mux.slots.waiting = c.slots.waiting := by
      rcases hcloses with ⟨heq, _⟩ | ⟨heq, _⟩
      · rw [heq]
      · rw [heq, (Semaphore.release_spec _).1]
    rw [hwaiting]
    exact fun hnil => hne (List.map_eq_nil_iff.mp hnil)
  · intro hnil
    have hquiet : x.mux.Quiet := by
      refine ⟨hclosed, ?_⟩
      rcases hcloses with ⟨heq, _⟩ | ⟨heq, _⟩
      · rw [heq, hnil]
      · rw [heq]
        exact Semaphore.release_waiters_nil hnil
    intro fs ys d hrun
    obtain ⟨hd, hys⟩ := hquiet.run hrun
    exact ⟨hys, fun hforsaken => hforsaken.waiting hd.nobody⟩

/-- A mux with a message in its queue and nobody waiting. -/
theorem close_fails_senders_iff_idle :
    ∃ xs c x, (ChannelMux.init 2).run [.send 1 10] = some (xs, c) ∧ c.closed = false ∧
      c.step .close = some x ∧ x.mux.closed = true ∧ x.mux.FailsSenders :=
  ⟨_, _, _, rfl, rfl, rfl, rfl,
    (close_fails_senders_iff (σ := Nat) (μ := Nat) 2 [.send 1 10] rfl rfl (e := .close) rfl rfl).mpr
      rfl⟩

/-- One slot, one message in flight, two senders waiting when the mux is
closed: the first gets the slot of the message in flight, adds its
message and returns, the second waits for good. -/
theorem closed_mux_accepts :
    ∃ xs c ys d, (ChannelMux.init 1).run [.send 1 10, .send 1 11, .send 1 12, .run, .close]
        = some (xs, c) ∧ c.closed = true ∧
      c.run [.writerCancelled, .resume 0] = some (ys, d) ∧ (∃ y ∈ ys, y.queued = some (1, 11)) ∧
      d.rotation.queue 1 = [11] ∧ d.slots.waiting = [(1, 12)] ∧ d.Forsaken := by
  refine ⟨_, _, _, _, rfl, rfl, rfl, ⟨_, List.mem_cons_of_mem _ (List.mem_cons_self ..), rfl⟩, rfl, rfl, rfl,
    List.cons_ne_nil _ _, ?_⟩
  intro fs ys d hrun
  refine ChannelMux.Stranded.run ⟨rfl, rfl, rfl, ?_⟩ hrun
  intro w hw
  have hw' : w ∈ [(((1 : Nat), (12 : Nat)), false)] := hw
  rw [List.mem_singleton.mp hw']

end Memnode.Mux
