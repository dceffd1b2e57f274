/-
Memnode.Mux.Channel — `ChannelMux` of `mux.py`, and what its writer does.

A mux has the queues and the rotation of its streams, a semaphore of
slots, and a writer task. `send` takes a slot and appends to the queue
of its stream; a call that finds no slot joins the waiters and appends
when its turn comes. The writer takes the next message of the rotation,
waits in `send_msg`, gives the slot back and goes on. `step` is one
atomic step of one of these tasks, from one await to the next, and says
what it queued, took and finished sending. A run is any list of events,
so every schedule of any number of `send` calls with the writer is one.

  §1 the mux and its steps;
  §2 the ways through the code (`step_cases`), and the four things a
     step can do with messages (`step_moves`);
  §3 what is queued on a stream is what was sent, then the writer's
     hand, then the queue (`per_stream_order`);
  §4 while a stream waits, the writer takes at most one message from
     every other stream (`round_robin_fair`).

Left out: `messages_received`, which only the read loop counts.
-/
import Memnode.Lib.RoundRobin
import Memnode.Lib.Semaphore

namespace Memnode.Mux

open Lib

/-! ## §1 The mux -/

/-- Where the writer task is. -/
inductive Writer (σ μ : Type) where
  /-- before a turn of its loop -/
  | ready
  /-- in `_wake.wait()` -/
  | waiting
  /-- in `channel.send_msg(m)`, with a message of stream `s` -/
  | sending (s : σ) (m : μ)
  | ended
  deriving DecidableEq

structure ChannelMux (σ μ : Type) where
  /-- `_queues` and `_order` -/
  rotation : Rotation σ μ
  wake : Bool
  slots : Semaphore (σ × μ)
  closed : Bool
  writer : Writer σ μ
  messagesSent : Nat
  maxQueueDepth : Nat

/-- What the tasks of a mux can do next. -/
inductive Event (σ μ : Type) where
  /-- a task calls `send` -/
  | send (s : σ) (m : μ)
  /-- the `i`-th waiting `send` has a slot and goes on -/
  | resume (i : Nat)
  /-- the `i`-th waiting `send` is cancelled -/
  | cancel (i : Nat)
  /-- the writer starts, or wakes up -/
  | run
  /-- `send_msg` returns -/
  | sent
  /-- `send_msg` raises -/
  | sendFailed
  | close
  /-- the writer is cancelled -/
  | writerCancelled

/-- A step, with the messages it queued, took from a queue and finished
sending. -/
structure Stepped (σ μ : Type) where
  mux : ChannelMux σ μ
  queued : Option (σ × μ)
  taken : Option (σ × μ)
  sent : Option (σ × μ)

namespace ChannelMux

variable {σ μ : Type} [DecidableEq σ]

def init (maxQueued : Nat) : ChannelMux σ μ :=
  ⟨Rotation.empty, false, Semaphore.init maxQueued, false, .ready, 0, 0⟩

/-- A step in which no message moves. -/
def still (c : ChannelMux σ μ) : Stepped σ μ := ⟨c, none, none, none⟩

/-- The end of `send`, once there is a slot. -/
def enqueue (c : ChannelMux σ μ) (s : σ) (m : μ) : Stepped σ μ :=
  let rotation := c.rotation.put s m
  ⟨{ c with
      rotation := rotation
      maxQueueDepth := max c.maxQueueDepth rotation.depth
      wake := true },
    some (s, m), none, none⟩

/-- The loop of the writer up to its next await, when it has just
finished sending `sent`. -/
def writerLoop (c : ChannelMux σ μ) (sent : Option (σ × μ)) : Stepped σ μ :=
  if c.closed then ⟨{ c with writer := .ended }, none, none, sent⟩
  else
    match c.rotation.take with
    | (none, rotation) =>
        ⟨{ c with rotation := rotation, wake := false, writer := .waiting }, none, none, sent⟩
    | (some (s, m), rotation) =>
        ⟨{ c with rotation := rotation, writer := .sending s m }, none, some (s, m), sent⟩

/-- One step; `none` if it cannot happen now. -/
def step (c : ChannelMux σ μ) : Event σ μ → Option (Stepped σ μ)
  | .send s m =>
      -- a closed mux raises `ConnectionError`
      if c.closed then some c.still
      else
        match c.slots.acquire (s, m) with
        | (slots, true) => some (({ c with slots := slots }).enqueue s m)
        | (slots, false) => some ({ c with slots := slots }).still
  | .resume i =>
      match c.slots.resume i with
      | none => none
      | some ((s, m), slots) => some (({ c with slots := slots }).enqueue s m)
  | .cancel i => (c.slots.abandon i).map (fun slots => ({ c with slots := slots }).still)
  | .run =>
      match c.writer with
      | .ready => some (c.writerLoop none)
      | .waiting => if c.wake then some (c.writerLoop none) else none
      | _ => none
  | .sent =>
      match c.writer with
      | .sending s m =>
          some (({ c with
            messagesSent := c.messagesSent + 1
            slots := c.slots.release }).writerLoop (some (s, m)))
      | _ => none
  | .sendFailed =>
      match c.writer with
      | .sending _ _ =>
          some ({ c with slots := c.slots.release, closed := true, writer := .ended }).still
      | _ => none
  | .close => if c.closed then some c.still else some ({ c with closed := true, wake := true }).still
  | .writerCancelled =>
      if !c.closed then none
      else
        match c.writer with
        | .ended => none
        | .sending _ _ => some ({ c with slots := c.slots.release, writer := .ended }).still
        | _ => some ({ c with writer := .ended }).still

/-- A run, with its steps. -/
def run (c : ChannelMux σ μ) : List (Event σ μ) → Option (List (Stepped σ μ) × ChannelMux σ μ)
  | [] => some ([], c)
  | e :: es =>
      match c.step e with
      | none => none
      | some x => (x.mux.run es).map (fun r => (x :: r.1, r.2))

/-- The message in the writer's hand. -/
def hand (c : ChannelMux σ μ) : Option (σ × μ) :=
  match c.writer with
  | .sending s m => some (s, m)
  | _ => none

end ChannelMux

variable {σ μ : Type} [DecidableEq σ]

/-- The message, if it is one of stream `s`. -/
def onStream (s : σ) : Option (σ × μ) → List μ
  | none => []
  | some (t, m) => if t = s then [m] else []

/-- What a run queues, takes from the queue and sends on stream `s`. -/
def queuedOn (s : σ) (xs : List (Stepped σ μ)) : List μ := xs.flatMap (fun x => onStream s x.queued)

def takenOn (s : σ) (xs : List (Stepped σ μ)) : List μ := xs.flatMap (fun x => onStream s x.taken)

def sentOn (s : σ) (xs : List (Stepped σ μ)) : List μ := xs.flatMap (fun x => onStream s x.sent)

/-! ## §2 What a step does -/

/-- The ways through the code for each event, with what was found there. -/
inductive Steps (c : ChannelMux σ μ) : Event σ μ → Stepped σ μ → Prop where
  /-- `send` raises `ConnectionError` -/
  | refuses (s : σ) (m : μ) (hc : c.closed = true) : Steps c (.send s m) c.still
  | queues (s : σ) (m : μ) (slots : Semaphore (σ × μ)) (hc : c.closed = false)
      (ha : c.slots.acquire (s, m) = (slots, true)) :
      Steps c (.send s m) (({ c with slots := slots }).enqueue s m)
  | waits (s : σ) (m : μ) (slots : Semaphore (σ × μ)) (hc : c.closed = false)
      (ha : c.slots.acquire (s, m) = (slots, false)) :
      Steps c (.send s m) ({ c with slots := slots }).still
  | resumes (i : Nat) (s : σ) (m : μ) (slots : Semaphore (σ × μ))
      (hr : c.slots.resume i = some ((s, m), slots)) :
      Steps c (.resume i) (({ c with slots := slots }).enqueue s m)
  | abandons (i : Nat) (slots : Semaphore (σ × μ)) (ha : c.slots.abandon i = some slots) :
      Steps c (.cancel i) ({ c with slots := slots }).still
  | serves (hw : c.writer = .ready ∨ c.writer = .waiting ∧ c.wake = true) :
      Steps c .run (c.writerLoop none)
  | sends (s : σ) (m : μ) (hw : c.writer = .sending s m) :
      Steps c .sent (({ c with
        messagesSent := c.messagesSent + 1
        slots := c.slots.release }).writerLoop (some (s, m)))
  | fails (s : σ) (m : μ) (hw : c.writer = .sending s m) :
      Steps c .sendFailed
        ({ c with slots := c.slots.release, closed := true, writer := .ended }).still
  | closes (hc : c.closed = false) :
      Steps c .close ({ c with closed := true, wake := true }).still
  | closesAgain (hc : c.closed = true) : Steps c .close c.still
  /-- the writer is cancelled inside `send_msg` -/
  | drops (s : σ) (m : μ) (hc : c.closed = true) (hw : c.writer = .sending s m) :
      Steps c .writerCancelled ({ c with slots := c.slots.release, writer := .ended }).still
  | stops (hc : c.closed = true) (hw : c.writer = .ready ∨ c.writer = .waiting) :
      Steps c .writerCancelled ({ c with writer := .ended }).still

/-- What a step of `c` can do with messages. -/
inductive Moves (c : ChannelMux σ μ) (x : Stepped σ μ) : Prop where
  /-- a message is appended to its queue -/
  | queues (s : σ) (m : μ) (hq : x.queued = some (s, m)) (ht : x.taken = none) (hs : x.sent = none)
      (hr : x.mux.rotation = c.rotation.put s m) (hh : x.mux.hand = c.hand)
  /-- the writer is done with what it had and takes the next message -/
  | serves (hq : x.queued = none) (ht : x.taken = c.rotation.take.1) (hs : x.sent = c.hand)
      (hr : x.mux.rotation = c.rotation.take.2) (hh : x.mux.hand = c.rotation.take.1)
  /-- no message moves -/
  | stays (hq : x.queued = none) (ht : x.taken = none) (hs : x.sent = none)
      (hr : x.mux.rotation = c.rotation) (hh : x.mux.hand = c.hand)
  /-- the writer ends and the mux is closed -/
  | ends (hc : x.mux.closed = true) (hq : x.queued = none) (ht : x.taken = none)
      (hr : x.mux.rotation = c.rotation)

namespace ChannelMux

theorem step_cases {c : ChannelMux σ μ} {e : Event σ μ} {x : Stepped σ μ}
    (h : c.step e = some x) : Steps c e x := by
  cases e with
  | send s m =>
    simp only [step] at h
    split at h
    · rename_i hc
      cases h
      exact .refuses s m hc
    · rename_i hc
      have hopen : c.closed = false := Bool.eq_false_iff.mpr hc
      split at h
      · rename_i slots ha
        cases h
        exact .queues s m slots hopen ha
      · rename_i slots ha
        cases h
        exact .waits s m slots hopen ha
  | resume i =>
    simp only [step] at h
    split at h
    · cases h
    · rename_i s m slots hr
      cases h
      exact .resumes i s m slots hr
  | cancel i =>
    simp only [step, Option.map_eq_some_iff] at h
    obtain ⟨slots, ha, rfl⟩ := h
    exact .abandons i slots ha
  | run =>
    simp only [step] at h
    split at h
    · rename_i hw
      cases h
      exact .serves (Or.inl hw)
    · rename_i hw
      split at h
      · rename_i hwake
        cases h
        exact .serves (Or.inr ⟨hw, hwake⟩)
      · cases h
    · cases h
  | sent =>
    simp only [step] at h
    split at h
    · rename_i s m hw
      cases h
      exact .sends s m hw
    · cases h
  | sendFailed =>
    simp only [step] at h
    split at h
    · rename_i s m hw
      cases h
      exact .fails s m hw
    · cases h
  | close =>
    simp only [step] at h
    split at h
    · rename_i hc
      cases h
      exact .closesAgain hc
    · rename_i hc
      cases h
      exact .closes (Bool.eq_false_iff.mpr hc)
  | writerCancelled =>
    simp only [step] at h
    split at h
    · cases h
    · rename_i hc
      have hclosed : c.closed = true := by simpa using hc
      cases hw : c.writer with
      | ended =>
        simp only [hw] at h
        cases h
      | sending s m =>
        simp only [hw] at h
        cases h
        exact .drops s m hclosed hw
      | ready =>
        simp only [hw] at h
        cases h
        exact .stops hclosed (Or.inl hw)
      | waiting =>
        simp only [hw] at h
        cases h
        exact .stops hclosed (Or.inr hw)

@[simp] theorem slots_writerLoop (c : ChannelMux σ μ) (sent : Option (σ × μ)) :
    (c.writerLoop sent).mux.slots = c.slots := by
  unfold writerLoop
  split
  · rfl
  · split <;> rfl

@[simp] theorem closed_writerLoop (c : ChannelMux σ μ) (sent : Option (σ × μ)) :
    (c.writerLoop sent).mux.closed = c.closed := by
  unfold writerLoop
  split
  · rfl
  · split <;> rfl

@[simp] theorem queued_writerLoop (c : ChannelMux σ μ) (sent : Option (σ × μ)) :
    (c.writerLoop sent).queued = none := by
  unfold writerLoop
  split
  · rfl
  · split <;> rfl

omit [DecidableEq σ] in
/-- A writer that does not send has nothing in its hand. -/
theorem hand_idle {c : ChannelMux σ μ} (hw : c.writer = .ready ∨ c.writer = .waiting) :
    c.hand = none := by
  rcases hw with hw | hw <;> simp [hand, hw]

theorem writerLoop_moves {c c' : ChannelMux σ μ} (hr : c'.rotation = c.rotation) :
    Moves c (c'.writerLoop c.hand) := by
  unfold writerLoop
  split
  · rename_i hclosed
    exact .ends hclosed rfl rfl hr
  · rw [hr]
    cases htake : c.rotation.take with
    | mk taken rotation =>
      cases taken with
      | none => exact .serves rfl (by rw [htake]) rfl (by rw [htake]) (by rw [htake]; rfl)
      | some sm => exact .serves rfl (by rw [htake]) rfl (by rw [htake]) (by rw [htake]; rfl)

theorem step_moves {c : ChannelMux σ μ} {e : Event σ μ} {x : Stepped σ μ}
    (h : c.step e = some x) : Moves c x := by
  cases step_cases h with
  | refuses | waits | abandons | closes | closesAgain => exact .stays rfl rfl rfl rfl rfl
  | queues s m | resumes i s m => exact .queues s m rfl rfl rfl rfl rfl
  | serves hw =>
    rw [← hand_idle (hw.imp_right And.left)]
    exact writerLoop_moves rfl
  | sends s m hw =>
    have hhand : c.hand = some (s, m) := by simp [hand, hw]
    rw [← hhand]
    exact writerLoop_moves rfl
  | fails => exact .ends rfl rfl rfl rfl
  | drops s m hc | stops hc => exact .ends hc rfl rfl rfl

/-- A closed mux stays closed. -/
theorem step_closed {c : ChannelMux σ μ} {e : Event σ μ} {x : Stepped σ μ}
    (h : c.step e = some x) (hc : c.closed = true) : x.mux.closed = true := by
  cases step_cases h with
  | serves | sends =>
    rw [closed_writerLoop]
    exact hc
  | closes | fails => rfl
  | refuses | queues | waits | resumes | abandons | closesAgain | drops | stops => exact hc

theorem step_ordered {c : ChannelMux σ μ} {e : Event σ μ} {x : Stepped σ μ}
    (h : c.step e = some x) (ho : c.rotation.Ordered) : x.mux.rotation.Ordered := by
  cases step_moves h with
  | queues s m hq ht hs hr hh =>
    rw [hr]
    exact ho.put s m
  | serves hq ht hs hr hh =>
    rw [hr]
    exact ho.take
  | stays hq ht hs hr hh =>
    rw [hr]
    exact ho
  | ends hc hq ht hr =>
    rw [hr]
    exact ho

/-- A run starts with a step, or is over. -/
theorem run_cons {c d : ChannelMux σ μ} {e : Event σ μ} {es : List (Event σ μ)}
    {xs : List (Stepped σ μ)} (h : c.run (e :: es) = some (xs, d)) :
    ∃ x xs', c.step e = some x ∧ x.mux.run es = some (xs', d) ∧ xs = x :: xs' := by
  simp only [run] at h
  split at h
  · cases h
  · rename_i x hx
    simp only [Option.map_eq_some_iff] at h
    obtain ⟨⟨xs', d'⟩, hrun, heq⟩ := h
    cases heq
    exact ⟨x, xs', hx, hrun, rfl⟩

/-- What every step keeps, and shows of the step it makes, a run keeps
and shows of all its steps. -/
theorem run_induction {P : ChannelMux σ μ → Prop} {Q : Stepped σ μ → Prop}
    (hstep : ∀ {c : ChannelMux σ μ} {e : Event σ μ} {x : Stepped σ μ}, c.step e = some x → P c →
      P x.mux ∧ Q x)
    {c d : ChannelMux σ μ} {es : List (Event σ μ)} {xs : List (Stepped σ μ)}
    (h : c.run es = some (xs, d)) (hc : P c) : P d ∧ ∀ x ∈ xs, Q x := by
  induction es generalizing c xs with
  | nil =>
    cases h
    exact ⟨hc, by simp⟩
  | cons e es ih =>
    obtain ⟨x, xs', hx, hrun, rfl⟩ := run_cons h
    obtain ⟨hkept, hshown⟩ := hstep hx hc
    obtain ⟨hd, hrest⟩ := ih hrun hkept
    exact ⟨hd, List.forall_mem_cons.mpr ⟨hshown, hrest⟩⟩

/-- The same for a property of the mux alone. -/
theorem run_invariant {P : ChannelMux σ μ → Prop}
    (hstep : ∀ {c : ChannelMux σ μ} {e : Event σ μ} {x : Stepped σ μ}, c.step e = some x → P c →
      P x.mux)
    {c d : ChannelMux σ μ} {es : List (Event σ μ)} {xs : List (Stepped σ μ)}
    (h : c.run es = some (xs, d)) (hc : P c) : P d :=
  (run_induction (Q := fun _ => True) (fun hx hp => ⟨hstep hx hp, trivial⟩) h hc).1

theorem run_ordered {c d : ChannelMux σ μ} {es : List (Event σ μ)} {xs : List (Stepped σ μ)}
    (h : c.run es = some (xs, d)) (ho : c.rotation.Ordered) : d.rotation.Ordered :=
  run_invariant (P := fun c => c.rotation.Ordered) step_ordered h ho

theorem run_closed {c d : ChannelMux σ μ} {es : List (Event σ μ)} {xs : List (Stepped σ μ)}
    (h : c.run es = some (xs, d)) (hc : c.closed = true) : d.closed = true :=
  run_invariant (P := fun c => c.closed = true) step_closed h hc

end ChannelMux

/-! ## §3 Order within a stream -/

/-- A step to an open mux keeps what is in the hand and in the queue of
a stream, plus what it queues, equal to what it sends, plus what is then
in the hand and in the queue. -/
theorem step_conserves {c : ChannelMux σ μ} {e : Event σ μ} {x : Stepped σ μ}
    (h : c.step e = some x) (ho : c.rotation.Ordered) (hopen : x.mux.closed = false) (s : σ) :
    onStream s c.hand ++ c.rotation.queue s ++ onStream s x.queued
        = onStream s x.sent ++ (onStream s x.mux.hand ++ x.mux.rotation.queue s) ∧
      onStream s c.hand ++ onStream s x.taken = onStream s x.sent ++ onStream s x.mux.hand := by
  cases ChannelMux.step_moves h with
  | queues t m hq ht hs hr hh =>
    rw [hq, ht, hs, hr, hh, Rotation.queue_put]
    by_cases hst : s = t
    · subst hst
      simp [onStream]
    · have hts : ¬ t = s := fun h => hst h.symm
      simp [onStream, hst, hts]
  | serves hq ht hs hr hh =>
    rw [hq, ht, hs, hr, hh]
    obtain ⟨_, hn⟩ | ⟨t, rest, m, q, r', _, _, htake, _, _⟩ := ho.take_cases
    · rw [hn]
      simp [onStream]
    · obtain ⟨hqueue, hother⟩ := ho.queue_take htake
      rw [htake]
      by_cases hst : s = t
      · subst hst
        simp [onStream, hqueue]
      · have hts : ¬ t = s := fun h => hst h.symm
        simp [onStream, hts, hother s hst]
  | stays hq ht hs hr hh =>
    rw [hq, ht, hs, hr, hh]
    simp [onStream]
  | ends hc hq ht hr =>
    rw [hc] at hopen
    cases hopen

/-- A run that ends in an open mux, likewise. -/
theorem run_conserves {c d : ChannelMux σ μ} {es : List (Event σ μ)} {xs : List (Stepped σ μ)}
    (h : c.run es = some (xs, d)) (ho : c.rotation.Ordered) (hopen : d.closed = false) (s : σ) :
    onStream s c.hand ++ c.rotation.queue s ++ queuedOn s xs
        = sentOn s xs ++ (onStream s d.hand ++ d.rotation.queue s) ∧
      onStream s c.hand ++ takenOn s xs = sentOn s xs ++ onStream s d.hand := by
  induction es generalizing c xs with
  | nil =>
    cases h
    simp [queuedOn, sentOn, takenOn]
  | cons e es ih =>
    obtain ⟨x, xs', hx, hrun, rfl⟩ := ChannelMux.run_cons h
    have hxopen : x.mux.closed = false := by
      cases hc : x.mux.closed with
      | false => rfl
      | true =>
        rw [ChannelMux.run_closed hrun hc] at hopen
        cases hopen
    obtain ⟨hstep, hstep'⟩ := step_conserves hx ho hxopen s
    obtain ⟨hrest, hrest'⟩ := ih hrun (ChannelMux.step_ordered hx ho)
    simp only [queuedOn, sentOn, takenOn, List.flatMap_cons] at hrest hrest' ⊢
    constructor
    · rw [← List.append_assoc, hstep, List.append_assoc, hrest, List.append_assoc]
    · rw [← List.append_assoc, hstep', List.append_assoc, hrest', List.append_assoc]

/-- While the mux is open, the messages handed to `send_msg` on a stream
are the first of those queued on it, and those queued are, in order, the
ones sent, the one in the writer's hand, and the ones in the queue. -/
theorem per_stream_order (maxQueued : Nat) (es : List (Event σ μ)) {xs : List (Stepped σ μ)}
    {c : ChannelMux σ μ} (h : (ChannelMux.init maxQueued).run es = some (xs, c))
    (hopen : c.closed = false) (s : σ) :
    takenOn s xs <+: queuedOn s xs ∧
      queuedOn s xs = sentOn s xs ++ onStream s c.hand ++ c.rotation.queue s := by
  obtain ⟨hqueued, htaken⟩ := run_conserves h Rotation.ordered_empty hopen s
  have hqueued' : queuedOn s xs = sentOn s xs ++ (onStream s c.hand ++ c.rotation.queue s) := hqueued
  have htaken' : takenOn s xs = sentOn s xs ++ onStream s c.hand := htaken
  rw [← List.append_assoc] at hqueued'
  refine ⟨?_, hqueued'⟩
  rw [hqueued', htaken']
  exact List.prefix_append _ _

/-- Two streams on a mux with two slots: the third `send` waits until
the first message is out. -/
def twoStreams : List (Event Nat Nat) :=
  [.send 1 10, .send 1 11, .send 2 20, .run, .sent, .resume 0]

theorem per_stream_order_twoStreams :
    ∃ xs c, (ChannelMux.init 2).run twoStreams = some (xs, c) ∧ c.closed = false ∧
      queuedOn 2 xs = [20] ∧ takenOn 1 xs <+: queuedOn 1 xs ∧
        queuedOn 1 xs = sentOn 1 xs ++ onStream 1 c.hand ++ c.rotation.queue 1 :=
  ⟨_, _, rfl, rfl, rfl, per_stream_order 2 twoStreams rfl rfl 1⟩

/-! ## §4 Fairness -/

/-- A step that takes nothing from a waiting stream leaves it waiting,
and takes one off what is ahead of it for each message it takes. -/
theorem step_ahead {c : ChannelMux σ μ} {e : Event σ μ} {x : Stepped σ μ}
    (h : c.step e = some x) (ho : c.rotation.Ordered) {s : σ} (hs : s ∈ c.rotation.order)
    (hnot : onStream s x.taken = []) (t : σ) :
    s ∈ x.mux.rotation.order ∧
      Rotation.ahead s t x.mux.rotation.order + (onStream t x.taken).length
        = Rotation.ahead s t c.rotation.order := by
  cases ChannelMux.step_moves h with
  | queues u m hq ht hsent hr hh =>
    rw [ht, hr]
    refine ⟨?_, by simpa [onStream] using ho.ahead_put hs t u m⟩
    rw [ho.order_put]
    split
    · exact hs
    · exact List.mem_append_left _ hs
  | serves hq ht hsent hr hh =>
    rw [ht] at hnot ⊢
    rw [hr]
    obtain ⟨hempty, hn⟩ | ⟨u, rest, m, q, r', horder, _, htake, horder', _⟩ := ho.take_cases
    · rw [hempty] at hs
      cases hs
    · rw [htake] at hnot ⊢
      have hu : u ≠ s := by
        intro hus
        simp [onStream, hus] at hnot
      have hrest : s ∈ rest := by
        rw [horder] at hs
        exact (List.mem_cons.mp hs).resolve_left (fun h => hu h.symm)
      refine ⟨by rw [horder']; exact List.mem_append_left _ hrest, ?_⟩
      rw [← ho.ahead_take hs htake hu t]
      by_cases hut : u = t <;> simp [onStream, hut]
  | stays hq ht hsent hr hh =>
    rw [ht, hr]
    exact ⟨hs, by simp [onStream]⟩
  | ends hc hq ht hr =>
    rw [ht, hr]
    exact ⟨hs, by simp [onStream]⟩

/-- A run that takes nothing from a waiting stream takes from another
stream no more than was ahead of it. -/
theorem run_ahead {c d : ChannelMux σ μ} {es : List (Event σ μ)} {xs : List (Stepped σ μ)}
    (h : c.run es = some (xs, d)) (ho : c.rotation.Ordered) {s : σ} (hs : s ∈ c.rotation.order)
    (hnot : takenOn s xs = []) (t : σ) :
    (takenOn t xs).length ≤ Rotation.ahead s t c.rotation.order := by
  induction es generalizing c xs with
  | nil =>
    cases h
    simp [takenOn]
  | cons e es ih =>
    obtain ⟨x, xs', hx, hrun, rfl⟩ := ChannelMux.run_cons h
    simp only [takenOn, List.flatMap_cons, List.append_eq_nil_iff] at hnot
    obtain ⟨hs', hahead⟩ := step_ahead hx ho hs hnot.1 t
    have hrest := ih hrun (ChannelMux.step_ordered hx ho) hs' hnot.2
    simp only [takenOn, List.flatMap_cons, List.length_append] at hrest ⊢
    omega

/-- From any moment at which stream `s` has messages, the writer takes
at most one message from any other stream before it takes one from `s`.
The moment may be the one at which `s` got its first message, or the one
after a take that left it with more. -/
theorem round_robin_fair (maxQueued : Nat) (es fs : List (Event σ μ))
    {xs ys : List (Stepped σ μ)} {c d : ChannelMux σ μ}
    (h : (ChannelMux.init maxQueued).run es = some (xs, c)) (h' : c.run fs = some (ys, d)) {s t : σ}
    (hs : c.rotation.queue s ≠ []) (hnot : takenOn s ys = []) :
    (takenOn t ys).length ≤ 1 := by
  have ho : c.rotation.Ordered := ChannelMux.run_ordered h Rotation.ordered_empty
  have horder : s ∈ c.rotation.order := (ho.mem_order s).mpr hs
  exact Nat.le_trans (run_ahead h' ho horder hnot t) (ho.ahead_le_one s t)

/-- Stream 1 is drained and refilled while stream 2 waits for its turn. -/
theorem round_robin_fair_refilled :
    ∃ xs c ys d,
      (ChannelMux.init 3).run [.send 1 10, .send 2 20] = some (xs, c) ∧
        c.run [.run, .send 1 11] = some (ys, d) ∧ c.rotation.queue 2 ≠ [] ∧
        takenOn 2 ys = [] ∧ takenOn 1 ys = [10] ∧ d.rotation.queue 1 = [11] ∧
        (takenOn 1 ys).length ≤ 1 :=
  ⟨_, _, _, _, rfl, rfl, by decide, rfl, rfl, rfl,
    round_robin_fair 3 [.send 1 10, .send 2 20] [.run, .send 1 11] rfl rfl (s := 2) (by decide) rfl⟩

end Memnode.Mux
