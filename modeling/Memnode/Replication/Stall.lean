/-
Memnode.Replication.Stall — two nodes that serve each other over bounded
muxes and a bounded transport.

`Network` lets a send happen whenever the sender gets to it. Here a
send needs a slot of the node's mux, the writer needs room in the
transport, and room comes only from the other read loop, which takes its
next message when the handler of the last one has returned. A handler
that streams a large reply waits for slots itself, so the wait can close
into a circle: both read loops in `_send_chunks` without a slot, both
writers without room (`Stalled`).

`both_stream_stalls` is a run that ends so. `Roomy` is what keeps a node
out of it: its mux and its side of the transport have room for all that
its handler still has to send and for every request waiting for a slot.
No step but the start of a reply and a new request in the mux can lose
that (`step_roomy`), so a run in which those leave one of the two nodes
roomy never stalls (`no_mutual_stall`).
-/
import Memnode.Mux.Channel
import Memnode.Replication.Network

namespace Memnode.Replication

open Lib Blocks Mux

/-! ## Stations -/

/-- Who sends through the mux: the handler of the read loop, or a call. -/
inductive Task where
  | reader
  | call (i : Nat)
  deriving DecidableEq

/-- A node with its mux, and the messages it has written that the other
side has not read. -/
structure Station (K : Type) where
  node : Node K
  mux : ChannelMux Int (Task × Message)
  link : List Message

namespace Station

variable {K : Type} [DecidableEq K] (I : Interpreter K)

/-- Before the first call. -/
def Fresh (maxQueued : Nat) (st : Station K) : Prop :=
  st.node.Fresh ∧ st.mux = .init maxQueued ∧ st.link = []

/-- The message a task is about to send. -/
def upcoming (n : Node K) : Task → Option (Int × Message)
  | .reader =>
      match n.handler with
      | .send _ m _ => some m
      | _ => none
  | .call i =>
      match (n.calls[i]?).map RemoteCall.phase with
      | some (.send _ m _) => some m
      | _ => none

/-- `send_to` has returned `ok` to a task. -/
def passed (n : Node K) (ok : Bool) (t : Task) : Node K :=
  let n' := { n with closed := !ok }
  let n'' :=
    match t with
    | .reader => n'.reply
    | .call i => n'.advance I i
  { n''.getD n' with outbox := [], closed := false }

/-- The tasks that wait for a slot. -/
def tasks (st : Station K) : List Task := st.mux.slots.waiting.map (fun w => w.2.1)

/-- A task calls `mux.send`. -/
def offer (st : Station K) (t : Task) : Option (Station K) :=
  match upcoming st.node t with
  | none => none
  | some (stream, m) =>
      if t ∈ st.tasks then none
      else if st.mux.closed then some { st with node := passed I st.node false t }
      else
        (st.mux.step (.send stream (t, m))).map (fun x =>
          { st with
            mux := x.mux
            node := if x.queued.isSome then passed I st.node true t else st.node })

/-- The `i`-th waiting send has a slot and returns. -/
def resume (st : Station K) (i : Nat) : Option (Station K) :=
  match st.mux.step (.resume i) with
  | none => none
  | some x =>
      match x.queued with
      | none => none
      | some (_, t, _) => some { st with mux := x.mux, node := passed I st.node true t }

/-- Call `i` goes on after its reply. -/
def go (st : Station K) (i : Nat) : Option (Station K) :=
  match upcoming st.node (.call i) with
  | some _ => none
  | none => (st.node.advance I i).map (fun n => { st with node := n })

/-- The writer starts, or wakes up. -/
def wake (st : Station K) : Option (Station K) :=
  (st.mux.step .run).map (fun x => { st with mux := x.mux })

/-- `send_msg` ends: the message is in the transport, which had room for
it, or its frame is too large and the writer stops. -/
def write (capacity : Nat) (st : Station K) : Option (Station K) :=
  match st.mux.writer with
  | .sending _ (_, m) =>
      if capacity ≤ st.link.length then none
      else
        match m.transmit I.packer with
        | some m' => (st.mux.step .sent).map (fun x => { st with mux := x.mux, link := st.link ++ [m'] })
        | none => (st.mux.step .sendFailed).map (fun x => { st with mux := x.mux })
  | _ => none

end Station

/-! ## Two of them -/

abbrev Pair (K : Type) := Side → Station K

inductive Act (K : Type) where
  /-- a client of side `s` calls `load_remote` -/
  | load (s : Side) (block : Option BlockId) (key : Option String) (reqId timeout : String)
  /-- a task of side `s` calls `mux.send` -/
  | offer (s : Side) (t : Task)
  /-- a waiting `mux.send` of side `s` goes on -/
  | resume (s : Side) (i : Nat)
  /-- call `i` of side `s` goes on -/
  | go (s : Side) (i : Nat)
  /-- call `i` of side `s` times out -/
  | timeout (s : Side) (i : Nat)
  /-- the handler of side `s` makes its BlockManager call -/
  | serve (s : Side) (sh : (stripes : Nat) → Shuffles stripes)
  /-- the writer of side `s` starts or wakes up -/
  | wake (s : Side)
  /-- the writer of side `s` gets a message out -/
  | write (s : Side)
  /-- the read loop of side `s` takes the next message -/
  | read (s : Side) (now : Rat)

namespace Pair

variable {K : Type} [DecidableEq K] (I : Interpreter K)

/-- The read loop of `s` takes the next message the other side wrote. -/
def read (net : Pair K) (s : Side) (now : Rat) : Option (Pair K) :=
  match (net s).node.handler, (net s.other).link with
  | .idle, m :: rest =>
      some (Function.update
        (Function.update net s.other { net s.other with link := rest }) s
        { net s with node := (net s).node.receive I now (net s.other).node.pubkey m })
  | _, _ => none

/-- One step; `none` if it cannot happen now. -/
def step (capacity : Nat) (net : Pair K) : Act K → Option (Pair K)
  | .load s block key reqId timeout =>
      some (Function.update net s
        { net s with
          node := (net s).node.call I (net s.other).node.pubkey (.load block key) reqId timeout })
  | .offer s t => ((net s).offer I t).map (Function.update net s)
  | .resume s i => ((net s).resume I i).map (Function.update net s)
  | .go s i => ((net s).go I i).map (Function.update net s)
  | .timeout s i =>
      ((net s).node.expire I i).map (fun n => Function.update net s { net s with node := n })
  | .serve s sh =>
      ((net s).node.serve sh).map (fun n => Function.update net s { net s with node := n })
  | .wake s => (net s).wake.map (Function.update net s)
  | .write s => ((net s).write I capacity).map (Function.update net s)
  | .read s now => net.read I s now

/-- The states of runs in which every step satisfies `ok`. -/
inductive Reachable (maxQueued capacity : Nat) (ok : Pair K → Act K → Pair K → Prop) :
    Pair K → Prop where
  | start {net : Pair K} : (∀ s, (net s).Fresh maxQueued) → Reachable maxQueued capacity ok net
  | step {net net' : Pair K} {e : Act K} :
      Reachable maxQueued capacity ok net → net.step I capacity e = some net' → ok net e net' →
      Reachable maxQueued capacity ok net'

end Pair

/-! ## Stalls -/

namespace Station

variable {K : Type}

/-- The read loop waits for a slot inside `_send_chunks`. -/
def waitsForSlot (st : Station K) : Bool :=
  (match st.node.handler with
    | .send _ (_, m) _ => m.type = .blockChunk
    | _ => false)
  && decide (Task.reader ∈ st.tasks) && st.mux.slots.available = 0

/-- The writer waits for room in the transport. -/
def waitsForRoom (capacity : Nat) (st : Station K) : Bool :=
  (match st.mux.writer with
    | .sending _ _ => true
    | _ => false)
  && capacity ≤ st.link.length

end Station

/-- Both read loops wait for a slot, and both writers for room. -/
def Stalled {K : Type} (capacity : Nat) (net : Pair K) : Prop :=
  ∀ s, (net s).waitsForSlot ∧ (net s).waitsForRoom capacity

/-! ## Room -/

/-- How many messages a handler has yet to send. -/
def Handler.remaining {K : Type} : Handler K → Nat
  | .send _ _ rest => rest.length + 1
  | _ => 0

@[simp] theorem Handler.remaining_send {K : Type} (reqId : Value) (m : Int × Message)
    (rest : List (Int × Message)) :
    (Handler.send reqId m rest : Handler K).remaining = rest.length + 1 := rfl

@[simp] theorem Handler.remaining_idle {K : Type} : (Handler.idle : Handler K).remaining = 0 := rfl

@[simp] theorem Handler.remaining_sending {K : Type} (reqId : Value) (ms : List (Int × Message)) :
    (Handler.sending reqId ms : Handler K).remaining = ms.length := by
  cases ms <;> rfl

theorem Node.advance_handler {K : Type} [DecidableEq K] (I : Interpreter K) {n n' : Node K} {i : Nat}
    (h : n.advance I i = some n') : n'.handler = n.handler := by
  unfold Node.advance at h
  split at h
  · cases h
  · split at h
    · split at h <;> cases h <;> rfl
    · simp only [Option.map_eq_some_iff] at h
      obtain ⟨reply, _, rfl⟩ := h
      unfold Node.onReply
      split
      · rfl
      · split
        · split <;> rfl
        · rfl
    · split at h <;> cases h <;> rfl
    · cases h

theorem Node.expire_handler {K : Type} [DecidableEq K] (I : Interpreter K) {n n' : Node K} {i : Nat}
    (h : n.expire I i = some n') : n'.handler = n.handler := by
  unfold Node.expire at h
  split at h
  · cases h
  · split at h <;> cases h <;> rfl

namespace Station

variable {K : Type}

/-- The calls that wait for a slot. -/
def clients (st : Station K) : Nat := st.tasks.countP (fun t => t ≠ .reader)

/-- What the mux and the transport can still take. -/
def room (capacity : Nat) (st : Station K) : Nat :=
  st.mux.slots.available + (capacity - st.link.length)

/-- There is room for what the handler still has to send and for the
requests that wait. -/
def Roomy (capacity : Nat) (st : Station K) : Prop :=
  st.node.handler.remaining + st.clients ≤ st.room capacity

/-- The handler waits for at most one slot, and only while it sends. -/
structure Tidy (st : Station K) : Prop where
  once : st.tasks.count .reader ≤ 1
  sends : Task.reader ∈ st.tasks → 0 < st.node.handler.remaining

variable [DecidableEq K] (I : Interpreter K)

theorem passed_call (n : Node K) (ok : Bool) (i : Nat) :
    (passed I n ok (.call i)).handler = n.handler := by
  cases h : ({ n with closed := !ok } : Node K).advance I i with
  | none => simp [passed, h]
  | some n' =>
    have hn' := Node.advance_handler I h
    simpa [passed, h] using hn'

/-- The handler has one message less to send. -/
theorem passed_reader {n : Node K} (h : 0 < n.handler.remaining) :
    (passed I n true .reader).handler.remaining + 1 = n.handler.remaining := by
  cases hh : n.handler with
  | send reqId m rest => simp [passed, Node.reply, hh]
  | _ => simp [hh, Handler.remaining] at h

omit [DecidableEq K] in
theorem upcoming_reader {n : Node K} {m : Int × Message} (h : upcoming n .reader = some m) :
    0 < n.handler.remaining := by
  simp only [upcoming] at h
  split at h
  · rename_i hh
    simp [hh]
  · cases h

theorem passed_reader_closed (n : Node K) :
    (passed I n false .reader).handler.remaining ≤ n.handler.remaining := by
  cases hh : n.handler <;> simp [passed, Node.reply, hh]

/-- What a send that gets its slot at once, or waits, does to a station. -/
theorem offer_cases {st st' : Station K} {t : Task} (h : st.offer I t = some st') :
    t ∉ st.tasks ∧ (∃ m, upcoming st.node t = some m) ∧
      ((st.mux.closed = true ∧ st' = { st with node := passed I st.node false t }) ∨
        (st'.tasks = st.tasks ∧ st'.mux.slots.available + 1 = st.mux.slots.available ∧
          st'.link = st.link ∧ st'.node = passed I st.node true t) ∨
        (st'.tasks = st.tasks ++ [t] ∧ st'.mux.slots.available = st.mux.slots.available ∧
          st'.link = st.link ∧ st'.node = st.node)) := by
  unfold offer at h
  split at h
  · cases h
  rename_i stream m hup
  split at h
  · cases h
  rename_i ht
  refine ⟨ht, ⟨_, hup⟩, ?_⟩
  split at h
  · rename_i hclosed
    cases h
    exact Or.inl ⟨hclosed, rfl⟩
  rename_i hopen
  right
  simp only [ChannelMux.step, hopen, Option.map_eq_some_iff] at h
  obtain ⟨x, hx, rfl⟩ := h
  cases hacq : st.mux.slots.acquire (stream, (t, m)) with
  | mk slots got =>
    simp only [hacq] at hx
    cases got with
    | true =>
      obtain ⟨hwaiting, havailable⟩ := Semaphore.acquire_true hacq
      cases hx
      exact Or.inl ⟨by simp [tasks, ChannelMux.enqueue, hwaiting], havailable, rfl, rfl⟩
    | false =>
      obtain ⟨hwaiting, havailable⟩ := Semaphore.acquire_false hacq
      cases hx
      exact Or.inr ⟨by simp [tasks, ChannelMux.still, hwaiting], havailable, rfl, rfl⟩

theorem resume_cases {st st' : Station K} {i : Nat} (h : st.resume I i = some st') :
    ∃ t, st.tasks.Perm (t :: st'.tasks) ∧
      st'.mux.slots.available + 1 = st.mux.slots.available ∧ st'.link = st.link ∧
      st'.node = passed I st.node true t := by
  simp only [resume, ChannelMux.step] at h
  cases hres : st.mux.slots.resume i with
  | none => simp [hres] at h
  | some r =>
    obtain ⟨⟨stream, t, m⟩, slots⟩ := r
    simp only [hres, ChannelMux.enqueue] at h
    cases h
    obtain ⟨hperm, havailable⟩ := Semaphore.resume_spec hres
    have hmap := hperm.map (fun w => w.2.1)
    exact ⟨t, hmap, havailable, rfl, rfl⟩

omit [DecidableEq K] in
/-- The writer gives back a slot for every place it uses in the transport. -/
theorem write_cases {capacity : Nat} {st st' : Station K} (h : st.write I capacity = some st') :
    st'.tasks = st.tasks ∧ st'.node = st.node ∧ st.link.length < capacity ∧
      st'.mux.slots.available = st.mux.slots.available + 1 ∧
      st'.link.length ≤ st.link.length + 1 := by
  unfold write at h
  split at h
  · rename_i stream t m hw
    split at h
    · cases h
    rename_i hroom
    have hspec := Semaphore.release_spec st.mux.slots
    split at h
    · simp only [ChannelMux.step, hw, Option.map_some, Option.some.injEq] at h
      subst h
      unfold ChannelMux.writerLoop
      split
      · exact ⟨by simp [tasks, hspec.1], rfl, by omega, hspec.2, by simp⟩
      · split <;> exact ⟨by simp [tasks, hspec.1], rfl, by omega, hspec.2, by simp⟩
    · simp only [ChannelMux.step, hw, Option.map_some, Option.some.injEq] at h
      subst h
      exact ⟨by simp [tasks, ChannelMux.still, hspec.1], rfl, by omega, hspec.2, by simp⟩
  · cases h

omit [DecidableEq K] in
theorem wake_cases {st st' : Station K} (h : st.wake = some st') :
    st'.mux.slots = st.mux.slots ∧ st'.node = st.node ∧ st'.link = st.link := by
  simp only [wake, ChannelMux.step, ChannelMux.writerLoop, Option.map_eq_some_iff] at h
  obtain ⟨x, hx, rfl⟩ := h
  split at hx
  · cases hx
    split
    · exact ⟨rfl, rfl, rfl⟩
    · split <;> exact ⟨rfl, rfl, rfl⟩
  · split at hx
    · cases hx
      split
      · exact ⟨rfl, rfl, rfl⟩
      · split <;> exact ⟨rfl, rfl, rfl⟩
    · cases hx
  · cases hx

theorem go_cases {st st' : Station K} {i : Nat} (h : st.go I i = some st') :
    st'.mux = st.mux ∧ st'.node.handler = st.node.handler ∧ st'.link = st.link := by
  unfold go at h
  split at h
  · cases h
  · simp only [Option.map_eq_some_iff] at h
    obtain ⟨n, hn, rfl⟩ := h
    exact ⟨rfl, Node.advance_handler I hn, rfl⟩

omit [DecidableEq K] in
/-- A station with the same tasks waiting and the same handler. -/
theorem Tidy.congr {st st' : Station K} (h : st.Tidy) (ht : st'.tasks = st.tasks)
    (hh : st'.node.handler = st.node.handler) : st'.Tidy :=
  ⟨by rw [ht]; exact h.once, by rw [ht, hh]; exact h.sends⟩

theorem Tidy.offer {st st' : Station K} {t : Task} (htidy : st.Tidy)
    (h : st.offer I t = some st') : st'.Tidy := by
  obtain ⟨hnot, ⟨m, hup⟩, hcases⟩ := offer_cases I h
  cases t with
  | call i =>
    rcases hcases with ⟨_, rfl⟩ | ⟨htasks, _, _, hnode⟩ | ⟨htasks, _, _, hnode⟩
    · exact htidy.congr rfl (passed_call I _ _ i)
    · exact htidy.congr htasks (by rw [hnode]; exact passed_call I _ _ i)
    · refine ⟨?_, ?_⟩
      · rw [htasks]
        simpa using htidy.once
      · rw [htasks, hnode]
        simpa using htidy.sends
  | reader =>
    rcases hcases with ⟨_, rfl⟩ | ⟨htasks, _, _, hnode⟩ | ⟨htasks, _, _, hnode⟩
    · exact ⟨htidy.once, fun hmem => absurd hmem hnot⟩
    · exact ⟨by rw [htasks]; exact htidy.once, fun hmem => absurd (htasks ▸ hmem) hnot⟩
    · refine ⟨?_, fun _ => by rw [hnode]; exact upcoming_reader hup⟩
      rw [htasks, List.count_append, List.count_eq_zero_of_not_mem hnot]
      simp

theorem Tidy.resume {st st' : Station K} {i : Nat} (htidy : st.Tidy)
    (h : st.resume I i = some st') : st'.Tidy := by
  obtain ⟨t, hperm, _, _, hnode⟩ := resume_cases I h
  have hcount := hperm.count_eq .reader
  have honce := htidy.once
  cases t with
  | call j =>
    simp only [List.count_cons, beq_iff_eq, reduceCtorEq, if_false] at hcount
    refine ⟨by omega, ?_⟩
    intro hmem
    rw [hnode, passed_call]
    exact htidy.sends (hperm.mem_iff.mpr (List.mem_cons_of_mem _ hmem))
  | reader =>
    simp only [List.count_cons_self] at hcount
    have hnone : Task.reader ∉ st'.tasks := List.count_eq_zero.mp (by omega)
    exact ⟨by omega, fun hmem => absurd hmem hnone⟩

/-- The handler's own sends keep the room for what is left. -/
theorem Roomy.offer_reader {capacity : Nat} {st st' : Station K} (hroomy : st.Roomy capacity)
    (h : st.offer I .reader = some st') : st'.Roomy capacity := by
  obtain ⟨_, ⟨m, hup⟩, hcases⟩ := offer_cases I h
  have hsend := upcoming_reader hup
  unfold Roomy room clients at *
  rcases hcases with ⟨_, rfl⟩ | ⟨htasks, havail, hlink, hnode⟩ | ⟨htasks, havail, hlink, hnode⟩
  · have hless := passed_reader_closed I st.node
    simp only [tasks] at hroomy ⊢
    omega
  · have hless := passed_reader I hsend
    rw [htasks, hlink, hnode]
    omega
  · rw [htasks, hlink, hnode, List.countP_append]
    simp only [List.countP_cons, List.countP_nil, ne_eq, not_true_eq_false, decide_false]
    simp only [ne_eq] at hroomy
    rw [havail]
    exact hroomy

/-- A waiting send gets its slot. -/
theorem Roomy.resume {capacity : Nat} {st st' : Station K} {i : Nat} (hroomy : st.Roomy capacity)
    (htidy : st.Tidy) (h : st.resume I i = some st') : st'.Roomy capacity := by
  obtain ⟨t, hperm, havail, hlink, hnode⟩ := resume_cases I h
  have hcount := hperm.countP_eq (fun t => t ≠ .reader)
  unfold Roomy room clients at *
  cases t with
  | call j =>
    have hhandler := passed_call I st.node true j
    rw [List.countP_cons_of_pos (by simp)] at hcount
    rw [hlink, hnode, hhandler]
    omega
  | reader =>
    have hsend := htidy.sends (hperm.mem_iff.mpr (List.mem_cons_self ..))
    have hless := passed_reader I hsend
    rw [List.countP_cons_of_neg (by simp)] at hcount
    rw [hlink, hnode]
    omega

omit [DecidableEq K] in
theorem Roomy.write {capacity : Nat} {st st' : Station K} (hroomy : st.Roomy capacity)
    (h : st.write I capacity = some st') : st'.Roomy capacity := by
  obtain ⟨htasks, hnode, hlt, havail, hlink⟩ := write_cases I h
  unfold Roomy room clients at *
  rw [htasks, hnode, havail]
  omega

omit [DecidableEq K] in
/-- A station with the same slots and handler, and no more written. -/
theorem Roomy.congr {capacity : Nat} {st st' : Station K} (hroomy : st.Roomy capacity)
    (hs : st'.mux.slots = st.mux.slots) (hh : st'.node.handler = st.node.handler)
    (hl : st'.link.length ≤ st.link.length) : st'.Roomy capacity := by
  unfold Roomy room clients tasks at *
  rw [hs, hh]
  omega

end Station

/-! ## Runs -/

/-- The acts that give a handler something to send, or a request to the
mux. -/
def Act.starts {K : Type} : Act K → Bool
  | .offer _ (.call _) => true
  | .serve _ _ => true
  | .read _ _ => true
  | _ => false

/-- What an act can do to a station. -/
inductive Station.Moved {K : Type} [DecidableEq K] (I : Interpreter K) (capacity : Nat) (e : Act K)
    (st st' : Station K) : Prop where
  | offered (t : Task) (h : st.offer I t = some st') (ht : t ≠ .reader → e.starts)
  | resumed (i : Nat) (h : st.resume I i = some st')
  | wrote (h : st.write I capacity = some st')
  | kept (hs : st'.mux.slots = st.mux.slots) (hh : st'.node.handler = st.node.handler)
      (hl : st'.link.length ≤ st.link.length)
  | started (hs : st'.mux.slots = st.mux.slots) (hh : st.node.handler.remaining = 0)
      (he : e.starts)

namespace Pair

variable {K : Type} [DecidableEq K] (I : Interpreter K)

/-- A step of one side moves that side and keeps the other. -/
theorem update_moved {capacity : Nat} {net : Pair K} {e : Act K} {t : Side} (st : Station K)
    (h : Station.Moved I capacity e (net t) st) (s : Side) :
    Station.Moved I capacity e (net s) (Function.update net t st s) := by
  by_cases hs : s = t
  · subst hs
    rw [Function.update_self]
    exact h
  · rw [Function.update_of_ne hs]
    exact .kept rfl rfl (Nat.le_refl _)

theorem step_moved {capacity : Nat} {net net' : Pair K} {e : Act K}
    (h : net.step I capacity e = some net') (s : Side) :
    Station.Moved I capacity e (net s) (net' s) := by
  cases e with
  | load t block key reqId timeout =>
    simp only [step, Option.some.injEq] at h
    subst h
    refine update_moved I _ ?_ s
    exact .kept rfl rfl (Nat.le_refl _)
  | offer t task =>
    simp only [step, Option.map_eq_some_iff] at h
    obtain ⟨st, hst, rfl⟩ := h
    refine update_moved I st (.offered task hst ?_) s
    intro htask
    cases task with
    | reader => exact absurd rfl htask
    | call i => rfl
  | resume t i =>
    simp only [step, Option.map_eq_some_iff] at h
    obtain ⟨st, hst, rfl⟩ := h
    exact update_moved I st (.resumed i hst) s
  | go t i =>
    simp only [step, Option.map_eq_some_iff] at h
    obtain ⟨st, hst, rfl⟩ := h
    obtain ⟨hmux, hhandler, hlink⟩ := Station.go_cases I hst
    exact update_moved I st (.kept (by rw [hmux]) hhandler (by rw [hlink])) s
  | timeout t i =>
    simp only [step, Option.map_eq_some_iff] at h
    obtain ⟨n, hn, rfl⟩ := h
    have hhandler := Node.expire_handler I hn
    exact update_moved I { net t with node := n } (.kept rfl hhandler (Nat.le_refl _)) s
  | serve t sh =>
    simp only [step, Option.map_eq_some_iff] at h
    obtain ⟨n, hn, rfl⟩ := h
    refine update_moved I { net t with node := n } (.started rfl ?_ rfl) s
    cases hh : (net t).node.handler with
    | send reqId m rest => simp [Node.serve, hh, Handler.serve] at hn
    | _ => rfl
  | wake t =>
    simp only [step, Option.map_eq_some_iff] at h
    obtain ⟨st, hst, rfl⟩ := h
    obtain ⟨hslots, hnode, hlink⟩ := Station.wake_cases hst
    exact update_moved I st (.kept hslots (by rw [hnode]) (by rw [hlink])) s
  | write t =>
    simp only [step, Option.map_eq_some_iff] at h
    obtain ⟨st, hst, rfl⟩ := h
    exact update_moved I st (.wrote hst) s
  | read t now =>
    simp only [step, read] at h
    split at h
    · rename_i m rest hidle hlink
      cases h
      by_cases hs : s = t
      · subst hs
        rw [Function.update_self]
        exact .started rfl (by rw [hidle]; rfl) rfl
      · rw [Function.update_of_ne hs]
        refine update_moved I { net t.other with link := rest } (.kept rfl rfl ?_) s
        simp [hlink]
    · cases h

theorem step_tidy {capacity : Nat} {net net' : Pair K} {e : Act K}
    (h : net.step I capacity e = some net') (htidy : ∀ s, (net s).Tidy) (s : Side) :
    (net' s).Tidy := by
  have hs := htidy s
  cases step_moved I h s with
  | offered t hoffer ht => exact hs.offer I hoffer
  | resumed i hresume => exact hs.resume I hresume
  | wrote hwrite =>
    obtain ⟨htasks, hnode, _⟩ := Station.write_cases I hwrite
    exact hs.congr htasks (by rw [hnode])
  | kept hslots hhandler hlink =>
    exact hs.congr (by unfold Station.tasks; rw [hslots]) hhandler
  | started hslots hhandler he =>
    have htasks : (net' s).tasks = (net s).tasks := by unfold Station.tasks; rw [hslots]
    -- the handler was not sending, so it waits for no slot
    refine ⟨by rw [htasks]; exact hs.once, ?_⟩
    intro hmem
    rw [htasks] at hmem
    exact absurd (hs.sends hmem) (by omega)

/-- Only an act that starts something can take the room of a node. -/
theorem step_roomy {capacity : Nat} {net net' : Pair K} {e : Act K}
    (h : net.step I capacity e = some net') (he : e.starts = false) {s : Side}
    (htidy : (net s).Tidy) (hroomy : (net s).Roomy capacity) : (net' s).Roomy capacity := by
  cases step_moved I h s with
  | offered t hoffer ht =>
    cases t with
    | reader => exact hroomy.offer_reader I hoffer
    | call i =>
      have hstarts := ht (by simp)
      rw [he] at hstarts
      cases hstarts
  | resumed i hresume => exact hroomy.resume I htidy hresume
  | wrote hwrite => exact hroomy.write I hwrite
  | kept hslots hhandler hlink => exact hroomy.congr hslots hhandler hlink
  | started hslots hhandler hstarts =>
    rw [he] at hstarts
    cases hstarts

/-- One of the two nodes has room for all it has to send. -/
def Spare (capacity : Nat) (net : Pair K) : Prop := ∃ s, (net s).Roomy capacity

/-- A read loop takes a message or starts a reply, and a request goes to
the mux, only when that leaves one of the two nodes roomy. -/
def StartsWithRoom (capacity : Nat) (_ : Pair K) (e : Act K) (net' : Pair K) : Prop :=
  e.starts → net'.Spare capacity

theorem Reachable.spare {maxQueued capacity : Nat} {net : Pair K}
    (h : Reachable I maxQueued capacity (StartsWithRoom capacity) net) :
    (∀ s, (net s).Tidy) ∧ net.Spare capacity := by
  induction h with
  | @start net hfresh =>
    have htasks : ∀ s, (net s).tasks = [] := by
      intro s
      unfold Station.tasks
      rw [(hfresh s).2.1]
      rfl
    refine ⟨fun s => ⟨by rw [htasks]; simp, by rw [htasks]; simp⟩, .left, ?_⟩
    obtain ⟨⟨_, _, hidle, _⟩, _, _⟩ := hfresh .left
    unfold Station.Roomy Station.clients
    rw [htasks, hidle]
    exact Nat.zero_le _
  | @step net net' e _ hstep hok ih =>
    obtain ⟨htidy, s, hroomy⟩ := ih
    refine ⟨step_tidy I hstep htidy, ?_⟩
    cases he : e.starts with
    | true => exact hok he
    | false => exact ⟨s, step_roomy I hstep he (htidy s) hroomy⟩

end Pair

/-- A roomy node is not in a stall. -/
theorem Station.Roomy.not_stalled {K : Type} {capacity : Nat} {st : Station K}
    (h : st.Roomy capacity) (hslot : st.waitsForSlot) : ¬ st.waitsForRoom capacity := by
  intro hroom
  simp only [Station.waitsForSlot, Bool.and_eq_true, decide_eq_true_eq] at hslot
  simp only [Station.waitsForRoom, Bool.and_eq_true, decide_eq_true_eq] at hroom
  obtain ⟨⟨hchunk, _⟩, havail⟩ := hslot
  unfold Station.Roomy Station.room at h
  cases hh : st.node.handler with
  | send reqId m rest =>
    rw [hh, Handler.remaining_send] at h
    omega
  | _ => simp [hh] at hchunk

/-- Two nodes that load from each other never stall, as long as replies
start and requests are queued with room to spare at one of them. -/
theorem no_mutual_stall {K : Type} [DecidableEq K] (I : Interpreter K) (maxQueued capacity : Nat)
    {net : Pair K}
    (h : Pair.Reachable I maxQueued capacity (Pair.StartsWithRoom capacity) net) :
    ¬ Stalled capacity net := by
  intro hstalled
  obtain ⟨s, hroomy⟩ := (h.spare I).2
  exact hroomy.not_stalled (hstalled s).1 (hstalled s).2

/-! ## Two runs -/

namespace Pair

variable {K : Type} [DecidableEq K] (I : Interpreter K)

omit [DecidableEq K] in
theorem spare_iff (capacity : Nat) (net : Pair K) :
    ((net .left).node.handler.remaining + (net .left).clients ≤ (net .left).room capacity ∨
      (net .right).node.handler.remaining + (net .right).clients ≤ (net .right).room capacity) ↔
      net.Spare capacity := by
  constructor
  · rintro (h | h)
    · exact ⟨.left, h⟩
    · exact ⟨.right, h⟩
  · rintro ⟨s, h⟩
    cases s with
    | left => exact Or.inl h
    | right => exact Or.inr h

instance (capacity : Nat) (net : Pair K) : Decidable (net.Spare capacity) :=
  decidable_of_iff _ (spare_iff capacity net)

/-- `StartsWithRoom` as a check. -/
def startsWithRoom (capacity : Nat) (e : Act K) (net' : Pair K) : Bool :=
  decide (e.starts → net'.Spare capacity)

omit [DecidableEq K] in
theorem startsWithRoom_ok (capacity : Nat) (net : Pair K) (e : Act K) (net' : Pair K)
    (h : startsWithRoom capacity e net' = true) : StartsWithRoom capacity net e net' := by
  have himp : e.starts = true → net'.Spare capacity := of_decide_eq_true h
  exact himp

/-- A run, as long as its steps can happen and pass the check. -/
def run (capacity : Nat) (check : Act K → Pair K → Bool) (net : Pair K) :
    List (Act K) → Option (Pair K)
  | [] => some net
  | e :: es =>
      match net.step I capacity e with
      | none => none
      | some net' => if check e net' then net'.run capacity check es else none

theorem Reachable.run {maxQueued capacity : Nat} {ok : Pair K → Act K → Pair K → Prop}
    {check : Act K → Pair K → Bool} (hcheck : ∀ net e net', check e net' = true → ok net e net')
    {es : List (Act K)} {net net' : Pair K} (h : Reachable I maxQueued capacity ok net)
    (hrun : net.run I capacity check es = some net') : Reachable I maxQueued capacity ok net' := by
  induction es generalizing net with
  | nil =>
    cases hrun
    exact h
  | cons e es ih =>
    simp only [Pair.run] at hrun
    split at hrun
    · cases hrun
    · rename_i mid hmid
      split at hrun
      · rename_i hpass
        exact ih (h.step hmid (hcheck _ _ _ hpass)) hrun
      · cases hrun

end Pair

/-- Two nodes with a block of three bytes each, which they stream byte by byte. -/
def streamers (maxQueued : Nat) : Pair (Option String ⊕ Int) := fun s =>
  { node :=
      { cfg := ⟨100, 2, Nat.two_pos, fun _ => 0⟩
        chunking := ⟨1, Nat.one_pos, 0⟩
        pubkey :=
          match s with
          | .left => "aaaa"
          | .right => "bbbb"
        manager :=
          ((BlockManager.init _).store (Shuffles.identity 2) ⟨[1, 2, 3], .pinned, none⟩).1
        coordinator := .init
        calls := []
        handler := .idle
        outbox := []
        closed := false
        log := []
        commits := [] }
    mux := .init maxQueued
    link := [] }

theorem fresh_streamers (maxQueued : Nat) (s : Side) : (streamers maxQueued s).Fresh maxQueued :=
  ⟨⟨rfl, rfl, rfl, rfl, rfl, rfl, rfl, (AnyKey.store_eq (AnyKey.hashable_init _) _ rfl).2⟩, rfl, rfl⟩

/-- Side `s` asks for the block of the other side, and the request is written. -/
def asks (s : Side) (reqId : String) : List (Act (Option String ⊕ Int)) :=
  [.load s (some 1) none reqId "30.0", .offer s (.call 0), .wake s, .write s]

/-- Side `s` takes the request and loads the block. -/
def answers (s : Side) : List (Act (Option String ⊕ Int)) :=
  [.read s 0, .serve s Shuffles.identity]

/-- The header of the reply is written, the first chunk is taken by the
writer and the second offered to the mux. -/
def streams (s : Side) : List (Act (Option String ⊕ Int)) :=
  [.offer s .reader, .wake s, .write s, .offer s .reader, .wake s, .offer s .reader]

/-- Both sides ask, and both stream their reply. -/
def crossing : List (Act (Option String ⊕ Int)) :=
  asks .left "r1" ++ asks .right "r2" ++ answers .left ++ answers .right ++ streams .left
    ++ streams .right

/-- With four slots each reply starts with room for all of it. -/
theorem no_mutual_stall_fourSlots :
    ∃ net, Pair.Reachable plainKeys 4 1 (Pair.StartsWithRoom 1) net ∧
      (∀ s, (net s).waitsForRoom 1) ∧ ¬ Stalled 1 net := by
  have hrun : ((streamers 4).run plainKeys 1 (Pair.startsWithRoom 1) crossing).map
      (fun net => ((net .left).waitsForRoom 1, (net .right).waitsForRoom 1))
        = some (true, true) := by
    decide +kernel
  obtain ⟨net, hrun, hwaits⟩ := Option.map_eq_some_iff.mp hrun
  have hreach : Pair.Reachable plainKeys 4 1 (Pair.StartsWithRoom 1) net :=
    (Pair.Reachable.start (fresh_streamers 4)).run plainKeys (Pair.startsWithRoom_ok 1) hrun
  refine ⟨net, hreach, ?_, no_mutual_stall plainKeys 4 1 hreach⟩
  rw [Prod.mk.injEq] at hwaits
  intro s
  cases s with
  | left => exact hwaits.1
  | right => exact hwaits.2

/-- What the two nodes do by themselves. -/
def Act.Progress {K : Type} : Act K → Prop
  | .load _ _ _ _ _ => False
  | .timeout _ _ => False
  | _ => True

/-- The call waits for a reply that has not come. -/
def RemoteCall.unanswered (c : RemoteCall) : Bool :=
  (match c.phase with
    | .awaitReply => true
    | _ => false)
  && c.reply.isNone

section Stuck

variable {K : Type} [DecidableEq K] (I : Interpreter K) {capacity : Nat} {st : Station K}

/-- A call that waits for its reply neither sends nor goes on. -/
theorem Station.unanswered_stuck (hcalls : ∀ c ∈ st.node.calls, c.unanswered) (i : Nat) :
    st.offer I (.call i) = none ∧ st.go I i = none := by
  cases hc : st.node.calls[i]? with
  | none => simp [Station.offer, Station.go, Station.upcoming, Node.advance, hc]
  | some c =>
    have hun := hcalls c (List.mem_of_getElem? hc)
    simp only [RemoteCall.unanswered, Bool.and_eq_true, Option.isNone_iff_eq_none] at hun
    obtain ⟨hphase, hreply⟩ := hun
    cases hp : c.phase with
    | awaitReply =>
      simp [Station.offer, Station.go, Station.upcoming, Node.advance, hc, hp, hreply]
    | _ => simp [hp] at hphase

/-- In a stall whose calls have no reply yet, nobody goes on. -/
theorem Stalled.stuck {net : Pair K} (h : Stalled capacity net)
    (hcalls : ∀ s, ∀ c ∈ (net s).node.calls, c.unanswered) (e : Act K) (he : e.Progress) :
    net.step I capacity e = none := by
  have hslot : ∀ s, Task.reader ∈ (net s).tasks ∧ (net s).mux.slots.available = 0 := by
    intro s
    have hs := (h s).1
    simp only [Station.waitsForSlot, Bool.and_eq_true, decide_eq_true_eq] at hs
    exact ⟨hs.1.2, hs.2⟩
  have hsend : ∀ s, ∃ reqId m rest, (net s).node.handler = .send reqId m rest := by
    intro s
    have hs := (h s).1
    simp only [Station.waitsForSlot, Bool.and_eq_true] at hs
    cases hh : (net s).node.handler with
    | send reqId m rest => exact ⟨reqId, m, rest, rfl⟩
    | _ => simp [hh] at hs
  have hwriter : ∀ s, ∃ stream m, (net s).mux.writer = .sending stream m := by
    intro s
    have hs := (h s).2
    simp only [Station.waitsForRoom, Bool.and_eq_true] at hs
    cases hw : (net s).mux.writer with
    | sending stream m => exact ⟨stream, m, rfl⟩
    | _ => simp [hw] at hs
  have hfull : ∀ s, capacity ≤ (net s).link.length := by
    intro s
    have hs := (h s).2
    simp only [Station.waitsForRoom, Bool.and_eq_true, decide_eq_true_eq] at hs
    exact hs.2
  cases e with
  | load => exact he.elim
  | timeout => exact he.elim
  | offer s t =>
    cases t with
    | call i => simp [Pair.step, (Station.unanswered_stuck I (hcalls s) i).1]
    | reader =>
      simp only [Pair.step, Station.offer, (hslot s).1, if_true]
      split <;> rfl
  | resume s i =>
    cases hres : (net s).resume I i with
    | none => simp [Pair.step, hres]
    | some st' =>
      obtain ⟨_, _, havail, _⟩ := Station.resume_cases I hres
      rw [(hslot s).2] at havail
      omega
  | go s i => simp [Pair.step, (Station.unanswered_stuck I (hcalls s) i).2]
  | serve s sh =>
    obtain ⟨reqId, m, rest, hh⟩ := hsend s
    simp [Pair.step, Node.serve, Handler.serve, hh]
  | wake s =>
    obtain ⟨stream, m, hw⟩ := hwriter s
    simp [Pair.step, Station.wake, ChannelMux.step, hw]
  | write s =>
    obtain ⟨stream, m, hw⟩ := hwriter s
    simp [Pair.step, Station.write, hw, hfull s]
  | read s now =>
    obtain ⟨reqId, m, rest, hh⟩ := hsend s
    simp [Pair.step, Pair.read, hh]

end Stuck

/-- One slot each and room for one message each way: the headers fill the
transport, the first chunks the slots, and neither handler returns to
read what the other has written. -/
theorem both_stream_stalls :
    ∃ net : Pair (Option String ⊕ Int), Pair.Reachable plainKeys 1 1 (fun _ _ _ => True) net ∧
      (∀ s, (net s).link ≠ []) ∧ Stalled 1 net ∧
      ∀ e : Act (Option String ⊕ Int), e.Progress → net.step plainKeys 1 e = none := by
  have hrun : ((streamers 1).run plainKeys 1 (fun _ _ => true) crossing).map (fun net =>
      [Side.left, Side.right].all (fun s =>
        !(net s).link.isEmpty && ((net s).waitsForSlot && (net s).waitsForRoom 1)
          && (net s).node.calls.all RemoteCall.unanswered)) = some true := by
    decide +kernel
  obtain ⟨net, hrun, hall⟩ := Option.map_eq_some_iff.mp hrun
  have hreach : Pair.Reachable plainKeys 1 1 (fun _ _ _ => True) net :=
    (Pair.Reachable.start (fresh_streamers 1)).run plainKeys (fun _ _ _ _ => trivial) hrun
  have hside : ∀ s, (net s).link ≠ [] ∧ ((net s).waitsForSlot ∧ (net s).waitsForRoom 1) ∧
      ∀ c ∈ (net s).node.calls, c.unanswered := by
    intro s
    rw [List.all_eq_true] at hall
    have hs := hall s (by cases s <;> simp)
    simp only [Bool.and_eq_true, List.all_eq_true, Bool.not_eq_true', List.isEmpty_eq_false_iff]
      at hs
    exact ⟨hs.1.1, hs.1.2, hs.2⟩
  have hstalled : Stalled 1 net := fun s => (hside s).2.1
  exact ⟨net, hreach, fun s => (hside s).1, hstalled,
    hstalled.stuck plainKeys (fun s => (hside s).2.2)⟩

end Memnode.Replication
