/-
Memnode.Replication.Replies — a call returns what its reply says.

A reply is handled by a read loop, which resolves a future; the call
that waits for it goes on later, and may still be inside `send_to` at
that time. `store_remote` and `load_remote` keep hold of the future they
registered, so nothing is lost in between. `free_remote` looks its
future up in `_pending` once `send_to` has returned, and a reply that
came before is gone from there: the call waits for another one
(`reply_not_lost`, `early_freed_lost`).

  §1 what a step can do to one call;
  §2 a call that has what it needs (`Settled`);
  §3 single-frame replies;
  §4 chunked replies (`Arrives`).
-/
import Memnode.Replication.CleanUp

namespace Memnode.Replication

open Lib Blocks

variable {K : Type} [DecidableEq K] {I : Interpreter K}

/-- What a call makes of a reply that opened no collector. -/
def outcomeOf : Ask → Message → Returned
  | .store, reply => .result (storeResult reply)
  | .load, reply =>
      .result (if announcesChunks reply then .failed .noCollector else loadResult reply)
  | .free, reply => .freed ((reply.get "freed").getD (.bool false)).truthy

/-- What `load_remote` makes of its collector. -/
def collectedResult : Except RemoteFailure Bytes → Result
  | .ok data => .loaded (some data)
  | .error e => .failed e

namespace Hub

variable {hub hub' : Hub K} {e : Event K} {i : Nat} {o : Outgoing}

/-! ## §1 One call -/

/-- Call `i` neither times out nor finds its peer gone, and no exception
leaves it. -/
def Timely (i : Nat) (e : Event K) : Prop :=
  e ≠ .expire i ∧ (∀ header, e ≠ .lost i header) ∧ e ≠ .raise i

/-- Left alone, call `i` returns `r`: its own next steps lead there. -/
inductive Returns (I : Interpreter K) (i : Nat) (r : Returned) : Hub K → Prop where
  | ended {hub : Hub K} {o : Outgoing} (ho : hub.calls[i]? = some o) (hover : o.stand = .over r) :
      Returns I i r hub
  | out {hub hub' : Hub K} (hstep : hub.step I (.out i) = some hub') (h : Returns I i r hub') :
      Returns I i r hub
  | go {hub hub' : Hub K} (hstep : hub.step I (.go i) = some hub') (h : Returns I i r hub') :
      Returns I i r hub

/-- A timely event is a step of the call, a message, or none of its
business. -/
theorem step_call (ho : hub.calls[i]? = some o) (htimely : Timely i e)
    (hstep : hub.step I e = some hub') :
    (e = .out i ∧ o.stand = .sending ∧ hub' = hub.out I i o) ∨
      (e = .go i ∧ hub.go I i o = some hub') ∨
      (∃ peer msg now, e = .receive peer msg now ∧ hub' = hub.receive I peer msg now) ∨
      hub'.calls[i]? = some o := by
  have hmove := step_moves hstep
  cases hact : e.acts with
  | some j =>
    by_cases hij : j = i
    · subst hij
      cases e with
      | out j =>
        cases hact
        simp only [step, ho] at hstep
        split at hstep
        · rename_i hs
          exact Or.inl ⟨rfl, hs, (Option.some.inj hstep).symm⟩
        · cases hstep
      | go j =>
        cases hact
        obtain ⟨x, hx, hgo⟩ := Option.bind_eq_some_iff.mp hstep
        obtain rfl := Option.some.inj (ho.symm.trans hx)
        exact Or.inr (Or.inl ⟨rfl, hgo⟩)
      | expire j =>
        cases hact
        exact absurd rfl htimely.1
      | lost j header =>
        cases hact
        exact absurd rfl (htimely.2.1 header)
      | raise j =>
        cases hact
        exact absurd rfl htimely.2.2
      | _ => cases hact
    · obtain ⟨_, _, hadvanced⟩ := hmove.advanced hact
      exact Or.inr (Or.inr (Or.inr ((hadvanced.other hij).trans ho)))
  | none =>
    cases hmove with
    | called =>
      have hlt : i < hub.calls.length := (List.getElem?_eq_some_iff.mp ho).1
      exact Or.inr (Or.inr (Or.inr (by rw [List.getElem?_append_left hlt, ho])))
    | received _ msg now => exact Or.inr (Or.inr (Or.inl ⟨_, msg, now, rfl, rfl⟩))
    | finished he => cases hact.symm.trans he
    | out | pulling | abandoned => cases hact
    | _ => exact Or.inr (Or.inr (Or.inr ho))

/-- A call that is over returns nothing else. -/
theorem Returns.over {r r' : Returned} (h : hub.Returns I i r) (ho : hub.calls[i]? = some o)
    (hover : o.stand = .over r') : r = r' := by
  cases h with
  | ended ho' hover' =>
    obtain rfl := Option.some.inj (ho.symm.trans ho')
    exact Stand.over.inj (hover'.symm.trans hover)
  | out hstep => simp [step, ho, hover] at hstep
  | go hstep => simp [step, ho, Hub.go, hover] at hstep

/-- The own steps of a call, as equations. -/
theorem step_out (ho : hub.calls[i]? = some o) (hs : o.stand = .sending) :
    hub.step I (.out i) = some (hub.out I i o) := by
  simp only [step, ho, hs]

theorem step_go (ho : hub.calls[i]? = some o) : hub.step I (.go i) = hub.go I i o := by
  simp only [step, ho, Option.bind_some]

theorem go_reply {m : Message} (hs : o.stand = .awaitReply) (hreply : o.reply = some m) :
    hub.go I i o = some (hub.onReply I i o m) := by
  simp only [Hub.go, hs, hreply, Option.map_some]

theorem out_keeps (h : o.ask ≠ .free) :
    hub.out I i o = { hub with calls := hub.calls.set i { o with stand := .awaitReply } } := by
  unfold Hub.out
  rw [if_neg (fun hfree => h hfree.1)]

/-! ## §2 A call that has what it needs -/

/-- Call `i` is over with result `r`, or has the reply, or the bytes of
the collector, that makes it return `r`. -/
inductive Settled (I : Interpreter K) (hub : Hub K) (i : Nat) : Returned → Prop where
  | ended {o : Outgoing} {r : Returned} (ho : hub.calls[i]? = some o) (hover : o.stand = .over r) :
      Settled I hub i r
  | reply {o : Outgoing} {m : Message} (ho : hub.calls[i]? = some o)
      (hstand : (o.stand = .sending ∧ o.ask ≠ .free) ∨ o.stand = .awaitReply)
      (hreply : o.reply = some m)
      (hplain : o.ask = .load → announcesChunks m = true →
        hub.coordinator.pullFutures.get (I.strKey o.reqId) = none) :
      Settled I hub i (outcomeOf o.ask m)
  | pull {o : Outgoing} {m : Message} {res : Except RemoteFailure Bytes}
      (ho : hub.calls[i]? = some o) (hask : o.ask = .load) (hreply : o.reply = some m)
      (hchunks : announcesChunks m = true) (hpull : o.pull = some res)
      (hstand : ((o.stand = .sending ∨ o.stand = .awaitReply) ∧
        hub.coordinator.pullFutures.get (I.strKey o.reqId) = some i) ∨ o.stand = .awaitPull i) :
      Settled I hub i (.result (collectedResult res))

theorem finish_over (ho : hub.calls[i]? = some o) (r : Returned) :
    ∃ o', (hub.finish I i o r).calls[i]? = some o' ∧ o'.stand = .over r :=
  ⟨_, List.getElem?_set_self (List.getElem?_eq_some_iff.mp ho).1, rfl⟩

/-- A reply that opened no collector ends the call. -/
theorem onReply_eq {m : Message}
    (hplain : o.ask = .load → announcesChunks m = true →
      hub.coordinator.pullFutures.get (I.strKey o.reqId) = none) :
    hub.onReply I i o m = hub.finish I i o (outcomeOf o.ask m) := by
  unfold onReply
  cases hask : o.ask with
  | store => rfl
  | free => rfl
  | load =>
    by_cases hchunks : announcesChunks m = true
    · simp only [hchunks, if_true, hplain hask hchunks, outcomeOf]
    · simp only [hchunks, outcomeOf, Bool.false_eq_true, if_false]

/-- One that opened a collector makes the call wait for it. -/
theorem onReply_pull {m : Message} (hask : o.ask = .load) (hchunks : announcesChunks m = true)
    (hf : hub.coordinator.pullFutures.get (I.strKey o.reqId) = some i) :
    hub.onReply I i o m
      = { hub with calls := hub.calls.set i { o with stand := .awaitPull i } } := by
  simp only [onReply, hask, hchunks, if_true, hf]

/-- A call whose collector is done ends. -/
theorem go_pull {res : Except RemoteFailure Bytes} (ho : hub.calls[i]? = some o)
    (hs : o.stand = .awaitPull i) (hpull : o.pull = some res) :
    hub.go I i o = some (hub.finish I i o (.result (collectedResult res))) := by
  unfold Hub.go
  cases res with
  | ok data => simp [hs, ho, hpull, collectedResult]
  | error err => simp [hs, ho, hpull, collectedResult]

/-- A request that has its reply gets no collector any more. -/
theorem Linked.collector_none (h : hub.Linked I) (hmove : hub.Move I e hub')
    (ho : hub.calls[i]? = some o) {m : Message} (hreply : o.reply = some m)
    (hnone : hub.coordinator.pullFutures.get (I.strKey o.reqId) = none) :
    hub'.coordinator.pullFutures.get (I.strKey o.reqId) = none := by
  rw [Option.eq_none_iff_forall_ne_some]
  intro f hf
  rcases hmove.collector_get hf with hold | ⟨_, _, _, _, _, hopens⟩
  · rw [hnone] at hold
    cases hold
  · obtain ⟨⟨x, hx, hkey⟩, hpending⟩ := h.pending hopens.pending
    obtain rfl := h.distinct hx ho (I.strKey_injective hkey)
    rw [hpending o ho] at hreply
    cases hreply

omit [DecidableEq K] in
theorem getElem?_set_call (ho : hub.calls[i]? = some o) (o' : Outgoing) :
    (hub.calls.set i o')[i]? = some o' :=
  List.getElem?_set_self (List.getElem?_eq_some_iff.mp ho).1

theorem Settled.step_over {r : Returned} (ho : hub.calls[i]? = some o) (hover : o.stand = .over r)
    (htimely : Timely i e) (hstep : hub.step I e = some hub') : hub'.Settled I i r := by
  rcases step_call ho htimely hstep with ⟨_, hs, _⟩ | ⟨_, hgo⟩ | ⟨peer, msg, now, _, rfl⟩ | hsame
  · rw [hover] at hs
    cases hs
  · simp only [Hub.go, hover] at hgo
    cases hgo
  · exact .ended (by rw [calls_receive, ho]; rfl) ((o.same_settle _).stand.trans hover)
  · exact .ended hsame hover

theorem Settled.step_reply (hlinked : hub.Linked I) {m : Message} (ho : hub.calls[i]? = some o)
    (hstand : (o.stand = .sending ∧ o.ask ≠ .free) ∨ o.stand = .awaitReply)
    (hreply : o.reply = some m)
    (hplain : o.ask = .load → announcesChunks m = true →
      hub.coordinator.pullFutures.get (I.strKey o.reqId) = none)
    (htimely : Timely i e) (hstep : hub.step I e = some hub') :
    hub'.Settled I i (outcomeOf o.ask m) := by
  have hplain' : o.ask = .load → announcesChunks m = true →
      hub'.coordinator.pullFutures.get (I.strKey o.reqId) = none :=
    fun hask hchunks => hlinked.collector_none (step_moves hstep) ho hreply (hplain hask hchunks)
  rcases step_call ho htimely hstep with ⟨_, hs, rfl⟩ | ⟨_, hgo⟩ | ⟨peer, msg, now, _, rfl⟩ | hsame
  · -- not `free_remote`, which would look for its future again
    have hask : o.ask ≠ .free := by
      rcases hstand with ⟨_, hask⟩ | hawait
      · exact hask
      · rw [hs] at hawait
        cases hawait
    rw [out_keeps hask]
    exact .reply (o := { o with stand := .awaitReply }) (getElem?_set_call ho _) (Or.inr rfl) hreply
      hplain
  · rcases hstand with ⟨hs, _⟩ | hs
    · simp only [Hub.go, hs] at hgo
      cases hgo
    · rw [go_reply hs hreply, onReply_eq hplain] at hgo
      obtain rfl := Option.some.inj hgo
      obtain ⟨o', ho', hover⟩ := finish_over (I := I) ho (outcomeOf o.ask m)
      exact .ended ho' hover
  · have hset := o.same_settle (i := i) (handleMessage I now hub.coordinator peer msg).resolved
    have hnext : (hub.receive I peer msg now).Settled I i (outcomeOf
        (Outgoing.settle i (handleMessage I now hub.coordinator peer msg).resolved o).ask m) := by
      refine .reply (by rw [calls_receive, ho]; rfl) ?_ (Outgoing.settle_reply hreply) ?_
      · rw [hset.stand, hset.ask]
        exact hstand
      · rw [hset.ask, hset.reqId]
        exact hplain'
    rwa [hset.ask] at hnext
  · exact .reply hsame hstand hreply hplain'

theorem Settled.step_pull (hlinked : hub.Linked I) {m : Message} {res : Except RemoteFailure Bytes}
    (ho : hub.calls[i]? = some o) (hask : o.ask = .load) (hreply : o.reply = some m)
    (hchunks : announcesChunks m = true) (hpull : o.pull = some res)
    (hstand : ((o.stand = .sending ∨ o.stand = .awaitReply) ∧
      hub.coordinator.pullFutures.get (I.strKey o.reqId) = some i) ∨ o.stand = .awaitPull i)
    (htimely : Timely i e) (hstep : hub.step I e = some hub') :
    hub'.Settled I i (.result (collectedResult res)) := by
  have hlive : InProgress o := by
    rcases hstand with ⟨hs | hs, _⟩ | hs <;> simp [InProgress, hs]
  -- the collector is there as long as the call is where it was
  have hkept : ∀ {o'}, hub'.calls[i]? = some o' → o'.stand = o.stand →
      ((o.stand = .sending ∨ o.stand = .awaitReply) ∧
        hub'.coordinator.pullFutures.get (I.strKey o.reqId) = some i) ∨ o.stand = .awaitPull i := by
    intro o' ho' hs'
    rcases hstand with ⟨hs, hf⟩ | hs
    · refine Or.inl ⟨hs, hlinked.collector_stays (step_moves hstep) ?_ hf⟩
      intro x hx _ r hover
      rw [ho'] at hx
      obtain rfl := Option.some.inj hx
      exact hlive r (hs'.symm.trans hover)
    · exact Or.inr hs
  rcases step_call ho htimely hstep with ⟨_, hs, rfl⟩ | ⟨_, hgo⟩ | ⟨peer, msg, now, _, rfl⟩ | hsame
  · rcases hstand with ⟨_, hf⟩ | hs'
    · rw [out_keeps (by simp [hask])]
      exact .pull (getElem?_set_call ho _) hask hreply hchunks hpull (Or.inl ⟨Or.inr rfl, hf⟩)
    · rw [hs'] at hs
      cases hs
  · rcases hstand with ⟨hs | hs, hf⟩ | hs
    · simp only [Hub.go, hs] at hgo
      cases hgo
    · rw [go_reply hs hreply, onReply_pull hask hchunks hf] at hgo
      obtain rfl := Option.some.inj hgo
      exact .pull (getElem?_set_call ho _) hask hreply hchunks hpull (Or.inr rfl)
    · rw [go_pull ho hs hpull] at hgo
      obtain rfl := Option.some.inj hgo
      obtain ⟨o', ho', hover⟩ := finish_over (I := I) ho (.result (collectedResult res))
      exact .ended ho' hover
  · have hset := o.same_settle (i := i) (handleMessage I now hub.coordinator peer msg).resolved
    have ho' : (hub.receive I peer msg now).calls[i]?
        = some (Outgoing.settle i (handleMessage I now hub.coordinator peer msg).resolved o) := by
      rw [calls_receive, ho]
      rfl
    refine .pull ho' (hset.ask.trans hask) (Outgoing.settle_reply hreply) hchunks
      (Outgoing.settle_pull hpull) ?_
    rw [hset.stand, hset.reqId]
    exact hkept ho' hset.stand
  · exact .pull hsame hask hreply hchunks hpull (hkept hsame rfl)

/-- What call `i` will return is settled for good. -/
theorem Settled.step (hlinked : hub.Linked I) {r : Returned} (h : hub.Settled I i r)
    (htimely : Timely i e) (hstep : hub.step I e = some hub') : hub'.Settled I i r := by
  cases h with
  | ended ho hover => exact step_over ho hover htimely hstep
  | reply ho hstand hreply hplain => exact step_reply hlinked ho hstand hreply hplain htimely hstep
  | pull ho hask hreply hchunks hpull hstand =>
    exact step_pull hlinked ho hask hreply hchunks hpull hstand htimely hstep

theorem Settled.run (es : List (Event K)) (hreach : Reachable I Anything hub) {r : Returned}
    (h : hub.Settled I i r) (htimely : ∀ e ∈ es, Timely i e) (hrun : hub.run I es = some hub') :
    hub'.Settled I i r := by
  induction es generalizing hub with
  | nil =>
    obtain rfl := Option.some.inj hrun
    exact h
  | cons e es ih =>
    obtain ⟨next, hstep, hrest⟩ := Option.bind_eq_some_iff.mp hrun
    refine ih (.step hreach trivial hstep) ?_ ?_ hrest
    · exact h.step hreach.linked (htimely e (List.mem_cons_self ..)) hstep
    · exact fun e' he' => htimely e' (List.mem_cons_of_mem _ he')

theorem returns_finish (ho : hub.calls[i]? = some o) (r : Returned) :
    (hub.finish I i o r).Returns I i r := by
  obtain ⟨o', ho', hover⟩ := finish_over (I := I) ho r
  exact .ended ho' hover

theorem returns_reply {m : Message} (ho : hub.calls[i]? = some o) (hs : o.stand = .awaitReply)
    (hreply : o.reply = some m)
    (hplain : o.ask = .load → announcesChunks m = true →
      hub.coordinator.pullFutures.get (I.strKey o.reqId) = none) :
    hub.Returns I i (outcomeOf o.ask m) := by
  have hstep : hub.step I (.go i) = some (hub.finish I i o (outcomeOf o.ask m)) := by
    rw [step_go ho, go_reply hs hreply, onReply_eq hplain]
  exact .go hstep (returns_finish ho _)

theorem returns_pull {res : Except RemoteFailure Bytes} (ho : hub.calls[i]? = some o)
    (hs : o.stand = .awaitPull i) (hpull : o.pull = some res) :
    hub.Returns I i (.result (collectedResult res)) := by
  have hstep : hub.step I (.go i) = some (hub.finish I i o (.result (collectedResult res))) := by
    rw [step_go ho, go_pull ho hs hpull]
  exact .go hstep (returns_finish ho _)

/-- A call that has what it needs returns, if nothing else happens. -/
theorem Settled.returns {r : Returned} (h : hub.Settled I i r) : hub.Returns I i r := by
  cases h with
  | ended ho hover => exact .ended ho hover
  | @reply o m ho hstand hreply hplain =>
    rcases hstand with ⟨hs, hask⟩ | hs
    · refine .out (step_out ho hs) ?_
      rw [out_keeps hask]
      exact returns_reply (o := { o with stand := .awaitReply }) (getElem?_set_call ho _) rfl hreply
        hplain
    · exact returns_reply ho hs hreply hplain
  | @pull o m res ho hask hreply hchunks hpull hstand =>
    -- the wait for the collector comes after the wait for the reply
    have hwait : ∀ {hub : Hub K} {o : Outgoing}, hub.calls[i]? = some o → o.ask = .load →
        o.reply = some m → o.pull = some res → o.stand = .awaitReply →
        hub.coordinator.pullFutures.get (I.strKey o.reqId) = some i →
        hub.Returns I i (.result (collectedResult res)) := by
      intro hub o ho hask hreply hpull hs hf
      refine .go (by rw [step_go ho, go_reply hs hreply]) ?_
      rw [onReply_pull hask hchunks hf]
      exact returns_pull (o := { o with stand := .awaitPull i }) (getElem?_set_call ho _) rfl hpull
    rcases hstand with ⟨hs | hs, hf⟩ | hs
    · refine .out (step_out ho hs) ?_
      rw [out_keeps (by simp [hask])]
      exact hwait (o := { o with stand := .awaitReply }) (getElem?_set_call ho _) hask hreply hpull
        rfl hf
    · exact hwait ho hask hreply hpull hs hf
    · exact returns_pull ho hs hpull

/-- A call without a reply returns nothing. -/
theorem not_returns_of_waiting (ho : hub.calls[i]? = some o) (hs : o.stand = .awaitReply)
    (hnone : o.reply = none) (r : Returned) : ¬ hub.Returns I i r := by
  intro h
  cases h with
  | ended hx hover =>
    rw [ho] at hx
    obtain rfl := Option.some.inj hx
    rw [hs] at hover
    cases hover
  | out hstep =>
    simp only [step, ho, hs] at hstep
    cases hstep
  | go hstep =>
    rw [step_go ho] at hstep
    simp only [Hub.go, hs, hnone] at hstep
    cases hstep

/-- Nor does one that has to wait for a reply once its request is out. -/
theorem not_returns_of_sending (ho : hub.calls[i]? = some o) (hs : o.stand = .sending)
    (hnone : o.reply = none ∨
      (o.ask = .free ∧ hub.coordinator.pending.get (I.strKey o.reqId) = none)) (r : Returned) :
    ¬ hub.Returns I i r := by
  intro h
  cases h with
  | ended hx hover =>
    rw [ho] at hx
    obtain rfl := Option.some.inj hx
    rw [hs] at hover
    cases hover
  | out hstep hrest =>
    rw [step_out ho hs] at hstep
    obtain rfl := Option.some.inj hstep
    unfold Hub.out at hrest
    split at hrest
    · exact not_returns_of_waiting (getElem?_set_call ho _) rfl rfl r hrest
    · rename_i hfree
      rcases hnone with hnone | hnone
      · exact not_returns_of_waiting (o := { o with stand := .awaitReply }) (getElem?_set_call ho _)
          rfl hnone r hrest
      · exact hfree hnone
  | go hstep =>
    rw [step_go ho] at hstep
    simp only [Hub.go, hs] at hstep
    cases hstep

/-! ## §3 Single-frame replies -/

end Hub

section Reply

variable {now : Rat} {c : Coordinator K} {peer : String} {msg : Message} {k : K} {f : Nat}

theorem Replies.resolves (h : Replies I now c msg k f) (peer : String) :
    (f, .reply msg) ∈ (handleMessage I now c peer msg).resolved := by
  rcases handled_pending I now c peer msg with ⟨heq, _⟩ | ⟨k', f', ha, _, hmem⟩
  · have hnone : (handleMessage I now c peer msg).coordinator.pending.get k = none := h.changes
    rw [heq, h.pending] at hnone
    cases hnone
  · obtain rfl : k' = k := Option.some.inj (ha.key.symm.trans h.key)
    obtain rfl : f' = f := Option.some.inj (ha.pending.symm.trans h.pending)
    exact hmem

end Reply

namespace Hub

variable {hub hub' : Hub K} {e : Event K} {i : Nat} {o : Outgoing}

/-- The reply of a call that had none. -/
theorem settle_reply_of_replies {peer : String} {msg : Message} {now : Rat} {k : K}
    (hnone : o.reply = none) (h : Replies I now hub.coordinator msg k i) :
    (Outgoing.settle i (handleMessage I now hub.coordinator peer msg).resolved o).reply
      = some msg := by
  obtain ⟨m, hm⟩ := Outgoing.settle_replied (o := o) (h.resolves peer)
  rcases Outgoing.of_settle_reply hm with hold | hmem
  · rw [hnone] at hold
    cases hold
  · rw [hm, (handled_resolved hmem).1]

/-- No chunked transfer has started for call `i`. -/
structure NothingPulled (I : Interpreter K) (hub : Hub K) (i : Nat) (o : Outgoing) : Prop where
  collector : hub.coordinator.pullFutures.get (I.strKey o.reqId) = none
  buffer : ∀ k b, hub.coordinator.buffers.get k = some b → b.mode ≠ .pull i
  pull : o.pull = none
  stand : ∀ f, o.stand ≠ .awaitPull f

/-- None has for a load without a reply. -/
def Unanswered (I : Interpreter K) (hub : Hub K) : Prop :=
  ∀ {i : Nat} {o : Outgoing}, hub.calls[i]? = some o → o.ask = .load → o.reply = none →
    hub.NothingPulled I i o

theorem NothingPulled.settle_pull (h : hub.NothingPulled I i o) (peer : String) (msg : Message)
    (now : Rat) :
    (Outgoing.settle i (handleMessage I now hub.coordinator peer msg).resolved o).pull = none := by
  rw [Outgoing.settle_pull_of_replies, h.pull]
  intro r hr
  have hfrom := handled_resolved hr
  cases r with
  | reply m => exact ⟨m, rfl⟩
  | pulled data =>
    obtain ⟨k, b, _, hc, hmode, _⟩ := hfrom
    exact absurd hmode (h.buffer k b hc.buffer)
  | pullFailed err =>
    obtain ⟨k, b, ht, hmode⟩ := hfrom
    exact absurd hmode (h.buffer k b ht.buffer)

/-- A message that opens a collector for a call is its reply. -/
theorem Linked.reply_of_opens (h : hub.Linked I) {peer : String} {msg : Message} {now : Rat} {k : K}
    (ho : hub.calls[i]? = some o) (hopens : OpensPull I now hub.coordinator msg k i) :
    (Outgoing.settle i (handleMessage I now hub.coordinator peer msg).resolved o).reply
      = some msg :=
  settle_reply_of_replies ((h.pending hopens.pending).2 o ho)
    ⟨hopens.toAnswers, fun _ => hopens.collected⟩

theorem NothingPulled.receive (h : hub.NothingPulled I i o) (hlinked : hub.Linked I)
    (ho : hub.calls[i]? = some o) {peer : String} {msg : Message} {now : Rat}
    (hnone : (Outgoing.settle i (handleMessage I now hub.coordinator peer msg).resolved o).reply
      = none) :
    (hub.receive I peer msg now).NothingPulled I i
      (Outgoing.settle i (handleMessage I now hub.coordinator peer msg).resolved o) := by
  have hset := o.same_settle (i := i) (handleMessage I now hub.coordinator peer msg).resolved
  have hclosed : ∀ {k}, ¬ OpensPull I now hub.coordinator msg k i := by
    intro k hopens
    rw [hlinked.reply_of_opens ho hopens] at hnone
    cases hnone
  refine ⟨?_, ?_, h.settle_pull peer msg now, ?_⟩
  · rw [hset.reqId, Option.eq_none_iff_forall_ne_some]
    intro f hf
    rcases handled_pullFutures hf with hold | hopens
    · rw [h.collector] at hold
      cases hold
    · obtain ⟨x, hx, hkey⟩ := (hlinked.pending hopens.pending).1
      obtain rfl := hlinked.distinct hx ho (I.strKey_injective hkey)
      exact hclosed hopens
  · refine handled_buffers (P := fun _ b => b.mode ≠ .pull i) h.buffer ?_ ?_ ?_
    · intro k f hopens hmode
      cases hmode
      exact hclosed hopens
    · intro k _ hmode
      cases hmode
    · intro k b chunk _ _ _ hb
      exact hb
  · rw [hset.stand]
    exact h.stand

/-- An event that is not a message starts no transfer. -/
theorem NothingPulled.quiet {o' : Outgoing} (h : hub.NothingPulled I i o) (hmove : hub.Move I e hub')
    (hquiet : hub.Quiet hub') (hother : ∀ peer msg now, hub' ≠ hub.receive I peer msg now)
    (ho : hub.calls[i]? = some o) (ho' : hub'.calls[i]? = some o') :
    hub'.NothingPulled I i o' := by
  obtain ⟨x, hx, hkept⟩ := hquiet.calls ho
  rw [ho'] at hx
  obtain rfl := Option.some.inj hx
  refine ⟨?_, fun k b hb => h.buffer k b (hquiet.buffer_get hb), hkept.pull.trans h.pull, ?_⟩
  · rw [hkept.reqId, Option.eq_none_iff_forall_ne_some]
    intro f hf
    rcases hmove.collector_get hf with hold | ⟨peer, msg, now, _, heq, _⟩
    · rw [h.collector] at hold
      cases hold
    · exact hother peer msg now heq
  · intro f hs
    rcases hmove.stand ho' with ⟨y, hy, _, heq⟩ | heq | heq | ⟨y, _, hy, rfl, _, hf⟩ | ⟨y, _, _, rfl, _⟩
    · rw [ho] at hy
      obtain rfl := Option.some.inj hy
      exact h.stand f (heq ▸ hs)
    · rw [heq] at hs
      cases hs
    · rw [heq] at hs
      cases hs
    · rw [ho] at hy
      obtain rfl := Option.some.inj hy
      rw [h.collector] at hf
      cases hf
    · cases hs

theorem Unanswered.move (h : hub.Unanswered I) (hlinked : hub.Linked I)
    (hmove : hub.Move I e hub') : hub'.Unanswered I := by
  intro i o' ho' hask hnone
  by_cases hmsg : ∃ peer msg now, hub' = hub.receive I peer msg now
  · obtain ⟨peer, msg, now, rfl⟩ := hmsg
    rw [calls_receive] at ho'
    obtain ⟨o, ho, rfl⟩ := Option.map_eq_some_iff.mp ho'
    have hset := o.same_settle (i := i) (handleMessage I now hub.coordinator peer msg).resolved
    have hold : o.reply = none := by
      rw [Option.eq_none_iff_forall_ne_some]
      intro m hm
      rw [Outgoing.settle_reply hm] at hnone
      cases hnone
    exact (h ho (hset.ask ▸ hask) hold).receive hlinked ho hnone
  · have hother : ∀ peer msg now, hub' ≠ hub.receive I peer msg now :=
      fun peer msg now heq => hmsg ⟨peer, msg, now, heq⟩
    rcases hmove.quiet with ⟨peer, msg, now, _, heq⟩ | hquiet
    · exact absurd heq (hother peer msg now)
    · rcases hmove.earlier ho' with ⟨o, ho, hlater⟩ | ⟨hi, hnew, _, hpull, hs, _⟩
      · have hold : o.reply = none := by
          rw [Option.eq_none_iff_forall_ne_some]
          intro m hm
          rw [hlater.reply (by simp [← hlater.ask, hask]) m hm] at hnone
          cases hnone
        exact (h ho (hlater.ask ▸ hask) hold).quiet hmove hquiet hother ho ho'
      · refine ⟨?_, ?_, hpull, by simp [hs]⟩
        · rw [Option.eq_none_iff_forall_ne_some]
          intro f hf
          rcases hmove.collector_get hf with hold | ⟨peer, msg, now, _, heq, _⟩
          · obtain ⟨x, hx, hkey⟩ := hlinked.pullFutures hold
            exact hnew x (List.mem_of_getElem? hx) (I.strKey_injective hkey)
          · exact hother peer msg now heq
        · -- a buffer of an earlier call has an earlier number
          intro k b hb hmode
          obtain ⟨x, hx, _⟩ := hlinked.buffers (hquiet.buffer_get hb) hmode
          have hlt : i < hub.calls.length := (List.getElem?_eq_some_iff.mp hx).1
          omega

theorem Reachable.unanswered {ok : Hub K → Event K → Prop} (h : Reachable I ok hub) :
    hub.Unanswered I := by
  induction h with
  | start hfresh =>
    intro i o ho
    simp [hfresh.calls] at ho
  | step hreach _ hstep ih => exact ih.move hreach.linked (step_moves hstep)

/-- A call that waits for a reply has none, and is not past it, unless it
is a free that raised. -/
theorem Reachable.pending_call {ok : Hub K → Event K → Prop} (h : Reachable I ok hub)
    (ho : hub.calls[i]? = some o)
    (hpending : hub.coordinator.pending.get (I.strKey o.reqId) = some i) :
    o.reply = none ∧ (o.stand = .sending ∨ o.stand = .awaitReply ∨
      (o.ask = .free ∧ o.stand = .over .raised)) := by
  have hnone := (h.linked.pending hpending).2 o ho
  refine ⟨hnone, ?_⟩
  cases hs : o.stand with
  | sending => exact Or.inl rfl
  | awaitReply => exact Or.inr (Or.inl rfl)
  | awaitPull f => exact absurd hs ((h.unanswered ho (h.waiting ho hs).2 hnone).stand f)
  | «over» r =>
    by_cases hraised : o.ask = .free ∧ r = .raised
    · exact Or.inr (Or.inr ⟨hraised.1, by rw [hraised.2]⟩)
    · rw [h.cleared.pending ho hs hraised] at hpending
      cases hpending

/-- What a message leaves of a call it answers, if the collection of
stale buffers lets it through. -/
theorem Reachable.settled_reply (h : Reachable I Anything hub) (ho : hub.calls[i]? = some o)
    {peer : String} {msg : Message} {now : Rat}
    (hr : Replies I now hub.coordinator msg (I.strKey o.reqId) i)
    (hfree : o.ask = .free → o.stand = .awaitReply)
    (hplain : ¬ (o.ask = .load ∧ msg.type = .blockData ∧ isChunked msg = true)) :
    (hub.receive I peer msg now).Settled I i (outcomeOf o.ask msg) := by
  obtain ⟨hnone, hstand⟩ := h.pending_call ho hr.pending
  have hset := o.same_settle (i := i) (handleMessage I now hub.coordinator peer msg).resolved
  have hnext : (hub.receive I peer msg now).Settled I i (outcomeOf
      (Outgoing.settle i (handleMessage I now hub.coordinator peer msg).resolved o).ask msg) := by
    refine .reply (by rw [calls_receive, ho]; rfl) ?_ (settle_reply_of_replies hnone hr) ?_
    · rw [hset.stand, hset.ask]
      rcases hstand with hs | hs | ⟨hask, hs⟩
      · refine Or.inl ⟨hs, fun hask => ?_⟩
        cases hs.symm.trans (hfree hask)
      · exact Or.inr hs
      · cases hs.symm.trans (hfree hask)
    · intro hask _
      rw [hset.ask] at hask
      rw [hset.reqId, Option.eq_none_iff_forall_ne_some]
      intro f hf
      rcases handled_pullFutures hf with hold | hopens
      · rw [(h.unanswered ho hask hnone).collector] at hold
        cases hold
      · exact hplain ⟨hask, hopens.data, hopens.chunked⟩
  rwa [hset.ask] at hnext

/-- The message is lost if it is the header of a chunked reply and the
collection of stale buffers raises. -/
theorem Reachable.not_returns_of_raised (h : Reachable I Anything hub)
    (ho : hub.calls[i]? = some o) {peer : String} {msg : Message} {now : Rat}
    (ha : Answers I hub.coordinator msg (I.strKey o.reqId) i)
    (hraised : ¬ Replies I now hub.coordinator msg (I.strKey o.reqId) i) (hlive : InProgress o)
    (r : Returned) : ¬ (hub.receive I peer msg now).Returns I i r := by
  obtain ⟨hnone, hstand⟩ := h.pending_call ho ha.pending
  have ho' : (hub.receive I peer msg now).calls[i]?
      = some (Outgoing.settle i (handleMessage I now hub.coordinator peer msg).resolved o) := by
    rw [calls_receive, ho]
    rfl
  have hset := o.same_settle (i := i) (handleMessage I now hub.coordinator peer msg).resolved
  have hnone' : (Outgoing.settle i (handleMessage I now hub.coordinator peer msg).resolved o).reply
      = none := by
    rw [Option.eq_none_iff_forall_ne_some]
    intro m hm
    rcases Outgoing.of_settle_reply hm with hold | hmem
    · rw [hnone] at hold
      cases hold
    · obtain ⟨_, k, hr⟩ := handled_resolved hmem
      obtain rfl : k = I.strKey o.reqId := Option.some.inj (hr.key.symm.trans ha.key)
      exact hraised hr
  rcases hstand with hs | hs | ⟨_, hs⟩
  · exact not_returns_of_sending ho' (hset.stand.trans hs) (Or.inl hnone') r
  · exact not_returns_of_waiting ho' (hset.stand.trans hs) hnone' r
  · exact absurd hs (hlive _)

/-- The reply of a `free_remote` that is still sending is lost. -/
theorem not_returns_of_early (ho : hub.calls[i]? = some o) {peer : String} {msg : Message} {now : Rat}
    (hr : Replies I now hub.coordinator msg (I.strKey o.reqId) i) (hask : o.ask = .free)
    (hs : o.stand = .sending) (r : Returned) :
    ¬ (hub.receive I peer msg now).Returns I i r := by
  have ho' : (hub.receive I peer msg now).calls[i]?
      = some (Outgoing.settle i (handleMessage I now hub.coordinator peer msg).resolved o) := by
    rw [calls_receive, ho]
    rfl
  have hset := o.same_settle (i := i) (handleMessage I now hub.coordinator peer msg).resolved
  refine not_returns_of_sending ho' (hset.stand.trans hs) (Or.inr ⟨hset.ask.trans hask, ?_⟩) r
  rw [hset.reqId]
  exact hr.changes

/-! ## §4 Chunked replies -/

/-- Load `i` has the header of a chunked reply, and the buffer `b` under
its id `k`. -/
structure Collecting (I : Interpreter K) (hub : Hub K) (i : Nat) (k : K) (b : Buffer) (o : Outgoing)
    (m : Message) : Prop where
  call : hub.calls[i]? = some o
  ask : o.ask = .load
  key : I.strKey o.reqId = k
  reply : o.reply = some m
  chunks : announcesChunks m = true
  pull : o.pull = none
  stand : o.stand = .sending ∨ o.stand = .awaitReply ∨ o.stand = .awaitPull i
  buffer : hub.coordinator.buffers.get k = some b
  mode : b.mode = .pull i
  collector : hub.coordinator.pullFutures.get k = some i

/-- The chunks of a reply to call `i` are handled one after the other,
each within the declared size; what happens in between is timely and
leaves the buffer under `k` alone. -/
inductive Arrives (I : Interpreter K) (i : Nat) (k : K) : List Bytes → Hub K → Hub K → Prop where
  | last {hub hub' : Hub K} {peer : String} {msg : Message} {now : Rat} {b : Buffer} {chunk : Bytes}
      (hc : Completes I hub.coordinator msg k b chunk)
      (hstep : hub.step I (.receive peer msg now) = some hub') : Arrives I i k [chunk] hub hub'
  | chunk {hub hub₁ hub' : Hub K} {peer : String} {msg : Message} {now : Rat} {b : Buffer}
      {chunk : Bytes} {chunks : List Bytes} (hf : ChunkFor I hub.coordinator msg k b)
      (hpayload : chunkOf msg = some chunk) (hwithin : (b.add chunk).overrun I = some false)
      (hmore : isFinal msg = false) (hstep : hub.step I (.receive peer msg now) = some hub₁)
      (h : Arrives I i k chunks hub₁ hub') : Arrives I i k (chunk :: chunks) hub hub'
  | other {hub hub₁ hub' : Hub K} {e : Event K} {chunks : List Bytes} (htimely : Timely i e)
      (hleaves : ∀ peer msg now, e = .receive peer msg now →
        (∀ b, ¬ Touches I now hub.coordinator msg k b) ∧ ¬ Opens I now hub.coordinator msg k)
      (hstep : hub.step I e = some hub₁) (h : Arrives I i k chunks hub₁ hub') :
      Arrives I i k chunks hub hub'

variable {k : K} {b : Buffer} {m : Message}

theorem Collecting.live (h : hub.Collecting I i k b o m) : InProgress o := by
  rcases h.stand with hs | hs | hs <;> simp [InProgress, hs]

theorem step_receive {peer : String} {msg : Message} {now : Rat}
    (h : hub.step I (.receive peer msg now) = some hub') :
    hub.handlers peer = .idle ∧ hub' = hub.receive I peer msg now := by
  simp only [step] at h
  split at h
  · rename_i hidle
    exact ⟨hidle, (Option.some.inj h).symm⟩
  · cases h

/-- A message keeps the reply and the stand of the call. -/
theorem Collecting.receive (h : hub.Collecting I i k b o m) (hlinked : hub.Linked I) {peer : String}
    {msg : Message} {now : Rat} (hidle : hub.handlers peer = .idle) {b' : Buffer}
    (hpull : (Outgoing.settle i (handleMessage I now hub.coordinator peer msg).resolved o).pull = none)
    (hb : (handleMessage I now hub.coordinator peer msg).coordinator.buffers.get k = some b')
    (hmode : b'.mode = .pull i) :
    (hub.receive I peer msg now).Collecting I i k b'
      (Outgoing.settle i (handleMessage I now hub.coordinator peer msg).resolved o) m := by
  have hset := o.same_settle (i := i) (handleMessage I now hub.coordinator peer msg).resolved
  have ho' : (hub.receive I peer msg now).calls[i]?
      = some (Outgoing.settle i (handleMessage I now hub.coordinator peer msg).resolved o) := by
    rw [calls_receive, h.call]
    rfl
  refine ⟨ho', hset.ask.trans h.ask, (congrArg I.strKey hset.reqId).trans h.key,
    Outgoing.settle_reply h.reply, h.chunks, hpull, ?_, hb, hmode, ?_⟩
  · rw [hset.stand]
    exact h.stand
  · refine hlinked.collector_stays (.received hidle msg now) ?_ h.collector
    intro x hx _ r hover
    rw [ho'] at hx
    obtain rfl := Option.some.inj hx
    exact h.live r (hset.stand.symm.trans hover)

theorem Collecting.named (h : hub.Collecting I i k b o m) : hub.Named I k i := ⟨o, h.call, h.key⟩

/-- A message that leaves the buffer alone. -/
theorem Collecting.receive_other (h : hub.Collecting I i k b o m) (hlinked : hub.Linked I)
    {peer : String} {msg : Message} {now : Rat} (hidle : hub.handlers peer = .idle)
    (htouches : ∀ b, ¬ Touches I now hub.coordinator msg k b)
    (hopens : ¬ Opens I now hub.coordinator msg k) :
    (hub.receive I peer msg now).Collecting I i k b
      (Outgoing.settle i (handleMessage I now hub.coordinator peer msg).resolved o) m := by
  refine h.receive hlinked hidle ?_ (handled_buffer_kept h.buffer (htouches b) hopens) h.mode
  rw [Outgoing.settle_pull_of_replies, h.pull]
  intro r hr
  -- a buffer of this call is the one under its id
  have hown : ∀ {k' b'}, Touches I now hub.coordinator msg k' b' → b'.mode ≠ .pull i := by
    intro k' b' ht hmode
    obtain rfl := (hlinked.buffers ht.buffer hmode).unique h.named
    exact htouches b' ht
  have hfrom := handled_resolved hr
  cases r with
  | reply m => exact ⟨m, rfl⟩
  | pulled data =>
    obtain ⟨k', b', _, hc, hmode, _⟩ := hfrom
    exact absurd hmode (hown (.chunk hc.toChunkFor))
  | pullFailed err =>
    obtain ⟨k', b', ht, hmode⟩ := hfrom
    exact absurd hmode (hown ht)

/-- A chunk that is not the last. -/
theorem Collecting.receive_chunk (h : hub.Collecting I i k b o m) (hlinked : hub.Linked I)
    {peer : String} {msg : Message} {now : Rat} {chunk : Bytes} (hidle : hub.handlers peer = .idle)
    (hf : ChunkFor I hub.coordinator msg k b) (hpayload : chunkOf msg = some chunk)
    (hwithin : (b.add chunk).overrun I = some false) (hmore : isFinal msg = false) :
    (hub.receive I peer msg now).Collecting I i k (b.add chunk) o m := by
  have hhandled : handleMessage I now hub.coordinator peer msg
      = .ended { hub.coordinator with buffers := hub.coordinator.buffers.set k (b.add chunk) } := by
    rw [handleMessage_chunk I now peer hf hpayload, hwithin]
    simp only [hmore, Bool.false_eq_true, if_false]
  have hset : Outgoing.settle i (handleMessage I now hub.coordinator peer msg).resolved o = o := by
    rw [hhandled]
    rfl
  have hnext : (hub.receive I peer msg now).Collecting I i k (b.add chunk)
      (Outgoing.settle i (handleMessage I now hub.coordinator peer msg).resolved o) m := by
    refine h.receive hlinked hidle (by rw [hset, h.pull]) ?_ h.mode
    rw [hhandled]
    exact Dict.get_set_self ..
  rwa [hset] at hnext

/-- The last chunk settles the call. -/
theorem Collecting.receive_last (h : hub.Collecting I i k b o m) {peer : String} {msg : Message}
    {now : Rat} {chunk : Bytes} (hc : Completes I hub.coordinator msg k b chunk) :
    (hub.receive I peer msg now).Settled I i (.result (.loaded (some (b.add chunk).assemble))) := by
  have hmode : (b.add chunk).mode = .pull i := h.mode
  have hhandled : handleMessage I now hub.coordinator peer msg
      = ⟨{ hub.coordinator with buffers := hub.coordinator.buffers.erase k },
          [(i, .pulled (b.add chunk).assemble)], .idle⟩ := by
    rw [handleMessage_chunk I now peer hc.toChunkFor hc.payload, hc.within]
    simp only [hc.final, if_true, completeTransfer, hmode]
  have hcall : (hub.receive I peer msg now).calls[i]?
      = some { o with pull := some (.ok (b.add chunk).assemble) } := by
    rw [calls_receive, h.call, hhandled]
    simp [Outgoing.settle, Outgoing.resolve, h.pull]
  have hcollector : (hub.receive I peer msg now).coordinator.pullFutures.get k = some i := by
    simp only [Hub.receive, hhandled]
    exact h.collector
  have hstand : ((o.stand = .sending ∨ o.stand = .awaitReply) ∧
      (hub.receive I peer msg now).coordinator.pullFutures.get (I.strKey o.reqId) = some i) ∨
        o.stand = .awaitPull i := by
    rw [h.key]
    rcases h.stand with hs | hs | hs
    · exact Or.inl ⟨Or.inl hs, hcollector⟩
    · exact Or.inl ⟨Or.inr hs, hcollector⟩
    · exact Or.inr hs
  have hdone : (hub.receive I peer msg now).Settled I i
      (.result (collectedResult (.ok (b.add chunk).assemble))) :=
    .pull hcall h.ask h.reply h.chunks rfl hstand
  exact hdone

/-- Only the end of its load and messages remove the buffer of a pull. -/
theorem Linked.buffer_stays (h : hub.Linked I) (hmove : hub.Move I e hub')
    (hother : ∀ peer msg now, e ≠ .receive peer msg now) (hnamed : hub.Named I k i)
    (hstays : ∀ o, hub'.calls[i]? = some o → InProgress o)
    (hb : hub.coordinator.buffers.get k = some b) : hub'.coordinator.buffers.get k = some b := by
  cases hmove with
  | out =>
    unfold Hub.out
    split <;> exact hb
  | @finished _ j x _ hx r =>
    unfold finish cleanUp
    split
    · rw [Dict.get_erase, if_neg]
      · exact hb
      · intro hk
        obtain ⟨y, hy, hkey⟩ := hnamed
        obtain rfl := h.distinct hy hx (I.strKey_injective (hkey.trans hk))
        exact hstays _ (getElem?_set_call hx _) r rfl
    · exact hb
  | @received peer _ msg now => exact absurd rfl (hother peer msg now)
  | _ => exact hb

/-- An event that is not a message to the collector. -/
theorem Collecting.other (h : hub.Collecting I i k b o m) (hlinked : hub.Linked I)
    (htimely : Timely i e)
    (hleaves : ∀ peer msg now, e = .receive peer msg now →
      (∀ b, ¬ Touches I now hub.coordinator msg k b) ∧ ¬ Opens I now hub.coordinator msg k)
    (hstep : hub.step I e = some hub') : ∃ o', hub'.Collecting I i k b o' m := by
  by_cases hmsg : ∃ peer msg now, e = .receive peer msg now
  · obtain ⟨peer, msg, now, rfl⟩ := hmsg
    obtain ⟨htouches, hopens⟩ := hleaves peer msg now rfl
    obtain ⟨hidle, rfl⟩ := step_receive hstep
    exact ⟨_, h.receive_other hlinked hidle htouches hopens⟩
  · rcases step_call h.call htimely hstep with
      ⟨_, hs, rfl⟩ | ⟨_, hgo⟩ | ⟨peer, msg, now, heq, _⟩ | hsame
    · rw [out_keeps (by simp [h.ask])]
      exact ⟨{ o with stand := .awaitReply }, getElem?_set_call h.call _, h.ask, h.key, h.reply,
        h.chunks, h.pull, Or.inr (Or.inl rfl), h.buffer, h.mode, h.collector⟩
    · rcases h.stand with hs | hs | hs
      · simp only [Hub.go, hs] at hgo
        cases hgo
      · rw [go_reply hs h.reply, onReply_pull h.ask h.chunks (h.key ▸ h.collector)] at hgo
        obtain rfl := Option.some.inj hgo
        exact ⟨{ o with stand := .awaitPull i }, getElem?_set_call h.call _, h.ask, h.key, h.reply,
          h.chunks, h.pull, Or.inr (Or.inr rfl), h.buffer, h.mode, h.collector⟩
      · simp only [Hub.go, hs, h.call, Option.bind_some, h.pull] at hgo
        cases hgo
    · exact absurd ⟨peer, msg, now, heq⟩ hmsg
    · have hstays : ∀ x, hub'.calls[i]? = some x → InProgress x := by
        intro x hx
        rw [hsame] at hx
        exact Option.some.inj hx ▸ h.live
      have hother : ∀ peer msg now, e ≠ .receive peer msg now :=
        fun peer msg now heq => hmsg ⟨peer, msg, now, heq⟩
      have hmove := step_moves hstep
      exact ⟨o, hsame, h.ask, h.key, h.reply, h.chunks, h.pull, h.stand,
        hlinked.buffer_stays hmove hother h.named hstays h.buffer, h.mode,
        hlinked.collector_stays hmove (fun x hx _ => hstays x hx) h.collector⟩

omit [DecidableEq K] in
theorem assemble_add (b : Buffer) (chunk : Bytes) : (b.add chunk).assemble = b.assemble ++ chunk := by
  simp [Buffer.add, Buffer.assemble]

/-- The chunks of a reply settle the call. -/
theorem Arrives.settled {chunks : List Bytes} (h : Arrives I i k chunks hub hub') :
    ∀ {b : Buffer} {o : Outgoing}, Reachable I Anything hub → hub.Collecting I i k b o m →
      Reachable I Anything hub' ∧
        hub'.Settled I i (.result (.loaded (some (b.assemble ++ chunks.flatten)))) := by
  induction h with
  | @last hub hub' peer msg now b chunk hc hstep =>
    intro b' o hreach hcollecting
    obtain rfl : b = b' := Option.some.inj (hc.buffer.symm.trans hcollecting.buffer)
    obtain ⟨_, rfl⟩ := step_receive hstep
    refine ⟨.step hreach trivial hstep, ?_⟩
    rw [List.flatten_singleton, ← assemble_add]
    exact hcollecting.receive_last hc
  | @chunk hub hub₁ hub' peer msg now b chunk chunks hf hpayload hwithin hmore hstep _ ih =>
    intro b' o hreach hcollecting
    obtain rfl : b = b' := Option.some.inj (hf.buffer.symm.trans hcollecting.buffer)
    obtain ⟨hidle, rfl⟩ := step_receive hstep
    rw [List.flatten_cons, ← List.append_assoc, ← assemble_add]
    exact ih (.step hreach trivial hstep)
      (hcollecting.receive_chunk hreach.linked hidle hf hpayload hwithin hmore)
  | @other hub hub₁ hub' e chunks htimely hleaves hstep _ ih =>
    intro b o hreach hcollecting
    obtain ⟨o', hnext⟩ := hcollecting.other hreach.linked htimely hleaves hstep
    exact ih (.step hreach trivial hstep) hnext

/-- The header of a chunked reply to a load. -/
theorem Reachable.collecting (h : Reachable I Anything hub) (ho : hub.calls[i]? = some o)
    (hask : o.ask = .load) {peer : String} {msg : Message} {now : Rat}
    (hopens : OpensPull I now hub.coordinator msg (I.strKey o.reqId) i) :
    (hub.receive I peer msg now).Collecting I i (I.strKey o.reqId)
      (.new (.pull i) (totalSizeOf msg) peer now)
      (Outgoing.settle i (handleMessage I now hub.coordinator peer msg).resolved o) msg := by
  obtain ⟨hnone, hstand⟩ := h.pending_call ho hopens.pending
  have hset := o.same_settle (i := i) (handleMessage I now hub.coordinator peer msg).resolved
  obtain ⟨c', rs, _, hhandled⟩ := hopens.handled peer
  refine ⟨by rw [calls_receive, ho]; rfl, hset.ask.trans hask, congrArg I.strKey hset.reqId,
    h.linked.reply_of_opens ho hopens, ?_, (h.unanswered ho hask hnone).settle_pull peer msg now,
    ?_, ?_, rfl, ?_⟩
  · have hchunked : ((msg.get "chunked").getD .nil).truthy = true := hopens.chunked
    simp [announcesChunks, hopens.data, hchunked]
  · rw [hset.stand]
    rcases hstand with hs | hs | ⟨hfree, _⟩
    · exact Or.inl hs
    · exact Or.inr (Or.inl hs)
    · cases hask.symm.trans hfree
  · simp [receive, hhandled]
  · simp [receive, hhandled]

/-- The matching reply of a call, handled at any time before the call is
over, makes it return what the reply carries, with two exceptions. A
`free_remote` that is still inside `send_to`, or has left it by an
exception, loses it. So does any call if the reply is the header of a chunked transfer and the collection of
stale buffers raises. A load with a chunked reply returns the chunks once
they have arrived. -/
theorem reply_not_lost (h : Reachable I Anything hub) (ho : hub.calls[i]? = some o) {peer : String}
    {msg : Message} {now : Rat} (hidle : hub.handlers peer = .idle)
    (ha : Answers I hub.coordinator msg (I.strKey o.reqId) i) :
    (¬ (o.ask = .load ∧ msg.type = .blockData ∧ isChunked msg = true) →
      ((∀ es hub', (∀ e ∈ es, Timely i e) → hub.run I (.receive peer msg now :: es) = some hub' →
          hub'.Returns I i (outcomeOf o.ask msg)) ↔
        (o.ask = .free → o.stand = .awaitReply) ∧
          (msg.type = .blockData ∧ isChunked msg = true →
            (gcBuffers I now hub.coordinator).2.2 = true))) ∧
      (o.ask = .load → msg.type = .blockData → isChunked msg = true →
        ((gcBuffers I now hub.coordinator).2.2 = true →
          ∀ chunks hub₁, Arrives I i (I.strKey o.reqId) chunks (hub.receive I peer msg now) hub₁ →
            ∀ es hub', (∀ e ∈ es, Timely i e) → hub₁.run I es = some hub' →
              hub'.Returns I i (.result (.loaded (some chunks.flatten)))) ∧
        ((gcBuffers I now hub.coordinator).2.2 = false →
          ∀ r, ¬ (hub.receive I peer msg now).Returns I i r)) := by
  have hstep : hub.step I (.receive peer msg now) = some (hub.receive I peer msg now) := by
    simp only [step, hidle]
  have hreach : Reachable I Anything (hub.receive I peer msg now) := .step h trivial hstep
  refine ⟨?_, ?_⟩
  · intro hplain
    refine ⟨?_, ?_⟩
    · intro hall
      have hreturns := hall [] (hub.receive I peer msg now) (by simp) (by simp [run, hstep])
      have hlive : InProgress o := by
        rcases (h.pending_call ho ha.pending).2 with hs | hs | ⟨hask, hs⟩
        · simp [InProgress, hs]
        · simp [InProgress, hs]
        · have hover := hreturns.over (o := Outgoing.settle i _ o) (by rw [calls_receive, ho]; rfl)
            ((o.same_settle _).stand.trans hs)
          rw [hask] at hover
          cases hover
      have hcollected : msg.type = .blockData ∧ isChunked msg = true →
          (gcBuffers I now hub.coordinator).2.2 = true := by
        intro hheader
        by_contra hraised
        refine h.not_returns_of_raised ho ha ?_ hlive _ hreturns
        intro hr
        exact hraised (hr.collected hheader)
      refine ⟨?_, hcollected⟩
      intro hask
      rcases (h.pending_call ho ha.pending).2 with hs | hs | ⟨_, hs⟩
      · exact absurd hreturns (not_returns_of_early ho ⟨ha, hcollected⟩ hask hs _)
      · exact hs
      · exact absurd hs (hlive _)
    · rintro ⟨hfree, hcollected⟩ es hub' htimely hrun
      simp only [run, hstep, Option.bind_some] at hrun
      exact ((h.settled_reply ho ⟨ha, hcollected⟩ hfree hplain).run es hreach htimely hrun).returns
  · intro hask hdata hchunked
    refine ⟨?_, ?_⟩
    · intro hcollected chunks hub₁ harrives es hub' htimely hrun
      have hopens : OpensPull I now hub.coordinator msg (I.strKey o.reqId) i :=
        ⟨⟨ha, hdata, hchunked⟩, hcollected⟩
      obtain ⟨hreach₁, hsettled⟩ := harrives.settled hreach (h.collecting ho hask hopens)
      exact (hsettled.run es hreach₁ htimely hrun).returns
    · intro hraised r
      have hlive : InProgress o := by
        rcases (h.pending_call ho ha.pending).2 with hs | hs | ⟨hfree, _⟩
        · simp [InProgress, hs]
        · simp [InProgress, hs]
        · cases hask.symm.trans hfree
      refine h.not_returns_of_raised ho ha ?_ hlive r
      intro hr
      rw [hr.collected ⟨hdata, hchunked⟩] at hraised
      cases hraised

/-- The answers to a store and to a free. -/
def storedReply : Message := .ofFields .blockData [("req_id", .str "r"), ("block_id", .int 7)]

def freedReply : Message := .ofFields .freed [("req_id", .str "r"), ("freed", .bool true)]

/-- A store whose reply comes while it is still sending. -/
theorem reply_not_lost_storing :
    ∃ hub, twoStripes.run plainKeys [.call "p" .store "r" "5"] = some hub ∧
      ∀ hub', hub.run plainKeys [.receive "p" storedReply 0] = some hub' →
        hub'.Returns plainKeys 0 (.result (.stored (.int 7))) := by
  have hcall : ∃ hub o, twoStripes.run plainKeys [.call "p" .store "r" "5"] = some hub ∧
      hub.calls[0]? = some o ∧ o.ask = .store ∧ o.reqId = "r" ∧ hub.handlers "p" = .idle ∧
      hub.coordinator.pending.get (plainKeys.strKey "r") = some 0 :=
    ⟨_, _, rfl, rfl, rfl, rfl, rfl, rfl⟩
  obtain ⟨hub, o, hrun, ho, hask, hid, hidle, hpending⟩ := hcall
  have hreach : Reachable plainKeys Anything hub := .run _ (.start (fresh_init _ _)) hrun
  have hnamed : reqIdOf storedReply = .str "r" := rfl
  have hanswers : Answers plainKeys hub.coordinator storedReply (plainKeys.strKey o.reqId) 0 :=
    ⟨by decide, by rw [hnamed]; simp, by rw [hid]; rfl, by rw [hid]; exact hpending⟩
  have hplain : ¬ (storedReply.type = .blockData ∧ isChunked storedReply = true) := by decide
  have hreturns := (@reply_not_lost _ _ _ hub 0 o hreach ho "p" storedReply 0 hidle hanswers).1
    (fun hload => hplain hload.2)
  refine ⟨hub, hrun, ?_⟩
  intro hub' hrun'
  have hresult := hreturns.mpr ⟨by simp [hask], fun hheader => absurd hheader hplain⟩ [] hub'
    (by simp) hrun'
  rw [hask] at hresult
  exact hresult

/-- The Freed reply is handled before `send_to` returns; the call waits
for another one until it times out. -/
theorem early_freed_lost :
    ∃ hub, twoStripes.run plainKeys
        [.call "p" .free "r" "5", .receive "p" freedReply 0, .out 0] = some hub ∧
      hub.heard = [("p", freedReply)] ∧ hub.step plainKeys (.go 0) = none ∧
      ∃ hub' o, hub.step plainKeys (.expire 0) = some hub' ∧ hub'.calls = [o] ∧
        o.stand = .over (.result (.failed (.noResponse "5"))) :=
  ⟨_, rfl, rfl, rfl, _, _, rfl, rfl, rfl⟩

end Hub

end Memnode.Replication
